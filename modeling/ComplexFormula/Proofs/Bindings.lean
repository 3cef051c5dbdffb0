import ComplexFormula.Evaluate
import ComplexFormula.Proofs.Indexing

/-!
# Evaluating by name and by position

A compiled expression evaluates either with bindings of names or with one value per declared
variable. By name, the slot values are looked up one declared name after the other, and the
first name that occurs in the tree and is unbound stops the lookup
(`Compiled.evaluate_of_unbound`). Otherwise each slot holds its bound value, or zero for a
name that neither occurs nor is bound. Since the slot of every leaf of a compiled tree has an
occurring name (`Proofs/Indexing`), only the values at such slots are read, and the value by
name is the value by position for every vector that agrees with the bindings there
(`compile_evaluates_by_name`).
-/

namespace ComplexFormula

/-- Two value vectors that agree at the slots of a tree's leaves give it the same value. -/
theorem Tree.evaluate_congr {values values' : List ComplexFloat} (t : Tree)
    (agree : ∀ leaf ∈ t.leaves, values.getD leaf.2 ⟨0, 0⟩ = values'.getD leaf.2 ⟨0, 0⟩) :
    t.evaluate values = t.evaluate values' := by
  induction t with
  | const z => rfl
  | var leaf slot => exact agree (leaf, slot) (List.mem_singleton_self _)
  | unary f arg inductionHypothesis =>
    simp only [Tree.evaluate]
    rw [inductionHypothesis agree]
  | binary op left right leftHypothesis rightHypothesis =>
    simp only [Tree.evaluate]
    rw [leftHypothesis fun leaf held => agree leaf (List.mem_append_left _ held),
      rightHypothesis fun leaf held => agree leaf (List.mem_append_right _ held)]

namespace Compiled

variable (e : Compiled) (b : Bindings)

/-- Whether a name occurs in the expression and the bindings leave it unbound. -/
def Unbound (name : String) : Bool := e.occurrences.contains name && (b.get? name).isNone

/-- A name that is bound, or that does not occur, reads its bound value or zero. -/
theorem slotValue_of_not_unbound {name : String} (bound : e.Unbound b name = false) :
    e.slotValue b name = .ok ((b.get? name).getD ⟨0, 0⟩) := by
  unfold slotValue
  cases found : b.get? name with
  | some value => rfl
  | none =>
    simp only [Unbound, found, Option.isNone_none, Bool.and_true] at bound
    simp [bound]

/-- Looking the slots up by name stops at the first occurring name that is unbound. -/
theorem mapM_slotValue_of_unbound {name : String} :
    ∀ {names : List String}, names.find? (e.Unbound b) = some name →
      names.mapM (e.slotValue b) = .error (.unboundVariable name) := by
  intro names
  induction names with
  | nil => intro found; cases found
  | cons first rest inductionHypothesis =>
    intro found
    rw [List.mapM_cons]
    cases unbound : e.Unbound b first with
    | true =>
      rw [List.find?_cons, unbound] at found
      cases found
      simp only [Unbound, Bool.and_eq_true, Option.isNone_iff_eq_none] at unbound
      simp [slotValue, unbound.1, unbound.2, bind, Except.bind]
    | false =>
      rw [List.find?_cons, unbound] at found
      rw [slotValue_of_not_unbound e b unbound, inductionHypothesis found]
      rfl

/-- Without an occurring name left unbound, the slots read the bound values, and zero for the
names that neither occur nor are bound. -/
theorem mapM_slotValue_of_bound :
    ∀ {names : List String}, names.find? (e.Unbound b) = none →
      names.mapM (e.slotValue b) = .ok (names.map fun name => (b.get? name).getD ⟨0, 0⟩) := by
  intro names
  induction names with
  | nil => intro _; rfl
  | cons first rest inductionHypothesis =>
    intro missing
    have bound : e.Unbound b first = false := by
      rw [List.find?_cons] at missing
      cases unbound : e.Unbound b first with
      | true =>
        rw [unbound] at missing
        cases missing
      | false => rfl
    rw [List.find?_cons, bound] at missing
    rw [List.mapM_cons, slotValue_of_not_unbound e b bound, inductionHypothesis missing]
    rfl

theorem evaluate_of_unbound {name : String}
    (found : e.variableNames.find? (e.Unbound b) = some name) :
    e.evaluate b = .error (.unboundVariable name) := by
  unfold evaluate
  rw [mapM_slotValue_of_unbound e b found]
  rfl

theorem evaluate_of_bound (missing : e.variableNames.find? (e.Unbound b) = none) :
    e.evaluate b =
      .ok (e.root.evaluate (e.variableNames.map fun name => (b.get? name).getD ⟨0, 0⟩)) := by
  unfold evaluate
  rw [mapM_slotValue_of_bound e b missing]
  rfl

/-- With no occurring name left unbound, every occurring declared name is bound. -/
theorem bound_of_occurs (missing : e.variableNames.find? (e.Unbound b) = none) {name : String}
    (declared : name ∈ e.variableNames) (occurs : e.occurrences.contains name = true) :
    ∃ value, b.get? name = some value := by
  have notUnbound := List.find?_eq_none.mp missing name declared
  simp only [Unbound, occurs, Bool.true_and, Option.isNone_iff_eq_none] at notUnbound
  exact Option.ne_none_iff_exists'.mp notUnbound

end Compiled

/-- A compiled expression evaluates by name as by position. -/
theorem Compiled.evaluate_eq_evaluateWith {c : Compiler} {expression : String}
    {names : List String} {e : Compiled} (compiled : c.compile expression names = .ok e)
    {b : Bindings} (missing : e.variableNames.find? (e.Unbound b) = none)
    {values : List ComplexFloat} (sameLength : values.length = e.variableNames.length)
    (agree : ∀ (slot : Nat) name, e.variableNames[slot]? = some name →
      e.occurrences.contains name = true → values[slot]? = b.get? name) :
    e.evaluate b = e.evaluateWith values := by
  obtain ⟨-, -, named, ordered, listed⟩ := Compiler.compile_indexed compiled
  rw [e.evaluate_of_bound b missing, Compiled.evaluateWith, if_pos sameLength]
  congr 1
  apply Tree.evaluate_congr
  -- the slot of every leaf has an occurring name, which the bindings bind
  rintro ⟨leaf, slot⟩ held
  obtain ⟨name, isNamed⟩ := named _ held
  have occurs : e.occurrences.contains name = true :=
    ordered.contains_iff_mem.mpr ⟨leaf, (listed name leaf).mpr ⟨slot, held, isNamed⟩⟩
  obtain ⟨value, bound⟩ :=
    e.bound_of_occurs b missing (List.mem_of_getElem? isNamed) occurs
  have given := agree slot name isNamed occurs
  rw [bound] at given
  simp only [List.getD_eq_getElem?_getD, List.getElem?_map, isNamed, Option.map_some,
    Option.getD_some, bound, given]

/-- How a compiled expression evaluates by name. The first declared name, in declaration
order, that occurs and is unbound is reported. Otherwise the value is the value by position,
for every vector of one value per declared name that holds the bound value at each occurring
name's slot; so bindings of names that do not occur never change it. -/
structure Compiled.EvaluatesByName (e : Compiled) (b : Bindings) : Prop where
  unbound : ∀ name, e.variableNames.find? (e.Unbound b) = some name →
    e.evaluate b = .error (.unboundVariable name)
  positional : e.variableNames.find? (e.Unbound b) = none →
    ∀ values : List ComplexFloat, values.length = e.variableNames.length →
      (∀ (slot : Nat) name, e.variableNames[slot]? = some name →
        e.occurrences.contains name = true → values[slot]? = b.get? name) →
      e.evaluate b = e.evaluateWith values
  occurringOnly : ∀ b' : Bindings,
    (∀ name, e.occurrences.contains name = true → b'.get? name = b.get? name) →
      e.evaluate b' = e.evaluate b

/-- Every compiled expression evaluates by name as by position, from the bindings of the names
that occur in it. -/
theorem compile_evaluates_by_name {c : Compiler} {expression : String} {names : List String}
    {e : Compiled} (compiled : c.compile expression names = .ok e) (b : Bindings) :
    e.EvaluatesByName b := by
  refine ⟨fun name found => e.evaluate_of_unbound b found,
    fun missing values sameLength agree =>
      Compiled.evaluate_eq_evaluateWith compiled missing sameLength agree,
    fun b' agree => ?_⟩
  -- the names that occur and are unbound are the same under both bindings
  have sameUnbound : e.Unbound b' = e.Unbound b := by
    funext name
    unfold Compiled.Unbound
    cases occurs : e.occurrences.contains name with
    | false => rfl
    | true => rw [agree name occurs]
  cases found : e.variableNames.find? (e.Unbound b) with
  | some name =>
    rw [e.evaluate_of_unbound b found, e.evaluate_of_unbound b' (sameUnbound ▸ found)]
  | none =>
    -- both equal the value by position at the values read from `b`
    have reads : ∀ (slot : Nat) name, e.variableNames[slot]? = some name →
        e.occurrences.contains name = true →
        (e.variableNames.map fun name => (b.get? name).getD ⟨0, 0⟩)[slot]? = b.get? name := by
      intro slot name named occurs
      obtain ⟨value, bound⟩ :=
        e.bound_of_occurs b found (List.mem_of_getElem? named) occurs
      simp [named, bound]
    have sameLength : (e.variableNames.map fun name => (b.get? name).getD ⟨0, 0⟩).length =
        e.variableNames.length := List.length_map _
    rw [Compiled.evaluate_eq_evaluateWith compiled (sameUnbound ▸ found) sameLength
        fun slot name named occurs => (reads slot name named occurs).trans (agree name occurs).symm,
      Compiled.evaluate_eq_evaluateWith compiled found sameLength reads]


/-- With `x` bound and `y` not, `x*y+x` reports `y`. -/
theorem evaluate_reports_first_unbound :
    ∃ e, Compiler.standard.compile "x*y+x" ["x", "y"] = .ok e ∧
      e.EvaluatesByName (Bindings.empty.set "x" ⟨2, 0⟩) ∧
      e.evaluate (Bindings.empty.set "x" ⟨2, 0⟩) = .error (.unboundVariable "y") := by
  have spec := compile_evaluates_by_name compile_x_mul_y_add_x (Bindings.empty.set "x" ⟨2, 0⟩)
  exact ⟨_, compile_x_mul_y_add_x, spec, spec.unbound "y" rfl⟩

end ComplexFormula
