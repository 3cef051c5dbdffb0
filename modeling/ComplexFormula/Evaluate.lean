import ComplexFormula.Compile

/-!
# Evaluating a compiled expression

Values come either by name, from `Bindings`, or by position, one per declared variable.
By name, every variable that occurs in the tree must be bound: the first one in declaration
order that is not is reported. A declared variable that does not occur needs no value (its
slot reads zero), and bindings of other names are ignored. By position, the number of values
must be the number of declared variables.
-/

namespace ComplexFormula

/-- Values bound to names; binding a name again replaces its value. -/
structure Bindings where
  entries : List (String × ComplexFloat)

namespace Bindings

/-- No name bound. -/
def empty : Bindings := ⟨[]⟩

/-- Binds a name, replacing an earlier value. -/
def set (b : Bindings) (name : String) (value : ComplexFloat) : Bindings :=
  ⟨(b.entries.filter (·.1 != name)) ++ [(name, value)]⟩

/-- The value bound to a name. -/
def get? (b : Bindings) (name : String) : Option ComplexFloat :=
  (b.entries.find? (·.1 == name)).map (·.2)

/-- Forgets every binding. -/
def clear (_ : Bindings) : Bindings := empty

theorem get?_set_self (b : Bindings) (name : String) (value : ComplexFloat) :
    (b.set name value).get? name = some value := by
  have never : ∀ l : List (String × ComplexFloat), l.find? (fun _ => false) = none :=
    fun l => List.find?_eq_none.mpr fun _ _ => Bool.false_ne_true
  simp [set, get?, List.find?_append, List.find?_filter, never]

end Bindings

namespace Compiled

/-- The value of a slot's variable from the bindings: its bound value, zero for a variable
that does not occur, and an error for an unbound one that does. -/
def slotValue (e : Compiled) (b : Bindings) (name : String) : Except EvalError ComplexFloat :=
  match b.get? name with
  | some value => .ok value
  | none => if e.occurrences.contains name then .error (.unboundVariable name) else .ok ⟨0, 0⟩

/-- Evaluates with values looked up by name. -/
def evaluate (e : Compiled) (b : Bindings) : Except EvalError ComplexFloat := do
  let values ← e.variableNames.mapM (e.slotValue b)
  pure (e.root.evaluate values)

/-- Evaluates with one value per declared variable, in declaration order. -/
def evaluateWith (e : Compiled) (values : List ComplexFloat) : Except EvalError ComplexFloat :=
  if values.length = e.variableNames.length then .ok (e.root.evaluate values)
  else .error (.arityMismatch e.variableNames.length values.length)

end Compiled

end ComplexFormula
