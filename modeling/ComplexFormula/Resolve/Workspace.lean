import ComplexFormula.Tree
import ComplexFormula.Constants
import ComplexFormula.Error
import ComplexFormula.Occurrence
import ComplexFormula.Literal
import ComplexFormula.Text.Search

/-!
# The working state of one compilation

Expression text is resolved by rewriting: a part of the text that has been turned into a
subtree is replaced by a placeholder `|_n_|` standing for that subtree, with `n` counting
the placeholders minted so far, from one. The `Workspace` holds the subtrees whose
placeholders are still in the text, the counters of placeholders and variable leaves, and
the occurrence index. The `Scope` holds what does not change during a compilation: the
constants and the declared variables.

A placeholder is consumed when a leaf is resolved from it, so each subtree is used at most
once. Names never overlap a placeholder: a name starts with a letter and holds no bar,
while a placeholder holds bars, underscores and digits only.
-/

namespace ComplexFormula

/-- The constants and declared variables of a compilation. -/
structure Scope where
  constants : ConstantTable
  variableNames : List String

/-- The text of the placeholder with number `n`. -/
def placeholderText (n : Nat) : List Char :=
  ['|', '_'] ++ Nat.toDigits 10 n ++ ['_', '|']

/-- A placeholder is made of bars, underscores and decimal digits. -/
theorem mem_placeholderText {c : Char} {n : Nat} (h : c ∈ placeholderText n) :
    c = '|' ∨ c = '_' ∨ c.isDigit = true := by
  simp only [placeholderText, List.mem_append, List.mem_cons, List.not_mem_nil, or_false] at h
  rcases h with ((h | h) | h) | h | h
  · exact Or.inl h
  · exact Or.inr (Or.inl h)
  · exact Or.inr (Or.inr (Nat.isDigit_of_mem_toDigits (by decide) (by decide) h))
  · exact Or.inr (Or.inl h)
  · exact Or.inl h

/-- A placeholder holds no character other than bars, underscores and digits. -/
theorem count_placeholderText {c : Char} (n : Nat)
    (other : c ≠ '|' ∧ c ≠ '_' ∧ c.isDigit = false) : (placeholderText n).count c = 0 := by
  rw [List.count_eq_zero]
  intro h
  rcases mem_placeholderText h with h | h | h
  · exact other.1 h
  · exact other.2.1 h
  · rw [other.2.2] at h
    exact Bool.false_ne_true h

/-- The mutable state of a compilation. -/
structure Workspace where
  /-- How many placeholders have been minted. -/
  minted : Nat
  /-- The number of the next variable leaf. -/
  nextLeaf : Nat
  /-- Placeholders still in the text, with the subtrees they stand for. -/
  pending : List (List Char × Tree)
  /-- The leaves created for each variable name. -/
  occurrences : OccurrenceIndex

/-- The state at the start of a compilation. -/
def Workspace.initial : Workspace := ⟨0, 0, [], OccurrenceIndex.empty⟩

/-- A computation on the working state that may fail to compile. -/
abbrev Resolve := StateT Workspace (Except CompileError)

/-- Stops with an unparseable part of the text. -/
def unparseable {α : Type} (text : List Char) : Resolve α :=
  throw (.unparseableToken (String.ofList text))

/-- Binds a subtree to a new placeholder and returns the placeholder's number. -/
def mint (node : Tree) : Resolve Nat :=
  modifyGet fun w =>
    (w.minted + 1, { w with minted := w.minted + 1,
                            pending := w.pending ++ [(placeholderText (w.minted + 1), node)] })

/-- Creates a new leaf for the declared variable at `slot` and records it in the index. -/
def newVariable (scope : Scope) (slot : Nat) : Resolve Tree :=
  modifyGet fun w =>
    (Tree.var w.nextLeaf slot,
      { w with nextLeaf := w.nextLeaf + 1,
               occurrences := w.occurrences.register ((scope.variableNames[slot]?).getD "")
                 w.nextLeaf })

/-- Takes the subtree of a placeholder out of the pending ones. -/
def takePlaceholder (key : List Char) : Resolve Tree := do
  let w ← get
  match w.pending.find? (·.1 == key) with
  | some (_, node) =>
    set { w with pending := w.pending.filter (·.1 != key) }
    pure node
  | none => unparseable key

/-- Every name an operand of a power may be: pending placeholders, constants, variables. -/
def atomNames (scope : Scope) (w : Workspace) : List (List Char) :=
  ((w.pending.map (·.1)) ++ scope.constants.names.map String.toList ++
    scope.variableNames.map String.toList).filter (!·.isEmpty)

/-- The largest of some lengths, if there is one. -/
def longest (lengths : List Nat) : Option Nat := lengths.max?

/-- The larger of two optional lengths, absent lengths being smallest. -/
def largerLength : Option Nat → Option Nat → Option Nat
  | some a, some b => some (max a b)
  | some a, none => some a
  | none, b => b

/-- The length of the base a text before `^` ends with: the longer of an unsigned numeric
literal and a name. -/
def trailingAtomLength (scope : Scope) (w : Workspace) (head : List Char) : Option Nat :=
  largerLength (Literal.trailingLength head)
    (longest ((atomNames scope w).filter (·.isSuffixOf head) |>.map List.length))

/-- The length of the exponent a text after `^` starts with: the longer of a signed numeric
literal and a name with an optional sign in front. -/
def leadingAtomLength (scope : Scope) (w : Workspace) (tail : List Char) : Option Nat :=
  let signLength := match tail with
    | c :: _ => if isSignChar c then 1 else 0
    | [] => 0
  let rest := tail.drop signLength
  largerLength (Literal.leadingLength tail true)
    (longest ((atomNames scope w).filter (·.isPrefixOf rest) |>.map (signLength + ·.length)))

end ComplexFormula
