import ComplexFormula.Resolve.Workspace

/-!
# Resolving a span without operators

A span without operators and brackets is a numeric literal, a lone sign, or a product of
juxtaposed values: `3x`, `xe`, `2|_1_|`. Such a product is split around one entity, found in
this order of priority:

1. the leftmost pending placeholder;
2. else the leftmost constant name, skipping occurrences inside a longer occurrence of a
   variable name (`i` in `time` is part of the variable), and preferring the longer name
   where two start together;
3. else the leftmost variable name, again the longer where two start together.

The text before the entity and the text after it are resolved the same way and joined to it
by multiplication, so `abc` is `(a * b) * c` split around whichever comes first by the rule
above. The entity itself is resolved first, which numbers a variable leaf before the leaves
to its left.
-/

namespace ComplexFormula

/-- A nonempty span of a text, given by its start and length. -/
structure Span (text : List Char) where
  start : Nat
  length : Nat
  nonempty : 0 < length
  fits : start + length ≤ text.length

/-- The span of `text` with this start and length, when it is nonempty and fits. -/
def Span.of? (text : List Char) (start length : Nat) : Option (Span text) :=
  if h : 0 < length ∧ start + length ≤ text.length then some ⟨start, length, h.1, h.2⟩
  else none

/-- What an entity found in a span refers to. -/
inductive Entity where
  | placeholder
  | constant
  | variable (slot : Nat)

/-- The earliest of some candidate spans (start, length), the longest of those that start
together; the first listed wins a complete tie. -/
def earliestLongest {α : Type} (candidates : List (Nat × Nat × α)) : Option (Nat × Nat × α) :=
  candidates.foldl (fun best c =>
    match best with
    | none => some c
    | some b => if c.1 < b.1 ∨ (c.1 = b.1 ∧ b.2.1 < c.2.1) then some c else some b) none

/-- The first occurrence of each nonempty name, as (start, length, name). -/
def firstOccurrences (names : List (List Char)) (text : List Char) :
    List (Nat × Nat × List Char) :=
  (names.filter (!·.isEmpty)).filterMap fun name =>
    (Text.indexOf? name text).map fun start => (start, name.length, name)

/-- Whether the range `outer` covers the range `inner` and is longer; ranges are given by
start and end. -/
def encloses (outer inner : Nat × Nat) : Bool :=
  outer.1 ≤ inner.1 && inner.2 ≤ outer.2 && inner.2 - inner.1 < outer.2 - outer.1

/-- The ranges covered by the non-overlapping occurrences of each variable name. -/
def variableRanges (scope : Scope) (text : List Char) : List (Nat × Nat) :=
  (scope.variableNames.map String.toList).flatMap fun name =>
    (Text.matchStarts name text).map fun start => (start, start + name.length)

/-- For each constant name, its first occurrence that no variable occurrence encloses. -/
def constantOccurrences (scope : Scope) (text : List Char) : List (Nat × Nat × List Char) :=
  let taken := variableRanges scope text
  ((scope.constants.names.map String.toList).filter (!·.isEmpty)).filterMap fun name =>
    ((Text.matchStarts name text).find? fun start =>
      !taken.any fun range => encloses range (start, start + name.length)).map
        fun start => (start, name.length, name)

/-- The entity to split a span around, by the priority of placeholders, then constants, then
variables. -/
def findEntity (scope : Scope) (w : Workspace) (text : List Char) :
    Option (Span text × Entity) :=
  let toSpan (found : Option (Nat × Nat × List Char)) (entity : List Char → Entity) :=
    found.bind fun (start, length, name) =>
      (Span.of? text start length).map fun span => (span, entity name)
  match earliestLongest (firstOccurrences (w.pending.map (·.1)) text) with
  | some found => toSpan (some found) fun _ => .placeholder
  | none =>
    match earliestLongest (constantOccurrences scope text) with
    | some found => toSpan (some found) fun _ => .constant
    | none =>
      let variableNames := scope.variableNames.map String.toList
      toSpan (earliestLongest (firstOccurrences variableNames text)) fun name =>
        .variable (variableNames.idxOf name)

/-- The subtree of an entity: the pending subtree of a placeholder, the value of a constant,
or a new leaf of a variable. -/
def entityNode (scope : Scope) (name : List Char) : Entity → Resolve Tree
  | .placeholder => takePlaceholder name
  | .constant =>
    match scope.constants.find? (String.ofList name) with
    | some value => pure (.const value)
    | none => unparseable name
  | .variable slot => newVariable scope slot

/-- Resolves a span without operators and brackets into a tree. -/
def resolveLeaf (scope : Scope) (text : List Char) : Resolve Tree :=
  if text = ['-'] then pure (.const ⟨-1, 0⟩)
  else if text = ['+'] then pure (.const ⟨1, 0⟩)
  else
    match Literal.value? text with
    | some z => pure (.const z)
    | none => do
      let w ← get
      match findEntity scope w text with
      | none => unparseable text
      | some (span, entity) =>
        let matched ← entityNode scope (Text.slice text span.start (span.start + span.length))
          entity
        let before := text.take span.start
        let after := text.drop (span.start + span.length)
        let withBefore ← if before.isEmpty then pure matched else do
          let left ← resolveLeaf scope before
          pure (Tree.binary .mul left matched)
        if after.isEmpty then pure withBefore else do
          let right ← resolveLeaf scope after
          pure (Tree.binary .mul withBefore right)
termination_by text.length
decreasing_by
  all_goals
    have := span.nonempty
    have := span.fits
    simp only [List.length_take, List.length_drop]
    omega

end ComplexFormula
