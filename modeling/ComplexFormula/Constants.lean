import ComplexFormula.Complex.Basic

/-!
# Named constants

A table of named complex constants. Every table starts from the built-in `e`, `i` and `pi`;
registering a name that is already present replaces its value. Names are kept in the order
of first registration, but no answer of this library depends on that order: every search
over the names picks by position in the text and by length.
-/

namespace ComplexFormula

/-- A table of named constants, without repeated names. -/
structure ConstantTable where
  entries : List (String × ComplexFloat)

namespace ConstantTable

/-- Euler's number, the binary64 word nearest to `e`. -/
def eulerNumber : Binary64.Word := ⟨0x4005BF0A8B145769⟩

/-- The binary64 word nearest to `π`. -/
def piValue : Binary64.Word := ⟨0x400921FB54442D18⟩

/-- The names of the built-in constants, sorted. -/
def builtinNames : List String := ["e", "i", "pi"]

/-- Registers a constant, replacing the value of a name already present. -/
def insert (table : ConstantTable) (name : String) (value : ComplexFloat) : ConstantTable :=
  if table.entries.any (·.1 == name) then
    ⟨table.entries.map fun entry => if entry.1 == name then (name, value) else entry⟩
  else ⟨table.entries ++ [(name, value)]⟩

/-- The built-in constants `e`, `i` and `pi`. -/
def builtin : ConstantTable :=
  ⟨[("e", ComplexFloat.ofReal eulerNumber), ("i", ComplexFloat.i),
    ("pi", ComplexFloat.ofReal piValue)]⟩

/-- The built-in table with `extra` registered after it, in order. -/
def withExtra (extra : List (String × ComplexFloat)) : ConstantTable :=
  extra.foldl (fun table entry => table.insert entry.1 entry.2) builtin

/-- The names in the table. -/
def names (table : ConstantTable) : List String := table.entries.map (·.1)

/-- The value of a name. -/
def find? (table : ConstantTable) (name : String) : Option ComplexFloat :=
  (table.entries.find? (·.1 == name)).map (·.2)

/-- Whether a name is in the table. -/
def contains (table : ConstantTable) (name : String) : Bool :=
  table.entries.any (·.1 == name)

end ConstantTable

end ComplexFormula
