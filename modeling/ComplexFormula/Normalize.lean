import ComplexFormula.Error
import ComplexFormula.Text.Identifier

/-!
# Normal form of expression text

Before an expression is read, all white space is removed and every alternative bracket glyph
is replaced by `(` or `)`: first the opening glyphs, then the closing ones, each in the order
given, each by plain replacement of its non-overlapping occurrences from the left. A glyph
that is blank is ignored. Nothing is checked here but blankness of the whole text.
-/

namespace ComplexFormula

/-- The glyphs that stand for opening and closing brackets. -/
structure BracketGlyphs where
  opening : List String
  closing : List String

namespace BracketGlyphs

/-- Square and curly brackets as alternatives to round ones. -/
def standard : BracketGlyphs := ⟨["[", "\x7b"], ["]", "\x7d"]⟩

/-- The glyphs given, without the blank ones. -/
def ofLists (opening closing : List String) : BracketGlyphs :=
  ⟨opening.filter (!Text.isBlank ·), closing.filter (!Text.isBlank ·)⟩

end BracketGlyphs

/-- Replaces the non-overlapping occurrences of a nonempty `pattern`, from the left; the
empty pattern changes nothing. -/
def replaceAll (pattern replacement text : List Char) : List Char :=
  match pattern with
  | [] => text
  | p :: ps => go p ps text
where
  /-- Scans the text for `p :: ps`; a match is replaced and skipped over as a whole. -/
  go (p : Char) (ps : List Char) : List Char → List Char
    | [] => []
    | c :: rest =>
      if (p :: ps).isPrefixOf (c :: rest) then replacement ++ go p ps (rest.drop ps.length)
      else c :: go p ps rest
  termination_by text => text.length
  decreasing_by
    all_goals simp only [List.length_drop, List.length_cons]
    all_goals omega

/-- The normal form of an expression: white space removed, glyphs replaced. A blank
expression is refused. -/
def normalize (glyphs : BracketGlyphs) (expression : String) : Except CompileError String :=
  if Text.isBlank expression then .error (.invalidExpression "expression is blank")
  else
    let stripped := (Text.stripWhiteSpace expression).toList
    let opened := glyphs.opening.foldl (fun text glyph => replaceAll glyph.toList ['('] text)
      stripped
    let closed := glyphs.closing.foldl (fun text glyph => replaceAll glyph.toList [')'] text)
      opened
    .ok (String.ofList closed)

end ComplexFormula
