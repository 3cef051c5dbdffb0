import ComplexFormula.Text.Alphabetic
import ComplexFormula.Text.Numeric
import ComplexFormula.Text.WhiteSpace

/-!
# Names

A name (of a variable or of a constant) is a letter followed by letters, digits and
underscores, where "letter" and "digit" take their Unicode meaning: a letter is an
alphabetic character and a digit any numeric one. This module also removes white space
from a text, which is how declared names and whole expressions are cleaned before use.
-/

namespace ComplexFormula.Text

/-- A character that may continue a name: alphabetic, numeric or an underscore. -/
def isWordChar (c : Char) : Bool :=
  isAlphabetic c || isNumeric c || c == '_'

/-- A name starts with an alphabetic character and goes on with word characters only. -/
def isIdentifierChars : List Char → Bool
  | [] => false
  | first :: rest => isAlphabetic first && rest.all isWordChar

/-- A text is a name when its characters form one. -/
def isIdentifier (name : String) : Bool :=
  isIdentifierChars name.toList

/-- Drops every white space character, keeping the others in order. -/
def stripWhiteSpace (text : String) : String :=
  String.ofList (text.toList.filter fun c => !isWhiteSpace c)

/-- A text is blank when it holds white space only (the empty text included). -/
def isBlank (text : String) : Bool :=
  text.toList.all isWhiteSpace

theorem isIdentifierChars_nil : isIdentifierChars [] = false := rfl

theorem isIdentifierChars_cons (first : Char) (rest : List Char) :
    isIdentifierChars (first :: rest) = (isAlphabetic first && rest.all isWordChar) := rfl

end ComplexFormula.Text
