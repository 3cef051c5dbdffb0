/-!
# Errors

Why a compilation or an evaluation fails. Each cause carries the text it is about, and
`message` gives its wording. For the parse errors the text is the working text at the moment
of failure: normalized, and possibly holding placeholders `|_n_|` for parts already resolved.
-/

namespace ComplexFormula

/-- Why an expression does not compile. -/
inductive CompileError where
  /-- The expression is empty or white space only. -/
  | invalidExpression (reason : String)
  /-- A bracket without a counterpart, with the working text from it (or all of it). -/
  | unbalancedBrackets (text : String)
  /-- A part of the text that is no number, constant, variable or function application. -/
  | unparseableToken (text : String)
  /-- A declared variable name that is no name. -/
  | invalidVariableName (name : String)
  /-- A declared variable name that is a constant's. -/
  | reservedVariableName (name : String)
  /-- A registered constant name that is no name. -/
  | invalidConstantName (name : String)
deriving Repr, DecidableEq

/-- Why an evaluation fails. -/
inductive EvalError where
  /-- A variable that occurs in the expression has no value. -/
  | unboundVariable (name : String)
  /-- Values by position came in the wrong number. -/
  | arityMismatch (expected found : Nat)
deriving Repr, DecidableEq

/-- The text in grave accents, as the messages quote names and text. -/
def quoted (text : String) : String := "\x60" ++ text ++ "\x60"

namespace CompileError

/-- The name of the kind of error. -/
def kind : CompileError → String
  | invalidExpression _ => "InvalidExpression"
  | unbalancedBrackets _ => "UnbalancedBrackets"
  | unparseableToken _ => "UnparseableToken"
  | invalidVariableName _ => "InvalidVariableName"
  | reservedVariableName _ => "ReservedVariableName"
  | invalidConstantName _ => "InvalidConstantName"

/-- The wording of the error. -/
def message : CompileError → String
  | invalidExpression reason => "invalid expression: " ++ reason
  | unbalancedBrackets text => "unbalanced brackets in " ++ quoted text
  | unparseableToken text => "unparseable token " ++ quoted text
  | invalidVariableName name => quoted name ++ " is not a valid variable name"
  | reservedVariableName name =>
    quoted name ++ " is a constant and cannot be used as a variable name"
  | invalidConstantName name => quoted name ++ " is not a valid constant name"

end CompileError

namespace EvalError

/-- The name of the kind of error. -/
def kind : EvalError → String
  | unboundVariable _ => "UnboundVariable"
  | arityMismatch _ _ => "ArityMismatch"

/-- The wording of the error. -/
def message : EvalError → String
  | unboundVariable name => "variable " ++ quoted name ++ " is not bound"
  | arityMismatch expected found =>
    "expected " ++ toString expected ++ " value(s), got " ++ toString found

end EvalError

end ComplexFormula
