import ComplexFormula.Evaluate

/-!
# Evaluation sessions

A session evaluates one compiled expression several times against one table of bindings
that persists from step to step. A step changes the bindings or not, and gives one result.
Iterating feeds each result back into a variable: it evaluates, then as many times as asked
binds the variable to the last value and evaluates again, stopping at the first error.
-/

namespace ComplexFormula

/-- One step of a session. -/
inductive Step where
  /-- Binds each name to its value, then evaluates. -/
  | set (entries : List (String × ComplexFloat))
  /-- Forgets all bindings, then evaluates. -/
  | clear
  /-- Evaluates with the current bindings. -/
  | eval
  /-- Evaluates with values by position; the bindings stay as they are. -/
  | args (values : List ComplexFloat)
  /-- Evaluates, then `count` times binds `name` to the last value and evaluates again. -/
  | iterate (name : String) (count : Nat)

/-- Feeds results back into `name`: `count` more evaluations after `result`, stopping at an
error. -/
def iterateFrom (e : Compiled) (name : String) :
    Nat → Bindings → Except EvalError ComplexFloat → Except EvalError ComplexFloat × Bindings
  | 0, b, result => (result, b)
  | _ + 1, b, .error err => (.error err, b)
  | count + 1, b, .ok value =>
    let b := b.set name value
    iterateFrom e name count b (e.evaluate b)

/-- Runs one step: its result and the bindings after it. -/
def Step.run (e : Compiled) (b : Bindings) : Step → Except EvalError ComplexFloat × Bindings
  | .set entries =>
    let b := entries.foldl (fun b entry => b.set entry.1 entry.2) b
    (e.evaluate b, b)
  | .clear => (e.evaluate b.clear, b.clear)
  | .eval => (e.evaluate b, b)
  | .args values => (e.evaluateWith values, b)
  | .iterate name count => iterateFrom e name count b (e.evaluate b)

/-- Runs the steps in order from the given bindings; one result per step. -/
def runSteps (e : Compiled) : Bindings → List Step → List (Except EvalError ComplexFloat)
  | _, [] => []
  | b, step :: rest =>
    let (result, b) := step.run e b
    result :: runSteps e b rest

end ComplexFormula
