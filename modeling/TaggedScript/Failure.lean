import TaggedScript.Operator
/-!
What can go wrong in a program. Nothing in the language recovers from a failure: it ends the run.
-/
namespace TaggedScript

inductive Failure where
  | callUndefined
  /-- A call of a value that shows as `text`. -/
  | notAFunction (text : String)
  | wrongArity (function : String) (expected actual : Nat)
  /-- An access to a field of a value that shows as `text`. -/
  | noFields (field text : String)
  /-- A record was written to at a field that its class does not declare. -/
  | invalidField (field : String)
  | divisionByZero
  | overflow (op : Operator) (left right : Int32)
  | typeMismatch (op : Operator) (leftType rightType : String)
  | alreadyDefined (name : String)
  | tooManyCalls (function : String)
  /-- The output takes no more text. -/
  | sinkClosed
  /-- A function with code was called outside the stack machine. -/
  | needsMachine (function : String)
  /-- A function without code was handed to the stack machine. -/
  | notCompiled (function : String)
  /-- A function of the host failed for a reason of its own. -/
  | host (text : String)
deriving DecidableEq, Repr

/-- The calls that one run of the tree evaluator may have active at a time. -/
def maxActiveCalls : Nat := 256

def Failure.message : Failure → String
  | callUndefined => "Cannot call undefined as a function"
  | notAFunction text => s!"{text} is not a function"
  | wrongArity function expected actual =>
    s!"wrong number of arguments for {function} expected {expected} but was {actual}"
  | noFields field text => s!"cannot access field {field} of {text}"
  | invalidField field => s!"invalid field {field}"
  | divisionByZero => "division by zero"
  | overflow op left right =>
    s!"integer overflow in {left.toInt} {op.symbol} {right.toInt}"
  | typeMismatch op leftType rightType =>
    s!"type error: cannot apply {op.symbol} to {leftType} and {rightType}"
  | alreadyDefined name => s!"variable {name} already defined"
  | tooManyCalls function =>
    s!"stack overflow: more than {maxActiveCalls} nested calls in {function}"
  | sinkClosed => "print: sink closed"
  | needsMachine function =>
    s!"{function} is compiled for the stack engine and cannot be called directly"
  | notCompiled function => s!"{function} is not a compiled function"
  | host text => text

end TaggedScript
