import TaggedScript.Scope
/-!
The functions that every world begins with: `print` and one for each operator.
-/
namespace TaggedScript

/-- The integers of 32 bits. -/
def fitsInt32 (n : Int) : Bool := -2147483648 ≤ n && n ≤ 2147483647

namespace Operator

/-- The result of an operator on integers, before it is known to fit. Division goes toward
zero, and the remainder goes with it. -/
def exact : Operator → Int → Int → Int
  | add, x, y => x + y
  | sub, x, y => x - y
  | mul, x, y => x * y
  | div, x, y => x.tdiv y
  | rem, x, y => x.tmod y
  | _, _, _ => 0

/-- Whether an operator divides. -/
def divides : Operator → Bool
  | div | rem => true
  | _ => false

/-- What has to fit for the result to be defined. A remainder needs its quotient. -/
def bounded (op : Operator) (x y : Int) : Int :=
  match op with
  | rem => exact div x y
  | op => exact op x y

def arithmetic (op : Operator) (x y : Int32) : Except Failure Value :=
  if op.divides && y == 0 then .error .divisionByZero
  else if fitsInt32 (op.bounded x.toInt y.toInt) then
    .ok (.int (Int32.ofInt (op.exact x.toInt y.toInt)))
  else .error (.overflow op x y)

/-- Whether an ordered pair is as the operator has it. -/
def admits : Operator → Ordering → Bool
  | lt, o => o.isLT
  | le, o => o.isLE
  | gt, o => o.isGT
  | ge, o => o.isGE
  | _, _ => false

/-- The order of two values, if they are both integers or both strings. Strings go by their
code points. -/
def order? : Value → Value → Option Ordering
  | .int x, .int y => some (compareOfLessAndEq x.toInt y.toInt)
  | .str x, .str y => some (compareOfLessAndEq x y)
  | _, _ => none

/-- Applies an operator to its two operands. Any two values can be told apart. -/
def apply (op : Operator) (w : World) (a b : Value) : Except Failure Value :=
  let mismatch := .typeMismatch op (w.typeOf a) (w.typeOf b)
  match op with
  | eq => .ok (.bool (a = b))
  | ne => .ok (.bool (a ≠ b))
  | lt | le | gt | ge =>
    match order? a b with
    | some o => .ok (.bool (op.admits o))
    | none => .error mismatch
  | add | sub | mul | div | rem =>
    match a, b with
    | .int x, .int y => op.arithmetic x y
    | _, _ => .error mismatch

/-- All operators, in the order in which a world gets them. -/
def all : List Operator := [add, sub, mul, div, rem, eq, ne, lt, le, gt, ge]

end Operator

/-- Puts a line into the output, unless it is closed. -/
def writeLine (line : String) : Action Unit := fun w =>
  if w.closed then .error .sinkClosed w
  else .ok () { w with output := w.output ++ (line ++ "\n") }

/-- Prints values with a blank between them. -/
def printValues (args : List Value) : Action Value := do
  let w ← get
  writeLine (String.intercalate " " (args.map w.text))
  return .undefined

/-- Calls the builtin of an operator. -/
def callOperator (op : Operator) (args : List Value) : Action Value := do
  match args with
  | [a, b] => MonadExcept.ofExcept (op.apply (← get) a b)
  | _ => throw (.wrongArity op.symbol 2 args.length)

namespace World

def view (w : World) : View := ⟨w.text, w.global, w.field, w.closed⟩

def change (w : World) : Effect → World
  | .setGlobal name value => w.setGlobal name value
  | .setField id field value => w.setField id field value
  | .write text => if w.closed then w else { w with output := w.output ++ text }

def changeAll (w : World) (effects : List Effect) : World := effects.foldl change w

end World

/-- Calls a function of the host. What it changes stays changed if it fails. -/
def callHost (respond : View → Value → List Value → List Effect × Except String Value)
    (receiver : Value) (args : List Value) : Action Value := do
  let (effects, answer) := respond (← get).view receiver args
  modify (·.changeAll effects)
  match answer with
  | .ok v => return v
  | .error text => throw (.host text)

namespace World

/-- Adds a function of that name to the global scope. -/
def install (w : World) (name : String) (native : Native) : World :=
  let (id, w) := w.addObject (.ofNative name native)
  w.setGlobal name (.object id)

/-- A world with nothing in it but one scope without names. -/
def empty (closed : Bool) : World :=
  { objects := #[], shapes := #[], scopes := #[⟨none, []⟩], activeCalls := #[], output := "", closed }

/-- The world that programs start in. -/
def initial (closed : Bool) : World :=
  Operator.all.foldl (fun w op => w.install op.symbol (.operator op))
    ((empty closed).install printName .print)

end World
end TaggedScript
