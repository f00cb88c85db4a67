import TaggedScript.Evaluation
import TaggedScript.Proofs.Semantics.Records
import TaggedScript.Proofs.Semantics.Variables

/-!
What scripts mean on the stack machine, told of their trees and without code. A function acts on the
slots of its own variables, on the world and on records; its operands are values, and a call is a
call. Functions see their own variables and the globals, and nothing of the function around them.
-/
namespace TaggedScript

/-- What a function acts on: the values of its variables, the world, and the records that there
are. -/
structure Memory where
  slots : List Value
  world : World
  records : List Table
  /-- The room that there is for all records. -/
  capacity : Nat

/-- Why an expression has no value. -/
inductive Stop where
  /-- A `return` ends the function. -/
  | returned (v : Value)
  | failed (e : Failure)
  /-- More calls are inside each other than were allowed. -/
  | tooDeep
  /-- A record was to be made, and there is no room for it. -/
  | noRoom (requested available : Nat)
deriving DecidableEq

/-- The meaning of a piece of a function. -/
abbrev Meaning := EStateM Stop Memory

/-- A function as it is called. `first` is the place of the first function inside its body among
all functions. -/
structure Procedure where
  name : String
  arity : Nat
  locals : List String
  body : List Expr
  first : Nat

/-- The functions that there are, by the objects that stand for them. -/
abbrev Program := ObjectId → Option Procedure

/-- The functions whose objects are the ones from a place on. -/
def Program.placed (first : Nat) (ps : List Procedure) : Program := fun id =>
  if id.index < first then none else ps[id.index - first]?

/-- How a callee is called with a receiver and arguments. -/
abbrev Applier := Value → Value → List Value → Meaning Value

def Memory.record (σ : Memory) (offset : UInt32) : Table :=
  (recordAt? σ.records offset.toNat).getD []

namespace Meaning

def fail {α : Type} (e : Failure) : Meaning α := throw (.failed e)

/-- What is done outside the function. -/
def outside {α : Type} (f : Action α) : Meaning α := fun σ =>
  match f σ.world with
  | .ok a world => .ok a { σ with world }
  | .error e world => .error (.failed e) { σ with world }

/-- The value of a name: a variable of the function, or a global. -/
def read (locals : List String) (x : String) : Meaning Value := do
  let σ ← get
  if x ∈ locals then
    return σ.slots.getD (locals.idxOf x) .undefined
  else
    return σ.world.global x

def write (locals : List String) (x : String) (v : Value) : Meaning Unit :=
  modify fun σ =>
    if x ∈ locals then { σ with slots := σ.slots.set (locals.idxOf x) v }
    else { σ with world := σ.world.setGlobal x v }

/-- A field of a record or of an object; one that it lacks is `undefined`. -/
def getField (receiver : Value) (x : String) : Meaning Value := do
  let σ ← get
  match receiver with
  | .ref offset => return ((σ.record offset).get? x).getD .undefined
  | .object id => return σ.world.field id x
  | v => fail (σ.world.noFields x v)

/-- Writes a field. A record gets no new ones. -/
def setField (receiver : Value) (x : String) (v : Value) : Meaning Unit := do
  let σ ← get
  match receiver with
  | .ref offset =>
    if ((σ.record offset).get? x).isSome then
      let changed := (σ.record offset).set x v
      set { σ with records := setRecord σ.records offset.toNat changed }
    else
      fail (.invalidField x)
  | .object id => set { σ with world := σ.world.setField id x v }
  | r => fail (σ.world.noFields x r)

/-- Makes a record after all others. References name no records beyond `2 ^ 32`. -/
def newRecord (t : Table) : Meaning Value := do
  let σ ← get
  let available := σ.capacity - roomOf σ.records
  if available < recordRoom t ∨ 2 ^ 32 ≤ roomOf σ.records then
    throw (.noRoom (recordRoom t) available)
  else
    set { σ with records := σ.records ++ [t] }
    return .ref (UInt32.ofNat (roomOf σ.records))

theorem newRecord_eq (t : Table) (σ : Memory) :
    newRecord t σ =
      if σ.capacity - roomOf σ.records < recordRoom t ∨ 2 ^ 32 ≤ roomOf σ.records then
        .error (.noRoom (recordRoom t) (σ.capacity - roomOf σ.records)) σ
      else
        .ok (.ref (UInt32.ofNat (roomOf σ.records))) { σ with records := σ.records ++ [t] } := by
  show (if _ then _ else _ : Meaning Value) σ = _
  split <;> rfl

/-- Hands a value to what the global `print` is. -/
def print (v : Value) : Meaning Value := do
  let callee := (← get).world.global printName
  let _ ← outside (callValue invoke callee .undefined [v])
  return .undefined

/-- Calls a value, given how to call a function of the program. -/
def apply (program : Program) (call : Procedure → Value → List Value → Meaning Value) : Applier :=
  fun callee receiver args =>
    match callee with
    | .object id =>
      match program id with
      | some p =>
        if args.length = p.arity then call p receiver args
        else fail (.wrongArity p.name p.arity args.length)
      | none => outside (callValue invoke callee receiver args)
    | _ => outside (callValue invoke callee receiver args)

end Meaning

namespace Expr

mutual

/-- How many functions an expression has inside it. -/
def functionCount : Expr → Nat
  | literal .. => 0
  | var .. => 0
  | assign _ _ _ e => e.functionCount
  | field _ r _ => r.functionCount
  | setField _ r _ e => e.functionCount + r.functionCount
  | call _ f args => f.functionCount + functionCountAll args
  | methodCall _ r _ args => r.functionCount + functionCountAll args
  | function _ _ _ body => functionCountAll body + 1
  | object _ fields => functionCountFields fields
  | cond _ c t e => c.functionCount + functionCountAll t + functionCountAll e
  | ret _ e => e.functionCount
  | block _ body => functionCountAll body

def functionCountAll : List Expr → Nat
  | [] => 0
  | e :: es => e.functionCount + functionCountAll es

def functionCountFields : List (String × Expr) → Nat
  | [] => 0
  | (_, e) :: fields => e.functionCount + functionCountFields fields

end

mutual

/-- The functions of an expression, inner ones first, when `first` is the place of the first. -/
def procedures (first : Nat) : Expr → List Procedure
  | literal .. => []
  | var .. => []
  | assign _ _ _ e => e.procedures first
  | field _ r _ => r.procedures first
  | setField _ r _ e => e.procedures first ++ r.procedures (first + e.functionCount)
  | call _ f args => f.procedures first ++ proceduresAll (first + f.functionCount) args
  | methodCall _ r _ args => r.procedures first ++ proceduresAll (first + r.functionCount) args
  | function _ name params body =>
    let f : FunDef := ⟨name, params, body⟩
    proceduresAll first body ++ [⟨f.displayName, params.length, f.slotNames, body, first⟩]
  | object _ fields => proceduresFields first fields
  | cond _ c t e =>
    c.procedures first ++ proceduresAll (first + c.functionCount) t ++
      proceduresAll (first + c.functionCount + functionCountAll t) e
  | ret _ e => e.procedures first
  | block _ body => proceduresAll first body

def proceduresAll (first : Nat) : List Expr → List Procedure
  | [] => []
  | e :: es => e.procedures first ++ proceduresAll (first + e.functionCount) es

def proceduresFields (first : Nat) : List (String × Expr) → List Procedure
  | [] => []
  | (_, e) :: fields => e.procedures first ++ proceduresFields (first + e.functionCount) fields

end

mutual

/-- The value of an expression in a function with these variables. -/
def meaning (apply : Applier) (locals : List String) (first : Nat) : Expr → Meaning Value
  | literal _ v => return v.value
  | var _ x => Meaning.read locals x
  | assign _ x _ e => do
    let v ← e.meaning apply locals first
    Meaning.write locals x v
    return v
  | field _ r x => do
    let receiver ← r.meaning apply locals first
    Meaning.getField receiver x
  | setField _ r x e => do
    let v ← e.meaning apply locals first
    let receiver ← r.meaning apply locals (first + e.functionCount)
    Meaning.setField receiver x v
    return v
  | Expr.call _ f args => do
    if isPrint locals f args then
      let values ← meaningAll apply locals first args
      Meaning.print (values.headD .undefined)
    else
      let callee ← f.meaning apply locals first
      let values ← meaningAll apply locals (first + f.functionCount) args
      apply callee .undefined values
  | methodCall _ r x args => do
    let receiver ← r.meaning apply locals first
    let method ← Meaning.getField receiver x
    let values ← meaningAll apply locals (first + r.functionCount) args
    apply method receiver values
  | function _ name _ body => do
    let made : Value := .object ⟨first + functionCountAll body⟩
    match name with
    | some x => modify fun σ => { σ with world := σ.world.setGlobal x made }
    | none => pure ()
    return made
  | object _ fields => do
    let table ← meaningFields apply locals first fields
    Meaning.newRecord table
  | cond _ c t e => do
    let v ← c.meaning apply locals first
    if v = .bool false then
      meaningBlock apply locals (first + c.functionCount + functionCountAll t) e
    else
      meaningBlock apply locals (first + c.functionCount) t
    return .undefined
  | ret _ e => do
    let v ← e.meaning apply locals first
    throw (.returned v)
  | block _ body => do
    meaningBlock apply locals first body
    return .undefined

def meaningAll (apply : Applier) (locals : List String) (first : Nat) :
    List Expr → Meaning (List Value)
  | [] => return []
  | e :: es => do
    let v ← e.meaning apply locals first
    let vs ← meaningAll apply locals (first + e.functionCount) es
    return v :: vs

def meaningFields (apply : Applier) (locals : List String) (first : Nat) :
    List (String × Expr) → Meaning Table
  | [] => return []
  | (x, e) :: fields => do
    let v ← e.meaning apply locals first
    let rest ← meaningFields apply locals (first + e.functionCount) fields
    return (x, v) :: rest

/-- Statements are evaluated for what they do. -/
def meaningBlock (apply : Applier) (locals : List String) (first : Nat) :
    List Expr → Meaning Unit
  | [] => return ()
  | e :: es => do
    let _ ← e.meaning apply locals first
    meaningBlock apply locals (first + e.functionCount) es

end

end Expr

namespace Procedure

/-- The slots of a call: the receiver, the arguments, and the others without a value. -/
def slots (p : Procedure) (receiver : Value) (args : List Value) : List Value :=
  receiver :: args ++ List.replicate (p.locals.length - (args.length + 1)) .undefined

/-- Runs the body of a function. The slots of the caller are as they were. -/
def run (p : Procedure) (apply : Applier) (receiver : Value) (args : List Value) : Meaning Value :=
  fun σ =>
    let inside := { σ with slots := p.slots receiver args }
    match Expr.meaningBlock apply p.locals p.first p.body inside with
    | .ok () τ => .ok .undefined { τ with slots := σ.slots }
    | .error (.returned v) τ => .ok v { τ with slots := σ.slots }
    | .error stop τ => .error stop { τ with slots := σ.slots }

end Procedure

namespace Meaning

/-- Calls a function, with `depth` for how many calls may be inside each other. -/
def callWithin (program : Program) :
    Nat → Procedure → Value → List Value → Meaning Value
  | 0, _, _, _ => throw .tooDeep
  | depth + 1, p, receiver, args => p.run (apply program (callWithin program depth)) receiver args

end Meaning

namespace Script

/-- The function that a script is the body of. Its variables are globals. -/
def procedure (s : Script) (first : Nat) : Procedure := ⟨"main", 0, [thisName], s.body, first⟩

/-- All functions of a script, the script itself last. -/
def procedures (s : Script) (first : Nat) : List Procedure :=
  Expr.proceduresAll first s.body ++ [s.procedure first]

def program (s : Script) (first : Nat) : Program := .placed first (s.procedures first)

/-- The result of a script when `first` is the place of its first function. -/
def meaning (s : Script) (first depth : Nat) : Meaning Value :=
  Meaning.callWithin (s.program first) depth (s.procedure first) .undefined []

end Script
end TaggedScript
