import TaggedScript.Builtin
/-!
Evaluation of syntax trees. A function is a closure over the scope that made it; a call gets a
scope of its own with `this` and the parameters, and blocks share the scope of their function.
`return` ends the function around it, from wherever it stands.
-/
namespace TaggedScript

/-- An action inside a function, which a `return` cuts short with its value. -/
abbrev Eval := ExceptT Value Action

/-- How to call a function with a receiver and arguments. -/
abbrev Caller := ObjectId → Value → List Value → Action Value

namespace Eval

def fail {α : Type} (e : Failure) : Eval α := ExceptT.lift (EStateM.throw e)

def modifyWorld (f : World → World) : Eval Unit := ExceptT.lift (modify f)

/-- The value of an action whose `return` has come or not. -/
def result (body : Eval Unit) : Action Value := do
  match ← body.run with
  | .error v => return v
  | .ok () => return .undefined

end Eval

def Literal.value : Literal → Value
  | undefined => .undefined
  | bool b => .bool b
  | int n => .int n
  | str s => .str s

/-- Calls a value, which has to be a function. -/
def callValue (call : Caller) (callee receiver : Value) (args : List Value) : Action Value := do
  let w ← get
  match callee with
  | .object id =>
    if (w.object id).isCallable then call id receiver args else throw (w.notAFunction callee)
  | _ => throw (w.notAFunction callee)

/-- A new closure over a scope. A closure that has a name is bound to it there. -/
def makeClosure (scope : ScopeId) (run : RunId) (definition : FunDef) : Action Value := do
  let w ← get
  let (id, w) := w.addObject (.ofNative definition.displayName (.closure scope run definition))
  match definition.name with
  | some name => set (w.register scope name (.object id))
  | none => set w
  return .object id

/-- Declares a variable in a scope, which must not have it yet. -/
def declareVariable (scope : ScopeId) (name : String) (value : Value) : Action Unit := do
  let w ← get
  if (w.lookupLocal? scope name).isSome then
    throw (.alreadyDefined name)
  else
    set (w.register scope name value)

/-- The object whose field of that name is meant. -/
def fieldOwner (name : String) (receiver : Value) : Action ObjectId := do
  match receiver with
  | .object id => return id
  | v => throw ((← get).noFields name v)

namespace Expr

mutual

/-- The value of an expression of a run in a scope. -/
def eval (call : Caller) (run : RunId) (scope : ScopeId) : Expr → Eval Value
  | literal _ v => return v.value
  | var _ name => do return (← get).lookup scope name
  | assign _ name declare e => do
    let v ← e.eval call run scope
    if declare then
      declareVariable scope name v
    else
      Eval.modifyWorld (·.assign scope name v)
    return v
  | field _ r name => do
    let id ← fieldOwner name (← r.eval call run scope)
    return (← get).field id name
  | setField _ r name e => do
    let v ← e.eval call run scope
    let id ← fieldOwner name (← r.eval call run scope)
    Eval.modifyWorld (·.setField id name v)
    return v
  | Expr.call _ f args => do
    let callee ← f.eval call run scope
    let values ← evalAll call run scope args
    callValue call callee .undefined values
  | methodCall _ r name args => do
    let receiver ← r.eval call run scope
    let id ← fieldOwner name receiver
    let method := (← get).field id name
    let values ← evalAll call run scope args
    callValue call method receiver values
  | function _ name params body => makeClosure scope run ⟨name, params, body⟩
  | object _ fields => do
    let table ← evalFields call run scope fields
    let (id, w) := (← get).addObject (.plain table)
    set w
    return .object id
  | cond _ test thenBlock elseBlock => do
    if (← test.eval call run scope) = .bool false then
      evalBlock call run scope elseBlock
    else
      evalBlock call run scope thenBlock
    return .undefined
  | ret _ e => do throw (← e.eval call run scope)
  | block _ body => do
    evalBlock call run scope body
    return .undefined

def evalAll (call : Caller) (run : RunId) (scope : ScopeId) : List Expr → Eval (List Value)
  | [] => return []
  | e :: es => do
    let v ← e.eval call run scope
    return v :: (← evalAll call run scope es)

def evalFields (call : Caller) (run : RunId) (scope : ScopeId) :
    List (String × Expr) → Eval Table
  | [] => return []
  | (name, e) :: fields => do
    let v ← e.eval call run scope
    return (name, v) :: (← evalFields call run scope fields)

/-- Evaluates statements for what they do. -/
def evalBlock (call : Caller) (run : RunId) (scope : ScopeId) : List Expr → Eval Unit
  | [] => return ()
  | e :: es => do
    let _ ← e.eval call run scope
    evalBlock call run scope es

end

end Expr

namespace World

def active (w : World) (run : RunId) : Nat := w.activeCalls.getD run.index 0

def setActive (w : World) (run : RunId) (n : Nat) : World :=
  { w with activeCalls := w.activeCalls.setIfInBounds run.index n }

/-- The scope of a call: the receiver and the parameters inside the scope of the closure. -/
def callScope (outer : ScopeId) (receiver : Value) (params : List String) (args : List Value) :
    Scope :=
  ⟨some outer, (params.zip args).foldl (fun t (name, v) => t.set name v) [(thisName, receiver)]⟩

end World

/-- Does something while one more function of a run counts as active. -/
def whileActive {α : Type} (run : RunId) (body : Action α) : Action α := fun w =>
  let before := w.active run
  match body (w.setActive run (before + 1)) with
  | .ok v w => .ok v (w.setActive run before)
  | .error e w => .error e (w.setActive run before)

/-- Calls a closure, whose own calls go through `call`. -/
def callClosure (call : Caller) (name : String) (outer : ScopeId) (run : RunId)
    (definition : FunDef) (receiver : Value) (args : List Value) : Action Value := do
  if args.length ≠ definition.params.length then
    throw (.wrongArity name definition.params.length args.length)
  let w ← get
  if maxActiveCalls ≤ w.active run then
    throw (.tooManyCalls name)
  let (scope, w) := w.addScope (World.callScope outer receiver definition.params args)
  set w
  whileActive run (Eval.result (Expr.evalBlock call run scope definition.body))

/-- Calls a function outside the stack machine, with `depth` for how many closures may be called
inside each other, the refused calls among them. -/
def invokeWithin : Nat → Caller
  | depth, id, receiver, args => do
    let w ← get
    let o := w.object id
    match o.body with
    | .plain => throw (.notAFunction (w.text (.object id)))
    | .compiled _ => throw (.needsMachine o.name)
    | .native .print => printValues args
    | .native (.operator op) => callOperator op args
    | .native (.foreign respond) => callHost respond receiver args
    | .native (.closure scope run definition) =>
      match depth with
      | 0 => throw (.tooManyCalls o.name)
      | depth + 1 => callClosure (invokeWithin depth) o.name scope run definition receiver args

/-- How many closures can be called inside each other: the calls of all runs that can be active
at a time, and one more, which is refused. That one is still due the check of its arguments, which
comes before the check of the active calls. -/
def callLimit (w : World) : Nat := maxActiveCalls * w.activeCalls.size + 1

/-- Calls a function outside the stack machine. -/
def invoke : Caller := fun id receiver args => do
  invokeWithin (callLimit (← get)) id receiver args

/-- Runs a script in the global scope. Its result is what a `return` outside of functions
hands back. -/
def Script.evaluate (s : Script) : Action Value := do
  let w ← get
  let run : RunId := ⟨w.activeCalls.size⟩
  let w := { w with activeCalls := w.activeCalls.push 0 }
  set w
  Eval.result (Expr.evalBlock (invokeWithin (callLimit w)) run World.globalScope s.body)

end TaggedScript
