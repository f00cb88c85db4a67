import TaggedScript.Evaluation

/-!
Evaluation of trees step by step. What is left to do around the part that is evaluated is kept in a
list, so that each moment of a run can be looked at. Nothing bounds the number of steps.
-/
namespace TaggedScript

/-- What a value is awaited for. -/
inductive Pending where
  | assign (name : String) (declare : Bool)
  | field (name : String)
  /-- The value to store is awaited, and the receiver comes next. -/
  | stored (name : String) (receiver : Expr)
  | setField (name : String) (stored : Value)
  | callee (args : List Expr)
  | receiver (name : String) (args : List Expr)
  | argument (callee receiver : Value) (done : List Value) (rest : List Expr)
  | entry (done : Table) (name : String) (rest : List (String × Expr))
  | test (thenBlock elseBlock : List Expr)
  | ret
  | statement (rest : List Expr)
  /-- A call of a closure of the run `callee`. It restores the count of active calls, and goes on in
  the run and the scope of the caller. -/
  | activation (callee : RunId) (before : Nat) (caller : RunId) (scope : ScopeId)

/-- What comes next. -/
inductive Control where
  | eval (e : Expr)
  | block (body : List Expr)
  | args (callee receiver : Value) (done : List Value) (rest : List Expr)
  | entries (done : Table) (rest : List (String × Expr))
  | apply (callee receiver : Value) (args : List Value)
  | value (v : Value)
  /-- A `return` is on its way to the function around it. -/
  | returned (v : Value)
  | failed (e : Failure)

/-- A moment of an evaluation. -/
structure Walk where
  control : Control
  run : RunId
  scope : ScopeId
  pending : List Pending
  world : World

namespace Pending

/-- The run of the function that is active while a value is awaited. -/
def active? : Pending → Option RunId
  | activation run .. => some run
  | _ => none

end Pending

namespace Walk

def goto (m : Walk) (c : Control) : Walk := { m with control := c }

/-- Goes on with a part, and comes back with its value. -/
def push (m : Walk) (p : Pending) (c : Control) : Walk :=
  { m with control := c, pending := p :: m.pending }

/-- Acts on the world. -/
def perform {α : Type} (m : Walk) (x : Action α) (c : α → Control) : Walk :=
  match x m.world with
  | .ok a w => { m with control := c a, world := w }
  | .error e w => { m with control := .failed e, world := w }

/-- Begins the body of a closure. -/
def enter (m : Walk) (outer : ScopeId) (run : RunId) (definition : FunDef) (receiver : Value)
    (args : List Value) : Walk :=
  let inner := m.world.addScope (World.callScope outer receiver definition.params args)
  let before := m.world.active run
  { control := .block definition.body
    run
    scope := inner.1
    pending := .activation run before m.run m.scope :: m.pending
    world := inner.2.setActive run (before + 1) }

/-- Calls a value. -/
def apply (m : Walk) (callee receiver : Value) (args : List Value) : Walk :=
  match callee with
  | .object id =>
    let o := m.world.object id
    match o.body with
    | .plain => m.goto (.failed (m.world.notAFunction callee))
    | .compiled _ => m.goto (.failed (.needsMachine o.name))
    | .native .print => m.perform (printValues args) .value
    | .native (.operator op) => m.perform (callOperator op args) .value
    | .native (.foreign respond) => m.perform (callHost respond receiver args) .value
    | .native (.closure outer run definition) =>
      if args.length ≠ definition.params.length then
        m.goto (.failed (.wrongArity o.name definition.params.length args.length))
      else if maxActiveCalls ≤ m.world.active run then
        m.goto (.failed (.tooManyCalls o.name))
      else
        m.enter outer run definition receiver args
  | _ => m.goto (.failed (m.world.notAFunction callee))

/-- Begins an expression. -/
def start (m : Walk) : Expr → Walk
  | .literal _ v => m.goto (.value v.value)
  | .var _ x => m.goto (.value (m.world.lookup m.scope x))
  | .assign _ x declare e => m.push (.assign x declare) (.eval e)
  | .field _ r x => m.push (.field x) (.eval r)
  | .setField _ r x e => m.push (.stored x r) (.eval e)
  | .call _ f args => m.push (.callee args) (.eval f)
  | .methodCall _ r x args => m.push (.receiver x args) (.eval r)
  | .function _ name params body =>
    m.perform (makeClosure m.scope m.run ⟨name, params, body⟩) .value
  | .object _ fields => m.goto (.entries [] fields)
  | .cond _ test thenBlock elseBlock => m.push (.test thenBlock elseBlock) (.eval test)
  | .ret _ e => m.push .ret (.eval e)
  | .block _ body => m.goto (.block body)

/-- The field of a receiver, which has to be an object. -/
def readField (x : String) (receiver : Value) : Action Value := do
  let id ← fieldOwner x receiver
  return (← get).field id x

def writeField (x : String) (stored receiver : Value) : Action Value := do
  let id ← fieldOwner x receiver
  modify (·.setField id x stored)
  return stored

def bind (scope : ScopeId) (x : String) (declare : Bool) (v : Value) : Action Value := do
  if declare then
    declareVariable scope x v
  else
    modify (·.assign scope x v)
  return v

def newObject (table : Table) : Action Value := do
  let (id, w) := (← get).addObject (.plain table)
  set w
  return .object id

/-- A function of a run is no longer active. -/
def leave (m : Walk) (callee : RunId) (before : Nat) (caller : RunId) (scope : ScopeId)
    (c : Control) : Walk :=
  { m with control := c, run := caller, scope, world := m.world.setActive callee before }

/-- A value reaches what awaits it. -/
def hand (m : Walk) (v : Value) : Pending → Walk
  | .assign x declare => m.perform (bind m.scope x declare v) .value
  | .field x => m.perform (readField x v) .value
  | .stored x r => m.push (.setField x v) (.eval r)
  | .setField x stored => m.perform (writeField x stored v) .value
  | .callee args => m.goto (.args v .undefined [] args)
  | .receiver x args => m.perform (readField x v) fun method => .args method v [] args
  | .argument callee receiver done rest => m.goto (.args callee receiver (done ++ [v]) rest)
  | .entry done x rest => m.goto (.entries (done ++ [(x, v)]) rest)
  | .test thenBlock elseBlock =>
    m.goto (.block (if v = .bool false then elseBlock else thenBlock))
  | .ret => m.goto (.returned v)
  | .statement rest => m.goto (.block rest)
  | .activation callee before caller scope => m.leave callee before caller scope (.value .undefined)

/-- A `return` or a failure passes by what awaits a value. A call that ends goes on with `ended`. -/
def unwind (m : Walk) (ended : Control) : Pending → Walk
  | .activation callee before caller scope => m.leave callee before caller scope ended
  | _ => m

/-- One step. A moment without anything pending is the last one. -/
def next (m : Walk) : Walk :=
  match m.control with
  | .eval e => m.start e
  | .block [] => m.goto (.value .undefined)
  | .block (e :: es) => m.push (.statement es) (.eval e)
  | .args callee receiver done [] => m.goto (.apply callee receiver done)
  | .args callee receiver done (e :: es) => m.push (.argument callee receiver done es) (.eval e)
  | .entries done [] => m.perform (newObject done) .value
  | .entries done ((x, e) :: rest) => m.push (.entry done x rest) (.eval e)
  | .apply callee receiver args => m.apply callee receiver args
  | .value v =>
    match m.pending with
    | [] => m
    | p :: pending => ({ m with pending } : Walk).hand v p
  | .returned v =>
    match m.pending with
    | [] => m
    | p :: pending => ({ m with pending } : Walk).unwind (.value v) p
  | .failed e =>
    match m.pending with
    | [] => m
    | p :: pending => ({ m with pending } : Walk).unwind (.failed e) p

/-- What an evaluation came to, if it is over. -/
def result? (m : Walk) : Option (EStateM.Result Failure World Value) :=
  match m.pending, m.control with
  | [], .value _ => some (.ok .undefined m.world)
  | [], .returned v => some (.ok v m.world)
  | [], .failed e => some (.error e m.world)
  | _, _ => none

/-- The runs of the functions that are active, the last one called first. -/
def active (m : Walk) : List RunId := m.pending.filterMap Pending.active?

/-- The first moment of the evaluation of a script. -/
def begin (s : Script) (w : World) : Walk where
  control := .block s.body
  run := ⟨w.activeCalls.size⟩
  scope := World.globalScope
  pending := []
  world := { w with activeCalls := w.activeCalls.push 0 }

end Walk
end TaggedScript
