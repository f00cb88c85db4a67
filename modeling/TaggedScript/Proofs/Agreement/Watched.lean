import TaggedScript.Proofs.Effects
import TaggedScript.Proofs.SyntaxInduction

/-!
Evaluation under watch. It goes as the evaluation of trees does, but it halts where an object that
is no function can be told from a record: when the object gets a field that it lacks, and when it is
printed or called.
-/
namespace TaggedScript

/-- Why an expression has no value under watch. -/
inductive Halt where
  /-- A `return` ends the function. -/
  | returned (v : Value)
  | failed (e : Failure)
  /-- A plain object was about to get a new field, or to be printed or called. -/
  | exposed

/-- What acts on the world under watch. -/
abbrev Watched := EStateM Halt World

/-- How to call a function under watch. -/
abbrev Watcher := ObjectId → Value → List Value → Watched Value

/-- Whether a value is an object that is no function. -/
def World.isPlain (w : World) : Value → Bool
  | .object id => !(w.object id).isCallable
  | _ => false

namespace Watched

/-- An action in which nothing is watched. -/
def act {α : Type} (f : Action α) : Watched α := fun w =>
  match f w with
  | .ok a w => .ok a w
  | .error e w => .error (.failed e) w

/-- Writes a field of an object, which a plain one must have. -/
def setField (id : ObjectId) (x : String) (v : Value) : Watched Unit := do
  let w ← get
  if w.isPlain (.object id) && ((w.object id).fields.get? x).isNone then
    throw .exposed
  else
    set (w.setField id x v)

/-- Calls a value, which must not be a plain object. -/
def callValue (call : Watcher) (callee receiver : Value) (args : List Value) : Watched Value := do
  let w ← get
  match callee with
  | .object id => if (w.object id).isCallable then call id receiver args else throw .exposed
  | _ => throw (.failed (w.notAFunction callee))

/-- Prints values, none of which may be a plain object. -/
def printValues (args : List Value) : Watched Value := do
  if args.any (← get).isPlain then throw .exposed else act (TaggedScript.printValues args)

/-- Runs the body of a function of a run, which a `return` ends, while it counts as active. -/
def function (run : RunId) (body : Watched Unit) : Watched Value := fun w =>
  let before := w.active run
  match body (w.setActive run (before + 1)) with
  | .ok () w => .ok .undefined (w.setActive run before)
  | .error (.returned v) w => .ok v (w.setActive run before)
  | .error halt w => .error halt (w.setActive run before)

end Watched

namespace Expr

mutual

/-- The value of an expression of a run in a scope, under watch. -/
def watch (call : Watcher) (run : RunId) (scope : ScopeId) : Expr → Watched Value
  | literal _ v => return v.value
  | var _ x => return (← get).lookup scope x
  | assign _ x declare e => do
    let v ← e.watch call run scope
    if declare then
      Watched.act (declareVariable scope x v)
    else
      modify (·.assign scope x v)
    return v
  | field _ r x => do
    let receiver ← r.watch call run scope
    let id ← Watched.act (fieldOwner x receiver)
    return (← get).field id x
  | setField _ r x e => do
    let v ← e.watch call run scope
    let receiver ← r.watch call run scope
    let id ← Watched.act (fieldOwner x receiver)
    Watched.setField id x v
    return v
  | Expr.call _ f args => do
    let callee ← f.watch call run scope
    let values ← watchAll call run scope args
    Watched.callValue call callee .undefined values
  | methodCall _ r x args => do
    let receiver ← r.watch call run scope
    let id ← Watched.act (fieldOwner x receiver)
    let method := (← get).field id x
    let values ← watchAll call run scope args
    Watched.callValue call method receiver values
  | function _ name params body => Watched.act (makeClosure scope run ⟨name, params, body⟩)
  | object _ fields => do
    let table ← watchFields call run scope fields
    let (id, w) := (← get).addObject (.plain table)
    set w
    return .object id
  | cond _ test thenBlock elseBlock => do
    let v ← test.watch call run scope
    if v = .bool false then
      watchBlock call run scope elseBlock
    else
      watchBlock call run scope thenBlock
    return .undefined
  | ret _ e => do
    let v ← e.watch call run scope
    throw (.returned v)
  | block _ body => do
    watchBlock call run scope body
    return .undefined

def watchAll (call : Watcher) (run : RunId) (scope : ScopeId) : List Expr → Watched (List Value)
  | [] => return []
  | e :: es => do
    let v ← e.watch call run scope
    let vs ← watchAll call run scope es
    return v :: vs

def watchFields (call : Watcher) (run : RunId) (scope : ScopeId) :
    List (String × Expr) → Watched Table
  | [] => return []
  | (x, e) :: fields => do
    let v ← e.watch call run scope
    let rest ← watchFields call run scope fields
    return (x, v) :: rest

/-- Statements are evaluated for what they do. -/
def watchBlock (call : Watcher) (run : RunId) (scope : ScopeId) : List Expr → Watched Unit
  | [] => return ()
  | e :: es => do
    let _ ← e.watch call run scope
    watchBlock call run scope es

end

end Expr

namespace Watched

/-- Calls a closure, whose own calls go through `call`. -/
def callClosure (call : Watcher) (name : String) (outer : ScopeId) (run : RunId)
    (definition : FunDef) (receiver : Value) (args : List Value) : Watched Value := do
  if args.length ≠ definition.params.length then
    throw (.failed (.wrongArity name definition.params.length args.length))
  let w ← get
  if maxActiveCalls ≤ w.active run then
    throw (.failed (.tooManyCalls name))
  let (scope, w) := w.addScope (World.callScope outer receiver definition.params args)
  set w
  function run (Expr.watchBlock call run scope definition.body)

/-- Calls a function, with `depth` for how many closures may be called inside each other. -/
def invokeWithin : Nat → Watcher
  | depth, id, receiver, args => do
    let w ← get
    let o := w.object id
    match o.body with
    | .plain => throw .exposed
    | .compiled _ => throw (.failed (.needsMachine o.name))
    | .native .print => printValues args
    | .native (.operator op) => act (callOperator op args)
    | .native (.foreign respond) => act (callHost respond receiver args)
    | .native (.closure scope run definition) =>
      match depth with
      | 0 => throw (.failed (.tooManyCalls o.name))
      | depth + 1 => callClosure (invokeWithin depth) o.name scope run definition receiver args

end Watched

/-- Runs a script in the global scope under watch. -/
def Script.watch (s : Script) : Watched Value := fun w =>
  let run : RunId := ⟨w.activeCalls.size⟩
  let w := { w with activeCalls := w.activeCalls.push 0 }
  match Expr.watchBlock (Watched.invokeWithin (callLimit w)) run World.globalScope s.body w with
  | .ok () w => .ok .undefined w
  | .error (.returned v) w => .ok v w
  | .error halt w => .error halt w

/-- A run of the script shows no plain object for what it is: none gets a field that it lacks, or is
printed or called. -/
def Script.Discreet (s : Script) (w : World) : Prop := ∀ v, s.watch w ≠ .error .exposed v

/-- An action under watch does the same as another, unless it halts for what it would show. -/
def Mirrors {α : Type} (x : Action α) (y : Watched α) : Prop := ∀ w,
  match y w with
  | .ok a v => x w = .ok a v
  | .error (.failed e) v => x w = .error e v
  | .error (.returned _) _ => False
  | .error .exposed _ => True

/-- The same of an action that a `return` may cut short. -/
def MirrorsEval {α : Type} (x : Eval α) (y : Watched α) : Prop := ∀ w,
  match y w with
  | .ok a v => x.run w = .ok (.ok a) v
  | .error (.failed e) v => x.run w = .error e v
  | .error (.returned a) v => x.run w = .ok (.error a) v
  | .error .exposed _ => True

namespace Mirrors
variable {α β : Type}

theorem act (x : Action α) : Mirrors x (Watched.act x) := by
  intro w
  unfold Watched.act
  rcases same : x w with ⟨a, v⟩ | ⟨e, v⟩ <;> rfl

theorem bind {x : Action α} {y : Watched α} {f : α → Action β} {g : α → Watched β}
    (h : Mirrors x y) (next : ∀ a, Mirrors (f a) (g a)) : Mirrors (x >>= f) (y >>= g) := by
  intro w
  have first := h w
  rw [bind_eq, bind_eq]
  generalize y w = r at first
  rcases r with ⟨a, v⟩ | ⟨_ | _ | _, v⟩ <;> simp only at first ⊢
  · rw [first]
    exact next a v
  · rw [first]

theorem throw (e : Failure) : Mirrors (throw e : Action α) (throw (.failed e)) := fun _ => rfl

theorem get : Mirrors get get := fun _ => rfl

theorem set (w : World) : Mirrors (set w) (set w) := fun _ => rfl

end Mirrors

namespace MirrorsEval
variable {α β : Type}

theorem pure (a : α) : MirrorsEval (Pure.pure a) (Pure.pure a) := fun _ => rfl

theorem lift {x : Action α} {y : Watched α} (h : Mirrors x y) : MirrorsEval (liftM x) y := by
  intro w
  have first := h w
  have run : (liftM x : Eval α).run w = (match x w with
    | .ok a v => .ok (.ok a) v
    | .error e v => .error e v) := by
    rw [ExceptT.run_liftM]
    simp only [Functor.map, EStateM.map]
    cases x w <;> rfl
  rw [run]
  generalize y w = r at first
  rcases r with ⟨a, v⟩ | ⟨_ | _ | _, v⟩ <;> simp only at first ⊢ <;> rw [first]

theorem bind {x : Eval α} {y : Watched α} {f : α → Eval β} {g : α → Watched β}
    (h : MirrorsEval x y) (next : ∀ a, MirrorsEval (f a) (g a)) :
    MirrorsEval (x >>= f) (y >>= g) := by
  intro w
  have first := h w
  have run : (x >>= f).run w = (match x.run w with
    | .ok (.ok a) v => (f a).run v
    | .ok (.error a) v => .ok (.error a) v
    | .error e v => .error e v) := by
    rw [ExceptT.run_bind, bind_eq]
    rcases x.run w with ⟨_ | _, v⟩ | ⟨e, v⟩ <;> rfl
  rw [run, bind_eq]
  generalize y w = r at first
  rcases r with ⟨a, v⟩ | ⟨_ | _ | _, v⟩ <;> simp only at first ⊢ <;> rw [first]
  exact next a v

end MirrorsEval

theorem mirrors_function (run : RunId) {body : Eval Unit} {watched : Watched Unit}
    (h : MirrorsEval body watched) :
    Mirrors (whileActive run (Eval.result body)) (Watched.function run watched) := by
  intro w
  have inside := h (w.setActive run (w.active run + 1))
  simp only [whileActive, Eval.result, Watched.function, bind_eq]
  generalize watched (w.setActive run (w.active run + 1)) = r at inside
  rcases r with ⟨⟨⟩, v⟩ | ⟨_ | _ | _, v⟩ <;> simp only at inside ⊢ <;> rw [inside] <;> rfl

section
variable {call : Caller} {watcher : Watcher}
  (h : ∀ id receiver args, Mirrors (call id receiver args) (watcher id receiver args))
  (run : RunId)
include h

theorem mirrors_callValue (callee receiver : Value) (args : List Value) :
    Mirrors (callValue call callee receiver args)
      (Watched.callValue watcher callee receiver args) := by
  intro w
  simp only [callValue, Watched.callValue, bind_eq, get_eq]
  cases callee with
  | object id =>
    by_cases callable : (w.object id).isCallable = true
    · simp only [callable, ↓reduceIte]
      exact h id receiver args w
    · simp only [callable]
      trivial
  | undefined | bool | int | str | shape | ref => rfl

/-- Trees are evaluated under watch as they are without it. -/
theorem mirrors_inductive : Expr.Inductive
    (fun e => ∀ scope, MirrorsEval (e.eval call run scope) (e.watch watcher run scope))
    (fun es => ∀ scope,
      MirrorsEval (Expr.evalAll call run scope es) (Expr.watchAll watcher run scope es) ∧
      MirrorsEval (Expr.evalBlock call run scope es) (Expr.watchBlock watcher run scope es))
    (fun fs => ∀ scope,
      MirrorsEval (Expr.evalFields call run scope fs) (Expr.watchFields watcher run scope fs)) where
  literal s v scope := by
    simp only [Expr.eval, Expr.watch]
    exact .pure _
  var s x scope := by
    simp only [Expr.eval, Expr.watch]
    exact fun w => rfl
  assign s x declare e ih scope := by
    simp only [Expr.eval, Expr.watch]
    apply (ih scope).bind
    intro v
    cases declare with
    | true => exact (MirrorsEval.lift (.act _)).bind fun _ => .pure v
    | false => exact fun w => rfl
  field s r x ih scope := by
    simp only [Expr.eval, Expr.watch]
    apply (ih scope).bind
    intro receiver
    exact (MirrorsEval.lift (.act _)).bind fun id w => rfl
  setField s r x e ihr ihe scope := by
    simp only [Expr.eval, Expr.watch]
    apply (ihe scope).bind
    intro v
    apply (ihr scope).bind
    intro receiver
    apply (MirrorsEval.lift (.act _)).bind
    intro id w
    simp only [Watched.setField, bind_eq, get_eq]
    by_cases new : (w.isPlain (.object id) && ((w.object id).fields.get? x).isNone) = true
    · simp only [new, ↓reduceIte]
      trivial
    · simp only [new]
      rfl
  call s f args ihf ihargs scope := by
    simp only [Expr.eval, Expr.watch]
    apply (ihf scope).bind
    intro callee
    apply (ihargs scope).1.bind
    intro values
    exact .lift (mirrors_callValue h callee .undefined values)
  methodCall s r x args ihr ihargs scope := by
    simp only [Expr.eval, Expr.watch]
    apply (ihr scope).bind
    intro receiver
    apply (MirrorsEval.lift (.act _)).bind
    intro id
    have look : MirrorsEval (liftM (get : Action World)) (get : Watched World) := fun w => rfl
    apply look.bind
    intro w
    apply (ihargs scope).1.bind
    intro values
    exact .lift (mirrors_callValue h _ receiver values)
  function s name params body _ scope := by
    simp only [Expr.eval, Expr.watch]
    exact .lift (.act _)
  object s fields ih scope := by
    simp only [Expr.eval, Expr.watch]
    exact (ih scope).bind fun table w => rfl
  cond s c t e ihc iht ihe scope := by
    simp only [Expr.eval, Expr.watch]
    apply (ihc scope).bind
    intro v
    split
    · exact (ihe scope).2.bind fun _ => .pure _
    · exact (iht scope).2.bind fun _ => .pure _
  ret s e ih scope := by
    simp only [Expr.eval, Expr.watch]
    exact (ih scope).bind fun v w => rfl
  block s body ih scope := by
    simp only [Expr.eval, Expr.watch]
    exact (ih scope).2.bind fun _ => .pure _
  nil scope := by
    simp only [Expr.evalAll, Expr.watchAll, Expr.evalBlock, Expr.watchBlock]
    exact ⟨.pure _, .pure _⟩
  cons e es ihe ihes scope := by
    simp only [Expr.evalAll, Expr.watchAll, Expr.evalBlock, Expr.watchBlock]
    exact ⟨(ihe scope).bind fun v => (ihes scope).1.bind fun vs => .pure _,
      (ihe scope).bind fun _ => (ihes scope).2⟩
  noFields scope := by
    simp only [Expr.evalFields, Expr.watchFields]
    exact .pure _
  consField x e fields ihe ihfields scope := by
    simp only [Expr.evalFields, Expr.watchFields]
    exact (ihe scope).bind fun v => (ihfields scope).bind fun rest => .pure _

theorem mirrors_callClosure (name : String) (outer : ScopeId) (definition : FunDef)
    (receiver : Value) (args : List Value) :
    Mirrors (callClosure call name outer run definition receiver args)
      (Watched.callClosure watcher name outer run definition receiver args) := by
  unfold callClosure Watched.callClosure
  by_cases arity : args.length = definition.params.length
  · simp only [arity, ne_eq, not_true_eq_false, ↓reduceIte]
    apply Mirrors.get.bind
    intro w
    split
    · exact (Mirrors.throw _).bind fun _ => (Mirrors.set _).bind fun _ =>
        mirrors_function run ((mirrors_inductive h run).list definition.body _).2
    · exact (Mirrors.set _).bind fun _ =>
        mirrors_function run ((mirrors_inductive h run).list definition.body _).2
  · simp only [ne_eq, arity, not_false_eq_true, ↓reduceIte]
    exact fun _ => rfl

end

theorem mirrors_printValues (args : List Value) :
    Mirrors (printValues args) (Watched.printValues args) := by
  intro w
  simp only [Watched.printValues, bind_eq, get_eq]
  by_cases plain : args.any w.isPlain = true
  · simp only [plain, ↓reduceIte]
    trivial
  · simp only [plain]
    exact Mirrors.act (printValues args) w

theorem mirrors_invokeWithin (depth : Nat) (id : ObjectId) (receiver : Value) (args : List Value) :
    Mirrors (invokeWithin depth id receiver args)
      (Watched.invokeWithin depth id receiver args) := by
  induction depth generalizing id receiver args with
  | zero =>
    simp only [invokeWithin, Watched.invokeWithin]
    apply Mirrors.get.bind
    intro w
    generalize (w.object id).body = body
    rcases body with _ | (_ | op | _ | respond) | code
    · exact fun _ => trivial
    · exact mirrors_printValues args
    · exact .act _
    · exact .throw _
    · exact .act _
    · exact .throw _
  | succ depth ih =>
    simp only [invokeWithin, Watched.invokeWithin]
    apply Mirrors.get.bind
    intro w
    generalize (w.object id).body = body
    rcases body with _ | (_ | op | ⟨scope, run, definition⟩ | respond) | code
    · exact fun _ => trivial
    · exact mirrors_printValues args
    · exact .act _
    · exact mirrors_callClosure ih run _ scope definition receiver args
    · exact .act _
    · exact .throw _

/-- A script runs under watch as it does without it. -/
theorem Script.mirrors_watch (s : Script) : Mirrors s.evaluate s.watch := by
  intro w
  have body := ((mirrors_inductive (mirrors_invokeWithin (callLimit { w with
    activeCalls := w.activeCalls.push 0 })) ⟨w.activeCalls.size⟩).list s.body
      World.globalScope).2 { w with activeCalls := w.activeCalls.push 0 }
  have unwatched : s.evaluate w = Eval.result (Expr.evalBlock (invokeWithin (callLimit { w with
      activeCalls := w.activeCalls.push 0 })) ⟨w.activeCalls.size⟩ World.globalScope s.body)
      { w with activeCalls := w.activeCalls.push 0 } := rfl
  rw [unwatched]
  simp only [Script.watch, Eval.result, bind_eq]
  generalize Expr.watchBlock _ _ _ _ _ = r at body
  rcases r with ⟨⟨⟩, v⟩ | ⟨_ | _ | _, v⟩ <;> simp only at body ⊢ <;> rw [body] <;> rfl

end TaggedScript
