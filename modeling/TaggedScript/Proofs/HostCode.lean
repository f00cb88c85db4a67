import TaggedScript.Proofs.Effects
import TaggedScript.Proofs.SyntaxInduction
import TaggedScript.Proofs.WorldLaws

/-!
Calls outside the stack machine make no code and change none: what they add to the world are
closures, plain objects and scopes.
-/
namespace TaggedScript

open World

theorem keepsCode_register (scope : ScopeId) (name : String) (v : Value) (w : World) :
    w.SameCode (w.register scope name v) := sameCode_of_objects rfl

theorem keepsCode_modifyWorld {f : World → World} (h : ∀ w, SameCode w (f w)) :
    KeepsCode (Eval.modifyWorld f).run := KeepsCode.lift fun w => h w

theorem keepsCode_fieldOwner (name : String) (v : Value) : KeepsCode (fieldOwner name v) := by
  cases v <;> exact fun w => SameCode.refl w

theorem keepsCode_declareVariable (scope : ScopeId) (name : String) (v : Value) :
    KeepsCode (declareVariable scope name v) := by
  intro w
  by_cases bound : (w.lookupLocal? scope name).isSome
  · have refused : declareVariable scope name v w = .error (.alreadyDefined name) w := by
      simp [declareVariable, bind_eq, get_eq, bound]
      rfl
    rw [refused]
    exact SameCode.refl w
  · have done : declareVariable scope name v w = .ok () (w.register scope name v) := by
      simp [declareVariable, bind_eq, get_eq, bound]
      rfl
    rw [done]
    exact keepsCode_register scope name v w

theorem keepsCode_callValue {call : Caller} (h : ∀ id receiver args, KeepsCode (call id receiver args))
    (callee receiver : Value) (args : List Value) :
    KeepsCode (callValue call callee receiver args) := by
  apply KeepsCode.bind KeepsCode.get
  intro w
  cases callee with
  | object id =>
    by_cases callable : (w.object id).isCallable
    · simpa [callable] using h id receiver args
    · simpa [callable] using KeepsCode.throw _
  | undefined | bool | int | str | shape | ref => exact KeepsCode.throw _

theorem keepsCode_makeClosure (scope : ScopeId) (run : RunId) (definition : FunDef) :
    KeepsCode (makeClosure scope run definition) := by
  intro w
  have made := w.sameCode_addObject
    (.ofNative definition.displayName (.closure scope run definition)) rfl
  cases name : definition.name with
  | none =>
    have done : stateOf (makeClosure scope run definition w) =
        (w.addObject (.ofNative definition.displayName (.closure scope run definition))).2 := by
      simp only [makeClosure, name]
      rfl
    rw [done]
    exact made
  | some x =>
    have done : ∃ v, stateOf (makeClosure scope run definition w) =
        (w.addObject (.ofNative definition.displayName (.closure scope run definition))).2.register
          scope x v := by
      simp only [makeClosure, name]
      exact ⟨_, rfl⟩
    obtain ⟨v, done⟩ := done
    rw [done]
    exact made.trans (keepsCode_register scope x v _)

section
variable {call : Caller} (h : ∀ id receiver args, KeepsCode (call id receiver args)) (run : RunId)

include h in
/-- Evaluation keeps code if the calls that it makes do. -/
theorem keepsCode_evaluation : Expr.Inductive
    (fun e => ∀ scope, KeepsCode (e.eval call run scope).run)
    (fun es => (∀ scope, KeepsCode (Expr.evalAll call run scope es).run) ∧
      ∀ scope, KeepsCode (Expr.evalBlock call run scope es).run)
    (fun fields => ∀ scope, KeepsCode (Expr.evalFields call run scope fields).run) where
  literal s v scope := KeepsCode.pure _
  var s x scope := by
    simp only [Expr.eval]
    exact KeepsCode.bindEval (KeepsCode.lift KeepsCode.get) fun w => KeepsCode.pure _
  assign s x declare e ih scope := by
    simp only [Expr.eval]
    apply KeepsCode.bindEval (ih scope)
    intro v
    cases declare with
    | true =>
      exact KeepsCode.bindEval (KeepsCode.lift (keepsCode_declareVariable scope x v))
        fun _ => KeepsCode.pure _
    | false =>
      exact KeepsCode.bindEval (keepsCode_modifyWorld fun w => keepsCode_register _ x v w)
        fun _ => KeepsCode.pure _
  field s r x ih scope := by
    simp only [Expr.eval]
    apply KeepsCode.bindEval (ih scope)
    intro v
    apply KeepsCode.bindEval (KeepsCode.lift (keepsCode_fieldOwner x v))
    intro id
    exact KeepsCode.bindEval (KeepsCode.lift KeepsCode.get) fun w => KeepsCode.pure _
  setField s r x e ihr ihe scope := by
    simp only [Expr.eval]
    apply KeepsCode.bindEval (ihe scope)
    intro v
    apply KeepsCode.bindEval (ihr scope)
    intro receiver
    apply KeepsCode.bindEval (KeepsCode.lift (keepsCode_fieldOwner x receiver))
    intro id
    exact KeepsCode.bindEval (keepsCode_modifyWorld fun w => sameCode_setField w id x v)
      fun _ => KeepsCode.pure _
  call s f args ihf ihargs scope := by
    simp only [Expr.eval]
    apply KeepsCode.bindEval (ihf scope)
    intro callee
    apply KeepsCode.bindEval (ihargs.1 scope)
    intro values
    exact KeepsCode.lift (keepsCode_callValue h callee .undefined values)
  methodCall s r x args ihr ihargs scope := by
    simp only [Expr.eval]
    apply KeepsCode.bindEval (ihr scope)
    intro receiver
    apply KeepsCode.bindEval (KeepsCode.lift (keepsCode_fieldOwner x receiver))
    intro id
    apply KeepsCode.bindEval (KeepsCode.lift KeepsCode.get)
    intro w
    apply KeepsCode.bindEval (ihargs.1 scope)
    intro values
    exact KeepsCode.lift (keepsCode_callValue h _ receiver values)
  function s name params body _ scope := by
    simp only [Expr.eval]
    exact KeepsCode.lift (keepsCode_makeClosure scope run _)
  object s fields ih scope := by
    simp only [Expr.eval]
    apply KeepsCode.bindEval (ih scope)
    intro table
    exact fun w => sameCode_addObject w (.plain table) rfl
  cond s c t e ihc iht ihe scope := by
    simp only [Expr.eval]
    apply KeepsCode.bindEval (ihc scope)
    intro v
    split
    · exact KeepsCode.bindEval (ihe.2 scope) fun _ => KeepsCode.pure _
    · exact KeepsCode.bindEval (iht.2 scope) fun _ => KeepsCode.pure _
  ret s e ih scope := by
    simp only [Expr.eval]
    exact KeepsCode.bindEval (ih scope) fun v => KeepsCode.pure _
  block s body ih scope := by
    simp only [Expr.eval]
    exact KeepsCode.bindEval (ih.2 scope) fun _ => KeepsCode.pure _
  nil := ⟨fun scope => KeepsCode.pure _, fun scope => KeepsCode.pure _⟩
  cons e es ihe ihes := by
    constructor
    · intro scope
      simp only [Expr.evalAll]
      apply KeepsCode.bindEval (ihe scope)
      intro v
      exact KeepsCode.bindEval (ihes.1 scope) fun _ => KeepsCode.pure _
    · intro scope
      simp only [Expr.evalBlock]
      exact KeepsCode.bindEval (ihe scope) fun _ => ihes.2 scope
  noFields scope := KeepsCode.pure _
  consField x e fields ihe ihfields scope := by
    simp only [Expr.evalFields]
    apply KeepsCode.bindEval (ihe scope)
    intro v
    exact KeepsCode.bindEval (ihfields scope) fun _ => KeepsCode.pure _

end

theorem keepsCode_result {body : Eval Unit} (h : KeepsCode body.run) :
    KeepsCode (Eval.result body) := by
  apply KeepsCode.bind h
  intro r
  cases r <;> exact KeepsCode.pure _

theorem keepsCode_whileActive {α : Type} (run : RunId) {body : Action α} (h : KeepsCode body) :
    KeepsCode (whileActive run body) := by
  intro w
  have inside := h (w.setActive run (w.active run + 1))
  have counted : ∀ (v : World) n, v.SameCode (v.setActive run n) :=
    fun v n => sameCode_of_objects rfl
  unfold whileActive
  simp only
  split
  · rename_i v u eq
    rw [eq] at inside
    exact ((counted w _).trans inside).trans (counted u _)
  · rename_i e u eq
    rw [eq] at inside
    exact ((counted w _).trans inside).trans (counted u _)

/-- A call of a closure keeps code if the calls that it makes do. -/
theorem keepsCode_callClosure {call : Caller}
    (h : ∀ id receiver args, KeepsCode (call id receiver args)) (name : String) (outer : ScopeId)
    (run : RunId) (definition : FunDef) (receiver : Value) (args : List Value) :
    KeepsCode (callClosure call name outer run definition receiver args) := by
  intro w
  unfold callClosure
  by_cases arity : args.length = definition.params.length
  · by_cases full : maxActiveCalls ≤ w.active run
    · simp only [arity, ne_eq, not_true_eq_false, ↓reduceIte]
      simp [bind_eq, get_eq, full]
      exact SameCode.refl w
    · simp only [arity, ne_eq, not_true_eq_false, ↓reduceIte]
      simp only [bind_eq, get_eq, full, ↓reduceIte]
      have body := keepsCode_whileActive run (keepsCode_result
        ((keepsCode_evaluation h run).list definition.body |>.2 (w.addScope
          (World.callScope outer receiver definition.params args)).1))
      have entered : w.SameCode (w.addScope (callScope outer receiver definition.params args)).2 :=
        sameCode_of_objects rfl
      exact entered.trans (body _)
  · simp only [ne_eq, arity, not_false_eq_true, ↓reduceIte]
    exact SameCode.refl w

theorem keepsCode_printValues (args : List Value) : KeepsCode (printValues args) := by
  apply KeepsCode.bind KeepsCode.get
  intro w
  refine KeepsCode.bind ?_ fun _ => KeepsCode.pure _
  intro v
  unfold writeLine
  split
  · exact SameCode.refl v
  · exact sameCode_of_objects rfl

theorem keepsCode_callOperator (op : Operator) (args : List Value) :
    KeepsCode (callOperator op args) := by
  unfold callOperator
  split
  · rename_i a b
    apply KeepsCode.bind KeepsCode.get
    intro w v
    cases op.apply w a b <;> exact SameCode.refl v
  · exact KeepsCode.throw _

theorem keepsCode_callHost
    (respond : View → Value → List Value → List Effect × Except String Value) (receiver : Value)
    (args : List Value) : KeepsCode (callHost respond receiver args) := by
  apply KeepsCode.bind KeepsCode.get
  intro w
  have changed (effects : List Effect) : KeepsCode (modify (·.changeAll effects)) :=
    fun w => (Fixed.changeAll w effects).code?
  refine (changed _).bind fun _ => ?_
  split
  · exact KeepsCode.pure _
  · exact KeepsCode.throw _

/-- Calls keep code, however deep closures may call each other. -/
theorem keepsCode_invokeWithin (depth : Nat) (id : ObjectId) (receiver : Value)
    (args : List Value) : KeepsCode (invokeWithin depth id receiver args) := by
  induction depth generalizing id receiver args with
  | zero =>
    simp only [invokeWithin]
    apply KeepsCode.bind KeepsCode.get
    intro w
    split
    · exact KeepsCode.throw _
    · exact KeepsCode.throw _
    · exact keepsCode_printValues args
    · exact keepsCode_callOperator _ args
    · exact keepsCode_callHost _ receiver args
    · exact KeepsCode.throw _
  | succ depth ih =>
    simp only [invokeWithin]
    apply KeepsCode.bind KeepsCode.get
    intro w
    split
    · exact KeepsCode.throw _
    · exact KeepsCode.throw _
    · exact keepsCode_printValues args
    · exact keepsCode_callOperator _ args
    · exact keepsCode_callHost _ receiver args
    · exact keepsCode_callClosure ih _ _ _ _ receiver args

/-- What is done outside the stack machine keeps code. -/
theorem keepsCode_invoke (id : ObjectId) (receiver : Value) (args : List Value) :
    KeepsCode (invoke id receiver args) :=
  KeepsCode.bind KeepsCode.get fun _ => keepsCode_invokeWithin _ id receiver args

end TaggedScript
