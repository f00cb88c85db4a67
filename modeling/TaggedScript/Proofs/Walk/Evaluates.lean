import Mathlib.Algebra.Order.BigOperators.Group.Finset
import Mathlib.Logic.Function.Iterate
import TaggedScript.Proofs.SyntaxInduction
import TaggedScript.Proofs.Walk.Counts

/-!
The steps of an evaluation come to what the evaluation comes to.
-/
namespace TaggedScript
namespace Walk

/-- Some number of steps leads from one moment to another. -/
def Leads (m m' : Walk) : Prop := ∃ n, next^[n] m = m'

theorem Leads.refl (m : Walk) : m.Leads m := ⟨0, rfl⟩

theorem Leads.of_eq {m m' : Walk} (h : m = m') : m.Leads m' := ⟨0, h⟩

theorem Leads.trans {m m' m'' : Walk} (h : m.Leads m') (g : m'.Leads m'') : m.Leads m'' := by
  obtain ⟨n, rfl⟩ := h
  obtain ⟨k, rfl⟩ := g
  exact ⟨k + n, Function.iterate_add_apply next k n m⟩

theorem Leads.step {m m' : Walk} (h : m.next.Leads m') : m.Leads m' :=
  Leads.trans ⟨1, rfl⟩ h

/-- The moment after an action of the function that is active. -/
def after {α : Type} (m : Walk) (x : Eval α) (c : α → Control) : Walk :=
  match x.run m.world with
  | .ok (.ok a) w => { m with control := c a, world := w }
  | .ok (.error v) w => { m with control := .returned v, world := w }
  | .error e w => { m with control := .failed e, world := w }

variable {runs depth : Nat} {m : Walk}

theorem Sound.steps (h : m.Sound runs) (n : Nat) : (Walk.next^[n] m).Sound runs := by
  induction n with
  | zero => exact h
  | succ n ih =>
    rw [Function.iterate_succ_apply']
    exact ih.next

theorem Sound.leads {m' : Walk} (h : m.Sound runs) (leads : m.Leads m') : m'.Sound runs := by
  obtain ⟨n, rfl⟩ := leads
  exact h.steps n

/-- The runs of active functions are runs that there are. -/
theorem Sound.active_lt (h : m.Sound runs) : ∀ r ∈ m.active, r.index < runs := by
  have restores := h.restores
  unfold active
  generalize m.pending = pending at restores ⊢
  induction pending with
  | nil => simp
  | cons p rest ih =>
    cases p with
    | activation callee before caller scope =>
      simp only [List.filterMap_cons, Pending.active?, List.forall_mem_cons]
      exact ⟨restores.1.1, ih restores.2⟩
    | _ => exact ih restores

/-- No more functions are active than may be in all runs together. -/
theorem Sound.length_active_le (h : m.Sound runs) : m.active.length ≤ maxActiveCalls * runs := by
  have total : ∑ i ∈ Finset.range runs, (m.active.map (·.index)).count i = m.active.length := by
    have inside : ∀ i ∈ ((m.active.map (·.index) : List Nat) : Multiset Nat),
        i ∈ Finset.range runs := by
      intro i mem
      obtain ⟨r, active, rfl⟩ := List.mem_map.mp (Multiset.mem_coe.mp mem)
      exact Finset.mem_range.mpr (h.active_lt r active)
    simpa using Multiset.sum_count_eq_card inside
  have each : ∀ i ∈ Finset.range runs, (m.active.map (·.index)).count i ≤ maxActiveCalls := by
    intro i _
    have same : (m.active.map (·.index)).count i = m.active.count ⟨i⟩ :=
      List.count_map_of_injective m.active (fun r : RunId => r.index)
        (fun _ _ => congrArg RunId.mk) ⟨i⟩
    exact same ▸ h.bounded ⟨i⟩
  calc m.active.length = ∑ i ∈ Finset.range runs, (m.active.map (·.index)).count i := total.symm
    _ ≤ (Finset.range runs).card • maxActiveCalls := Finset.sum_le_card_nsmul _ _ _ each
    _ = runs * maxActiveCalls := by rw [Finset.card_range]; rfl
    _ = maxActiveCalls * runs := Nat.mul_comm _ _

/-- The counts are right, and `depth` more closures may be called inside each other, the refused
ones among them. -/
structure Ready (runs depth : Nat) (m : Walk) : Prop where
  sound : m.Sound runs
  room : m.active.length + depth = maxActiveCalls * runs + 1

namespace Ready

theorem goto (h : m.Ready runs depth) (c : Control) : (m.goto c).Ready runs depth :=
  ⟨h.sound.goto c, h.room⟩

theorem push (h : m.Ready runs depth) {p : Pending} (plain : p.active? = none) (c : Control) :
    (m.push p c).Ready runs depth where
  sound := h.sound.push plain c
  room := by
    rw [active_plain plain]
    exact h.room

theorem enter (h : m.Ready runs (depth + 1)) (outer : ScopeId) {run : RunId} (definition : FunDef)
    (receiver : Value) (args : List Value) (inside : run.index < m.world.activeCalls.size)
    (few : m.world.active run < maxActiveCalls) :
    (m.enter outer run definition receiver args).Ready runs depth where
  sound := h.sound.enter inside few
  room := by
    have more : (m.enter outer run definition receiver args).active = run :: m.active := rfl
    have room := h.room
    rw [more, List.length_cons]
    omega

/-- There is always room for one more call, if only to refuse it. -/
theorem depth_pos (h : m.Ready runs depth) : 0 < depth := by
  have few := h.sound.length_active_le
  have room := h.room
  omega

end Ready

/-- A sequence of actions of which the first may end in a `return`. -/
theorem run_bind {α β : Type} (x : Eval α) (f : α → Eval β) (w : World) :
    (x >>= f).run w = match x.run w with
      | .ok (.ok a) w => (f a).run w
      | .ok (.error v) w => .ok (.error v) w
      | .error e w => .error e w := by
  have whole : (x >>= f).run = x.run >>= ExceptT.bindCont f := rfl
  rw [whole, bind_eq]
  generalize x.run w = r
  match r with
  | .ok (.ok a) w => rfl
  | .ok (.error v) w => rfl
  | .error e w => rfl

/-- What a function hands back, by how its body ends. -/
theorem result_eq (x : Eval Unit) (w : World) :
    Eval.result x w = match x.run w with
      | .ok (.ok _) w => .ok .undefined w
      | .ok (.error v) w => .ok v w
      | .error e w => .error e w := by
  unfold Eval.result
  rw [bind_eq]
  cases x.run w with
  | ok r w => cases r <;> rfl
  | error e w => rfl

/-- What awaits a value goes on with it, and lets a `return` or a failure pass. -/
theorem leads_bind {β : Type} (ready : m.Ready runs depth) {p : Pending} (plain : p.active? = none)
    {c : Control} {x : Eval Value} {f : Value → Eval β} {k : β → Control}
    (first : (m.push p c).Leads ((m.push p c).after x .value))
    (later : ∀ v w, ({ m with world := w } : Walk).Ready runs depth →
      (({ m with world := w } : Walk).hand v p).Leads
        (({ m with world := w } : Walk).after (f v) k)) :
    (m.push p c).Leads (m.after (x >>= f) k) := by
  have sound := (ready.sound.push plain c).leads first
  refine first.trans ?_
  clear first
  unfold after at sound ⊢
  rw [run_bind]
  have same : (m.push p c).world = m.world := rfl
  rw [same] at sound ⊢
  generalize x.run m.world = r at sound ⊢
  match r with
  | .ok (.ok v) w =>
    have ready' : ({ m with world := w } : Walk).Ready runs depth :=
      ⟨(sound.pop rfl plain).goto m.control, ready.room⟩
    refine Leads.step ?_
    have handed : ({ m with control := .value v, world := w } : Walk).hand v p =
        ({ m with world := w } : Walk).hand v p := by
      cases p <;> rfl
    have later := later v w ready'
    rw [← handed] at later
    exact later
  | .ok (.error v) w =>
    refine Leads.step ?_
    cases p with
    | activation => cases plain
    | _ => exact .refl _
  | .error e w =>
    refine Leads.step ?_
    cases p with
    | activation => cases plain
    | _ => exact .refl _

/-- What comes after a part of the function that is active goes on with what it comes to. -/
theorem leads_andThen {α β : Type} (ready : m.Ready runs depth) {c : Control} {x : Eval α}
    {f : α → Eval β} {k : α → Control} {k' : β → Control} (first : (m.goto c).Leads (m.after x k))
    (later : ∀ a w, ({ m with world := w } : Walk).Ready runs depth →
      (({ m with world := w } : Walk).goto (k a)).Leads
        (({ m with world := w } : Walk).after (f a) k')) :
    (m.goto c).Leads (m.after (x >>= f) k') := by
  have sound := (ready.sound.goto c).leads first
  refine first.trans ?_
  clear first
  unfold after at sound ⊢
  rw [run_bind]
  generalize x.run m.world = r at sound ⊢
  match r with
  | .ok (.ok a) w => exact later a w ⟨sound.goto m.control, ready.room⟩
  | .ok (.error v) w => exact .refl _
  | .error e w => exact .refl _

/-- An action of the evaluator, as one step carries it out. -/
theorem perform_eq {α : Type} (m : Walk) (x : Action α) (k : α → Control) :
    m.perform x k = m.after (liftM x) k := by
  have whole : (liftM x : Eval α).run = x >>= fun a => pure (.ok a) := rfl
  rw [after, whole, bind_eq, perform]
  cases x m.world <;> rfl

/-- From a part of a tree the steps lead to what its evaluation comes to. -/
def Follows {α : Type} (runs depth : Nat) (c : Control) (x : RunId → ScopeId → Eval α)
    (k : α → Control) : Prop :=
  ∀ m : Walk, m.Ready runs depth → (m.goto c).Leads (m.after (x m.run m.scope) k)

/-- Calls lead to what they come to. -/
def CallsFollow (runs depth : Nat) (call : Caller) : Prop :=
  ∀ callee receiver args, Follows runs depth (.apply callee receiver args)
    (fun _ _ => liftM (callValue call callee receiver args)) .value

theorem leads_perform {α : Type} {x : Action α} {y : Eval α} (same : y = liftM x)
    (k : α → Control) : (m.perform x k).Leads (m.after y k) := by
  rw [same, perform_eq]
  exact .refl _

theorem leads_performThen {α β : Type} (ready : m.Ready runs depth) {x : Action α}
    (keeps : KeepsSteady m.run x) {f : α → Eval β} {y : Eval β} {k : α → Control}
    {k' : β → Control} (same : y = liftM x >>= f)
    (later : ∀ a w, ({ m with world := w } : Walk).Ready runs depth →
      (({ m with world := w } : Walk).goto (k a)).Leads
        (({ m with world := w } : Walk).after (f a) k')) :
    (m.perform x k).Leads (m.after y k') := by
  have sound := ready.sound.perform keeps k
  have lifted : (liftM x : Eval α).run = x >>= fun a => pure (.ok a) := rfl
  rw [same, after, run_bind, lifted, bind_eq]
  unfold perform at sound ⊢
  cases result : x m.world with
  | ok a w =>
    rw [result] at sound
    exact later a w ⟨sound.goto m.control, ready.room⟩
  | error e w => exact .refl _

theorem follows_inductive {call : Caller} (calls : CallsFollow runs depth call) : Expr.Inductive
    (fun e => Follows runs depth (.eval e) (fun run scope => e.eval call run scope) .value)
    (fun es =>
      (∀ callee receiver done, Follows runs depth (.args callee receiver done es)
        (fun run scope => Expr.evalAll call run scope es)
        fun vs => .args callee receiver (done ++ vs) []) ∧
      Follows runs depth (.block es) (fun run scope => Expr.evalBlock call run scope es)
        fun _ => .value .undefined)
    (fun fs => ∀ done, Follows runs depth (.entries done fs)
      (fun run scope => Expr.evalFields call run scope fs) fun t => .entries (done ++ t) []) where
  literal s v m ready := .step (.refl _)
  var s x m ready := .step (.refl _)
  assign s x declare e ih m ready := by
    refine .step ?_
    simp only [Expr.eval]
    refine leads_bind ready rfl (ih _ (ready.push rfl _)) fun v w ready => leads_perform ?_ _
    cases declare with
    | true => simp [Walk.bind]
    | false =>
      simp only [Bool.false_eq_true, ↓reduceIte, Eval.modifyWorld, bind_pure_comp, Walk.bind,
        liftM_map, liftM_modify]
      rfl
  field s r x ih m ready := by
    refine .step ?_
    simp only [Expr.eval]
    refine leads_bind ready rfl (ih _ (ready.push rfl _)) fun v w ready => leads_perform ?_ _
    simp [readField]
  setField s r x e ihr ihe m ready := by
    refine .step ?_
    simp only [Expr.eval]
    refine leads_bind ready rfl (ihe _ (ready.push rfl _)) fun v w ready => ?_
    refine leads_bind ready rfl (ihr _ (ready.push rfl _)) fun r w ready => leads_perform ?_ _
    simp only [writeField, Eval.modifyWorld, bind_pure_comp, liftM_bind, liftM_map, liftM_modify]
    rfl
  call s f args ihf ihargs m ready := by
    refine .step ?_
    simp only [Expr.eval]
    refine leads_bind ready rfl (ihf _ (ready.push rfl _)) fun v w ready => ?_
    refine leads_andThen ready (ihargs.1 v .undefined [] _ ready) fun vs w ready => ?_
    exact .step (calls v .undefined vs _ (ready.goto _))
  methodCall s r x args ihr ihargs m ready := by
    refine .step ?_
    simp only [Expr.eval]
    refine leads_bind ready rfl (ihr _ (ready.push rfl _)) fun v w ready => ?_
    have same : (do
        let id ← fieldOwner x v
        let method := (← get).field id x
        let values ← Expr.evalAll call m.run m.scope args
        callValue call method v values : Eval Value) =
        (liftM (readField x v) >>= fun method => do
          let values ← Expr.evalAll call m.run m.scope args
          callValue call method v values) := by
      simp [readField]
    refine leads_performThen ready (.readField x v) same fun method w ready => ?_
    refine leads_andThen ready (ihargs.1 method v [] _ ready) fun vs w ready => ?_
    exact .step (calls method v vs _ (ready.goto _))
  function s name params body ih m ready := by
    refine .step ?_
    simp only [Expr.eval]
    exact leads_perform rfl _
  object s fields ih m ready := by
    refine .step ?_
    simp only [Expr.eval]
    refine leads_andThen ready (ih [] _ ready) fun t w ready => .step ?_
    have same : (do
        let w ← get
        set (w.addObject (.plain t)).2
        return .object (w.addObject (.plain t)).1 : Eval Value) = liftM (newObject t) := by
      simp [newObject]
    exact leads_perform same _
  cond s c t e ihc iht ihe m ready := by
    refine .step ?_
    simp only [Expr.eval]
    refine leads_bind ready rfl (ihc _ (ready.push rfl _)) fun v w ready => ?_
    simp only [hand]
    split
    · exact leads_andThen ready (ihe.2 _ ready) fun _ w ready => .refl _
    · exact leads_andThen ready (iht.2 _ ready) fun _ w ready => .refl _
  ret s e ih m ready := by
    refine .step ?_
    simp only [Expr.eval]
    exact leads_bind ready rfl (ih _ (ready.push rfl _)) fun v w ready => .refl _
  block s body ih m ready := by
    refine .step ?_
    simp only [Expr.eval]
    exact leads_andThen ready (ih.2 _ ready) fun _ w ready => .refl _
  nil := by
    refine ⟨fun callee receiver done m ready => ?_, fun m ready => .step (.refl _)⟩
    have here : m.goto (.args callee receiver done []) =
        m.goto (.args callee receiver (done ++ []) []) := by rw [List.append_nil]
    exact .of_eq here
  cons e es ihe ihes := by
    refine ⟨fun callee receiver done m ready => .step ?_, fun m ready => .step ?_⟩
    · simp only [Expr.evalAll]
      refine leads_bind ready rfl (ihe _ (ready.push rfl _)) fun v w ready => ?_
      refine leads_andThen ready (ihes.1 callee receiver (done ++ [v]) _ ready) fun vs w ready => ?_
      rw [List.append_assoc]
      exact .refl _
    · simp only [Expr.evalBlock]
      refine leads_bind ready rfl (ihe _ (ready.push rfl _)) fun v w ready => ?_
      exact ihes.2 _ ready
  noFields done m ready := by
    have here : m.goto (.entries done []) = m.goto (.entries (done ++ []) []) := by
      rw [List.append_nil]
    exact .of_eq here
  consField x e fs ihe ihfs done m ready := by
    refine .step ?_
    simp only [Expr.evalFields]
    refine leads_bind ready rfl (ihe _ (ready.push rfl _)) fun v w ready => ?_
    refine leads_andThen ready (ihfs (done ++ [(x, v)]) _ ready) fun t w ready => ?_
    rw [List.append_assoc]
    exact .refl _

/-- Moments are alike in which equal actions are carried out. -/
theorem perform_congr {α : Type} {x y : Action α} (h : x m.world = y m.world) (k : α → Control) :
    m.perform x k = m.perform y k := by
  rw [perform, perform, h]

/-- A call of an object, by what the object is. -/
theorem callValue_object (depth : Nat) (id : ObjectId) (receiver : Value) (args : List Value)
    (w : World) : callValue (invokeWithin (depth + 1)) (.object id) receiver args w =
      match (w.object id).body with
      | .plain => .error (w.notAFunction (.object id)) w
      | .compiled _ => .error (.needsMachine (w.object id).name) w
      | .native .print => printValues args w
      | .native (.operator op) => callOperator op args w
      | .native (.foreign respond) => callHost respond receiver args w
      | .native (.closure outer run definition) =>
        callClosure (invokeWithin depth) (w.object id).name outer run definition receiver args w := by
  have whole : callValue (invokeWithin (depth + 1)) (.object id) receiver args w =
      (if (w.object id).isCallable then invokeWithin (depth + 1) id receiver args
        else throw (w.notAFunction (.object id))) w := rfl
  rw [whole, HostObject.isCallable]
  cases body : (w.object id).body with
  | plain => rfl
  | compiled code =>
    simp only [invokeWithin, bind_eq, get_eq, body, ↓reduceIte]
    rfl
  | native n => cases n <;> simp only [invokeWithin, bind_eq, get_eq, body, ↓reduceIte]

/-- A call of a closure, by its arguments and the calls that are active. -/
theorem callClosure_eq (call : Caller) (name : String) (outer : ScopeId) (run : RunId)
    (definition : FunDef) (receiver : Value) (args : List Value) (w : World) :
    callClosure call name outer run definition receiver args w =
      if args.length ≠ definition.params.length then
        .error (.wrongArity name definition.params.length args.length) w
      else if maxActiveCalls ≤ w.active run then .error (.tooManyCalls name) w
      else
        let inner := w.addScope (World.callScope outer receiver definition.params args)
        whileActive run (Eval.result (Expr.evalBlock call run inner.1 definition.body)) inner.2 := by
  unfold callClosure
  split
  · rfl
  · simp only [bind_eq, get_eq]
    split
    · rfl
    · rfl

/-- The end of a call leaves its count as it was, and its result to the caller. -/
theorem leads_leave {outer : ScopeId} {run : RunId} {definition : FunDef} {receiver : Value}
    {args : List Value} {x : Eval Unit} {y : Action Value}
    (same : y m.world = whileActive run (Eval.result x)
      (m.world.addScope (World.callScope outer receiver definition.params args)).2)
    (body : (m.enter outer run definition receiver args).Leads
      ((m.enter outer run definition receiver args).after x fun _ => .value .undefined)) :
    (m.enter outer run definition receiver args).Leads (m.perform y .value) := by
  refine body.trans (.step ?_)
  have world : (m.enter outer run definition receiver args).world =
      (m.world.addScope (World.callScope outer receiver definition.params args)).2.setActive run
        ((m.world.addScope (World.callScope outer receiver definition.params args)).2.active run
          + 1) := rfl
  rw [perform, same, whileActive, result_eq, ← world, after]
  generalize x.run (m.enter outer run definition receiver args).world = r
  match r with
  | .ok (.ok _) w => exact .refl _
  | .ok (.error v) w => exact .refl _
  | .error e w => exact .refl _

/-- A call leads to what it comes to. Where no depth is left, more functions would be active than
may be. -/
theorem calls_follow (runs depth : Nat) : CallsFollow runs depth (invokeWithin depth) := by
  induction depth with
  | zero => exact fun callee receiver args m ready => absurd ready.depth_pos (Nat.lt_irrefl 0)
  | succ depth ih =>
    intro callee receiver args m ready
    refine .step ?_
    show (m.apply callee receiver args).Leads _
    rw [← perform_eq]
    cases callee with
    | object id =>
      have whole := callValue_object depth id receiver args m.world
      unfold Walk.apply
      simp only
      split
      case h_6 outer run definition body =>
        rw [body] at whole
        simp only at whole
        rw [callClosure_eq] at whole
        split
        · rename_i arity
          rw [if_pos arity] at whole
          rw [perform_congr (y := fun w => .error _ w) whole]
          exact .refl _
        · rename_i arity
          rw [if_neg arity] at whole
          split
          · rename_i full
            rw [if_pos full] at whole
            rw [perform_congr (y := fun w => .error _ w) whole]
            exact .refl _
          · rename_i room
            rw [if_neg room] at whole
            have entered := ready.enter outer definition receiver args
              (ready.sound.known _ _ _ _ body) (Nat.lt_of_not_le room)
            exact leads_leave whole (((follows_inductive ih).list definition.body).2 _ entered)
      all_goals
        rename_i body
        rw [body] at whole
        exact .of_eq (perform_congr whole.symm _)
    | _ => exact .refl _

end Walk
end TaggedScript
