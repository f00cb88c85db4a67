import TaggedScript.Proofs.Agreement.Entering
import TaggedScript.Proofs.Agreement.Expressions

/-!
Calls go together on both sides: the scope of a call has what the slots have, and both last as long
as the body of the function.
-/
namespace TaggedScript

open TaggedScript.Expr

section
variable {program : Program} {depth limit : Nat} {run : RunId}
  (calls : CallsTogether program depth limit)
include calls

/-- A statement that declares the next variable goes together. After it that variable is no longer
one of those to come. -/
theorem together_declaration (scope : ScopeId) (locals : List String) (made : Nat) {x : String}
    {later : List String} (new : x ∉ later) (s : Span) {value : Expr}
    (permits : ∀ p ∈ value.parts, (Place.inner scope locals (x :: later) made).Permits p)
    (first : Nat) (pairs : List Value) :
    Together program (.inner scope locals (x :: later) made) (.inner scope locals later made) Same
      pairs ((assign s x true value).watch (Watched.invokeWithin depth) run scope)
      ((assign s x true value).meaning
        (Meaning.apply program (Meaning.callWithin program limit)) locals first) := by
  simp only [watch, meaning]
  have given := (together_inductive run calls).expr value
    (.inner scope locals (x :: later) made) 0 first ⟨permits, trivial⟩ pairs
  exact given.bind ⟨rfl, Nat.le_refl _⟩ fun more _ v v' same =>
    (together_declare_inner new same).bind (.refl _) fun more' grows _ _ _ =>
      .pure fun _ longer => same.mono (grows.trans longer)

/-- The statements of a function go together, each of which may declare the next variable. -/
theorem together_statements (scope : ScopeId) (locals : List String) (made : Nat) {es : List Expr}
    (direct : ∀ e ∈ es, ∀ p ∈ e.inside, p.declares? = none)
    (initial : ∀ e ∈ es, ∀ x, e.declares? = some x → ∀ p ∈ e.inside, x ∉ p.mentioned)
    (later : es.Pairwise fun e next =>
      ∀ x, next.declares? = some x → ∀ p ∈ e.parts, x ∉ p.mentioned)
    (once : (es.filterMap declares?).Nodup)
    (parts : ∀ p ∈ partsAll es, p.definition? = none ∧ thisName ∉ p.bound ∧ printName ∉ p.bound)
    (first : Nat) (pairs : List Value) :
    Together program (.inner scope locals (es.filterMap declares?) made)
      (.inner scope locals [] made) anyValues pairs
      (watchBlock (Watched.invokeWithin depth) run scope es)
      (meaningBlock (Meaning.apply program (Meaning.callWithin program limit)) locals first
        es) := by
  induction es generalizing first pairs with
  | nil =>
    simp only [watchBlock, meaningBlock]
    exact .pure fun _ _ => trivial
  | cons e es ih =>
    rw [List.forall_mem_cons] at direct initial
    rw [List.pairwise_cons] at later
    rw [partsAll, List.forall_mem_append] at parts
    have unread (x : String) (mem : x ∈ es.filterMap declares?) (p : Expr) (part : p ∈ e.parts) :
        x ∉ p.mentioned := by
      obtain ⟨next, listed, declares⟩ := List.mem_filterMap.mp mem
      exact later.1 next listed x declares p part
    simp only [watchBlock, meaningBlock]
    cases own : e.declares? with
    | none =>
      rw [List.filterMap_cons_none own] at once ⊢
      have permits (p : Expr) (part : p ∈ e.parts) :
          (Place.inner scope locals (es.filterMap declares?) made).Permits p := by
        obtain ⟨definition, this, print⟩ := parts.1 p part
        refine ⟨this, print, fun x mentioned mem => unread x mem p part mentioned, definition, ?_⟩
        rw [parts_eq, List.mem_cons] at part
        obtain rfl | inside := part
        · exact own
        · exact direct.1 p inside
      have statement := (together_inductive run calls).expr e
        (.inner scope locals (es.filterMap declares?) made) 0 first ⟨permits, trivial⟩ pairs
      exact statement.bind ⟨rfl, Nat.le_refl _⟩ fun more _ _ _ _ =>
        ih direct.2 initial.2 later.2 once parts.2 _ more
    | some x =>
      rw [List.filterMap_cons_some own] at once ⊢
      rw [List.nodup_cons] at once
      have permits (p : Expr) (part : p ∈ e.inside) :
          (Place.inner scope locals (x :: es.filterMap declares?) made).Permits p := by
        have listed : p ∈ e.parts := by
          rw [parts_eq]
          exact List.mem_cons_of_mem e part
        obtain ⟨definition, this, print⟩ := parts.1 p listed
        refine ⟨this, print, fun y mentioned mem => ?_, definition, direct.1 p part⟩
        obtain rfl | mem := List.mem_cons.mp mem
        · exact initial.1 y own p part mentioned
        · exact unread y mem p listed mentioned
      obtain ⟨s, value, rfl⟩ := eq_assign_of_declares own
      have statement := @together_declaration _ _ _ run calls scope locals made _ _ once.1 s _
        permits first pairs
      exact statement.bind ⟨rfl, Nat.le_refl _⟩ fun more _ _ _ _ =>
        ih direct.2 initial.2 later.2 once.2 parts.2 _ more

/-- The body of a function goes together. -/
theorem together_body {f : FunDef} (sound : f.Sound) (scope : ScopeId) (locals : List String)
    (made first : Nat) (pairs : List Value) :
    Together program (.inner scope locals f.variables made) (.inner scope locals [] made) anyValues
      pairs (watchBlock (Watched.invokeWithin depth) run scope f.body)
      (meaningBlock (Meaning.apply program (Meaning.callWithin program limit)) locals first
        f.body) :=
  together_statements calls scope locals made sound.ordered.direct sound.ordered.initial
    sound.ordered.later sound.ordered.once sound.parts first pairs

end

section
variable {program : Program} {p : Place} {pairs : List Value} {w v : World} {σ : Memory}

/-- Where a function is entered, both sides agree inside it. -/
theorem Place.Here.enter (here : p.Here program pairs w σ) {f : FunDef} (sound : f.Sound)
    {receiver receiver' : Value} {args args' : List Value} (count : args.length = f.params.length)
    (receivers : Same pairs receiver receiver') (same : List.Forall₂ (Same pairs) args args')
    (first : Nat) (run : RunId) (n : Nat) :
    w.Kept World.globalScope
      ((w.addScope (World.callScope World.globalScope receiver f.params args)).2.setActive run n) ∧
    (Place.inner ⟨w.scopes.size⟩ (f.procedure first).locals f.variables p.made).Here program pairs
      ((w.addScope (World.callScope World.globalScope receiver f.params args)).2.setActive run n)
      { σ with slots := (f.procedure first).slots receiver' args' } := by
  generalize made :
    (w.addScope (World.callScope World.globalScope receiver f.params args)).2.setActive run n = v
  have scopes : v.scopes = w.scopes.push
      (World.callScope World.globalScope receiver f.params args) := by rw [← made]; rfl
  have scope (id : ScopeId) (inside : id.index < w.scopes.size) : v.scope id = w.scope id := by
    rw [World.scope, World.scope, scopes, Array.getD_eq_getD_getElem?, Array.getD_eq_getD_getElem?,
      Array.getElem?_push_lt inside, Array.getElem?_eq_getElem inside]
  have size : w.scopes.size ≤ v.scopes.size := by
    rw [scopes, Array.size_push]
    exact Nat.le_succ _
  have rooted := here.agree.globals.rooted.1
  have agree : Agree program p.made pairs v
      { σ with slots := (f.procedure first).slots receiver' args' } :=
    here.agree.locals (by rw [← made]; rfl) (by rw [← made]; rfl) (by rw [← made]; rfl)
      (Nat.lt_of_lt_of_le rooted size)
      (fun x => by rw [World.global_eq, World.global_eq, scope World.globalScope rooted]) rfl rfl
  exact ⟨⟨size, fun id inside _ _ => scope id inside⟩, agree,
    sameLocals_call sound rooted count receivers same first scopes⟩

/-- Where a function is left, both sides agree at the place where it was called. -/
theorem Place.Here.leave (here : p.Here program pairs w σ) (entered : w.Kept World.globalScope v)
    {scope : ScopeId} (new : w.scopes.size ≤ scope.index) {more : List Value} {u : World}
    {τ : Memory} (grows : pairs <+: more) (agree : Agree program p.made more u τ)
    (kept : v.Kept scope u) (run : RunId) (n : Nat) :
    p.Here program more (u.setActive run n) { τ with slots := σ.slots } ∧
      w.Kept p.scope (u.setActive run n) := by
  have outer : w.Kept World.globalScope (u.setActive run n) := by
    refine ⟨Nat.le_trans entered.size kept.size, fun id inside inner _ => ?_⟩
    have apart : id ≠ scope := by
      rintro rfl
      omega
    exact (kept.others id (Nat.lt_of_lt_of_le inside entered.size) apart inner).trans
      (entered.others id inside inner inner)
  have after : Agree program p.made more (u.setActive run n) { τ with slots := σ.slots } :=
    agree.locals rfl rfl rfl agree.globals.rooted.1 (World.global_of_scopes rfl) rfl rfl
  exact ⟨⟨after, here.settled.later grows outer⟩, outer.any p.scope⟩

/-- A call ends as the body of the function does. -/
theorem EndsAlike.leave {run : RunId} {scope : ScopeId} {locals : List String} {x : Watched Unit}
    {q : Procedure} {apply : Applier} {receiver : Value} {args : List Value}
    (here : p.Here program pairs w σ) (new : w.scopes.size ≤ scope.index)
    (entered : w.Kept World.globalScope (v.setActive run (v.active run + 1)))
    (body : EndsAlike program (.inner scope locals [] p.made) anyValues pairs
      (v.setActive run (v.active run + 1)) (x (v.setActive run (v.active run + 1)))
      (meaningBlock apply q.locals q.first q.body { σ with slots := q.slots receiver args })) :
    EndsAlike program p Same pairs w (Watched.function run x v) (q.run apply receiver args σ) := by
  simp only [Watched.function, Procedure.run]
  generalize x (v.setActive run (v.active run + 1)) = r at body
  generalize meaningBlock apply q.locals q.first q.body _ = s at body
  cases body with
  | excused known =>
    cases known with
    | exposed => exact .excused .exposed
    | declared x => exact .excused (.declared x)
    | tooMany f => exact .excused (.tooMany f)
  | noRoom => exact .noRoom
  | ok grows inside kept _ =>
    obtain ⟨after, outer⟩ := here.leave entered new grows inside.agree kept run (v.active run)
    exact .ok grows after outer .undefined
  | returned grows agree kept same =>
    obtain ⟨after, outer⟩ := here.leave entered new grows agree kept run (v.active run)
    exact .ok grows after outer same
  | failed output => exact .failed output

/-- A call of a closure goes together with the call of its function. -/
theorem together_callClosure {depth limit : Nat} (calls : CallsTogether program depth limit)
    {f : FunDef} (sound : f.Sound) (run : RunId) (first : Nat) {receiver receiver' : Value}
    {args args' : List Value} (receivers : Same pairs receiver receiver')
    (same : List.Forall₂ (Same pairs) args args') (here : p.Here program pairs w σ) :
    EndsAlike program p Same pairs w
      (Watched.callClosure (Watched.invokeWithin depth) f.displayName World.globalScope run f
        receiver args w)
      ((if args'.length = (f.procedure first).arity then
          Meaning.callWithin program (limit + 1) (f.procedure first) receiver' args'
        else Meaning.fail (.wrongArity f.displayName f.params.length args'.length)) σ) := by
  have lengths := same.length_eq
  unfold Watched.callClosure
  by_cases count : args.length = f.params.length
  · have arity : args'.length = (f.procedure first).arity := lengths.symm.trans count
    rw [if_pos arity]
    by_cases full : maxActiveCalls ≤ w.active run
    · simp only [count, ne_eq, not_true_eq_false, ↓reduceIte, bind_eq, get_eq, full]
      exact .excused (.tooMany _)
    · simp only [count, ne_eq, not_true_eq_false, ↓reduceIte, bind_eq, get_eq, full, set_eq]
      generalize counted : ((w.addScope (World.callScope World.globalScope receiver f.params
        args)).2.active run + 1) = n
      obtain ⟨kept, inside⟩ := here.enter sound count receivers same first run n
      have body := @together_body program depth limit run calls f sound _ _ p.made first pairs pairs
        (List.prefix_refl _) _ _ inside
      rw [← counted] at kept body
      exact .leave here (Nat.le_refl _) kept body
  · have wrong : ¬ args'.length = (f.procedure first).arity := fun e => count (lengths.trans e)
    rw [if_neg wrong]
    simp only [ne_eq, count, not_false_eq_true, ↓reduceIte]
    rw [← lengths]
    exact .failed here.agree.output

/-- What is no object cannot be called on either side. -/
theorem EndsAlike.notAFunction (here : p.Here program pairs w σ) {callee callee' : Value}
    (same : Same pairs callee callee') (none : ∀ id, callee ≠ .object id) :
    EndsAlike program p Same pairs w (.error (.failed (w.notAFunction callee)) w)
      (.error (.failed (σ.world.notAFunction callee')) σ) := by
  have failure : w.notAFunction callee = σ.world.notAFunction callee' := by
    cases same with
    | object => exact absurd rfl (none _)
    | undefined | bool | int | str => rfl
  rw [failure]
  exact .failed here.agree.output

/-- A call of an object goes together if a call of a closure does. -/
theorem together_callObject {depth limit : Nat} {id : ObjectId} {callee' receiver receiver' : Value}
    {args args' : List Value} (here : p.Here program pairs w σ)
    (found : pairs[id.index]? = some callee') (same : List.Forall₂ (Same pairs) args args')
    (closures : ∀ run f g first, (w.object id).body = .native (.closure World.globalScope run f) →
      (w.object id).name = f.displayName → f.Sound → callee' = .object g →
      program g = some (f.procedure first) →
      EndsAlike program p Same pairs w (Watched.invokeWithin depth id receiver args w)
        (Meaning.apply program (Meaning.callWithin program limit) callee' receiver' args' σ)) :
    EndsAlike program p Same pairs w
      (Watched.callValue (Watched.invokeWithin depth) (.object id) receiver args w)
      (Meaning.apply program (Meaning.callWithin program limit) callee' receiver' args' σ) := by
  have callable := here.agree.objects.callable_iff found
  simp only [Watched.callValue, bind_eq, get_eq]
  cases here.agree.objects.stands id _ found with
  | record body =>
    simp only [HostObject.isCallable, body, Bool.false_eq_true, ↓reduceIte]
    exact .excused .exposed
  | @function g twins callable' =>
    rw [if_pos (callable.mpr ⟨g, rfl⟩)]
    cases twins with
    | closure body name sound known => exact closures _ _ g _ body name sound rfl known
    | builtin builtin body body' none =>
      have unknown :
          Meaning.apply program (Meaning.callWithin program limit) (.object g) receiver' args' =
          Meaning.outside (callValue invoke (.object g) receiver' args') := by
        rw [Meaning.apply, none]
      rw [unknown]
      unfold Watched.invokeWithin
      simp only [bind_eq, get_eq, body]
      obtain rfl | ⟨op, rfl⟩ := builtin
      · rw [Meaning.outside, callValue_print body']
        exact .print here same
      · rw [Meaning.outside, callValue_operator body']
        exact .operator here same op

/-- Calls go together however many of them may be inside each other, if no fewer may on the side of
the meaning. -/
theorem callsTogether (program : Program) {depth limit : Nat} (enough : depth ≤ limit) :
    CallsTogether program depth limit := by
  induction depth generalizing limit with
  | zero =>
    intro p pairs callee callee' receiver receiver' args args' callees receivers all
      more grows w σ here
    cases callees with
    | undefined | bool | int | str => exact .notAFunction here (by constructor) (by simp)
    | @object id _ found =>
      apply together_callObject here (getElem?_mono grows found) (same_all_mono grows all)
      intro run f g first body _ _ _ _
      unfold Watched.invokeWithin
      simp only [bind_eq, get_eq, body]
      exact .excused (.tooMany _)
  | succ depth ih =>
    intro p pairs callee callee' receiver receiver' args args' callees receivers all
      more grows w σ here
    cases callees with
    | undefined | bool | int | str => exact .notAFunction here (by constructor) (by simp)
    | @object id _ found =>
      apply together_callObject here (getElem?_mono grows found) (same_all_mono grows all)
      rintro run f g first body name sound rfl known
      obtain ⟨limit, rfl⟩ := Nat.exists_eq_add_of_lt enough
      have inside : depth ≤ depth + limit := Nat.le_add_right _ _
      have call := together_callClosure (ih inside) sound run first (receivers.mono grows)
        (same_all_mono grows all) here
      unfold Watched.invokeWithin
      simp only [bind_eq, get_eq, body, name, Meaning.apply, known]
      exact call

end
end TaggedScript
