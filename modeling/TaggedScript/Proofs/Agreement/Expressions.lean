import TaggedScript.Proofs.Agreement.Builtins

/-!
Expressions go together on both sides, if calls do.
-/
namespace TaggedScript

open TaggedScript.Expr

/-- Functions stand outside of others, and in those there are no functions and no declarations that
the body does not make itself. -/
def Place.Allows (p : Place) (e : Expr) : Prop :=
  match p with
  | .top _ => ∀ f, e.definition? = some f → f.Sound
  | .inner .. => e.definition? = none ∧ e.declares? = none

/-- An expression itself may stand at a place. -/
structure Place.Permits (p : Place) (e : Expr) : Prop where
  this : thisName ∉ e.bound
  print : printName ∉ e.bound
  now : ∀ x ∈ e.mentioned, x ∉ p.later
  here : p.Allows e

/-- The functions that are made next, from the place `first` on, are those of the program. -/
def Place.Makes (program : Program) (p : Place) (first : Nat) (ps : List Procedure) : Prop :=
  match p with
  | .top made => made = first ∧ ∀ i q, ps[i]? = some q → program ⟨first + i⟩ = some q
  | .inner .. => True

/-- Expressions with these expressions and functions in them may stand at a place. -/
structure Place.Takes (program : Program) (p : Place) (first : Nat) (parts : List Expr)
    (ps : List Procedure) : Prop where
  parts : ∀ e ∈ parts, p.Permits e
  functions : p.Makes program first ps

namespace Place

theorem Permits.next {p : Place} {e : Expr} (h : p.Permits e) (n : Nat) : (p.next n).Permits e := by
  cases p <;> exact ⟨h.this, h.print, h.now, h.here⟩

namespace Takes
variable {program : Program} {p : Place} {n first k : Nat} {e : Expr} {es fs : List Expr}
  {ps qs : List Procedure}

theorem own (h : p.Takes program first (e :: es) ps) : p.Permits e :=
  h.parts e List.mem_cons_self

theorem rest (h : p.Takes program first (e :: es) ps) : p.Takes program first es ps :=
  ⟨fun q mem => h.parts q (List.mem_cons_of_mem e mem), h.functions⟩

theorem left (h : p.Takes program first (es ++ fs) (ps ++ qs)) : p.Takes program first es ps where
  parts q mem := h.parts q (List.mem_append_left fs mem)
  functions := by
    cases p with
    | inner => trivial
    | top made =>
      obtain ⟨start, known⟩ := h.functions
      refine ⟨start, fun i q found => known i q ?_⟩
      rw [List.getElem?_append_left (List.getElem?_eq_some_iff.mp found).1, found]

theorem right (h : (p.next n).Takes program first (es ++ fs) (ps ++ qs)) (size : ps.length = k) :
    (p.next (n + k)).Takes program (first + k) fs qs where
  parts q mem := by
    rw [next_add]
    exact (h.parts q (List.mem_append_right es mem)).next k
  functions := by
    cases p with
    | inner => trivial
    | top made =>
      obtain ⟨start, known⟩ := h.functions
      refine ⟨by rw [← start, Nat.add_assoc], fun i q found => ?_⟩
      rw [Nat.add_assoc]
      apply known
      rw [List.getElem?_append_right (by omega), ← size, Nat.add_sub_cancel_left, found]

end Takes
end Place

/-- Calls come to the same on both sides, when so many others may be inside each other. -/
def CallsTogether (program : Program) (depth limit : Nat) : Prop :=
  ∀ (p : Place) (pairs : List Value) (callee callee' receiver receiver' : Value)
    (args args' : List Value), Same pairs callee callee' → Same pairs receiver receiver' →
    List.Forall₂ (Same pairs) args args' →
    Together program p p Same pairs
      (Watched.callValue (Watched.invokeWithin depth) callee receiver args)
      (Meaning.apply program (Meaning.callWithin program limit) callee' receiver' args')

namespace Together
variable {program : Program} {p q : Place} {pairs : List Value}

/-- Statements go together where they are evaluated for what they do. -/
theorem undefined {x : Watched Unit} {y : Meaning Unit}
    (h : Together program p q anyValues pairs x y) :
    Together program p q Same pairs (x >>= fun _ => Pure.pure .undefined)
      (y >>= fun _ => Pure.pure .undefined) :=
  h.bind (.refl _) fun _ _ _ _ _ => .pure fun _ _ => .undefined

/-- A test selects the same branch on both sides. -/
theorem branch {v v' : Value} (same : Same pairs v v') {yes no : Watched Value}
    {yes' no' : Meaning Value} (whenTrue : Together program p q Same pairs yes yes')
    (whenFalse : Together program p q Same pairs no no') :
    Together program p q Same pairs (if v = .bool false then no else yes)
      (if v' = .bool false then no' else yes') := by
  intro more grows w σ here
  have selects := (same.mono grows).eq_false_iff here.agree.objects
  by_cases false : v = .bool false
  · rw [if_pos false, if_pos (selects.mp false)]
    exact whenFalse more grows w σ here
  · rw [if_neg false, if_neg fun eq => false (selects.mpr eq)]
    exact whenTrue more grows w σ here

end Together

section
variable {program : Program} {depth limit : Nat} (run : RunId)
  (calls : CallsTogether program depth limit)
include calls

/-- Trees come to the same under watch and as meanings. -/
theorem together_inductive : Expr.Inductive
    (fun e => ∀ (p : Place) n first, (p.next n).Takes program first e.parts (e.procedures first) →
      ∀ pairs, Together program (p.next n) (p.next (n + e.functionCount)) Same pairs
        (e.watch (Watched.invokeWithin depth) run p.scope)
        (e.meaning (Meaning.apply program (Meaning.callWithin program limit)) p.locals first))
    (fun es => ∀ (p : Place) n first,
      (p.next n).Takes program first (partsAll es) (proceduresAll first es) → ∀ pairs,
      Together program (p.next n) (p.next (n + functionCountAll es))
        (sameValues es.length) pairs
        (watchAll (Watched.invokeWithin depth) run p.scope es)
        (meaningAll (Meaning.apply program (Meaning.callWithin program limit)) p.locals first es) ∧
      Together program (p.next n) (p.next (n + functionCountAll es)) anyValues pairs
        (watchBlock (Watched.invokeWithin depth) run p.scope es)
        (meaningBlock (Meaning.apply program (Meaning.callWithin program limit)) p.locals first es))
    (fun fs => ∀ (p : Place) n first,
      (p.next n).Takes program first (partsFields fs) (proceduresFields first fs) → ∀ pairs,
      Together program (p.next n) (p.next (n + functionCountFields fs)) SameFields pairs
        (watchFields (Watched.invokeWithin depth) run p.scope fs)
        (meaningFields (Meaning.apply program (Meaning.callWithin program limit)) p.locals first
          fs)) where
  literal s v p n first takes pairs := by
    simp only [watch, meaning]
    apply Together.pure
    intro more grows
    cases v <;> constructor
  var s x p n first takes pairs := by
    simp only [watch, meaning]
    have now := takes.own.now x (by simp [mentioned])
    have reads := @together_read program _ pairs _ now
    rwa [Place.scope_next, Place.locals_next] at reads
  assign s x declare e ih p n first takes pairs := by
    simp only [watch, meaning]
    apply (ih p n first takes.rest pairs).bind (.refl _)
    intro more grows v v' same
    have now := takes.own.now x (by simp [mentioned])
    have this : x ≠ thisName := fun eq => takes.own.this (by simp [bound, eq])
    have print : x ≠ printName := fun eq => takes.own.print (by simp [bound, eq])
    have done (q : Place) : Together program q q Same more (pure v) (pure v') :=
      .pure fun _ grows => same.mono grows
    cases declare with
    | false =>
      rw [Place.later_next, ← p.later_next (n + e.functionCount)] at now
      have writes := @together_write program _ _ _ now this print _ _ same
      rw [Place.scope_next, Place.locals_next] at writes
      exact writes.bind (.refl _) fun _ grows' _ _ _ => (done _).mono grows'
    | true =>
      cases p with
      | inner => cases takes.own.here.2
      | top made =>
        exact (together_declare_top this print same).bind (.refl _) fun _ grows' _ _ _ =>
          (done _).mono grows'
  field s r x ih p n first takes pairs := by
    simp only [watch, meaning]
    exact (ih p n first takes.rest pairs).bind (.refl _) fun more grows receiver receiver' same =>
      together_getField same x
  setField s r x e ihr ihe p n first takes pairs := by
    simp only [watch, meaning, functionCount, ← Nat.add_assoc]
    have size := length_procedures e first
    apply (ihe p n first takes.rest.left pairs).bind (.of_le p (Nat.le_add_right _ _))
    intro more grows v v' same
    apply (ihr p _ _ (takes.rest.right size) more).bind (.refl _)
    intro more' grows' receiver receiver' same'
    exact together_setField same' x (same.mono grows')
  call s f args ihf ihargs p n first takes pairs := by
    have size := length_procedures f first
    by_cases printed : isPrint p.locals f args = true
    · obtain ⟨span, arg, rfl, rfl, -⟩ := eq_of_isPrint printed
      have argument := @Place.Takes.right program p n first 0 _ _ [] _ takes.rest rfl
      simp only [watch, meaning, printed, ↓reduceIte, functionCount, Nat.zero_add]
      intro more grows w σ here
      have callee := here.lookup_print
      rw [Place.scope_next] at callee
      have shortcut := together_printed (ihargs p n first argument more).1 depth more
        (List.prefix_refl _) w σ here
      simp only [bind_eq, get_eq, pure_eq, callee] at shortcut ⊢
      exact shortcut
    · simp only [watch, meaning, printed, functionCount, ← Nat.add_assoc]
      apply (ihf p n first takes.rest.left pairs).bind (.of_le p (Nat.le_add_right _ _))
      intro more grows callee callee' same
      apply (ihargs p _ _ (takes.rest.right size) more).1.bind (.refl _)
      intro more' grows' values values' same'
      exact calls _ more' _ _ _ _ _ _ (same.mono grows') .undefined same'.2
  methodCall s r x args ihr ihargs p n first takes pairs := by
    have size := length_procedures r first
    simp only [watch, meaning, functionCount, ← Nat.add_assoc]
    apply (ihr p n first takes.rest.left pairs).bind (.of_le p (Nat.le_add_right _ _))
    intro more grows receiver receiver' same
    have method := @together_getField program (p.next (n + r.functionCount)) _ _ _ same x
    have before := Place.Before.of_le p
      (Nat.le_add_right (n + r.functionCount) (functionCountAll args))
    have all := method.bind before (S := Same) (f := fun method => do
        let values ← watchAll (Watched.invokeWithin depth) run p.scope args
        Watched.callValue (Watched.invokeWithin depth) method receiver values)
      (g := fun method => do
        let values ← meaningAll (Meaning.apply program (Meaning.callWithin program limit)) p.locals
          (first + r.functionCount) args
        Meaning.apply program (Meaning.callWithin program limit) method receiver' values) (by
      intro more' grows' method method' same'
      apply (ihargs p _ _ (takes.rest.right size) more').1.bind (.refl _)
      intro more'' grows'' values values' same''
      exact calls _ more'' _ _ _ _ _ _ (same'.mono grows'')
        (same.mono (grows'.trans grows'')) same''.2)
    simpa only [bind_assoc, pure_bind] using all
  function s name params body _ p n first takes pairs := by
    cases p with
    | inner => cases takes.own.here.1
    | top made =>
      obtain ⟨start, known⟩ := takes.functions
      have sound := takes.own.here ⟨name, params, body⟩ rfl
      have named : ∀ x ∈ name, x ≠ thisName ∧ x ≠ printName := by
        intro x mem
        have own : x ∈ (function s name params body).bound :=
          List.mem_append_left _ (Option.mem_toList.mpr mem)
        exact ⟨fun eq => takes.own.this (eq ▸ own), fun eq => takes.own.print (eq ▸ own)⟩
      have size := length_proceduresAll body first
      have found := known (functionCountAll body) _ (by
        rw [procedures, ← size, List.getElem?_concat_length])
      have after : (Place.top made).next (n + (function s name params body).functionCount) =
          .top (first + functionCountAll body + 1) := by
        rw [Place.next, ← start, functionCount, Nat.add_assoc, Nat.add_assoc]
      rw [after]
      simp only [watch, meaning]
      exact together_function sound named run found (start ▸ Nat.le_add_right _ _)
  object s fields ih p n first takes pairs := by
    simp only [watch, meaning]
    exact (ih p n first takes.rest pairs).bind (.refl _) fun more grows table table' same =>
      together_newRecord same
  cond s c t e ihc iht ihe p n first takes pairs := by
    have size := length_procedures c first
    have size' := length_proceduresAll t (first + c.functionCount)
    have whenTrue := takes.rest.left.right size
    have whenFalse := takes.rest.right (by rw [List.length_append, size, size'])
    rw [← Nat.add_assoc, ← Nat.add_assoc] at whenFalse
    simp only [watch, meaning, functionCount, ← Nat.add_assoc]
    apply (ihc p n first takes.rest.left.left pairs).bind (.of_le p (by omega))
    intro more grows v v' same
    exact .branch same
      ((iht p _ _ whenTrue more).2.undefined.pass (Nat.le_refl _) (Nat.le_add_right _ _))
      ((ihe p _ _ whenFalse more).2.undefined.pass (Nat.le_add_right _ _) (Nat.le_refl _))
  ret s e ih p n first takes pairs := by
    simp only [watch, meaning]
    exact (ih p n first takes.rest pairs).bind (.refl _) fun more grows v v' same =>
      .returned same
  block s body ih p n first takes pairs := by
    simp only [watch, meaning]
    exact (ih p n first takes.rest pairs).2.undefined
  nil p n first takes pairs := by
    simp only [watchAll, meaningAll, watchBlock, meaningBlock]
    exact ⟨.pure fun _ _ => ⟨rfl, .nil⟩, .pure fun _ _ => trivial⟩
  cons e es ihe ihes p n first takes pairs := by
    have size := length_procedures e first
    have before := Place.Before.of_le p
      (Nat.le_add_right (n + e.functionCount) (functionCountAll es))
    simp only [watchAll, meaningAll, watchBlock, meaningBlock, functionCountAll, ← Nat.add_assoc]
    constructor
    · apply (ihe p n first takes.left pairs).bind before
      intro more grows v v' same
      apply (ihes p _ _ (takes.right size) more).1.bind (.refl _)
      intro more' grows' vs vs' same'
      exact .pure fun _ longer => ⟨by rw [List.length_cons, List.length_cons, same'.1],
        .cons (same.mono (grows'.trans longer)) (same_all_mono longer same'.2)⟩
    · apply (ihe p n first takes.left pairs).bind before
      intro more grows v v' same
      exact (ihes p _ _ (takes.right size) more).2
  noFields p n first takes pairs := by
    simp only [watchFields, meaningFields]
    exact .pure fun _ _ => sameFields_nil
  consField x e fields ihe ihfields p n first takes pairs := by
    have size := length_procedures e first
    have before := Place.Before.of_le p
      (Nat.le_add_right (n + e.functionCount) (functionCountFields fields))
    simp only [watchFields, meaningFields, functionCountFields, ← Nat.add_assoc]
    apply (ihe p n first takes.left pairs).bind before
    intro more grows v v' same
    apply (ihfields p _ _ (takes.right size) more).bind (.refl _)
    intro more' grows' rest rest' same'
    exact .pure fun _ longer => (same'.mono longer).cons x (same.mono (grows'.trans longer))

end
end TaggedScript
