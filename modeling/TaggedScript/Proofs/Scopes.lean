import TaggedScript.Proofs.WorldLaws

/-!
Trees of scopes. A name that is read and a name that is assigned go up the same way, so they come
to the same scope: an assignment changes what exactly the scopes see that find the name there.
-/
namespace TaggedScript
namespace World

/-- The scopes around a scope, from itself to the root of its tree. -/
inductive Chain (w : World) : ScopeId → List ScopeId → Prop
  | root {e : ScopeId} (top : (w.scope e).parent = none) : Chain w e [e]
  | inner {e parent : ScopeId} {around : List ScopeId} (up : (w.scope e).parent = some parent)
      (outer : Chain w parent around) : Chain w e (e :: around)

/-- The nearest scope around `e` that binds the name is `place`, or none does and `place` is the
root. -/
def Owns (w : World) (e : ScopeId) (x : String) (place : ScopeId) : Prop :=
  ∃ within beyond, w.Chain e (within ++ place :: beyond) ∧
    (∀ s ∈ within, w.lookupLocal? s x = none) ∧
    (w.lookupLocal? place x ≠ none ∨ beyond = [])

/-- The worlds with trees of scopes that were built step by step. What does not touch the scopes may
happen in between. -/
inductive Planted : World → Prop
  | bare {w : World} (none : w.scopes = #[]) : Planted w
  | root {w : World} (before : Planted w) : Planted (w.addScope ⟨none, []⟩).2
  | child {w : World} (before : Planted w) {e : ScopeId} (inside : e.index < w.scopes.size) :
      Planted (w.addScope ⟨some e, []⟩).2
  | register {w : World} (before : Planted w) {e : ScopeId} (inside : e.index < w.scopes.size)
      (x : String) (v : Value) : Planted (w.register e x v)
  | assign {w : World} (before : Planted w) {e : ScopeId} (inside : e.index < w.scopes.size)
      (x : String) (v : Value) : Planted (w.assign e x v)
  | elsewhere {w v : World} (before : Planted w) (same : v.scopes = w.scopes) : Planted v

/-- Every scope is younger than the one around it. -/
def Layered (w : World) : Prop :=
  ∀ e parent : ScopeId, (w.scope e).parent = some parent → parent.index < e.index

/-! ## Going up -/

variable {w : World} {e parent place : ScopeId} {x y : String} {v : Value}

theorem resolve_of_bound (bound : w.lookupLocal? e x ≠ none) : w.resolve e x = e := by
  obtain ⟨u, found⟩ := Option.ne_none_iff_exists'.mp bound
  rw [lookupLocal?] at found
  rw [resolve, found]

theorem resolve_of_root (top : (w.scope e).parent = none) : w.resolve e x = e := by
  rw [resolve, top]
  cases (w.scope e).bindings.get? x <;> rfl

namespace Layered

theorem resolve_of_free (layered : w.Layered) (free : w.lookupLocal? e x = none)
    (up : (w.scope e).parent = some parent) : w.resolve e x = w.resolve parent x := by
  rw [lookupLocal?] at free
  rw [resolve, free, up]
  exact if_pos (layered e parent up)

/-- Reading a name asks a scope itself and then the one around it. -/
theorem lookup_eq (layered : w.Layered) (e : ScopeId) (x : String) :
    w.lookup e x =
      match w.lookupLocal? e x, (w.scope e).parent with
      | some u, _ => u
      | none, some parent => w.lookup parent x
      | none, none => .undefined := by
  cases bound : w.lookupLocal? e x with
  | some u => rw [lookup, resolve_of_bound (by simp [bound]), bound, Option.getD_some]
  | none =>
    cases up : (w.scope e).parent with
    | some parent => rw [lookup, layered.resolve_of_free bound up, ← lookup]
    | none => rw [lookup, resolve_of_root up, bound, Option.getD_none]

/-- Assigning a name leaves it to the scope around if there is one and the scope itself does not
bind the name. -/
theorem assign_eq (layered : w.Layered) (e : ScopeId) (x : String) (v : Value) :
    w.assign e x v =
      match w.lookupLocal? e x, (w.scope e).parent with
      | none, some parent => w.assign parent x v
      | _, _ => w.register e x v := by
  cases bound : w.lookupLocal? e x with
  | some u => rw [assign, resolve_of_bound (by simp [bound])]
  | none =>
    cases up : (w.scope e).parent with
    | some parent => rw [assign, layered.resolve_of_free bound up, ← assign]
    | none => rw [assign, resolve_of_root up]

/-- What holds at roots and goes on inward holds at every scope. -/
theorem induction (layered : w.Layered) {P : ScopeId → Prop}
    (root : ∀ e, (w.scope e).parent = none → P e)
    (inner : ∀ e parent, (w.scope e).parent = some parent → P parent → P e) (e : ScopeId) :
    P e := by
  obtain ⟨index⟩ := e
  induction index using Nat.strongRecOn with
  | ind index ih =>
    cases up : (w.scope ⟨index⟩).parent with
    | none => exact root _ up
    | some parent => exact inner _ _ up (ih parent.index (layered _ _ up))

end Layered

/-! ## Owners of names -/

theorem Chain.head {around : List ScopeId} {s : ScopeId} (chain : w.Chain e (s :: around)) :
    s = e := by
  cases chain <;> rfl

theorem Chain.outer {around : List ScopeId} {s : ScopeId} (chain : w.Chain e (s :: around))
    (more : around ≠ []) : ∃ parent, (w.scope e).parent = some parent ∧ w.Chain parent around := by
  cases chain with
  | root => exact absurd rfl more
  | inner up outer => exact ⟨_, up, outer⟩

/-- A name has one owner at most. -/
theorem Owns.eq_resolve (layered : w.Layered) (owns : w.Owns e x place) :
    place = w.resolve e x := by
  obtain ⟨within, beyond, chain, free, last⟩ := owns
  induction within generalizing e with
  | nil =>
    obtain rfl := chain.head
    obtain bound | rfl := last
    · exact (resolve_of_bound bound).symm
    · cases chain with
      | root top => exact (resolve_of_root top).symm
      | inner up outer => cases outer
  | cons s within ih =>
    obtain rfl := chain.head
    rw [List.forall_mem_cons] at free
    obtain ⟨parent, up, outer⟩ := chain.outer (by simp)
    rw [layered.resolve_of_free free.1 up, ih outer free.2]

theorem Layered.owns_resolve (layered : w.Layered) (e : ScopeId) (x : String) :
    w.Owns e x (w.resolve e x) := by
  induction e using layered.induction with
  | root e top =>
    rw [resolve_of_root top]
    exact ⟨[], [], .root top, by simp, .inr rfl⟩
  | inner e parent up ih =>
    obtain ⟨within, beyond, chain, free, last⟩ := ih
    by_cases bound : w.lookupLocal? e x = none
    · rw [layered.resolve_of_free bound up]
      exact ⟨e :: within, beyond, .inner up chain, by simpa [bound] using free, last⟩
    · rw [resolve_of_bound bound]
      exact ⟨[], within ++ w.resolve parent x :: beyond, .inner up chain, by simp, .inl bound⟩

theorem Layered.owns_iff (layered : w.Layered) : w.Owns e x place ↔ place = w.resolve e x := by
  constructor
  · exact Owns.eq_resolve layered
  · rintro rfl
    exact layered.owns_resolve e x

theorem Layered.bound_or_root (layered : w.Layered) (e : ScopeId) (x : String) :
    w.lookupLocal? (w.resolve e x) x ≠ none ∨ (w.scope (w.resolve e x)).parent = none := by
  induction e using layered.induction with
  | root e top => exact .inr (by rwa [resolve_of_root top])
  | inner e parent up ih =>
    by_cases bound : w.lookupLocal? e x = none
    · rwa [layered.resolve_of_free bound up]
    · exact .inl (by rwa [resolve_of_bound bound])

theorem Layered.resolve_le (layered : w.Layered) (e : ScopeId) (x : String) :
    (w.resolve e x).index ≤ e.index := by
  induction e using layered.induction with
  | root e top => exact Nat.le_of_eq (congrArg ScopeId.index (resolve_of_root top))
  | inner e parent up ih =>
    have younger := layered e parent up
    by_cases bound : w.lookupLocal? e x = none
    · rw [layered.resolve_of_free bound up]
      omega
    · exact Nat.le_of_eq (congrArg ScopeId.index (resolve_of_bound bound))

/-! ## Building trees -/

theorem scope_addScope (w : World) (s : Scope) (e : ScopeId) :
    (w.addScope s).2.scope e = if e.index = w.scopes.size then s else w.scope e := by
  simp only [scope, addScope, Array.getD_eq_getD_getElem?, Array.getElem?_push]
  split <;> rfl

theorem parent_register (w : World) (place : ScopeId) (x : String) (v : Value) (e : ScopeId) :
    ((w.register place x v).scope e).parent = (w.scope e).parent := by
  simp only [scope, register, Array.getD_eq_getD_getElem?, Array.getElem?_modify]
  split
  · cases w.scopes[e.index]? <;> rfl
  · rfl

theorem parent_assign (w : World) (e : ScopeId) (x : String) (v : Value) (s : ScopeId) :
    ((w.assign e x v).scope s).parent = (w.scope s).parent :=
  w.parent_register (w.resolve e x) x v s

namespace Layered

theorem of_parents {u : World} (layered : w.Layered)
    (same : ∀ e, (u.scope e).parent = (w.scope e).parent) : u.Layered :=
  fun e parent up => layered e parent (same e ▸ up)

theorem addScope (layered : w.Layered) {s : Scope}
    (inside : ∀ parent, s.parent = some parent → parent.index < w.scopes.size) :
    (w.addScope s).2.Layered := by
  intro e parent up
  rw [scope_addScope] at up
  split at up
  · rename_i last
    rw [last]
    exact inside parent up
  · exact layered e parent up

theorem register (layered : w.Layered) (place : ScopeId) (x : String) (v : Value) :
    (w.register place x v).Layered :=
  layered.of_parents (w.parent_register place x v)

end Layered

theorem Planted.layered (planted : w.Planted) : w.Layered := by
  induction planted with
  | bare none =>
    intro e parent up
    rw [scope, none] at up
    cases up
  | root _ ih => exact ih.addScope (by simp)
  | child _ inside ih => exact ih.addScope (by simpa using inside)
  | register _ _ x v ih => exact ih.register _ x v
  | assign _ _ x v ih => exact ih.register _ x v
  | elsewhere _ same ih => exact ih.of_parents fun e => by rw [scope, scope, same]

theorem planted_empty (closed : Bool) : (empty closed).Planted :=
  .root (.bare (w := { empty closed with scopes := #[] }) rfl)

/-- The world that programs start in is a tree of one scope. -/
theorem planted_initial (closed : Bool) : (initial closed).Planted := by
  have grown := initial_induction (P := fun w => w.Planted ∧ 0 < w.scopes.size)
    ⟨planted_empty closed, Nat.one_pos⟩ fun w name native _ ih => by
      rw [scopes_size_install]
      exact ⟨Planted.register (w := (w.addObject (.ofNative name native)).2) (.elsewhere ih.1 rfl)
        ih.2 name (.object ⟨w.objects.size⟩), ih.2⟩
  exact grown.1

/-! ## Assignments -/

/-- An assignment leaves every name with its owner. -/
theorem Layered.resolve_assign (layered : w.Layered) (e : ScopeId) (x : String) (v : Value)
    (s : ScopeId) (y : String) : (w.assign e x v).resolve s y = w.resolve s y := by
  have after : (w.assign e x v).Layered := layered.register _ x v
  have parents := w.parent_assign e x v
  induction s using layered.induction with
  | root s top => rw [resolve_of_root top, resolve_of_root ((parents s).trans top)]
  | inner s parent up ih =>
    by_cases bound : w.lookupLocal? s y = none
    · have free : (w.assign e x v).lookupLocal? s y = none := by
        rw [assign, lookupLocal?_register, if_neg, bound]
        rintro ⟨⟨rfl, -⟩, rfl⟩
        obtain owned | top := layered.bound_or_root e y
        · exact owned bound
        · rw [up] at top
          cases top
      rw [layered.resolve_of_free bound up, after.resolve_of_free free ((parents s).trans up), ih]
    · have still : (w.assign e x v).lookupLocal? s y ≠ none := by
        rw [assign, lookupLocal?_register]
        split
        · exact Option.some_ne_none v
        · exact bound
      rw [resolve_of_bound bound, resolve_of_bound still]

theorem Layered.lookupLocal?_assign (layered : w.Layered) (inside : e.index < w.scopes.size)
    (x : String) (v : Value) (s : ScopeId) (y : String) :
    (w.assign e x v).lookupLocal? s y =
      if s = w.resolve e x ∧ y = x then some v else w.lookupLocal? s y := by
  have there : (w.resolve e x).index < w.scopes.size :=
    Nat.lt_of_le_of_lt (layered.resolve_le e x) inside
  simp only [assign, lookupLocal?_register, there, and_true]

theorem Layered.lookup_assign (layered : w.Layered) (inside : e.index < w.scopes.size)
    (x : String) (v : Value) (s : ScopeId) (y : String) :
    (w.assign e x v).lookup s y =
      if w.resolve s y = w.resolve e x ∧ y = x then v else w.lookup s y := by
  rw [lookup, layered.resolve_assign, layered.lookupLocal?_assign inside]
  split <;> rfl

theorem chain_assign {around : List ScopeId} :
    (w.assign e x v).Chain place around ↔ w.Chain place around := by
  have parents := w.parent_assign e x v
  constructor
  · intro chain
    induction chain with
    | root top => exact .root ((parents _).symm.trans top)
    | inner up _ ih => exact .inner ((parents _).symm.trans up) ih
  · intro chain
    induction chain with
    | root top => exact .root ((parents _).trans top)
    | inner up _ ih => exact .inner ((parents _).trans up) ih

/-- An assignment changes one binding, that of the name in its owner. It shows in every scope where
the name has that owner and nowhere else. -/
theorem assign_meets_lookup (planted : w.Planted) (inside : e.index < w.scopes.size) (x : String)
    (v : Value) :
    ∃ place, place.index < w.scopes.size ∧
      (∀ s, w.Owns e x s ↔ s = place) ∧
      (∀ s y, (w.assign e x v).lookupLocal? s y =
        if s = place ∧ y = x then some v else w.lookupLocal? s y) ∧
      (∀ s around, (w.assign e x v).Chain s around ↔ w.Chain s around) ∧
      (w.assign e x v).lookup e x = v ∧
      (∀ s, w.Owns s x place → (w.assign e x v).lookup s x = v) ∧
      ∀ s y, ¬ (y = x ∧ w.Owns s x place) → (w.assign e x v).lookup s y = w.lookup s y := by
  have layered := planted.layered
  refine ⟨w.resolve e x, Nat.lt_of_le_of_lt (layered.resolve_le e x) inside,
    fun s => layered.owns_iff, layered.lookupLocal?_assign inside x v, fun s around => chain_assign,
    ?own, fun s owns => ?seen, fun s y other => ?unseen⟩
  case own => rw [layered.lookup_assign inside, if_pos ⟨rfl, rfl⟩]
  case seen => rw [layered.lookup_assign inside, if_pos ⟨(layered.owns_iff.mp owns).symm, rfl⟩]
  case unseen =>
    rw [layered.lookup_assign inside, if_neg]
    rintro ⟨same, rfl⟩
    exact other ⟨rfl, layered.owns_iff.mpr same.symm⟩

/-- A name bound at the root and in a scope inside it, assigned from further inside. A scope beside
them still sees the root's. -/
theorem assign_meets_lookup_shadowed :
    let root := (initial false).register ⟨0⟩ "a" (.int 1)
    let inner := (root.addScope ⟨some ⟨0⟩, []⟩).2.register ⟨1⟩ "a" (.int 2)
    let w := ((inner.addScope ⟨some ⟨1⟩, []⟩).2.addScope ⟨some ⟨0⟩, []⟩).2
    w.Planted ∧ 2 < w.scopes.size ∧
      (w.assign ⟨2⟩ "a" (.int 5)).lookupLocal? ⟨2⟩ "a" = none ∧
      (w.assign ⟨2⟩ "a" (.int 5)).lookup ⟨1⟩ "a" = .int 5 ∧
      (w.assign ⟨2⟩ "a" (.int 5)).lookup ⟨3⟩ "a" = .int 1 := by
  intro root inner w
  have planted : w.Planted := by
    refine .child (.child (.register (.child (.register (planted_initial false) ?_ _ _) ?_) ?_ _ _)
      ?_) ?_
    all_goals decide
  have inside : 2 < w.scopes.size := by decide
  obtain ⟨place, -, owner, changed, -, -, seen, unseen⟩ :=
    assign_meets_lookup planted (e := ⟨2⟩) inside "a" (.int 5)
  have top : w.Chain ⟨0⟩ [⟨0⟩] := .root (by decide)
  have middle : w.Chain ⟨1⟩ [⟨1⟩, ⟨0⟩] := .inner (by decide) top
  obtain rfl : ⟨1⟩ = place := (owner ⟨1⟩).mp
    ⟨[⟨2⟩], [⟨0⟩], .inner (by decide) middle, by simp; decide, .inl (by decide)⟩
  have beside : w.Owns ⟨3⟩ "a" ⟨0⟩ :=
    ⟨[⟨3⟩], [], .inner (by decide) top, by simp; decide, .inr rfl⟩
  refine ⟨planted, inside, ?_, seen ⟨1⟩ ⟨[], [⟨0⟩], middle, by simp, .inl (by decide)⟩, ?_⟩
  · rw [changed, if_neg (by decide)]
    decide
  · rw [unseen ⟨3⟩ "a", lookup, ← beside.eq_resolve planted.layered]
    · decide
    · rintro ⟨-, owns⟩
      have same := (owns.eq_resolve planted.layered).trans (beside.eq_resolve planted.layered).symm
      cases same

end World
end TaggedScript
