import TaggedScript.Proofs.Effects
import TaggedScript.Proofs.Walk.Machine
import TaggedScript.Proofs.WorldLaws

/-!
At each moment of an evaluation the count of the active calls of a run is the number of its functions
that are active.
-/
namespace TaggedScript

namespace World

/-- The closures belong to runs that have begun. -/
def ClosuresKnown (w : World) : Prop := ∀ id scope run definition,
  (w.object id).body = .native (.closure scope run definition) → run.index < w.activeCalls.size

/-- No count changes, and no closures come but those of a run. -/
structure Steady (run : RunId) (w v : World) : Prop where
  calls : v.activeCalls = w.activeCalls
  known : run.index < w.activeCalls.size → w.ClosuresKnown → v.ClosuresKnown

namespace Steady
variable {run : RunId} {w v u : World}

theorem of_objects (calls : v.activeCalls = w.activeCalls) (objects : v.objects = w.objects) :
    w.Steady run v where
  calls := calls
  known _ known := by
    intro id scope run definition body
    rw [calls]
    rw [object, objects] at body
    exact known id scope run definition body

theorem refl (w : World) : w.Steady run w := of_objects rfl rfl

theorem trans (h : w.Steady run v) (g : v.Steady run u) : w.Steady run u where
  calls := g.calls.trans h.calls
  known inside known := g.known (by rwa [h.calls]) (h.known inside known)

theorem addObject (w : World) {o : HostObject}
    (new : ∀ scope r definition, o.body = .native (.closure scope r definition) → r = run) :
    w.Steady run (w.addObject o).2 where
  calls := rfl
  known inside known := by
    intro id scope r definition body
    rw [object_addObject] at body
    split at body
    · exact new scope r definition body ▸ inside
    · exact known id scope r definition body

theorem of_fixed (calls : v.activeCalls = w.activeCalls) (fixed : w.Fixed v) :
    w.Steady run v where
  calls := calls
  known _ known := by
    intro id scope r definition body
    rw [calls]
    rw [fixed.body id] at body
    exact known id scope r definition body

end Steady

theorem active_setActive {w : World} {run : RunId} (known : run.index < w.activeCalls.size)
    (n : Nat) (r : RunId) : (w.setActive run n).active r = if r = run then n else w.active r := by
  simp only [active, setActive, Array.getD_eq_getD_getElem?, Array.getElem?_setIfInBounds]
  by_cases same : r = run
  · rw [if_pos same, if_pos (by rw [same]), if_pos known]
    rfl
  · have apart : run.index ≠ r.index := fun e => same (congrArg RunId.mk e.symm)
    rw [if_neg same, if_neg apart]

theorem size_setActive (w : World) (run : RunId) (n : Nat) :
    (w.setActive run n).activeCalls.size = w.activeCalls.size := by
  simp [setActive]

theorem ClosuresKnown.setActive {w : World} (h : w.ClosuresKnown) (run : RunId) (n : Nat) :
    (w.setActive run n).ClosuresKnown := by
  intro id scope r definition body
  rw [size_setActive]
  exact h id scope r definition body

end World

/-- An action of a run leaves the counts as they are. -/
abbrev KeepsSteady {α : Type} (run : RunId) (x : Action α) : Prop := Keeps (World.Steady run) x

namespace KeepsSteady
open World

variable {α β : Type} {run : RunId}

theorem bind {x : Action α} {f : α → Action β} (hx : KeepsSteady run x)
    (hf : ∀ a, KeepsSteady run (f a)) : KeepsSteady run (x >>= f) :=
  Keeps.bind (R := Steady run) (fun _ _ _ => Steady.trans) hx hf

theorem pure (a : α) : KeepsSteady run (Pure.pure a) := Keeps.pure Steady.refl a

theorem throw (e : Failure) : KeepsSteady run (throw e : Action α) := Keeps.throw Steady.refl e

theorem get : KeepsSteady run get := Keeps.get Steady.refl

theorem change {f : World → World} (h : ∀ w : World, w.Steady run (f w)) :
    KeepsSteady run (modify f) :=
  fun w => h w

theorem getThen {f : World → Action α} (h : ∀ w : World, w.Steady run (stateOf (f w w))) :
    KeepsSteady run (MonadState.get >>= f) :=
  fun w => h w

theorem fieldOwner (x : String) (receiver : Value) :
    KeepsSteady run (TaggedScript.fieldOwner x receiver) := by
  unfold TaggedScript.fieldOwner
  split
  · exact pure _
  · exact get.bind fun _ => throw _

theorem readField (x : String) (receiver : Value) : KeepsSteady run (Walk.readField x receiver) :=
  (fieldOwner x receiver).bind fun _ => get.bind fun _ => pure _

theorem writeField (x : String) (stored receiver : Value) :
    KeepsSteady run (Walk.writeField x stored receiver) :=
  (fieldOwner x receiver).bind fun id =>
    (change fun w => .of_fixed (by rfl) (.setField w id x stored)).bind fun _ => pure _

theorem bindName (scope : ScopeId) (x : String) (declare : Bool) (v : Value) :
    KeepsSteady run (Walk.bind scope x declare v) := by
  have declared : KeepsSteady run (declareVariable scope x v) := by
    refine getThen fun w => ?_
    split
    · exact .refl w
    · exact .of_objects rfl rfl
  have assigned : KeepsSteady run (modify (·.assign scope x v) : Action Unit) :=
    change fun w => .of_objects rfl rfl
  unfold Walk.bind
  split
  · exact declared.bind fun _ => pure v
  · exact assigned.bind fun _ => pure v

theorem newObject (table : Table) : KeepsSteady run (Walk.newObject table) :=
  getThen fun w => Steady.addObject w fun _ _ _ body => by cases body

theorem makeClosure (scope : ScopeId) (definition : FunDef) :
    KeepsSteady run (TaggedScript.makeClosure scope run definition) := by
  refine getThen fun w => ?_
  have added : w.Steady run
      (w.addObject (.ofNative definition.displayName (.closure scope run definition))).2 := by
    refine .addObject w ?_
    rintro _ _ _ ⟨⟩
    rfl
  split
  · exact added.trans (.of_objects rfl rfl)
  · exact added

theorem printValues (args : List Value) : KeepsSteady run (TaggedScript.printValues args) := by
  refine get.bind fun w => bind (fun w => ?_) fun _ => pure _
  unfold writeLine
  split
  · exact .refl w
  · exact .of_objects rfl rfl

theorem callOperator (op : Operator) (args : List Value) :
    KeepsSteady run (TaggedScript.callOperator op args) := by
  unfold TaggedScript.callOperator
  split
  · refine get.bind fun w => ?_
    cases op.apply w _ _ with
    | ok v => exact pure v
    | error e => exact throw e
  · exact throw _

theorem callHost (respond : View → Value → List Value → List Effect × Except String Value)
    (receiver : Value) (args : List Value) :
    KeepsSteady run (TaggedScript.callHost respond receiver args) := by
  refine get.bind fun w => ?_
  refine (change fun w => .of_fixed (activeCalls_changeAll w _) (.changeAll w _)).bind fun _ => ?_
  split
  · exact pure _
  · exact throw _

end KeepsSteady

namespace Walk

/-- Each activation belongs to runs that there are, and restores the number of the functions of its
run that were active before it. -/
def Restores (runs : Nat) : List Pending → Prop
  | [] => True
  | .activation callee before caller _ :: rest =>
    (callee.index < runs ∧ caller.index < runs ∧
      before = (rest.filterMap Pending.active?).count callee) ∧ Restores runs rest
  | _ :: rest => Restores runs rest

/-- The counts are right, now and after each call that is active. -/
structure Sound (runs : Nat) (m : Walk) : Prop where
  known : m.world.ClosuresKnown
  size : m.world.activeCalls.size = runs
  run : m.run.index < runs
  counts : ∀ r, m.world.active r = m.active.count r
  bounded : ∀ r, m.active.count r ≤ maxActiveCalls
  restores : Restores runs m.pending

theorem restores_plain {runs : Nat} {p : Pending} (plain : p.active? = none)
    (rest : List Pending) : Restores runs (p :: rest) ↔ Restores runs rest := by
  cases p with
  | activation => cases plain
  | _ => exact Iff.rfl

theorem active_plain {p : Pending} (plain : p.active? = none) (m : Walk) (c : Control) :
    (m.push p c).active = m.active := by
  simp [active, push, plain]

namespace Sound
variable {m : Walk} {runs : Nat}

theorem goto (h : m.Sound runs) (c : Control) : (m.goto c).Sound runs :=
  ⟨h.known, h.size, h.run, h.counts, h.bounded, h.restores⟩

theorem push (h : m.Sound runs) {p : Pending} (plain : p.active? = none) (c : Control) :
    (m.push p c).Sound runs where
  known := h.known
  size := h.size
  run := h.run
  counts r := by
    rw [active_plain plain]
    exact h.counts r
  bounded r := by
    rw [active_plain plain]
    exact h.bounded r
  restores := (restores_plain plain _).mpr h.restores

theorem world (h : m.Sound runs) {w : World} (steady : m.world.Steady m.run w) (c : Control) :
    ({ m with control := c, world := w } : Walk).Sound runs where
  known := steady.known (h.size ▸ h.run) h.known
  size := (congrArg Array.size steady.calls).trans h.size
  run := h.run
  counts r := by
    have same : w.active r = m.world.active r := by rw [World.active, World.active, steady.calls]
    exact same.trans (h.counts r)
  bounded := h.bounded
  restores := h.restores

theorem perform {α : Type} (h : m.Sound runs) {x : Action α} (keeps : KeepsSteady m.run x)
    (c : α → Control) : (m.perform x c).Sound runs := by
  have steady := keeps m.world
  unfold Walk.perform
  split
  · rename_i a w result
    rw [result] at steady
    exact h.world steady _
  · rename_i e w result
    rw [result] at steady
    exact h.world steady _

theorem pop (h : m.Sound runs) {p : Pending} {rest : List Pending} (first : m.pending = p :: rest)
    (plain : p.active? = none) : ({ m with pending := rest } : Walk).Sound runs := by
  have same : m.active = ({ m with pending := rest } : Walk).active := by
    simp [active, first, plain]
  refine ⟨h.known, h.size, h.run, fun r => ?_, fun r => ?_, ?_⟩
  · rw [← same]
    exact h.counts r
  · rw [← same]
    exact h.bounded r
  · have restores := h.restores
    rw [first] at restores
    exact (restores_plain plain rest).mp restores

/-- A call that ends leaves the counts as they were when it began. -/
theorem leave (h : m.Sound runs) {callee caller : RunId} {before : Nat} {scope : ScopeId}
    {rest : List Pending} (first : m.pending = .activation callee before caller scope :: rest)
    (c : Control) :
    (({ m with pending := rest } : Walk).leave callee before caller scope c).Sound runs := by
  have restores := h.restores
  rw [first, Restores] at restores
  obtain ⟨⟨inside, outside, back⟩, restores⟩ := restores
  have more (r : RunId) : m.active.count r =
      (rest.filterMap Pending.active?).count r + if callee = r then 1 else 0 := by
    simp [active, first, Pending.active?, List.count_cons]
  refine ⟨h.known.setActive callee before, ?_, outside, fun r => ?_, fun r => ?_, restores⟩
  · exact (World.size_setActive m.world callee before).trans h.size
  · refine (World.active_setActive (h.size ▸ inside) before r).trans ?_
    split
    · rename_i same
      rw [back, same]
      rfl
    · rename_i other
      rw [h.counts r, more r, if_neg (Ne.symm other)]
      rfl
  · have bounded := h.bounded r
    rw [more r] at bounded
    exact Nat.le_trans (Nat.le_add_right _ _) bounded

/-- A call begins when fewer functions of its run are active than may be. -/
theorem enter (h : m.Sound runs) {outer : ScopeId} {run : RunId} {definition : FunDef}
    {receiver : Value} {args : List Value} (inside : run.index < m.world.activeCalls.size)
    (room : m.world.active run < maxActiveCalls) :
    (m.enter outer run definition receiver args).Sound runs := by
  have more (r : RunId) : (m.enter outer run definition receiver args).active.count r =
      m.active.count r + if run = r then 1 else 0 := by
    simp [active, Walk.enter, Pending.active?, List.count_cons]
  refine ⟨World.ClosuresKnown.setActive h.known run _, ?_, h.size ▸ inside, fun r => ?_,
    fun r => ?_, ⟨⟨h.size ▸ inside, h.run, h.counts run⟩, h.restores⟩⟩
  · exact (World.size_setActive _ run _).trans h.size
  · rw [more r]
    refine (World.active_setActive inside _ r).trans ?_
    split
    · rename_i same
      rw [if_pos same.symm, same, h.counts run]
    · rename_i other
      rw [if_neg (Ne.symm other)]
      exact h.counts r
  · rw [more r]
    split
    · rename_i same
      rw [← same, ← h.counts run]
      exact room
    · exact h.bounded r

theorem apply (h : m.Sound runs) (callee receiver : Value) (args : List Value) :
    (m.apply callee receiver args).Sound runs := by
  unfold Walk.apply
  split
  · simp only
    split
    · exact h.goto _
    · exact h.goto _
    · exact h.perform (.printValues args) _
    · exact h.perform (.callOperator _ args) _
    · exact h.perform (.callHost _ receiver args) _
    · rename_i id scope run definition body
      split
      · exact h.goto _
      · split
        · exact h.goto _
        · rename_i room
          exact h.enter (h.known _ _ _ _ body) (Nat.lt_of_not_le room)
  · exact h.goto _

theorem start (h : m.Sound runs) (e : Expr) : (m.start e).Sound runs := by
  cases e with
  | literal | var | object | block => exact h.goto _
  | function => exact h.perform (.makeClosure _ _) _
  | assign | field | setField | call | methodCall | cond | ret => exact h.push rfl _

theorem hand (h : m.Sound runs) {p : Pending} (plain : p.active? = none) (v : Value) :
    (m.hand v p).Sound runs := by
  cases p with
  | assign => exact h.perform (.bindName _ _ _ _) _
  | field => exact h.perform (.readField _ _) _
  | stored => exact h.push rfl _
  | setField => exact h.perform (.writeField _ _ _) _
  | receiver => exact h.perform (.readField _ _) _
  | callee | argument | entry | test | ret | statement => exact h.goto _
  | activation => cases plain

/-- Each step keeps the counts right. -/
theorem next (h : m.Sound runs) : m.next.Sound runs := by
  unfold Walk.next
  split
  · exact h.start _
  · exact h.goto _
  · exact h.push rfl _
  · exact h.goto _
  · exact h.push rfl _
  · exact h.perform (.newObject _) _
  · exact h.push rfl _
  · exact h.apply _ _ _
  all_goals
    split
    · exact h
    · rename_i p rest first
      cases p with
      | activation => exact h.leave first _
      | _ => first | exact (h.pop first rfl).hand rfl _ | exact h.pop first rfl

end Sound
end Walk
end TaggedScript
