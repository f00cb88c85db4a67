import TaggedScript.Proofs.Compilation.Images
import TaggedScript.Proofs.Walk.Evaluates
import TaggedScript.Proofs.Walk.Refusals

/-!
The evaluation of a script stops. Its counts of active calls are right at each moment, and when it is
over they are what they were.
-/
namespace TaggedScript

namespace World

/-- No function is active, and the closures belong to runs that have begun. -/
structure Quiet (w : World) : Prop where
  known : w.ClosuresKnown
  idle : ∀ r, w.active r = 0

theorem quiet_initial (closed : Bool) : (World.initial closed).Quiet where
  known := by
    intro id scope run definition body
    obtain same | ⟨op, same⟩ := (builtin_initial closed).onlyBuiltins id _ body
    · cases same
    · cases same
  idle r := by
    have none : (World.initial closed).activeCalls = #[] := rfl
    rw [active, none]
    rfl

end World

namespace Walk
variable {runs : Nat} {m : Walk}

theorem begin_sound (s : Script) {w : World} (quiet : w.Quiet) :
    (begin s w).Sound (w.activeCalls.size + 1) where
  known := by
    intro id scope run definition body
    have before := quiet.known id scope run definition body
    simp only [begin, Array.size_push]
    omega
  size := Array.size_push 0
  run := Nat.lt_succ_self _
  counts r := by
    have idle := quiet.idle r
    simp only [World.active, begin, active, Array.getD_eq_getD_getElem?] at idle ⊢
    rw [Array.getElem?_push]
    split
    · rfl
    · exact idle
  bounded r := Nat.zero_le _
  restores := trivial

/-- There is room for all the calls that may still be active. -/
theorem Sound.ready (h : m.Sound runs) :
    m.Ready runs (callLimit m.world - m.active.length) where
  sound := h
  room := by
    have few := h.length_active_le
    rw [callLimit, h.size]
    omega

theorem result?_after {x : Eval Unit} (ended : m.pending = []) :
    (m.after x fun _ => .value .undefined).result? = some (Eval.result x m.world) := by
  rw [after, result_eq]
  cases x.run m.world with
  | ok r w => cases r <;> simp only [result?, ended]
  | error e w => simp only [result?, ended]

theorem of_result? {r : EStateM.Result Failure World Value} (ended : m.result? = some r) :
    m.pending = [] ∧ m.world = stateOf r := by
  unfold result? at ended
  split at ended
  all_goals
    cases ended
  all_goals exact ⟨‹_›, rfl⟩

/-- The steps from the first moment lead to the result of the evaluation. -/
theorem begin_leads (s : Script) {w : World} (quiet : w.Quiet) :
    ∃ m, (begin s w).Leads m ∧ m.result? = some (s.evaluate w) := by
  have ready := (begin_sound s quiet).ready
  have body := ((follows_inductive (calls_follow _ _)).list s.body).2 (begin s w) ready
  exact ⟨_, body, result?_after rfl⟩

theorem pending_perform {α : Type} (x : Action α) (k : α → Control) :
    (m.perform x k).pending = m.pending := by
  unfold perform
  split
  · rfl
  · rfl

/-- A call leads to what it comes to, and leaves the counts as they were. -/
theorem call_ends (h : m.Sound runs) {callee receiver : Value} {args : List Value}
    (calls : m.control = .apply callee receiver args) :
    let call := callValue (invokeWithin (callLimit m.world - m.active.length)) callee receiver args
    m.Leads (m.perform call .value) ∧
      ∀ r, (m.perform call .value).world.active r = m.world.active r := by
  intro call
  have here : m.goto (.apply callee receiver args) = m := by rw [goto, ← calls]
  have leads := calls_follow _ _ callee receiver args m h.ready
  rw [← perform_eq, here] at leads
  refine ⟨leads, fun r => ?_⟩
  have sound := h.leads leads
  rw [sound.counts, h.counts, active, pending_perform, active]

/-- A moment of an evaluation that began in the world `w` has the right counts of active calls. -/
structure Exact (w : World) (m : Walk) : Prop where
  counts : ∀ r, m.world.active r = m.active.count r
  bounded : ∀ r, m.world.active r ≤ maxActiveCalls
  /-- The active functions belong to this evaluation and to those before it. -/
  runs : ∀ r ∈ m.active, r.index ≤ w.activeCalls.size
  refuses : (∀ e, m.control ≠ .failed e) →
    ∀ name, m.next.control = .failed (.tooManyCalls name) ↔ m.CallsTooMany name
  /-- A call comes to its end, whether it fails or not, and the counts are what they were. -/
  restores : ∀ callee receiver args, m.control = .apply callee receiver args →
    let call := callValue (invokeWithin (callLimit m.world - m.active.length)) callee receiver args
    m.Leads (m.perform call .value) ∧
      ∀ r, (m.perform call .value).world.active r = m.world.active r

end Walk

/-- The evaluation of a script stops with its result, in a number of steps. Until then the counts of
active calls are right, and when it is over no function is active. -/
theorem Script.evaluate_stops (s : Script) {w : World} (quiet : w.Quiet) :
    (∃ m, (Walk.begin s w).Leads m ∧ m.result? = some (s.evaluate w)) ∧
    (∀ m, (Walk.begin s w).Leads m → m.Exact w) ∧
    ∀ r, (stateOf (s.evaluate w)).active r = 0 := by
  have first := Walk.begin_sound s quiet
  obtain ⟨last, leads, result⟩ := Walk.begin_leads s quiet
  refine ⟨⟨last, leads, result⟩, fun m leads => ?_, fun r => ?_⟩
  · have sound := first.leads leads
    constructor
    case counts => exact sound.counts
    case bounded => exact fun r => sound.counts r ▸ sound.bounded r
    case runs => exact fun r active => Nat.le_of_lt_succ (sound.active_lt r active)
    case refuses => exact sound.next_refuses_iff
    case restores => exact fun callee receiver args calls => Walk.call_ends sound calls
  · obtain ⟨ended, world⟩ := Walk.of_result? result
    rw [← world, (first.leads leads).counts, Walk.active, ended]
    rfl

/-- A script that calls a function which returns itself, and then what it returned, without an
argument. -/
def callsAgain : Script where
  body :=
    let f : Expr := .function .none (some "f") ["x"] [.ret .none (.var .none "x")]
    [.call .none (.call .none f [.var .none "f"]) []]
  source := none

theorem Script.evaluate_stops_callsAgain :
    let w := World.initial false
    w.Quiet ∧
    (∃ m, (Walk.begin callsAgain w).Leads m ∧ m.result? = some (callsAgain.evaluate w)) ∧
    (∀ m, (Walk.begin callsAgain w).Leads m → m.Exact w) ∧
    outcome (callsAgain.evaluate w) = .error (.wrongArity "f" 1 0) ∧
    ∀ r, (stateOf (callsAgain.evaluate w)).active r = 0 := by
  intro w
  have quiet : w.Quiet := World.quiet_initial false
  obtain ⟨stops, exact, idle⟩ := callsAgain.evaluate_stops quiet
  exact ⟨quiet, stops, exact, by decide +kernel, idle⟩

end TaggedScript
