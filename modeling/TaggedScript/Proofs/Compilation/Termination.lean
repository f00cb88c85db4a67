import Mathlib.Data.List.Perm.Subperm
import TaggedScript.Proofs.Compilation.Safety

/-!
Every run of a compiled script ends. How many entries its dictionary can get is known before it
begins, so nothing but room can be wanting: each call takes some of the stack, and between calls the
code only goes forward.
-/
namespace TaggedScript

/-- The dictionary after a step is the same on both machines if it fits before. -/
theorem Implements.dictionary_step {a : FrameMachine} {m : Engine} (h : Implements a m)
    (fits : m.dictionary.size ≤ 2 ^ 32) :
    (stateOf m.step).dictionary = (stateOf a.step).dictionary := by
  have before := h.dictionary
  unfold Engine.step FrameMachine.step
  rw [h.1]
  cases status : m.status with
  | done v => exact before.symm
  | idle => exact before.symm
  | running =>
    obtain tracks | ⟨-, v, done⟩ := h.2
    · have ends := tracks.next fits
      obtain ⟨b, n, mine, other, tracks⟩ | ⟨v, b, n, mine, other, finished⟩ |
        ⟨e, b, n, mine, other, tracks⟩ := ends.cases
      · rw [mine, other]
        exact tracks.dictionary.symm
      · rw [mine, other]
        exact finished.dictionary.symm
      · rw [mine, other]
        exact tracks.dictionary.symm
    · cases status.symm.trans done

theorem Implements.fits_step {a : FrameMachine} {m : Engine} (h : Implements a m)
    (fits : a.dictionary.size ≤ 2 ^ 32) (left : (stateOf a.step).dictionary.size ≤ 2 ^ 32) :
    (stateOf m.step).dictionary.size ≤ 2 ^ 32 := by
  rw [h.dictionary_step (h.dictionary ▸ fits)]
  exact left

namespace Engine

/-- A machine makes `n` steps that go on, and the next one ends the run. -/
inductive Stops : Nat → Engine → EStateM.Result RunError Engine Value → Prop
  | done {m m' : Engine} {v : Value} : m.step = .ok (.done v) m' → Stops 0 m (.ok v m')
  | failed {m m' : Engine} {e : RunError} : m.step = .error e m' → Stops 0 m (.error e m')
  | next {n : Nat} {m m' : Engine} {r : EStateM.Result RunError Engine Value} :
      m.step = .ok .continue m' → Stops n m' r → Stops (n + 1) m r

/-- A run that is not cut short has stopped. -/
theorem stops_of_runFor {k : Nat} {m : Engine}
    (h : ∀ m', ended (runFor k m) ≠ .error .endless m') :
    ∃ n < k, Stops n m (ended (runFor k m)) := by
  induction k generalizing m with
  | zero => exact absurd rfl (h m)
  | succ k ih =>
    rw [runFor_succ] at h ⊢
    rcases step : m.step with ⟨_ | v, m'⟩ | ⟨e, m'⟩ <;> rw [step] at h
    · obtain ⟨n, less, stops⟩ := ih h
      exact ⟨n + 1, Nat.succ_lt_succ less, .next step stops⟩
    · exact ⟨0, Nat.succ_pos k, .done step⟩
    · exact ⟨0, Nat.succ_pos k, .failed step⟩

section
variable {I : Image} (bounded : ∀ a, Sane I a → a.dictionary.size ≤ 2 ^ 32)
include bounded

/-- The dictionary of a run that is led to its end does not outgrow the words if that of no sane
machine does. -/
theorem fits_of_leads {S : Stretch} {r : EStateM.Result Stop Memory Value} {n k : Nat}
    {a : FrameMachine} {m : Engine} (leads : Leads (Sane I) S (Finishes I S r) n a)
    (deep : m.config.stackCapacity ≤ S.limit) (same : Implements a m) (enough : n < k) :
    (stateOf (runFor k m)).dictionary.size ≤ 2 ^ 32 := by
  have good (b : FrameMachine) (h : Finishes I S r b) : Sane I b := h.sane
  induction leads generalizing m k with
  | @outgrown n a sane big =>
    have small := bounded a sane
    omega
  | @here n a reached =>
    obtain ⟨k, rfl⟩ : ∃ j, k = j + 1 := ⟨k - 1, by omega⟩
    have fits := bounded a (good a reached)
    match r with
    | .ok v τ =>
      obtain ⟨-, b, step, holds⟩ := reached
      have small := same.fits_step fits (by rw [step]; exact bounded b ⟨τ, holds⟩)
      obtain ⟨m', other, -⟩ := same.step_ok small step
      rw [other] at small
      rw [runFor_succ, other]
      exact small
    | .error (.failed e) τ | .error (.noRoom requested available) τ =>
      obtain ⟨-, -, b, c, step, holds⟩ := reached
      have small := same.fits_step fits (by rw [step]; exact bounded b ⟨τ, holds⟩)
      obtain ⟨m', other, -⟩ := same.step_error small step
      rw [other] at small
      rw [runFor_succ, other]
      exact small
    | .error .tooDeep τ =>
      have deeper := reached.2
      rw [same.config] at deeper
      omega
    | .error (.returned v) τ => cases reached
  | @next n a b sane _ step rest ih =>
    obtain ⟨k, rfl⟩ : ∃ j, k = j + 1 := ⟨k - 1, by omega⟩
    have small := same.fits_step (bounded a sane) (by rw [step]; exact bounded b (rest.isSane good))
    obtain ⟨m', other, still⟩ := same.step_ok small step
    have config := m.grown_step.config
    rw [other] at config
    change m'.config = m.config at config
    rw [runFor_succ, other]
    exact ih (config ▸ deep) still (Nat.lt_of_succ_lt_succ enough)
  | @overflow n a b capacity trace sane _ step _ left =>
    obtain ⟨k, rfl⟩ : ∃ j, k = j + 1 := ⟨k - 1, by omega⟩
    have small := same.fits_step (bounded a sane) (by rw [step]; exact bounded b left)
    obtain ⟨m', other, -⟩ := same.step_error small step
    rw [other] at small
    rw [runFor_succ, other]
    exact small

/-- The dictionary that a run leaves has not outgrown the words. -/
theorem fits_of_run {σ : Memory} {m₀ : Engine} {main : ObjectId} {p : Procedure}
    (memory : m₀.InMemory) (carries : m₀.Carries I σ) (known : I.program main = some p) :
    (stateOf (run main m₀)).dictionary.size ≤ 2 ^ 32 := by
  obtain ⟨code, found, -⟩ := carries.code known
  obtain ⟨m, started, begun⟩ := start_cases found
  have holds := begun.carries carries found
  rw [run, bind_eq]
  obtain started | ⟨-, trace, failed⟩ := started
  · obtain ⟨n, enough, leads⟩ := leads_of_start memory carries known started (Nat.le_refl _)
    have tracks := start_frames memory started
    rw [started]
    simp only [bind_eq, get_eq, rounds_eq, stateOf_ended]
    exact fits_of_leads bounded leads (Nat.le_of_eq (congrArg _ begun.config))
      ⟨tracks.status, .inl tracks⟩ enough
  · rw [failed]
    exact bounded (.begin main m) ⟨σ, holds main⟩

end

/-- A run that was started and is not cut short stops before its last round ends. -/
theorem stops_of_run {main : ObjectId} {m₀ m : Engine} (started : start main m₀ = .ok () m)
    (h : ∀ m', run main m₀ ≠ .error .endless m') :
    ∃ n < roundBound m * roundSize, Stops n m (run main m₀) := by
  have whole : run main m₀ = ended (runFor (roundBound m * roundSize) m) := by
    rw [run, bind_eq, started]
    simp only [bind_eq, get_eq, rounds_eq]
  rw [whole] at h ⊢
  exact stops_of_runFor h

end Engine

section
variable {c₀ c : Compiling} {ps : List Procedure} (adds : c₀.Adds ps c)
  (fresh : c₀.dictionary.entries = #[])

/-- A dictionary gets no entries but those of the compiler and the objects of the world. -/
theorem Holds.dictionary_size_le {fits : c.dictionary.size ≤ 2 ^ 32} {σ : Memory} {a : FrameMachine}
    (h : Holds (.ofBuiltin adds fresh fits) σ a) :
    a.dictionary.size ≤ c.dictionary.size + c.world.objects.size := by
  let objects := (List.range c.world.objects.size).map fun i => Value.object ⟨i⟩
  have listed {id : ObjectId} (inside : id.index < c.world.objects.size) :
      Value.object id ∈ c.dictionary.entries.toList ++ objects :=
    List.mem_append_right _ (List.mem_map.mpr ⟨id.index, List.mem_range.mpr inside, rfl⟩)
  have known : a.dictionary.entries.toList ⊆ c.dictionary.entries.toList ++ objects := by
    intro v mem
    have entry := Array.mem_toList_iff.mp mem
    obtain (plain | old | ⟨id, rfl, inside, -⟩) | ⟨id, rfl, hasCode⟩ := h.entries v entry
    · rw [h.interned.needed v entry] at plain
      cases plain
    · exact List.mem_append_left _ (Array.mem_toList_iff.mpr old)
    · exact listed (Nat.lt_of_lt_of_le inside adds.later.objects_size_le)
    · obtain ⟨code, found⟩ := Option.isSome_iff_exists.mp hasCode
      exact listed (World.lt_of_code found)
  have few := (h.interned.distinct.subperm known).length_le
  simpa [objects, Dictionary.size] using few

end

namespace Engine

/-- Scripts that were compiled one after the other can be run on a new machine. Its dictionary never
outgrows the words if there are not too many constants and objects. -/
theorem ready_make {scripts : List Script} {closed : Bool} {mains : List ObjectId} {c : Compiling}
    (compiled : compileScripts scripts ⟨.initial closed, .empty⟩ = (mains, c))
    (fits : c.dictionary.size + c.world.objects.size ≤ 2 ^ 32) (config : EngineConfig) :
    ∃ I : Image, I.compiled = c ∧ (make config c.world c.dictionary).Ready I config ∧
      (∀ main ∈ mains, (I.program main).isSome) ∧ ∀ a, Sane I a → a.dictionary.size ≤ 2 ^ 32 := by
  have builtin := World.builtin_initial closed
  generalize World.initial closed = w at compiled builtin
  obtain ⟨ps, adds, known⟩ := compileScripts_adds scripts ⟨w, .empty⟩
  rw [compiled] at adds known
  have small : c.dictionary.size ≤ 2 ^ 32 := by omega
  have carries := carries_builtin adds rfl small builtin config
  exact ⟨_, rfl, ⟨rfl, _, carries⟩, known, fun a ⟨_, holds⟩ =>
    Nat.le_trans (holds.dictionary_size_le adds rfl) fits⟩

/-- A run ends soundly with a dictionary that has not outgrown the words, and the next one can
begin. -/
theorem Ready.run_within {I : Image} {config : EngineConfig} {m : Engine} {main : ObjectId}
    (h : m.Ready I config) (stack : config.stackCapacity ≤ 2 ^ 62)
    (code : I.compiled.world.CodeFits) (bounded : ∀ a, Sane I a → a.dictionary.size ≤ 2 ^ 32)
    (known : (I.program main).isSome) :
    EndsSoundly (Engine.run main m) ∧ (stateOf (Engine.run main m)).Ready I config ∧
      (stateOf (Engine.run main m)).dictionary.size ≤ 2 ^ 32 := by
  obtain ⟨σ, carries⟩ := h.carries
  obtain ⟨p, procedure⟩ := Option.isSome_iff_exists.mp known
  have small := fits_of_run bounded (h.memory stack code) carries procedure
  obtain ⟨sound, ready⟩ := h.run stack code known small
  exact ⟨sound, ready, small⟩

end Engine

/-- A function goes too deep if its body does. -/
theorem Procedure.run_tooDeep {p : Procedure} {apply : Applier} {receiver : Value}
    {args : List Value} {σ τ : Memory}
    (body : Expr.meaningBlock apply p.locals p.first p.body
      { σ with slots := p.slots receiver args } = .error .tooDeep τ) :
    p.run apply receiver args σ = .error .tooDeep { τ with slots := σ.slots } := by
  simp only [run, body]

namespace Script

/-- A script calls itself without end: however many of its calls may be inside each other, there is one
more, or there is no room for the records that were made until then. -/
def CallsForever (s : Script) (first : Nat) (σ : Memory) : Prop :=
  ∀ depth, ∃ stop τ, s.meaning first depth σ = .error stop τ ∧
    (stop = .tooDeep ∨ ∃ requested available, stop = .noRoom requested available)

section
variable {s : Script} {w : World} {config : EngineConfig} {c : Compiling} {main : ObjectId}

/-- A run of a script that was compiled in a world without other functions ends as the script means,
or the stack overflows. -/
theorem realizes_of_builtin (bare : w.Builtin) (compiled : compileScript s ⟨w, .empty⟩ = .ok main c)
    (memory : (Engine.make config c.world c.dictionary).InMemory)
    (fits : c.dictionary.size + c.world.objects.size ≤ 2 ^ 32) :
    ∃ I, Engine.Realizes I config.stackCapacity
      (fun depth => s.meaning w.objects.size depth ⟨[], c.world, [], config.heapCapacity⟩)
      (Engine.run main (.make config c.world c.dictionary)) := by
  have adds : Compiling.Adds ⟨w, .empty⟩ (s.procedures w.objects.size) c :=
    (builds_script s).ok compiled
  have known := program_main compiled
  have before : c.dictionary.size ≤ 2 ^ 32 := by omega
  have carries := Engine.carries_builtin adds rfl before bare config
  have bounded (a : FrameMachine) : Sane (.ofBuiltin adds rfl before) a →
      a.dictionary.size ≤ 2 ^ 32 :=
    fun ⟨_, holds⟩ => Nat.le_trans (holds.dictionary_size_le adds rfl) fits
  have small := Engine.fits_of_run bounded memory carries known
  exact ⟨_, Engine.run_realizes memory carries known small⟩

/-- Every run of a compiled script ends: the machine makes so many steps and no more, whatever room
it has, and the last one has a result, a failure of the script, or finds no room. One whose calls
go on without end finds no room. -/
theorem run_stops {closed : Bool}
    (compiled : compileScript s ⟨.initial closed, .empty⟩ = .ok main c)
    (memory : (Engine.make config c.world c.dictionary).InMemory)
    (fits : c.dictionary.size + c.world.objects.size ≤ 2 ^ 32) :
    Engine.EndsSoundly (Engine.run main (.make config c.world c.dictionary)) ∧
    (∀ m, Engine.start main (.make config c.world c.dictionary) = .ok () m →
      ∃ n < Engine.roundBound m * Engine.roundSize,
        m.Stops n (Engine.run main (.make config c.world c.dictionary))) ∧
    (s.CallsForever (World.initial closed).objects.size
        ⟨[], c.world, [], config.heapCapacity⟩ →
      ∃ e m, Engine.run main (.make config c.world c.dictionary) = .error e m ∧
        e.IsExhaustion) := by
  obtain ⟨I, realizes⟩ := realizes_of_builtin (World.builtin_initial closed) compiled memory fits
  have sound := realizes.soundly.1
  refine ⟨sound, fun m started => ?_, fun forever => ?_⟩
  · apply Engine.stops_of_run started
    intro m' cut
    rw [cut] at sound
    cases sound
  · obtain ⟨stop, τ, stops, why⟩ := forever (config.stackCapacity + 1)
    generalize Engine.run main (.make config c.world c.dictionary) = q at realizes sound
    cases sound with
    | result v m =>
      obtain ⟨ρ, means, -⟩ := realizes
      cases means.symm.trans stops
    | failure e m =>
      obtain ⟨ρ, means, -⟩ := realizes
      cases means.symm.trans stops
      rcases why with deep | ⟨requested, available, full⟩
      · cases deep
      · cases full
    | heapExhausted requested available trace m => exact ⟨_, m, rfl, trivial⟩
    | stackOverflow capacity trace m => exact ⟨_, m, rfl, trivial⟩

end

/-- A script that does nothing but call a function, which does nothing but call itself. -/
def callsItself : Script where
  body := [.call .none (.function .none (some "f") [] [.call .none (.var .none "f") []]) []]
  source := none

/-- However deep the calls may be inside each other, the function calls itself once more. -/
theorem callsItself_deeper (depth : Nat) (σ : Memory) (bound : σ.world.global "f" = .object ⟨12⟩) :
    ∃ τ, Meaning.callWithin (callsItself.program 12) depth
      ⟨"f", 0, ["this"], [.call .none (.var .none "f") []], 12⟩ .undefined [] σ =
        .error .tooDeep τ := by
  induction depth generalizing σ with
  | zero => exact ⟨_, rfl⟩
  | succ depth ih =>
    let inside : Memory := { σ with slots := [.undefined] }
    obtain ⟨τ, deeper⟩ := ih inside bound
    let call := Meaning.callWithin (callsItself.program 12) depth
    have called : Expr.meaning (Meaning.apply (callsItself.program 12) call) ["this"] 12
        (.call .none (.var .none "f") []) inside = .error .tooDeep τ := by
      have unprinted : Expr.isPrint ["this"] (.var .none "f") [] = false := rfl
      have read : Meaning.read ["this"] "f" inside = .ok (.object ⟨12⟩) inside := by
        rw [← bound]
        rfl
      simp only [Expr.meaning, unprinted, Bool.false_eq_true, ↓reduceIte, bind_eq, read,
        Expr.meaningAll, pure_eq]
      exact deeper
    refine ⟨_, Procedure.run_tooDeep (τ := τ) ?_⟩
    simp only [Expr.meaningBlock, bind_eq]
    exact called ▸ rfl

theorem callsForever_callsItself (w : World) (rooted : 0 < w.scopes.size) (capacity : Nat) :
    callsItself.CallsForever 12 ⟨[], w, [], capacity⟩ := by
  intro depth
  cases depth with
  | zero => exact ⟨_, _, rfl, .inl rfl⟩
  | succ depth =>
    let bound : Memory := ⟨[.undefined], w.setGlobal "f" (.object ⟨12⟩), [], capacity⟩
    have global : bound.world.global "f" = .object ⟨12⟩ := by
      rw [World.global_setGlobal]
      exact if_pos ⟨rfl, rooted⟩
    obtain ⟨τ, deeper⟩ := callsItself_deeper depth bound global
    let call := Meaning.callWithin (callsItself.program 12) depth
    refine ⟨_, _, Procedure.run_tooDeep (τ := τ) ?_, .inl rfl⟩
    have called : Expr.meaning (Meaning.apply (callsItself.program 12) call) ["this"] 12
        (.call .none (.function .none (some "f") [] [.call .none (.var .none "f") []]) [])
        ⟨[.undefined], w, [], capacity⟩ = .error .tooDeep τ := deeper
    show Expr.meaningBlock _ _ _ [_] _ = _
    simp only [Expr.meaningBlock, bind_eq]
    exact called ▸ rfl

theorem run_stops_callsItself :
    let c := stateOf (compileScript callsItself ⟨.initial false, .empty⟩)
    let r := Engine.run ⟨13⟩ (.make ⟨32, 8⟩ c.world c.dictionary)
    Engine.EndsSoundly r ∧
      (∀ m, Engine.start ⟨13⟩ (.make ⟨32, 8⟩ c.world c.dictionary) = .ok () m →
        ∃ n < Engine.roundBound m * Engine.roundSize, m.Stops n r) ∧
      ∃ e m, r = .error e m ∧ e.IsExhaustion := by
  intro c r
  have memory : (Engine.make ⟨32, 8⟩ c.world c.dictionary).InMemory :=
    ⟨by decide, World.codeFits_of_all (by decide +kernel)⟩
  have fits : c.dictionary.size + c.world.objects.size ≤ 2 ^ 32 := by decide +kernel
  have compiled : compileScript callsItself ⟨.initial false, .empty⟩ = .ok ⟨13⟩ c := rfl
  obtain ⟨sound, stops, deep⟩ := run_stops compiled memory fits
  exact ⟨sound, stops, deep (callsForever_callsItself c.world (by decide +kernel) 8)⟩

end Script
end TaggedScript
