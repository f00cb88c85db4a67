import TaggedScript.Proofs.Compilation.Correctness

/-!
Compiled code never trips the checks of the machine. Several scripts may share a dictionary and a
machine, and a run begins wherever the one before it has left the machine.
-/
namespace TaggedScript

/-- Compiles scripts one after the other. One that cannot be compiled leaves what it added until
then. -/
def compileScripts : List Script → Compiling → List ObjectId × Compiling
  | [], c => ([], c)
  | s :: scripts, c =>
    match compileScript s c with
    | .ok main d =>
      let (mains, e) := compileScripts scripts d
      (main :: mains, e)
    | .error _ d => compileScripts scripts d

theorem Program.placed_append {first second : Nat} {ps qs : List Procedure} {id : ObjectId}
    (after : second = first + ps.length)
    (known : (placed first ps id).isSome ∨ (placed second qs id).isSome) :
    (placed first (ps ++ qs) id).isSome := by
  simp only [placed] at known ⊢
  subst after
  by_cases before : id.index < first
  · rw [if_pos before, if_pos (by omega)] at known
    rcases known with known | known <;> cases known
  · rw [if_neg before] at known ⊢
    rcases known with old | new
    · have bound : id.index - first < ps.length := by simpa using old
      rw [List.getElem?_append_left bound]
      exact old
    · by_cases inside : id.index < first + ps.length
      · rw [if_pos inside] at new
        cases new
      · rw [if_neg inside, ← Nat.sub_sub] at new
        rw [List.getElem?_append_right (by omega)]
        exact new

/-- What scripts add are functions, and each that was compiled is one of them. -/
theorem compileScripts_adds (scripts : List Script) (c : Compiling) :
    ∃ ps, c.Adds ps (compileScripts scripts c).2 ∧
      ∀ main ∈ (compileScripts scripts c).1,
        (Program.placed c.world.objects.size ps main).isSome := by
  induction scripts generalizing c with
  | nil => exact ⟨[], .refl c, fun main mem => by cases mem⟩
  | cons s scripts ih =>
    have built := builds_script s c
    rw [compileScripts]
    cases compiled : compileScript s c with
    | error e d =>
      rw [compiled] at built
      obtain ⟨qs, first⟩ := built
      obtain ⟨ps, rest, known⟩ := ih d
      refine ⟨qs ++ ps, first.trans rest, fun main mem => ?_⟩
      exact Program.placed_append first.objects_size (.inr (known main mem))
    | ok here d =>
      rw [compiled] at built
      obtain ⟨ps, rest, known⟩ := ih d
      refine ⟨_, Compiling.Adds.trans built rest, fun main mem => ?_⟩
      refine Program.placed_append built.objects_size ?_
      rcases List.mem_cons.mp mem with rfl | later
      · refine .inl ?_
        have last := Script.program_main compiled
        rw [Script.program] at last
        rw [last]
        rfl
      · exact .inr (known main later)

namespace Engine

/-- The machine after functions were run one after the other, however their runs ended. -/
def afterRuns : List ObjectId → Engine → Engine
  | [], m => m
  | main :: runs, m => afterRuns runs (stateOf (run main m))

theorem grown_afterRuns (runs : List ObjectId) (m : Engine) : m.Grown (afterRuns runs m) := by
  induction runs generalizing m with
  | nil => exact .refl m
  | cons main runs ih => exact (grown_run main m).trans (ih _)

/-- A run comes to an end, and no check of the machine fails: it has a result, a failure of the
script, or no room left. -/
inductive EndsSoundly : EStateM.Result RunError Engine Value → Prop
  | result (v : Value) (m : Engine) : EndsSoundly (.ok v m)
  | failure (e : Failure) (m : Engine) : EndsSoundly (.error (.failure e) m)
  | heapExhausted (requested available : Nat) (trace : List String) (m : Engine) :
      EndsSoundly (.error (.fatal (.heapExhausted requested available) trace) m)
  | stackOverflow (capacity : Nat) (trace : List String) (m : Engine) :
      EndsSoundly (.error (.fatal (.stackOverflow capacity) trace) m)

end Engine

theorem Engine.Attains.soundly {r : EStateM.Result Stop Memory Value}
    {q : EStateM.Result RunError Engine Value} (h : Engine.Attains r q) : Engine.EndsSoundly q := by
  cases h with
  | value => exact .result _ _
  | failure => exact .failure _ _
  | heapExhausted => exact .heapExhausted _ _ _ _

/-- A run that ends as the script means, or without room on the stack, ends soundly. -/
theorem Script.Realized.soundly {s : Script} {first : Nat} {σ : Memory} {capacity : Nat}
    {q : EStateM.Result RunError Engine Value} (h : s.Realized first σ capacity q) :
    Engine.EndsSoundly q := by
  obtain ⟨r, -, attains⟩ | ⟨⟨words, trace, m, rfl⟩, -⟩ := h
  · exact attains.soundly
  · exact .stackOverflow words trace m

namespace Engine

/-- A machine on which compiled functions can be run. -/
structure Ready (m : Engine) (I : Image) (config : EngineConfig) : Prop where
  config : m.config = config
  carries : ∃ σ, m.Carries I σ

theorem Realizes.soundly {I : Image} {capacity : Nat}
    {meaning : Nat → EStateM.Result Stop Memory Value} {q : EStateM.Result RunError Engine Value}
    (h : Realizes I capacity meaning q) : EndsSoundly q ∧ ∃ σ, (stateOf q).Carries I σ := by
  match q with
  | .ok v m =>
    obtain ⟨τ, -, left⟩ := h
    exact ⟨.result v m, τ, left⟩
  | .error (.failure e) m =>
    obtain ⟨τ, -, left⟩ := h
    exact ⟨.failure e m, τ, left⟩
  | .error (.fatal (.heapExhausted requested available) trace) m =>
    obtain ⟨τ, -, left⟩ := h
    exact ⟨.heapExhausted requested available trace m, τ, left⟩
  | .error (.fatal (.stackOverflow capacity) trace) m =>
    exact ⟨.stackOverflow capacity trace m, h.2⟩
  | .error (.fatal (.invalidWord e) trace) m | .error (.fatal (.unknownOpcode opcode pc) trace) m
  | .error (.fatal (.corruptOperand kind) trace) m | .error .endless m => cases h

section
variable {I : Image} {config : EngineConfig} (stack : config.stackCapacity ≤ 2 ^ 62)
  (code : I.compiled.world.CodeFits)
include stack code

theorem Ready.memory {m : Engine} (h : m.Ready I config) : m.InMemory := by
  obtain ⟨σ, carries⟩ := h.carries
  refine ⟨h.config ▸ stack, ?_⟩
  rw [carries.world]
  exact code.same (carries default).hosts.code

/-- A run ends soundly, and the next one can begin. -/
theorem Ready.run {m : Engine} {main : ObjectId} (h : m.Ready I config)
    (known : (I.program main).isSome)
    (fits : (stateOf (Engine.run main m)).dictionary.size ≤ 2 ^ 32) :
    EndsSoundly (Engine.run main m) ∧ (stateOf (Engine.run main m)).Ready I config := by
  have memory := h.memory stack code
  obtain ⟨σ, carries⟩ := h.carries
  obtain ⟨p, known⟩ := Option.isSome_iff_exists.mp known
  obtain ⟨sound, left⟩ := (run_realizes memory carries known fits).soundly
  exact ⟨sound, (grown_run main m).config.trans h.config, left⟩

/-- All runs end soundly, whatever the runs before have come to. -/
theorem Ready.runs {runs : List ObjectId} {m : Engine} (h : m.Ready I config)
    (known : ∀ main ∈ runs, (I.program main).isSome)
    (fits : (afterRuns runs m).dictionary.size ≤ 2 ^ 32) {before after : List ObjectId}
    {main : ObjectId} (here : runs = before ++ main :: after) :
    EndsSoundly (Engine.run main (afterRuns before m)) := by
  induction before generalizing runs m with
  | nil =>
    subst here
    have later := (grown_afterRuns after (stateOf (Engine.run main m))).size_le
    exact (h.run stack code (known main (by simp)) (Nat.le_trans later fits)).1
  | cons first before ih =>
    subst here
    have later := (grown_afterRuns (before ++ main :: after)
      (stateOf (Engine.run first m))).size_le
    have next := (h.run stack code (known first (by simp)) (Nat.le_trans later fits)).2
    exact ih next (fun other mem => known other (List.mem_cons_of_mem _ mem)) fits rfl

end

/-- Scripts that were compiled one after the other can be run on one machine, in any order and as
often as one likes. No run finds an invalid word, an unknown opcode or a corrupt operand: only a
full stack or a full heap stops the machine. -/
theorem compiledRuns_endSoundly {scripts : List Script} {closed : Bool} {config : EngineConfig}
    {mains : List ObjectId} {c : Compiling}
    (compiled : compileScripts scripts ⟨.initial closed, .empty⟩ = (mains, c))
    (memory : (Engine.make config c.world c.dictionary).InMemory)
    {runs before after : List ObjectId} {main : ObjectId} (drawn : ∀ r ∈ runs, r ∈ mains)
    (here : runs = before ++ main :: after)
    (fits : (afterRuns runs (.make config c.world c.dictionary)).dictionary.size ≤ 2 ^ 32) :
    EndsSoundly (Engine.run main (afterRuns before (.make config c.world c.dictionary))) := by
  have bare := World.builtin_initial closed
  generalize World.initial closed = w at compiled bare
  obtain ⟨ps, adds, known⟩ := compileScripts_adds scripts ⟨w, .empty⟩
  rw [compiled] at adds known
  have small : c.dictionary.size ≤ 2 ^ 32 :=
    Nat.le_trans (grown_afterRuns runs (.make config c.world c.dictionary)).size_le fits
  have carries := carries_builtin adds rfl small bare config
  have ready : (Engine.make config c.world c.dictionary).Ready (.ofBuiltin adds rfl small) config :=
    ⟨rfl, _, carries⟩
  exact ready.runs memory.stack memory.code (fun r mem => known r (drawn r mem)) fits here

/-- Scripts of which one fails. The other fills the heap, so that its third run stops there. -/
def heapFillers : List Script :=
  [Script.fieldOfCall, ⟨[.call .none (.literal .none .undefined) []], none⟩]

theorem compiledRuns_endSoundly_heapFillers :
    let c := (compileScripts heapFillers ⟨.initial false, .empty⟩).2
    EndsSoundly (run ⟨13⟩ (afterRuns [⟨13⟩, ⟨14⟩, ⟨13⟩] (.make ⟨32, 8⟩ c.world c.dictionary))) := by
  intro c
  have compiled : compileScripts heapFillers ⟨.initial false, .empty⟩ = ([⟨13⟩, ⟨14⟩], c) := rfl
  have memory : (Engine.make ⟨32, 8⟩ c.world c.dictionary).InMemory :=
    ⟨by decide, World.codeFits_of_all (by decide +kernel)⟩
  have drawn : ∀ r ∈ [⟨13⟩, ⟨14⟩, ⟨13⟩, (⟨13⟩ : ObjectId)], r ∈ [⟨13⟩, (⟨14⟩ : ObjectId)] := by
    decide
  have fits : (afterRuns [⟨13⟩, ⟨14⟩, ⟨13⟩, ⟨13⟩]
      (.make ⟨32, 8⟩ c.world c.dictionary)).dictionary.size ≤ 2 ^ 32 := by decide +kernel
  have here : [⟨13⟩, ⟨14⟩, ⟨13⟩, ⟨13⟩] = [⟨13⟩, ⟨14⟩, ⟨13⟩] ++ (⟨13⟩ : ObjectId) :: [] := rfl
  exact compiledRuns_endSoundly compiled memory drawn here fits

end Engine
end TaggedScript
