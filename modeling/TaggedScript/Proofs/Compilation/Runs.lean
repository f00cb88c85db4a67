import TaggedScript.Proofs.Compilation.Programs
import TaggedScript.Proofs.Frames.Refinement

/-!
Whole runs of a machine. A run comes to what its function means, or the machine runs out of room;
its rounds never end before it does.
-/
namespace TaggedScript

/-- Only what lies outside of the frames matters. -/
theorem Holds.same {I : Image} {σ : Memory} {a b : FrameMachine} (h : Holds I σ a)
    (world : b.world = a.world) (dictionary : b.dictionary = a.dictionary)
    (heap : b.heap = a.heap) : Holds I σ b := by
  obtain ⟨_, _, _, _, current, callers, status⟩ := b
  subst world dictionary heap
  exact h.change ⟨fun _ known => known, .refl _, Nat.le_refl _⟩ h.world h.hosts h.interned h.entries
    h.globals h.fields rfl rfl rfl

/-- A function that nobody called is left with the result of the run. -/
theorem FrameExec.leave_outermost {a b : FrameMachine} {w : Word} {v : Value}
    (popped : pop a = .ok w b) (alone : b.callers = []) (means : decodeWord w b = .ok v b) :
    leave a = .ok (some v) b := by
  simp only [leave, bind_eq, popped, get_eq, alone, means, pure_eq]

/-- How a run of a machine with frames of their own is about to end. -/
def Finishes (I : Image) (S : Stretch) : EStateM.Result Stop Memory Value → FrameMachine → Prop
  | .ok v τ, a => Sane I a ∧ ∃ b, a.step = .ok (.done v) b ∧ Holds I τ b
  | .error (.failed e) τ, a => Fails I S τ (.failure e) a
  | .error (.noRoom requested available) τ, a =>
    Fails I S τ (.fatal (.heapExhausted requested available)) a
  | .error .tooDeep _, a => GoesDeeper I S a
  | .error (.returned _) _, _ => False

theorem Finishes.sane {I : Image} {S : Stretch} {r : EStateM.Result Stop Memory Value}
    {a : FrameMachine} (h : Finishes I S r a) : Sane I a := by
  match r with
  | .ok v τ | .error (.failed e) τ | .error (.noRoom requested available) τ | .error .tooDeep τ =>
    exact h.1
  | .error (.returned v) τ => cases h

/-- The function that nobody waits for ends the run. -/
theorem Comes.finishes {I : Image} {S : Stretch} {ctx : Context} {σ : Memory} {a : FrameMachine}
    {r : EStateM.Result Stop Memory Value} (h : Comes I S ctx σ r a) (alone : ctx.callers = []) :
    Leads (Sane I) S (Finishes I S r) 0 a := by
  match r with
  | .error (.failed e) τ | .error (.noRoom requested available) τ | .error .tooDeep τ =>
    exact .here h
  | .error (.returned v) τ => cases h
  | .ok v τ =>
    obtain ⟨-, slots, pc, vals, at_a, here⟩ := h
    by_cases fits : a.dictionary.size ≤ 2 ^ 32
    · have next := at_a.next_eq here.code
      have at_b := at_a.moveTo (pc + Instr.ret.width)
      obtain ⟨w, rest, -, popped, means, after⟩ := at_b.pop
      have callers := after.callers.trans alone
      have still : Denotes I { τ with slots }
          ((a.moveTo (pc + Instr.ret.width)).setOperands rest) w v := ⟨means.known, means.decodes⟩
      rw [FrameExec.execute, FrameExec.leave_outermost popped callers (still.decodeWord fits)] at next
      exact .here ⟨⟨_, at_a.holds⟩, _, FrameMachine.step_done at_a.status next,
        (after.holds.setSlots τ.slots).setFrames _ _ _⟩
    · exact .outgrown ⟨_, at_a.holds⟩ (Nat.lt_of_not_le fits)

namespace Implements
variable {a b : FrameMachine} {m : Engine}

theorem config (h : Implements a m) : a.config = m.config := by
  obtain ⟨-, tracks | ⟨finished, -⟩⟩ := h
  · exact tracks.config
  · exact finished.config

theorem dictionary (h : Implements a m) : a.dictionary = m.dictionary := by
  obtain ⟨-, tracks | ⟨finished, -⟩⟩ := h
  · exact tracks.dictionary
  · exact finished.dictionary

theorem step_ok {s : Step} (h : Implements a m)
    (fits : (stateOf m.step).dictionary.size ≤ 2 ^ 32) (step : a.step = .ok s b) :
    ∃ n, m.step = .ok s n ∧ Implements b n := by
  obtain ⟨same, after⟩ := h.step fits
  rw [step] at same after
  exact ⟨_, ok_of_outcome same, after⟩

theorem step_error {e : RunError} (h : Implements a m)
    (fits : (stateOf m.step).dictionary.size ≤ 2 ^ 32) (step : a.step = .error e b) :
    ∃ n, m.step = .error e n ∧ Implements b n := by
  obtain ⟨same, after⟩ := h.step fits
  rw [step] at same after
  exact ⟨_, error_of_outcome same, after⟩

end Implements

namespace Engine

/-- A machine holds what a script acts on, whatever it executes next. -/
def Carries (m : Engine) (I : Image) (σ : Memory) : Prop := ∀ main, Holds I σ (.begin main m)

theorem carries_of_implements {I : Image} {σ : Memory} {a : FrameMachine} {m : Engine}
    (same : Implements a m) (h : Holds I σ a) : m.Carries I σ := by
  intro main
  obtain ⟨-, tracks | ⟨finished, -⟩⟩ := same
  · exact h.same tracks.world.symm tracks.dictionary.symm tracks.heap.symm
  · exact h.same finished.world.symm finished.dictionary.symm finished.heap.symm

/-- How a run agrees with what is meant if a stretch is all of it. A stack that has overflowed was too
small for the frames that there may be. -/
def Concludes (I : Image) (S : Stretch) (r : EStateM.Result Stop Memory Value) :
    EStateM.Result RunError Engine Value → Prop
  | .ok v m => ∃ τ, r = .ok v τ ∧ m.Carries I τ
  | .error (.failure e) m => ∃ τ, r = .error (.failed e) τ ∧ m.Carries I τ
  | .error (.fatal (.heapExhausted requested available) _) m =>
    ∃ τ, r = .error (.noRoom requested available) τ ∧ m.Carries I τ
  | .error (.fatal (.stackOverflow _) _) m =>
    S.Lacks m.config.stackCapacity ∧ ∃ τ, m.Carries I τ
  | .error _ _ => False

/-- A run for so many steps, as a run without a result if these were too few. -/
def ended : EStateM.Result RunError Engine (Option Value) → EStateM.Result RunError Engine Value
  | .ok (some v) m => .ok v m
  | .ok none m => .error .endless m
  | .error e m => .error e m

theorem runFor_succ (n : Nat) (m : Engine) :
    runFor (n + 1) m = match m.step with
      | .ok (.done v) m => .ok (some v) m
      | .ok .continue m => runFor n m
      | .error e m => .error e m := by
  rw [runFor, bind_eq]
  rcases m.step with ⟨_ | v, n⟩ | ⟨e, n⟩ <;> rfl

theorem runFor_add (n k : Nat) (m : Engine) :
    runFor (n + k) m = match runFor n m with
      | .ok none m => runFor k m
      | r => r := by
  induction n generalizing m with
  | zero => rw [Nat.zero_add, runFor, pure_eq]
  | succ n ih =>
    rw [Nat.add_right_comm, runFor_succ, runFor_succ]
    rcases m.step with ⟨_ | v, n⟩ | ⟨e, n⟩
    · exact ih _
    · rfl
    · rfl

/-- Rounds are as many steps as they have together. -/
theorem rounds_eq (n : Nat) (m : Engine) : rounds n m = ended (runFor (n * roundSize) m) := by
  induction n generalizing m with
  | zero => rw [Nat.zero_mul]; rfl
  | succ n ih =>
    have total : (n + 1) * roundSize = roundSize + n * roundSize := by
      rw [Nat.succ_mul, Nat.add_comm]
    rw [total, runFor_add, rounds, bind_eq]
    rcases runFor roundSize m with ⟨_ | v, n⟩ | ⟨e, n⟩
    · exact ih _
    · rfl
    · rfl

theorem grown_runFor (n : Nat) (m : Engine) : m.Grown (stateOf (runFor n m)) := by
  induction n generalizing m with
  | zero => exact .refl m
  | succ n ih =>
    have first := m.grown_step
    rw [runFor_succ]
    rcases result : m.step with ⟨_ | v, n⟩ | ⟨e, n⟩ <;> rw [result] at first
    · exact first.trans (ih _)
    · exact first
    · exact first

theorem stateOf_ended (r : EStateM.Result RunError Engine (Option Value)) :
    stateOf (ended r) = stateOf r := by
  rcases r with ⟨_ | v, m⟩ | ⟨e, m⟩ <;> rfl

theorem grown_after_step (k : Nat) (m : Engine) :
    (stateOf m.step).Grown (stateOf (runFor (k + 1) m)) := by
  rw [runFor_succ]
  rcases m.step with ⟨_ | v, n⟩ | ⟨e, n⟩
  · exact grown_runFor k n
  · exact .refl n
  · exact .refl n

/-- A run that is led to its end comes to it, if it may make that many steps. -/
theorem concludes_runFor {I : Image} {S : Stretch} {r : EStateM.Result Stop Memory Value} {n k : Nat}
    {a : FrameMachine} {m : Engine} (leads : Leads (Sane I) S (Finishes I S r) n a)
    (shallow : ∀ τ, r = .error .tooDeep τ → m.config.stackCapacity ≤ S.limit)
    (same : Implements a m) (enough : n < k)
    (fits : (stateOf (runFor k m)).dictionary.size ≤ 2 ^ 32) :
    Concludes I S r (ended (runFor k m)) := by
  induction leads generalizing m k with
  | outgrown _ big =>
    have grown := (grown_runFor k m).size_le
    rw [← same.dictionary] at grown
    omega
  | @here n a reached =>
    obtain ⟨k, rfl⟩ : ∃ j, k = j + 1 := ⟨k - 1, by omega⟩
    have before := Nat.le_trans (grown_after_step k m).size_le fits
    match r with
    | .ok v τ =>
      obtain ⟨-, b, step, holds⟩ := reached
      obtain ⟨m', other, still⟩ := same.step_ok before step
      rw [runFor_succ, other]
      exact ⟨τ, rfl, carries_of_implements still holds⟩
    | .error (.failed e) τ | .error (.noRoom requested available) τ =>
      obtain ⟨-, -, b, c, step, holds⟩ := reached
      obtain ⟨m', other, still⟩ := same.step_error before step
      rw [runFor_succ, other]
      exact ⟨τ, rfl, carries_of_implements still holds⟩
    | .error .tooDeep τ =>
      have deep := reached.2
      have small := shallow τ rfl
      rw [same.config] at deep
      omega
    | .error (.returned v) τ => cases reached
  | @next n a b _ _ step _ ih =>
    obtain ⟨k, rfl⟩ : ∃ j, k = j + 1 := ⟨k - 1, by omega⟩
    have before := Nat.le_trans (grown_after_step k m).size_le fits
    obtain ⟨m', other, still⟩ := same.step_ok before step
    have config : m'.config = m.config := by
      have grown := m.grown_step
      rw [other] at grown
      exact grown.config
    rw [runFor_succ, other] at fits ⊢
    exact ih (config ▸ shallow) still (Nat.lt_of_succ_lt_succ enough) fits
  | @overflow n a b capacity trace _ _ step lacks sane =>
    obtain ⟨k, rfl⟩ : ∃ j, k = j + 1 := ⟨k - 1, by omega⟩
    have before := Nat.le_trans (grown_after_step k m).size_le fits
    obtain ⟨m', other, still⟩ := same.step_error before step
    obtain ⟨τ, holds⟩ := sane
    rw [runFor_succ, other]
    exact ⟨still.config ▸ lacks, τ, carries_of_implements still holds⟩

/-- A function was started on a machine, or there was no room for it. The machine holds what it held
before, and the word of the function. -/
structure Begun (main : ObjectId) (m₀ m : Engine) : Prop where
  world : m.world = m₀.world
  heap : m.heap = m₀.heap
  config : m.config = m₀.config
  dictionary : m.dictionary = (encode (.object main) m₀.dictionary).2
  function : m.function = some main

/-- The slots of a function that was started have no values. -/
theorem Begun.current {main : ObjectId} {code : Code} {m₀ m : Engine} (h : Begun main m₀ m)
    (found : (m₀.world.object main).code? = some code) :
    (FrameMachine.begin main m).current =
      ⟨main, 0, List.replicate code.slotCount .undefined, []⟩ := by
  rw [FrameMachine.begin_eq h.function (h.world ▸ found)]
  simp [CallFrame.enter]

/-- A function with code is started, unless the stack has no room for its frame. -/
theorem start_cases {main : ObjectId} {code : Code} {m₀ : Engine}
    (found : (m₀.world.object main).code? = some code) :
    ∃ m, (start main m₀ = .ok () m ∨ m₀.config.stackCapacity < code.frameSize ∧
      ∃ trace, start main m₀ =
        .error (.fatal (.stackOverflow m₀.config.stackCapacity) trace) m) ∧
      Begun main m₀ m := by
  simp only [start, found, enterMain, bind_eq, encodeValue_engine, Exec.push, onStack_eq,
    Stack.push_eq, Stack.empty]
  by_cases none : m₀.config.stackCapacity ≤ 0
  · rw [if_pos none]
    refine ⟨_, .inr ⟨?_, _, rfl⟩, rfl, rfl, rfl, rfl, rfl⟩
    rw [Code.frameSize]
    omega
  rw [if_neg none]
  simp only [Stack.pushFrame]
  by_cases full : m₀.config.stackCapacity < Frame.operands ⟨1, code.slotCount⟩
  · rw [if_pos full]
    refine ⟨_, .inr ⟨?_, _, rfl⟩, rfl, rfl, rfl, rfl, rfl⟩
    simp only [Frame.operands, Frame.activation] at full
    rw [Code.frameSize]
    omega
  · rw [if_neg full]
    exact ⟨_, .inl rfl, rfl, rfl, rfl, rfl, rfl⟩

theorem begun_of_start {main : ObjectId} {code : Code} {m₀ m : Engine}
    (found : (m₀.world.object main).code? = some code) (started : start main m₀ = .ok () m) :
    Begun main m₀ m := by
  obtain ⟨other, begins | ⟨-, trace, failed⟩, begun⟩ := start_cases found
  · cases started.symm.trans begins
    exact begun
  · cases started.symm.trans failed

theorem grown_start (main : ObjectId) (m₀ : Engine) : m₀.Grown (stateOf (start main m₀)) := by
  cases found : (m₀.world.object main).code? with
  | none =>
    simp only [start, found]
    exact .of_same rfl rfl rfl
  | some code =>
    obtain ⟨m, started, world, -, config, dictionary⟩ := start_cases found
    have grown : m₀.Grown m :=
      ⟨dictionary ▸ encode_extends _ _, config, fun _ => world ▸ .refl _⟩
    obtain started | ⟨-, trace, failed⟩ := started
    · rw [started]
      exact grown
    · rw [failed]
      exact grown

theorem grown_run (main : ObjectId) (m₀ : Engine) : m₀.Grown (stateOf (run main m₀)) := by
  have first := grown_start main m₀
  rw [run, bind_eq]
  cases started : start main m₀ with
  | error e m =>
    rw [started] at first
    exact first
  | ok _ m =>
    rw [started] at first
    simp only [bind_eq, get_eq, rounds_eq, stateOf_ended]
    exact first.trans (grown_runFor _ m)

theorem le_foldl_max (size : HostObject → Nat) (os : List HostObject) (n : Nat) :
    n ≤ os.foldl (fun n o => max n (size o)) n ∧
      ∀ o ∈ os, size o ≤ os.foldl (fun n o => max n (size o)) n := by
  induction os generalizing n with
  | nil => exact ⟨Nat.le_refl _, fun o mem => by cases mem⟩
  | cons o os ih =>
    obtain ⟨start, others⟩ := ih (max n (size o))
    refine ⟨Nat.le_trans (Nat.le_max_left _ _) start, fun other mem => ?_⟩
    rcases List.mem_cons.mp mem with rfl | later
    · exact Nat.le_trans (Nat.le_max_right _ _) start
    · exact others other later

theorem le_longestCode {w : World} {id : ObjectId} {code : Code}
    (found : (w.object id).code? = some code) : code.stream.size ≤ longestCode w := by
  have object := Array.mem_toList_iff.mpr (Array.mem_of_getElem? (World.getElem?_of_code found))
  have longest := (le_foldl_max (fun o => (o.code?.getD default).stream.size) w.objects.toList 0).2
    _ object
  rw [Array.foldl_toList, found] at longest
  exact longest

/-- The words that a frame takes at most, whichever function it belongs to. -/
def frameRoom (w : World) : Nat :=
  w.objects.foldl (fun n o => max n (o.code?.getD default).frameSize) 0

theorem le_frameRoom {w : World} {id : ObjectId} {code : Code}
    (found : (w.object id).code? = some code) : code.frameSize ≤ frameRoom w := by
  have object := Array.mem_toList_iff.mpr (Array.mem_of_getElem? (World.getElem?_of_code found))
  have largest := (le_foldl_max (fun o => (o.code?.getD default).frameSize) w.objects.toList 0).2
    _ object
  rw [Array.foldl_toList, found] at largest
  exact largest

/-- A run may make more steps than any that comes to its end. -/
theorem callCost_lt_rounds (length : Nat) {depth capacity : Nat} (le : depth ≤ capacity) :
    length * callCost length depth <
      2 ^ ((capacity + 1) * (Nat.log2 length + 2)) * roundSize := by
  have base : length + 2 ≤ 2 ^ (Nat.log2 length + 2) := by
    have size : length < 2 ^ (Nat.log2 length + 1) := Nat.lt_log2_self
    have one : 1 ≤ 2 ^ Nat.log2 length := Nat.one_le_two_pow
    rw [Nat.pow_succ] at size ⊢
    omega
  have one : 0 < (length + 2) ^ depth := Nat.pow_pos (by omega)
  have exponent := Nat.mul_le_mul_right (Nat.log2 length + 2) (Nat.succ_le_succ le)
  calc length * callCost length depth
      ≤ length * (length + 2) ^ depth := Nat.mul_le_mul_left _ (callCost_le length depth)
    _ < (length + 2) * (length + 2) ^ depth := Nat.mul_lt_mul_of_pos_right (by omega) one
    _ = (length + 2) ^ (depth + 1) := by rw [Nat.pow_succ, Nat.mul_comm]
    _ ≤ (2 ^ (Nat.log2 length + 2)) ^ (depth + 1) := Nat.pow_le_pow_left base _
    _ = 2 ^ ((depth + 1) * (Nat.log2 length + 2)) := by rw [← Nat.pow_mul, Nat.mul_comm]
    _ ≤ 2 ^ ((capacity + 1) * (Nat.log2 length + 2)) := Nat.pow_le_pow_right (by decide) exponent
    _ ≤ 2 ^ ((capacity + 1) * (Nat.log2 length + 2)) * roundSize :=
      Nat.le_mul_of_pos_right _ (by decide)

/-- The slots of a function that nobody calls have no values. -/
theorem slots_outermost {p : Procedure} {code : Code} (h : p.HasCode code) :
    p.slots .undefined [] = List.replicate p.locals.length .undefined := by
  have arity := h.arity
  obtain ⟨n, count⟩ : ∃ n, p.locals.length = n + 1 := ⟨p.locals.length - 1, by omega⟩
  rw [Procedure.slots, count, List.replicate_succ]
  rfl

theorem Carries.world {I : Image} {σ : Memory} {m : Engine} (h : m.Carries I σ) :
    m.world = σ.world := (h default).world

/-- A machine on which a function was started still holds what a script acts on. -/
theorem Begun.carries {I : Image} {σ : Memory} {m₀ m : Engine} {main : ObjectId} {code : Code}
    (begun : Begun main m₀ m) (carries : m₀.Carries I σ)
    (found : (m₀.world.object main).code? = some code) : m.Carries I σ := by
  have hasCode : (I.compiled.world.object main).code?.isSome := by
    rw [← (carries main).hosts.code, ← carries.world, found]
    rfl
  exact fun other =>
    ((carries other).encodes (.inr ⟨main, rfl, hasCode⟩)).same begun.world begun.dictionary begun.heap

/-- The code of a function of the program. -/
theorem Carries.code {I : Image} {σ : Memory} {m : Engine} {main : ObjectId} {p : Procedure}
    (carries : m.Carries I σ) (known : I.program main = some p) :
    ∃ code, (m.world.object main).code? = some code ∧ p.HasCode code := by
  obtain ⟨code, body, -, has⟩ := (carries main).hosts.body known
  refine ⟨code, ?_, has⟩
  rw [HostObject.code?, carries.world, body]

/-- A machine that was started is at the beginning of the code, and no slot has a value. -/
theorem Carries.at_begin {I : Image} {σ : Memory} {m₀ m : Engine} {main : ObjectId} {code : Code}
    {locals : List String} (carries : m₀.Carries I σ) (memory : m₀.InMemory)
    (found : (m₀.world.object main).code? = some code) (slots : code.slotCount = locals.length)
    (started : start main m₀ = .ok () m) :
    m.world = m₀.world ∧ m.config = m₀.config ∧
      At I ⟨m.config, main, code, locals, [], []⟩
        { σ with slots := List.replicate locals.length .undefined } 0 [] (.begin main m) := by
  have begun := begun_of_start found started
  have tracks := start_frames memory started
  refine ⟨begun.world, begun.config, {
    holds := (begun.carries carries found main).setSlots _
    status := rfl
    config := rfl
    function := rfl
    code := by rw [← carries.world, found]
    pc := rfl
    callers := rfl
    locals := List.length_replicate
    slots := ?_
    operands := .nil
    kept := fun q mem => by cases mem
    room := ?_ }⟩
  · rw [begun.current found, slots]
    exact denotes_replicate _ _ _ _
  · rw [← tracks.pointer]
    exact Nat.le_trans tracks.room (Nat.le_of_eq tracks.capacity)

/-- All of a run of a function, with so many calls inside each other. -/
def wholeRun (w : World) (main : ObjectId) (depth : Nat) : Stretch :=
  ⟨[], 0, ((w.object main).code?.getD default).stream.size, depth, frameRoom w⟩

theorem wholeRun_opens {w : World} {main : ObjectId} {code : Code}
    (found : (w.object main).code? = some code) (depth : Nat) (config : EngineConfig)
    (locals : List String) :
    (wholeRun w main depth).Opens ⟨config, main, code, locals, [], []⟩ := by
  refine ⟨⟨⟨[], rfl⟩, Nat.zero_le _, fun f mem => by cases mem⟩, fun _ => ⟨rfl, ?_⟩⟩
  rw [wholeRun, found]
  exact Nat.le_refl _

/-- From its start on a function is led to what it means with no more calls inside each other than
the stack has words, in fewer steps than a run may make. -/
theorem leads_of_start {I : Image} {σ : Memory} {m₀ m : Engine} {main : ObjectId} {p : Procedure}
    (memory : m₀.InMemory) (carries : m₀.Carries I σ) (known : I.program main = some p)
    (started : start main m₀ = .ok () m) {depth : Nat} (le : depth ≤ m₀.config.stackCapacity) :
    ∃ n, n < roundBound m * roundSize ∧ Leads (Sane I) (wholeRun I.compiled.world main depth)
      (Finishes I (wholeRun I.compiled.world main depth)
        (Meaning.callWithin I.program (depth + 1) p .undefined [] σ))
      n (.begin main m) := by
  obtain ⟨code, found, has⟩ := carries.code known
  obtain ⟨sameWorld, config, at_start⟩ := carries.at_begin memory found has.slots started
  rw [← slots_outermost has] at at_start
  have same (id : ObjectId) : (m.world.object id).code? = (I.compiled.world.object id).code? := by
    rw [← (carries main).hosts.code, ← carries.world, ← sameWorld]
  have short : I.ShortCode (longestCode m.world) := fun id code' known' =>
    Nat.le_succ_of_le (le_longestCode ((same id).trans known'))
  have compiled := (same main).symm.trans (sameWorld ▸ found)
  have runs := runsWithin (S := wholeRun I.compiled.world main depth) short
    (fun id code' known' => le_frameRoom known') depth _ σ (.begin main m) p .undefined []
    rfl (wholeRun_opens compiled depth _ _) known rfl at_start
  have leads := runs.trans fun b comes => comes.finishes rfl
  refine ⟨_, ?_, leads⟩
  rw [roundBound, config]
  exact callCost_lt_rounds _ le

/-- How a run agrees with what is meant when so many calls may be inside each other. One that finds
no room on the stack has calls so deep that their frames may need more than there is. -/
def Realizes (I : Image) (capacity : Nat) (meaning : Nat → EStateM.Result Stop Memory Value) :
    EStateM.Result RunError Engine Value → Prop
  | .ok v m => ∃ τ, meaning (capacity + 1) = .ok v τ ∧ m.Carries I τ
  | .error (.failure e) m => ∃ τ, meaning (capacity + 1) = .error (.failed e) τ ∧ m.Carries I τ
  | .error (.fatal (.heapExhausted requested available) _) m =>
    ∃ τ, meaning (capacity + 1) = .error (.noRoom requested available) τ ∧ m.Carries I τ
  | .error (.fatal (.stackOverflow _) _) m =>
    (∀ depth, (∀ τ, meaning depth ≠ .error .tooDeep τ) →
      capacity < depth * frameRoom I.compiled.world) ∧ ∃ τ, m.Carries I τ
  | .error _ _ => False

/-- A run of a function comes to what the function means with as many calls inside each other as the
stack has words, or the stack overflows. -/
theorem run_realizes {I : Image} {σ : Memory} {m₀ : Engine} {main : ObjectId} {p : Procedure}
    (memory : m₀.InMemory) (carries : m₀.Carries I σ) (known : I.program main = some p)
    (fits : (stateOf (run main m₀)).dictionary.size ≤ 2 ^ 32) :
    Realizes I m₀.config.stackCapacity
      (fun depth => Meaning.callWithin I.program depth p .undefined [] σ) (run main m₀) := by
  obtain ⟨code, found, -⟩ := carries.code known
  have compiled : (I.compiled.world.object main).code? = some code := by
    rw [← (carries main).hosts.code, ← carries.world, found]
  have frame : code.frameSize ≤ frameRoom I.compiled.world := le_frameRoom compiled
  have positive : 0 < frameRoom I.compiled.world := by
    rw [Code.frameSize] at frame
    omega
  obtain ⟨m, started, begun⟩ := start_cases found
  have holds := begun.carries carries found
  have config := begun.config
  rw [run, bind_eq] at fits ⊢
  obtain started | ⟨full, trace, failed⟩ := started
  case inr =>
    rw [failed]
    refine ⟨fun depth shallow => ?_, σ, holds⟩
    cases depth with
    | zero => exact absurd rfl (shallow σ)
    | succ depth =>
      rw [Nat.succ_mul]
      omega
  have tracks := start_frames memory started
  rw [started] at fits ⊢
  simp only [bind_eq, get_eq, rounds_eq] at fits ⊢
  rw [stateOf_ended] at fits
  have concludes {depth : Nat} (le : depth ≤ m₀.config.stackCapacity)
      (shallow : ∀ τ, Meaning.callWithin I.program (depth + 1) p .undefined [] σ ≠
        .error .tooDeep τ ∨ m₀.config.stackCapacity ≤ depth) :
      Concludes I (wholeRun I.compiled.world main depth)
        (Meaning.callWithin I.program (depth + 1) p .undefined [] σ)
        (ended (runFor (roundBound m * roundSize) m)) := by
    obtain ⟨n, enough, leads⟩ := leads_of_start memory carries known started le
    refine concludes_runFor leads (fun τ deep => ?_) ⟨tracks.status, .inl tracks⟩ enough fits
    rw [config]
    exact (shallow τ).resolve_left (not_not_intro deep)
  have grown := (grown_runFor (roundBound m * roundSize) m).config
  rw [← stateOf_ended] at grown
  have all := concludes (Nat.le_refl _) fun _ => .inr (Nat.le_refl _)
  cases result : ended (runFor (roundBound m * roundSize) m) with
  | ok v m' =>
    rw [result] at all
    exact all
  | error e m' =>
    rw [result] at all grown
    cases e with
    | failure e => exact all
    | endless => exact all
    | fatal kind trace =>
      cases kind with
      | heapExhausted requested available => exact all
      | invalidWord e => exact all
      | unknownOpcode opcode pc => exact all
      | corruptOperand kind => exact all
      | stackOverflow capacity =>
        refine ⟨fun depth shallow => ?_, all.2⟩
        cases depth with
        | zero => exact absurd rfl (shallow σ)
        | succ depth =>
          by_cases le : depth ≤ m₀.config.stackCapacity
          · obtain ⟨lacks, -⟩ := result ▸ concludes le fun τ => .inl (shallow τ)
            rw [show m'.config = m₀.config from grown.trans config] at lacks
            exact lacks
          · have more := Nat.le_mul_of_pos_right (depth + 1) positive
            omega

end Engine
end TaggedScript
