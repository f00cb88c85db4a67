import TaggedScript.Proofs.Compilation.CodeAt
import TaggedScript.Proofs.Frames.Calls
import TaggedScript.Proofs.Frames.Growth

/-!
The steps of an `Engine` are those of a `FrameMachine`.
-/
namespace TaggedScript

namespace Instr

/-- An instruction ends before what follows on it. -/
theorem width_of_decode {pc opcode : Nat} {next? : Option Nat} {i : Instr}
    (h : decode pc opcode next? = .ok i) : i.width = 1 ∨ i.width = 2 ∧ next?.isSome := by
  have stands := (decode_ok h).2
  cases operand : i.operand? with
  | none => exact .inl (by simp [width, encode, operand])
  | some n => exact .inr ⟨by simp [width, encode, operand], by simp [stands n operand]⟩

end Instr

theorem Code.fetch_le {code : Code} {pc : Nat} {i : Instr} (h : code.fetch pc = .ok i) :
    pc + i.width ≤ code.stream.size := by
  unfold Code.fetch at h
  split at h
  · cases h
  · rename_i opcode found
    have here := (Array.getElem?_eq_some_iff.mp found).1
    rcases Instr.width_of_decode h with one | ⟨two, more⟩
    · omega
    · have there := (Array.getElem?_eq_some_iff.mp (Option.some_get more).symm).1
      omega

theorem Tracks.code_eq {a : FrameMachine} {m : Engine} (h : Tracks a m) : m.code = a.code := by
  simp [Engine.code, FrameMachine.code, h.function, h.world]

/-- The walk along the records meets the frames that wait. -/
theorem Engine.callers_eq {m : Engine} {lower more : List Word} {callee : Word}
    {f : CallFrame} {record : Activation} {callers : List CallFrame}
    (below : Below m.world m.dictionary lower record callers)
    (live : m.stack.live = frameWords lower callee f record ++ more)
    (room : m.stack.pointer ≤ m.stack.capacity) (fits : m.dictionary.size ≤ 2 ^ 32) :
    m.callers ⟨lower.length + 1, f.slots.length⟩ =
      callers.map fun g => (m.world.object g.function).name := by
  induction below generalizing callee f more with
  | outermost =>
    rw [Engine.callers, Stack.activationOf_frame live room (by simp) (by simp)]
    rfl
  | @called lower' record' callers g under caller below named runs pc base link ih =>
    let record : Activation := ⟨lower'.length + 1, some g.pc, caller⟩
    have act := Stack.activationOf_frame live room base (by simpa using pc)
    have deeper : m.stack.live = frameWords lower' under g record' ++
        (callee :: (f.slots ++ (record.words ++ f.operands.reverse)) ++ more) := by
      rw [live, frameWords, List.append_assoc]
    rw [Engine.callers, act]
    simp only [callerOf_link runs (link fits), frameOf_runs runs, ih deeper, length_frameWords]
    rw [if_pos (by simp only [CallFrame.size]; omega), List.map_cons]

theorem Tracks.stackTrace {a : FrameMachine} {m : Engine} (h : Tracks a m)
    (fits : m.dictionary.size ≤ 2 ^ 32) : m.stackTrace = a.stackTrace := by
  obtain ⟨lower, callee, record, below, -, live, frame⟩ := h.frames
  have whole : m.stack.live = frameWords lower callee a.current record ++ [] := by
    rw [live, List.append_nil]
  rw [Engine.stackTrace, frame, Engine.callers_eq below whole h.room fits]
  simp [Engine.functionName, h.function, FrameMachine.stackTrace, FrameMachine.frames, h.world]

theorem Tracks.execute {a : FrameMachine} {m : Engine} (h : Tracks a m)
    (pc : a.current.pc < 2 ^ 62) (fits : m.dictionary.size ≤ 2 ^ 32) (i : Instr) :
    Completes (FrameExec.execute i a) (Exec.execute i m) := by
  cases i with
  | const w => exact (Sim.push w a m h).completes
  | lookup name =>
    apply (Sim.nameOf name a m h).andThen
    intro x a m _ h
    simp only [bind_eq, get_eq, h.world]
    exact ((Sim.encodeValue _).bind Sim.push a m h).completes
  | register name =>
    apply (Sim.nameOf name a m h).andThen
    intro x a m _ h
    apply (Sim.pop a m h).andThen
    intro w a m _ h
    apply (Sim.decodeWord w a m h).andThen
    intro v a m _ h
    exact (Sim.changeWorld (f := (·.setGlobal x v)) (fun _ => World.sameCode_of_objects rfl) a m
      h).completes
  | load i =>
    apply (Sim.slot i a m h).andThen
    intro w a m _ h
    exact (Sim.push w a m h).completes
  | store i =>
    apply (Sim.pop a m h).andThen
    intro w a m _ h
    exact (Sim.setSlot i w a m h).completes
  | dup =>
    apply (Sim.peekAt 0 a m h).andThen
    intro w a m _ h
    exact (Sim.push w a m h).completes
  | pop => exact (Sim.pop a m h).completes
  | swap => exact (Sim.swap a m h).completes
  | funcall argc => exact (h.call pc argc).completes
  | ret => exact h.leave fits
  | goto target => exact (Sim.jump target a m h).completes
  | jumpIfFalse target =>
    apply (Sim.pop a m h).andThen
    intro w a m _ h
    by_cases isFalse : w = .ofBool false
    · simp only [isFalse, ↓reduceIte]
      exact (Sim.jump target a m h).completes
    · simp only [isFalse, ↓reduceIte]
      exact h
  | new shape => exact (Sim.newRecord shape a m h).completes
  | get name => exact (Sim.getField name a m h).completes
  | put name => exact (Sim.putField name a m h).completes
  | print => exact (Sim.printTop a m h).completes

theorem Tracks.next {a : FrameMachine} {m : Engine} (h : Tracks a m)
    (fits : m.dictionary.size ≤ 2 ^ 32) : Completes (FrameExec.next a) (Exec.next m) := by
  simp only [FrameExec.next, Exec.next, bind_eq, get_eq,
    h.code_eq, h.pc]
  cases fetched : a.code.fetch a.current.pc with
  | error e => exact ⟨rfl, h⟩
  | ok i =>
    obtain ⟨code, found, -⟩ := h.runs
    have position := Code.fetch_le fetched
    rw [FrameMachine.code, h.world, found] at position
    have size := (h.code _ code found).2
    have jumped := (Sim.jump (a.current.pc + i.width) a m h).2
    exact jumped.execute (Nat.lt_of_le_of_lt position size) fits i

/-- The machines are at the same point of a run. -/
def Implements (a : FrameMachine) (m : Engine) : Prop :=
  a.status = m.status ∧ (Tracks a m ∨ Finished a m ∧ ∃ v, m.status = .done v)

theorem Tracks.raise {a : FrameMachine} {m : Engine} (h : Tracks a m)
    (fits : m.dictionary.size ≤ 2 ^ 32) (fault : Fault) : m.raise fault = a.raise fault := by
  cases fault with
  | failure e => rfl
  | fatal kind => simp only [Engine.raise, FrameMachine.raise, h.stackTrace fits]

/-- Machines that are at the same point make the same step. -/
theorem Implements.step {a : FrameMachine} {m : Engine} (h : Implements a m)
    (fits : (stateOf (m.step)).dictionary.size ≤ 2 ^ 32) :
    outcome (m.step) = outcome (a.step) ∧ Implements (stateOf (a.step)) (stateOf (m.step)) := by
  have before : m.dictionary.size ≤ 2 ^ 32 := Nat.le_trans m.grown_step.size_le fits
  unfold Engine.step FrameMachine.step at *
  rw [h.1]
  cases status : m.status with
  | done v => exact ⟨rfl, h⟩
  | idle =>
    obtain tracks | ⟨-, v, done⟩ := h.2
    · simp only [tracks.raise before]
      exact ⟨rfl, h⟩
    · cases status.symm.trans done
  | running =>
    obtain tracks | ⟨-, v, done⟩ := h.2
    · have ends := tracks.next before
      simp only [status] at fits ⊢
      obtain ⟨b, n, mine, other, tracks⟩ | ⟨v, b, n, mine, other, finished⟩ |
        ⟨e, b, n, mine, other, tracks⟩ := ends.cases
      · simp only [mine, other]
        exact ⟨rfl, tracks.status, .inl tracks⟩
      · simp only [mine, other]
        exact ⟨rfl, rfl, .inr ⟨{ finished with }, v, rfl⟩⟩
      · rw [other] at fits
        simp only [mine, other, tracks.raise fits]
        exact ⟨rfl, rfl, .inl { tracks with status := rfl }⟩
    · cases status.symm.trans done

/-- A step after which the machine still runs. -/
theorem Tracks.next_running {a : FrameMachine} {m : Engine} (h : Tracks a m)
    (running : m.status = .running) (still : (stateOf m.step).status = .running)
    (fits : (stateOf m.step).dictionary.size ≤ 2 ^ 32) :
    ∃ b, FrameExec.next a = .ok none b ∧ Tracks b (stateOf m.step) := by
  have before : m.dictionary.size ≤ 2 ^ 32 := Nat.le_trans m.grown_step.size_le fits
  have ends := h.next before
  simp only [Engine.step, running] at still ⊢
  obtain ⟨b, n, mine, other, tracks⟩ | ⟨v, b, n, mine, other, finished⟩ |
    ⟨e, b, n, mine, other, tracks⟩ := ends.cases
  · rw [other]
    exact ⟨b, mine, tracks⟩
  · rw [other] at still
    cases still
  · rw [other] at still
    cases still

/-- What the memory of a host allows: the stack and all code have their places in it, and no host
has room for `2 ^ 62` words. -/
structure Engine.InMemory (m : Engine) : Prop where
  stack : m.config.stackCapacity ≤ 2 ^ 62
  code : m.world.CodeFits

/-- The stack that a run begins with holds the frame of its function and no operands. -/
theorem Engine.enterMain_ok {main : ObjectId} {code : Code} {m n : Engine}
    (empty : m.stack = .empty m.config.stackCapacity) (entered : enterMain main code m = .ok () n) :
    ∃ stack, n = { m with dictionary := (encode (.object main) m.dictionary).2, stack } ∧
      stack.live = frameWords [] (encode (.object main) m.dictionary).1 (.enter main code.slotCount [])
        ⟨0, none, .undefined⟩ ∧
      stack.frame = ⟨1, code.slotCount⟩ ∧ stack.capacity = m.config.stackCapacity ∧
      stack.pointer ≤ stack.capacity := by
  let word := (encode (.object main) m.dictionary).1
  let callee : Stack := ⟨m.config.stackCapacity, 1, Stack.writeWord #[] 0 word, .outside⟩
  have onTop : callee.live = [word] := (Stack.empty m.config.stackCapacity).live_push word
  have pushed := Stack.live_pushFrame callee ⟨1, code.slotCount⟩ ⟨0, none, .undefined⟩
    (Nat.le_add_right 1 code.slotCount)
  simp only [enterMain, bind_eq, encodeValue_engine, Exec.push, onStack_eq, Stack.push_eq, empty,
    Stack.empty] at entered
  by_cases none : m.config.stackCapacity ≤ 0
  · rw [if_pos none] at entered
    cases entered
  rw [if_neg none] at entered
  simp only [Stack.pushFrame] at entered
  by_cases full : m.config.stackCapacity < Frame.operands ⟨1, code.slotCount⟩
  · rw [if_pos full] at entered
    cases entered
  · rw [if_neg full] at entered
    cases entered
    refine ⟨_, rfl, pushed.trans ?_, rfl, rfl, Nat.le_of_not_lt full⟩
    rw [onTop]
    simp [frameWords, CallFrame.enter, callee, word, Frame.activation]

theorem FrameMachine.begin_eq {main : ObjectId} {code : Code} {m : Engine}
    (function : m.function = some main) (found : (m.world.object main).code? = some code) :
    begin main m = ⟨m.config, m.world, m.dictionary, m.heap, .enter main code.slotCount [], [],
      .running⟩ := by
  simp [begin, Engine.code, function, found]

/-- The word of a function that is started is that of an object. -/
theorem callee_main (main : ObjectId) (d : Dictionary) :
    CallFrame.IsCallee [] (encode (.object main) d).1 where
  odd _ := Word.asIndex_interned _
  notHeap offset := by
    rw [encode, Word.tag_interned]
    intro same
    cases same

theorem Engine.start_frames {m₀ m : Engine} {main : ObjectId} (memory : m₀.InMemory)
    (started : Engine.start main m₀ = .ok () m) : Tracks (.begin main m) m := by
  simp only [Engine.start] at started
  split at started
  · cases started
  rename_i code found
  split at started
  · rename_i n entered
    obtain ⟨stack, state, live, frame, capacity, room⟩ := Engine.enterMain_ok rfl entered
    injection started with _ made
    subst state
    have function : m.function = some main := by rw [← made]
    have here : (m.world.object main).code? = some code := by rw [← made]; exact found
    rw [FrameMachine.begin_eq function here]
    subst made
    exact {
      config := rfl, world := rfl, dictionary := rfl, heap := rfl, status := rfl, function := rfl
      pc := rfl, capacity := capacity, addressable := memory.stack, code := memory.code
      runs := ⟨code, found, by simp [CallFrame.enter]⟩
      room := room
      frames := ⟨[], _, _, .outermost, callee_main main _, live, by simp [frame, CallFrame.enter]⟩ }
  · cases started

/-- What is seen of a machine is what a machine with frames of their own has. -/
structure Engine.Shows (m : Engine) (a : FrameMachine) : Prop where
  status : m.status = a.status
  world : m.world = a.world
  dictionary : m.dictionary = a.dictionary
  heap : m.heap = a.heap
  stackTrace : m.stackTrace = a.stackTrace
  function : m.status = .running → m.function = some a.current.function
  pc : m.status = .running → m.pc = a.current.pc
  operands : m.status = .running → m.stack.operands = a.current.operands.reverse
  slots : m.status = .running → ∀ i, (m.stack.slot i).toOption = a.current.slots[i]?
  pointer : m.status = .running → m.stack.pointer = a.size

theorem Tracks.operands {a : FrameMachine} {m : Engine} (h : Tracks a m) :
    m.stack.operands = a.current.operands.reverse := by
  have floor := h.floor
  have between := h.between_operands (Nat.le_refl _)
  rw [List.take_length] at between
  rw [← between, Stack.operands, ← floor, Nat.add_sub_cancel]

theorem Tracks.slots {a : FrameMachine} {m : Engine} (h : Tracks a m) (i : Nat) :
    (m.stack.slot i).toOption = a.current.slots[i]? := by
  have same := Sim.slot i a m h
  simp only [FrameExec.slot, inspect_eq] at same
  cases found : a.current.slots[i]? <;> cases mine : m.stack.slot i <;> rw [found, mine] at same
  · rfl
  · cases same
  · cases same
  · rw [same.1]
    rfl

theorem Implements.shows {a : FrameMachine} {m : Engine} (h : Implements a m)
    (fits : m.dictionary.size ≤ 2 ^ 32) : m.Shows a := by
  obtain ⟨status, tracks | ⟨finished, v, done⟩⟩ := h
  · exact {
      status := status.symm
      world := tracks.world.symm
      dictionary := tracks.dictionary.symm
      heap := tracks.heap.symm
      stackTrace := tracks.stackTrace fits
      function := fun _ => tracks.function
      pc := fun _ => tracks.pc
      operands := fun _ => tracks.operands
      slots := fun _ => tracks.slots
      pointer := fun _ => tracks.pointer }
  · have finishedRun : m.status ≠ .running := by simp [done]
    exact {
      status := status.symm
      world := finished.world.symm
      dictionary := finished.dictionary.symm
      heap := finished.heap.symm
      stackTrace := finished.stackTrace
      function := fun running => absurd running finishedRun
      pc := fun running => absurd running finishedRun
      operands := fun running => absurd running finishedRun
      slots := fun running => absurd running finishedRun
      pointer := fun running => absurd running finishedRun }

theorem Engine.grown_afterSteps (m : Engine) (n : Nat) :
    (afterSteps step n m).Grown (afterSteps step (n + 1) m) := grown_step _

/-- The machines stay at the same point of a run, and all their steps come to the same. -/
theorem Implements.afterSteps {a : FrameMachine} {m : Engine} (h : Implements a m) (n : Nat)
    (fits : (afterSteps Engine.step n m).dictionary.size ≤ 2 ^ 32) :
    Implements (afterSteps FrameMachine.step n a) (afterSteps Engine.step n m) ∧
    ∀ k < n, outcome ((afterSteps Engine.step k m).step) =
      outcome ((afterSteps FrameMachine.step k a).step) := by
  induction n with
  | zero => exact ⟨h, fun k hk => absurd hk (Nat.not_lt_zero k)⟩
  | succ n ih =>
    have before := (m.grown_afterSteps n).size_le
    obtain ⟨now, earlier⟩ := ih (Nat.le_trans before fits)
    obtain ⟨same, next⟩ := now.step fits
    refine ⟨next, fun k hk => ?_⟩
    rcases Nat.lt_succ_iff_lt_or_eq.mp hk with less | rfl
    · exact earlier k less
    · exact same

/-- The shared stack implements a stack of frames that are apart from each other, whatever the code
does: from the start of a function on, each step comes to the same on both, and the trace of the
machine names the functions of the frames. -/
theorem Engine.steps_of_frames {m₀ m : Engine} {main : ObjectId} (memory : m₀.InMemory)
    (started : Engine.start main m₀ = .ok () m) (n : Nat)
    (fits : (afterSteps Engine.step n m).dictionary.size ≤ 2 ^ 32) :
    (afterSteps Engine.step n m).Shows (afterSteps FrameMachine.step n (.begin main m)) ∧
    ∀ k < n, outcome ((afterSteps Engine.step k m).step) =
      outcome ((afterSteps FrameMachine.step k (.begin main m)).step) := by
  have tracks := Engine.start_frames memory started
  obtain ⟨same, outcomes⟩ := Implements.afterSteps ⟨tracks.status, .inl tracks⟩ n fits
  exact ⟨same.shows fits, outcomes⟩

/-- A function that calls itself. It is the first entry of the dictionary when it is started. -/
def selfCall : Engine :=
  let code := Code.ofInstrs 1 1 [.const (.interned 0), .const .undefined, .funcall 0, .ret]
  .make ⟨32, 0⟩ { (default : World) with objects := #[.ofCode "again" code] } .empty

example :
    (afterSteps Engine.step 6 (stateOf (Engine.start ⟨0⟩ selfCall))).stackTrace =
      ["again", "again", "again"] := by
  decide +kernel

theorem selfCall_inMemory : selfCall.InMemory where
  stack := by decide
  code := by
    rintro ⟨index⟩ code found
    cases index with
    | zero =>
      cases found
      decide
    | succ n => cases found

theorem Engine.steps_of_selfCall :
    let m := stateOf (Engine.start ⟨0⟩ selfCall)
    (afterSteps Engine.step 6 m).Shows (afterSteps FrameMachine.step 6 (.begin ⟨0⟩ m)) ∧
    ∀ k < 6, outcome ((afterSteps Engine.step k m).step) =
      outcome ((afterSteps FrameMachine.step k (.begin ⟨0⟩ m)).step) :=
  Engine.steps_of_frames selfCall_inMemory rfl 6 (by decide +kernel)

end TaggedScript
