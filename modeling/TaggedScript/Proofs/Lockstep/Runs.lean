import TaggedScript.Proofs.Compilation.Runs
import TaggedScript.Proofs.Lockstep.Steps

/-!
Whole runs of machines in lockstep. They begin alike, and at each of their steps the machines come to
the same and have the same room, records, traces and output.
-/
namespace TaggedScript

namespace Engine

/-- A machine whose stack has room for the frame of a function starts it. -/
theorem start_room {main : ObjectId} {code : Code} {m₀ : Engine}
    (found : (m₀.world.object main).code? = some code)
    (room : Frame.operands ⟨1, code.slotCount⟩ ≤ m₀.config.stackCapacity) :
    ∃ m, start main m₀ = .ok () m ∧ Begun main m₀ m := by
  obtain ⟨m, started | ⟨-, trace, failed⟩, begun⟩ := start_cases found
  · exact ⟨m, started, begun⟩
  · exfalso
    simp only [Frame.operands, Frame.activation] at room
    simp only [start, found, enterMain, bind_eq, encodeValue_engine, Exec.push, onStack_eq,
      Stack.push_eq, Stack.empty] at failed
    rw [if_neg (by omega)] at failed
    simp only [Stack.pushFrame] at failed
    rw [if_neg (by simp only [Frame.operands, Frame.activation]; omega)] at failed
    cases failed

/-- A function that the stack has no room for leaves at most its own word on it. -/
theorem enterMain_full (main : ObjectId) {code : Code} (m : Engine)
    (empty : m.stack = .empty m.config.stackCapacity)
    (full : m.config.stackCapacity < Frame.operands ⟨1, code.slotCount⟩) :
    ∃ stack, enterMain main code m = .error (.fatal (.stackOverflow m.config.stackCapacity))
        { m with dictionary := (encode (.object main) m.dictionary).2, stack } ∧
      stack.frame = .outside ∧ (stack.read 0).asIndex = none ∧
      stack.pointer = min m.config.stackCapacity 1 ∧
      ∀ w ∈ stack.live, w = (encode (.object main) m.dictionary).1 := by
  simp only [enterMain, bind_eq, encodeValue_engine, Exec.push, onStack_eq, Stack.push_eq, empty,
    Stack.empty]
  by_cases none : m.config.stackCapacity ≤ 0
  · rw [if_pos none]
    have nothing : Word.undefined.asIndex = .none := by decide
    exact ⟨_, rfl, rfl, nothing, by simp only; omega, by simp [Stack.live, Stack.between]⟩
  rw [if_neg none]
  simp only [Stack.pushFrame]
  rw [if_pos full]
  have onTop := (Stack.empty m.config.stackCapacity).live_push (encode (.object main) m.dictionary).1
  refine ⟨_, rfl, rfl, ?_, by simp only; omega, fun w mem => ?_⟩
  · rw [Stack.read_of_getElem? (w := (encode (.object main) m.dictionary).1)]
    · exact Word.asIndex_interned _
    · exact congrArg (·[0]?) onTop
  · have only := onTop ▸ mem
    simpa [Stack.empty, Stack.live, Stack.between] using only

/-- A machine whose stack has no room for the frame of a function does not start it. -/
theorem start_full {main : ObjectId} {code : Code} {m₀ : Engine}
    (found : (m₀.world.object main).code? = some code)
    (full : m₀.config.stackCapacity < Frame.operands ⟨1, code.slotCount⟩) :
    ∃ m, start main m₀ = .error (.fatal (.stackOverflow m₀.config.stackCapacity)
        [(m₀.world.object main).name]) m ∧ Begun main m₀ m ∧ m.status = .idle ∧
      m.stackTrace = [(m₀.world.object main).name] ∧
      m.stack.pointer = min m₀.config.stackCapacity 1 ∧
      ∀ w ∈ m.stack.live, w = (encode (.object main) m₀.dictionary).1 := by
  obtain ⟨stack, failed, frame, odd, pointer, words⟩ := enterMain_full main { m₀ with
    status := .idle, stack := .empty m₀.config.stackCapacity, function := some main, pc := 0 } rfl full
  have trace (m : Engine) (same : m.stack = stack) (function : m.function = some main)
      (world : m.world = m₀.world) : m.stackTrace = [(m₀.world.object main).name] := by
    rw [stackTrace, same, frame, callers, same, Stack.activationOf_outside odd, functionName,
      function, world]
  let n : Engine := { m₀ with
    status := .idle, stack, function := some main, pc := 0
    dictionary := (encode (.object main) m₀.dictionary).2 }
  have shown := trace n rfl rfl rfl
  refine ⟨n, ?_, ⟨rfl, rfl, rfl, rfl, rfl⟩, rfl, shown, pointer, words⟩
  simp only [start, found, failed, raise]
  exact congrArg (fun trace => EStateM.Result.error (RunError.fatal _ trace) n) shown

/-- A machine that runs after it was started was started without a fault. -/
theorem ok_of_start {main : ObjectId} {m : Engine}
    (running : (stateOf (start main m)).status = .running) :
    start main m = .ok () (stateOf (start main m)) := by
  cases found : (m.world.object main).code? with
  | none =>
    simp only [start, found] at running
    cases running
  | some code =>
    by_cases room : Frame.operands ⟨1, code.slotCount⟩ ≤ m.config.stackCapacity
    · obtain ⟨k, started, -⟩ := start_room found room
      rw [started]
      rfl
    · obtain ⟨k, failed, -, idle, -⟩ := start_full found (Nat.lt_of_not_le room)
      rw [failed] at running
      cases idle.symm.trans running

end Engine

/-- Wherever the code of the first functions goes on there are corresponding instructions. -/
def Outermost.Closed {R : Renumbering} (O : Outermost R) : Prop :=
  ∀ p q, O.here p q → Fetches O.compiled O.leftCode O.rightCode O.here p q

namespace Lockstep
variable {R : Renumbering}

/-- Machines at the same point of a run, which may be over. -/
inductive Level (L : Lockstep R) (O : Outermost R) : FrameMachine → FrameMachine → Prop
  | running {x y : FrameMachine} : Together L O True x y → Level L O x y
  | done {x y : FrameMachine} {v u : Value} : L.Matches v u → Together L O False x y →
    Level L O { x with status := .done v } { y with status := .done u }
  | idle {x y : FrameMachine} : Together L O False x y →
    Level L O { x with status := .idle } { y with status := .idle }

/-- Steps that come to the same. -/
inductive Comes (L : Lockstep R) : Except RunError Step → Except RunError Step → Prop
  | continue : Comes L (.ok .continue) (.ok .continue)
  | done {v u : Value} : L.Matches v u → Comes L (.ok (.done v)) (.ok (.done u))
  | error (e : RunError) : Comes L (.error e) (.error e)

/-- The next instruction makes a record of that class. -/
def Makes (y : FrameMachine) (r : Header) : Prop :=
  y.status = .running ∧ y.code.fetch y.current.pc = .ok (.new r.shape)

/-- A machine is done only by a step that says so. -/
def Settled (r : EStateM.Result RunError FrameMachine Step) : Prop :=
  ∀ v, (stateOf r).status = .done v → outcome r = .ok (.done v)

theorem Settled.of_running {r : EStateM.Result RunError FrameMachine Step}
    (running : (stateOf r).status = .running) : Settled r := by
  intro v done
  rw [running] at done
  cases done

theorem Settled.done (v : Value) (x : FrameMachine) :
    Settled (.ok (.done v) { x with status := .done v }) := by
  rintro _ ⟨⟩
  rfl

variable {L L' : Lockstep R} {O : Outermost R} {x y : FrameMachine}

namespace Level

theorem size_eq (h : Level L O x y) : x.size = y.size := by
  cases h with
  | running together => exact together.size_eq
  | done _ together => exact together.size_eq
  | idle together => exact together.size_eq

theorem stackTrace_eq (h : Level L O x y) : x.stackTrace = y.stackTrace := by
  cases h with
  | running together => exact together.stackTrace_eq
  | done _ together => exact together.stackTrace_eq
  | idle together => exact together.stackTrace_eq

theorem stores (h : Level L O x y) : L.Stores x y := by
  cases h with
  | running together => exact together.toStores
  | done _ together => exact { together.toStores with }
  | idle together => exact { together.toStores with }

theorem frames (h : Level L O x y) : L.Frames x.current y.current ∧
    L.Waiting O x.world y.world x.callers y.callers := by
  cases h with
  | running together => exact ⟨together.frame, together.waiting⟩
  | done _ together => exact ⟨together.frame, together.waiting⟩
  | idle together => exact ⟨together.frame, together.waiting⟩

theorem isDone (h : Level L O x y) : (∃ v, x.status = .done v) ↔ ∃ v, y.status = .done v := by
  cases h with
  | running together => simp [together.running]
  | done => simp
  | idle => simp

/-- Machines at the same point make corresponding steps. -/
theorem step (closed : O.Closed) (fits : L.Fits) (h : Level L O x y) :
    ∃ L', L.Next (Makes y) L' ∧ Level L' O (stateOf x.step) (stateOf y.step) ∧
      L'.Comes (outcome x.step) (outcome y.step) ∧ Settled x.step ∧ Settled y.step := by
  cases h with
  | running together =>
    have place := together.place trivial
    have stepped := together.step fits fun first => closed _ _ <| by
      rw [first] at place
      exact place
    have running := together.running.2
    generalize x.step = r, y.step = r' at stepped
    have made {L' : Lockstep R}
        (next : L.Next (fun r => y.code.fetch y.current.pc = .ok (.new r.shape)) L') :
        L.Next (Makes y) L' :=
      ⟨next.grows, next.objects, next.shapes,
        next.records.imp_right fun ⟨r, fetched, all⟩ => ⟨r, ⟨running, fetched⟩, all⟩⟩
    cases stepped with
    | on next together' =>
      obtain ⟨left, right⟩ := together'.running
      exact ⟨_, made next, .running together', .continue, .of_running left, .of_running right⟩
    | done next same together' =>
      exact ⟨_, made next, .done same together', .done same, .done _ _, .done _ _⟩
    | error e next together' =>
      exact ⟨_, made next, .idle together', .error e, nofun, nofun⟩
  | done same together =>
    exact ⟨L, .refl L, .done same together, .done same, .done _ _, .done _ _⟩
  | idle together =>
    rename_i x' y'
    have trace : FrameMachine.stackTrace { x' with status := .idle } =
      FrameMachine.stackTrace { y' with status := .idle } := together.stackTrace_eq
    refine ⟨L, .refl L, .idle together, ?_, nofun, nofun⟩
    simp only [FrameMachine.step, FrameMachine.raise, Fault.corrupt, trace]
    exact .error _

end Level

end Lockstep

/-- A step that ends a run takes the last frame off the stack. -/
theorem Implements.pointer_done {a : FrameMachine} {m n : Engine} {v : Value} (h : Implements a m)
    (running : m.status = .running) (fits : m.dictionary.size ≤ 2 ^ 32)
    (ended : m.step = .ok (.done v) n) : n.stack.pointer = 0 := by
  obtain ⟨-, tracks | ⟨-, u, done⟩⟩ := h
  · have ends := tracks.next fits
    simp only [Engine.step, running] at ended
    cases other : Exec.next m with
    | error e k =>
      rw [other] at ended
      cases ended
    | ok r k =>
      rw [other] at ends ended
      cases r with
      | none => cases ended
      | some u =>
        cases ended
        cases mine : FrameExec.next a with
        | error e b =>
          rw [mine] at ends
          cases ends
        | ok r b =>
          rw [mine] at ends
          cases r with
          | none => cases ends
          | some w => exact ends.2.pointer
  · cases running.symm.trans done

theorem Implements.pointer_zero {a : FrameMachine} {m : Engine} (h : Implements a m)
    (fits : m.dictionary.size ≤ 2 ^ 32) (before : ∀ v, m.status = .done v → m.stack.pointer = 0)
    (settled : ∀ v, (stateOf m.step).status = .done v → outcome m.step = .ok (.done v)) :
    ∀ v, (stateOf m.step).status = .done v → (stateOf m.step).stack.pointer = 0 := by
  intro v done
  have ended := settled v done
  cases status : m.status with
  | done u =>
    have still : m.step = .ok (.done u) m := by simp only [Engine.step, status]
    rw [still]
    exact before u status
  | idle =>
    have failed : m.step = .error (m.raise (.corrupt .notStarted)) m := by
      simp only [Engine.step, status]
    rw [failed] at ended
    cases ended
  | running =>
    rcases step : m.step with ⟨s, n⟩ | ⟨e, n⟩ <;> rw [step] at ended <;> cases ended
    exact h.pointer_done status fits step

/-- What can be seen of the machines while they run is the same. -/
structure Engine.LooksLike (m m' : Engine) : Prop where
  stack : m.stack.pointer = m'.stack.pointer
  heap : m.heap.pointer = m'.heap.pointer
  trace : m.stackTrace = m'.stackTrace
  output : m.world.output = m'.world.output

namespace Lockstep
variable {R : Renumbering}

/-- Two machines that keep their frames on one stack are at the same point of a run. -/
structure Engines (L : Lockstep R) (O : Outermost R) (m m' : Engine) : Prop where
  frames : ∃ x y, Implements x m ∧ Implements y m' ∧ Level L O x y
  left : ∀ v, m.status = .done v → m.stack.pointer = 0
  right : ∀ v, m'.status = .done v → m'.stack.pointer = 0

namespace Engines
variable {L L' : Lockstep R} {O : Outermost R} {m m' : Engine}

/-- Both machines use as much of their stacks. -/
theorem stack_eq (h : L.Engines O m m') : m.stack.pointer = m'.stack.pointer := by
  obtain ⟨x, y, ⟨status, left⟩, ⟨status', right⟩, level⟩ := h.frames
  have ended := level.isDone
  rw [status, status'] at ended
  by_cases done : ∃ v, m.status = .done v
  · obtain ⟨v, here⟩ := done
    obtain ⟨u, there⟩ := ended.mp ⟨v, here⟩
    rw [h.left v here, h.right u there]
  · have tracks := left.resolve_right fun finished => done finished.2
    have tracks' := right.resolve_right fun finished => done (ended.mpr finished.2)
    rw [tracks.pointer, tracks'.pointer, level.size_eq]

theorem trace_eq (h : L.Engines O m m') (fits : m.dictionary.size ≤ 2 ^ 32)
    (fits' : m'.dictionary.size ≤ 2 ^ 32) : m.stackTrace = m'.stackTrace := by
  obtain ⟨x, y, same, same', level⟩ := h.frames
  rw [(same.shows fits).stackTrace, (same'.shows fits').stackTrace, level.stackTrace_eq]

/-- A step on both sides. -/
theorem step (h : L.Engines O m m') (closed : O.Closed)
    (fits : (stateOf m.step).dictionary.size ≤ 2 ^ 32)
    (fits' : (stateOf m'.step).dictionary.size ≤ 2 ^ 32) :
    ∃ L', L.Next (fun r => m'.status = .running ∧ m'.code.fetch m'.pc = .ok (.new r.shape)) L' ∧
      L'.Engines O (stateOf m.step) (stateOf m'.step) ∧
      L'.Comes (outcome m.step) (outcome m'.step) := by
  obtain ⟨x, y, same, same', level⟩ := h.frames
  have before := Nat.le_trans m.grown_step.size_le fits
  have before' := Nat.le_trans m'.grown_step.size_le fits'
  have stores := level.stores
  have inWords : L.Fits := by
    refine ⟨?_, ?_⟩
    · rw [← stores.left, same.dictionary]
      exact before
    · rw [← stores.right, same'.dictionary]
      exact before'
  obtain ⟨L', next, level', comes, settled, settled'⟩ := level.step closed inWords
  obtain ⟨ends, after⟩ := same.step fits
  obtain ⟨ends', after'⟩ := same'.step fits'
  rw [ends, ends']
  refine ⟨L', ⟨next.grows, next.objects, next.shapes, next.records.imp_right ?_⟩,
    ⟨⟨_, _, after, after', level'⟩, ?_, ?_⟩, comes⟩
  · rintro ⟨r, ⟨running, fetched⟩, all⟩
    rw [same'.1] at running
    have tracks := same'.2.resolve_right fun ⟨_, v, done⟩ => by cases running.symm.trans done
    rw [← tracks.code_eq, ← tracks.pc] at fetched
    exact ⟨r, ⟨running, fetched⟩, all⟩
  · exact same.pointer_zero before h.left fun v done => ends.trans (settled v (after.1.trans done))
  · exact same'.pointer_zero before' h.right fun v done =>
      ends'.trans (settled' v (after'.1.trans done))

/-- Machines that begin at the same point stay together, as long as the indices fit into words. -/
theorem afterSteps (h : L.Engines O m m') (closed : O.Closed) (n : Nat)
    (fits : (afterSteps Engine.step n m).dictionary.size ≤ 2 ^ 32)
    (fits' : (afterSteps Engine.step n m').dictionary.size ≤ 2 ^ 32) :
    ∃ L', L.Grows L' ∧ L'.objects = L.objects ∧ L'.shapes = L.shapes ∧
      L'.Engines O (afterSteps Engine.step n m) (afterSteps Engine.step n m') := by
  induction n with
  | zero => exact ⟨L, .refl L, rfl, rfl, h⟩
  | succ n ih =>
    have before := Nat.le_trans (m.grown_afterSteps n).size_le fits
    have before' := Nat.le_trans (m'.grown_afterSteps n).size_le fits'
    obtain ⟨L₁, grows, objects, shapes, here⟩ := ih before before'
    obtain ⟨L₂, next, there, -⟩ := here.step closed fits fits'
    exact ⟨L₂, grows.trans next.grows, next.objects.trans objects, next.shapes.trans shapes, there⟩

theorem stores (h : L.Engines O m m') (fits : m.dictionary.size ≤ 2 ^ 32)
    (fits' : m'.dictionary.size ≤ 2 ^ 32) : L.Worlds m.world m'.world ∧
      L.Heaps m'.world m.heap m'.heap := by
  obtain ⟨x, y, same, same', level⟩ := h.frames
  rw [(same.shows fits).world, (same'.shows fits').world, (same.shows fits).heap,
    (same'.shows fits').heap]
  exact ⟨level.stores.worlds, level.stores.heaps⟩

theorem looksLike (h : L.Engines O m m') (fits : m.dictionary.size ≤ 2 ^ 32)
    (fits' : m'.dictionary.size ≤ 2 ^ 32) : m.LooksLike m' where
  stack := h.stack_eq
  trace := h.trace_eq fits fits'
  heap := (h.stores fits fits').2.pointer_eq
  output := (h.stores fits fits').1.output

end Engines

variable {L : Lockstep R} {O : Outermost R}

namespace Stores

/-- Machines with the same memory still have it when functions were started on both. -/
theorem begun {f g : ObjectId} {m m' n n' : Engine} (stores : L.Stores (.begin f m) (.begin g m'))
    (left : Engine.Begun f m n) (right : Engine.Begun g m' n') :
    (L.encoded (.object f) (.object g)).Stores (.begin f n) (.begin g n') where
  config := left.config.trans (stores.config.trans right.config.symm)
  left := left.dictionary.trans (congrArg (fun d => (encode (.object f) d).2) stores.left)
  right := right.dictionary.trans (congrArg (fun d => (encode (.object g) d).2) stores.right)
  worlds := by
    rw [show (FrameMachine.begin f n).world = m.world from left.world,
      show (FrameMachine.begin g n').world = m'.world from right.world]
    exact stores.worlds.grow (L.grows_encoded _ _) rfl rfl
  heaps := by
    rw [show (FrameMachine.begin f n).heap = m.heap from left.heap,
      show (FrameMachine.begin g n').heap = m'.heap from right.heap]
    exact stores.heaps.grow (L.grows_encoded _ _) rfl (congrArg World.shapes right.world)

/-- Machines with the same memory and nothing but empty frames are in lockstep. -/
theorem together {x y : FrameMachine} {slotCount p q : Nat} (stores : L.Stores x y)
    (since : O.compiled.Grows L) (objects : L.objects = O.compiled.objects)
    (outermost : O.In x.world y.world) (running : x.status = .running ∧ y.status = .running)
    (left : x.current = ⟨O.left, p, List.replicate slotCount .undefined, []⟩)
    (right : y.current = ⟨O.right, q, List.replicate slotCount .undefined, []⟩)
    (alone : x.callers = [] ∧ y.callers = []) (here : O.here p q) : Together L O True x y where
  toStores := stores
  running := running
  since := since
  objects := objects
  outermost := outermost
  frame := by
    rw [left, right]
    exact ⟨L.all_undefined slotCount, .nil⟩
  active := by
    rw [alone.2, left, right]
    exact ⟨rfl, rfl⟩
  place := fun _ => by
    rw [alone.2, left, right]
    exact here
  waiting := by
    rw [alone.1, alone.2]
    exact .nil

section
variable {m m' : Engine} (stores : L.Stores (.begin O.left m) (.begin O.right m'))
  (since : O.compiled.Grows L) (objects : L.objects = O.compiled.objects)
  (outermost : O.In m.world m'.world) (slots : O.leftCode.slotCount = O.rightCode.slotCount)
  (here : O.here 0 0) (memory : m.InMemory) (memory' : m'.InMemory)
include stores since objects outermost slots here memory memory'

/-- Corresponding functions that were started are in lockstep. -/
theorem begins {n n' : Engine} (started : Engine.start O.left m = .ok () n)
    (started' : Engine.start O.right m' = .ok () n') :
    Implements (.begin O.left n) n ∧ Implements (.begin O.right n') n' ∧
      Together (L.encoded (.object O.left) (.object O.right)) O True (.begin O.left n)
        (.begin O.right n') := by
  have tracks := Engine.start_frames memory started
  have tracks' := Engine.start_frames memory' started'
  have begun := Engine.begun_of_start outermost.leftCode started
  have begun' := Engine.begun_of_start outermost.rightCode started'
  have left := begun.current outermost.leftCode
  have right := begun'.current outermost.rightCode
  rw [slots] at left
  have there : O.In (FrameMachine.begin O.left n).world (FrameMachine.begin O.right n').world := by
    rw [show (FrameMachine.begin O.left n).world = m.world from begun.world,
      show (FrameMachine.begin O.right n').world = m'.world from begun'.world]
    exact outermost
  refine ⟨⟨tracks.status, .inl tracks⟩, ⟨tracks'.status, .inl tracks'⟩, ?_⟩
  exact (stores.begun begun begun').together (since.trans (L.grows_encoded _ _)) objects there
    ⟨rfl, rfl⟩ left right ⟨rfl, rfl⟩ here

/-- Machines with the same memory start corresponding functions, or neither has room for that. -/
theorem start :
    let L' := L.encoded (.object O.left) (.object O.right)
    (∃ n n', Engine.start O.left m = .ok () n ∧ Engine.start O.right m' = .ok () n' ∧
      L'.Engines O n n') ∨
    ∃ e n n', Engine.start O.left m = .error e n ∧ Engine.start O.right m' = .error e n' ∧
      L'.Stores (.begin O.left n) (.begin O.right n') ∧ n.LooksLike n' := by
  intro L'
  have config : m.config = m'.config := stores.config
  by_cases room : Frame.operands ⟨1, O.leftCode.slotCount⟩ ≤ m.config.stackCapacity
  · obtain ⟨n, started, -⟩ := Engine.start_room outermost.leftCode room
    obtain ⟨n', started', -⟩ :=
      Engine.start_room outermost.rightCode (by rwa [← slots, ← config])
    obtain ⟨same, same', together⟩ :=
      stores.begins since objects outermost slots here memory memory' started started'
    have running : n.status = .running := same.1.symm
    have running' : n'.status = .running := same'.1.symm
    exact .inl ⟨n, n', started, started', ⟨_, _, same, same', .running together⟩,
      by simp [running], by simp [running']⟩
  · obtain ⟨n, failed, begun, status, trace, pointer, -⟩ :=
      Engine.start_full outermost.leftCode (Nat.lt_of_not_le room)
    obtain ⟨n', failed', begun', status', trace', pointer', -⟩ :=
      Engine.start_full outermost.rightCode
        (by rw [← slots, ← config]; exact Nat.lt_of_not_le room)
    have stores' := stores.begun begun begun'
    rw [← config, ← outermost.name] at failed'
    refine .inr ⟨_, n, n', failed, failed', stores', ?_⟩
    exact {
      stack := by rw [pointer, pointer', config]
      trace := by rw [trace, trace', outermost.name]
      heap := stores'.heaps.pointer_eq
      output := stores'.worlds.output }

end
end Stores
end Lockstep
end TaggedScript
