import TaggedScript.Proofs.Frames.Refinement

/-!
More room for the stack and the heap does not change what a machine does, unless it runs out of the
room that it has. Nothing above the pointers is ever looked at.
-/
namespace TaggedScript

def Fault.IsExhaustion : Fault → Prop
  | .fatal kind => kind.IsExhaustion
  | .failure _ => False

/-- The error without the functions that were active. -/
def RunError.untraced : RunError → RunError
  | fatal kind _ => fatal kind []
  | e => e

/-- There is as much room for the stack, and as much for the heap. -/
structure EngineConfig.AtMost (C D : EngineConfig) : Prop where
  stack : C.stackCapacity ≤ D.stackCapacity
  heap : C.heapCapacity ≤ D.heapCapacity

def Stack.withRoom (s : Stack) (capacity : Nat) : Stack := { s with capacity }

def Heap.withRoom (h : Heap) (capacity : Nat) : Heap := { h with capacity }

/-- The machine as it is, but with other room for its stack and its heap. -/
def Engine.withRoom (m : Engine) (D : EngineConfig) : Engine :=
  { m with
    config := D
    stack := m.stack.withRoom D.stackCapacity
    heap := m.heap.withRoom D.heapCapacity }

/-- The room of the machine is no more than that, and what it has on its stack lies inside it. -/
structure Engine.Within (m : Engine) (D : EngineConfig) : Prop where
  stack : m.stack.capacity ≤ D.stackCapacity
  heap : m.heap.capacity ≤ D.heapCapacity
  pointer : m.stack.pointer ≤ m.stack.capacity
  record : Frame.recordSize ≤ m.stack.capacity

section
variable {α β : Type}

/-- The first result is for want of room, or the second one is the same and leaves the same
machine with that room. -/
def StaysWith (D : EngineConfig) :
    EStateM.Result Fault Engine α → EStateM.Result Fault Engine α → Prop
  | .ok v m, r => r = .ok v (m.withRoom D) ∧ m.Within D
  | .error e m, r => e.IsExhaustion ∨ r = .error e (m.withRoom D) ∧ m.Within D

/-- An action does the same with more room, unless it runs out of the room it has. -/
def Indifferent (x : Exec α) : Prop :=
  ∀ D m, m.Within D → StaysWith D (x m) (x (m.withRoom D))

/-- What follows on an action, with what is known of its result. -/
theorem StaysWith.bindOk {D : EngineConfig} {x : Exec α} {f : α → Exec β} {m : Engine}
    (h : StaysWith D (x m) (x (m.withRoom D)))
    (k : ∀ v n, x m = .ok v n → n.Within D → StaysWith D (f v n) (f v (n.withRoom D))) :
    StaysWith D ((x >>= f) m) ((x >>= f) (m.withRoom D)) := by
  rw [bind_eq, bind_eq]
  cases first : x m with
  | ok v n =>
    rw [first] at h
    obtain ⟨same, within⟩ := h
    rw [same]
    exact k v n first within
  | error e n =>
    rw [first] at h
    rcases h with exhausted | ⟨same, within⟩
    · exact .inl exhausted
    · rw [same]
      exact .inr ⟨rfl, within⟩

namespace Indifferent

theorem bind {x : Exec α} {f : α → Exec β} (hx : Indifferent x) (hf : ∀ v, Indifferent (f v)) :
    Indifferent (x >>= f) :=
  fun D m within => (hx D m within).bindOk fun v n _ within => hf v D n within

theorem pure (v : α) : Indifferent (Pure.pure v) := fun _ _ within => ⟨rfl, within⟩

theorem throw (e : Fault) : Indifferent (α := α) (throw e) := fun _ _ within => .inr ⟨rfl, within⟩

/-- What follows on a look at what the room is no part of. -/
theorem get {f : Engine → Exec β} (same : ∀ D m, f (m.withRoom D) = f m)
    (hf : ∀ m, Indifferent (f m)) : Indifferent (get >>= f) := by
  intro D m within
  have looked : (MonadState.get >>= f) (m.withRoom D) = f m (m.withRoom D) :=
    congrFun (same D m) (m.withRoom D)
  rw [looked]
  exact hf m D m within

/-- A change of what the room is no part of. -/
theorem change {f : Engine → Engine} (commutes : ∀ D m, f (m.withRoom D) = (f m).withRoom D)
    (stack : ∀ m, (f m).stack = m.stack) (heap : ∀ m, (f m).heap = m.heap) :
    Indifferent (modify f) := by
  intro D m within
  refine ⟨congrArg (EStateM.Result.ok ()) (commutes D m), ?_⟩
  constructor
  · rw [stack]
    exact within.stack
  · rw [heap]
    exact within.heap
  · rw [stack]
    exact within.pointer
  · rw [stack]
    exact within.record

theorem inspect {f : Stack → Except StackFault α} (same : ∀ s c, f (s.withRoom c) = f s) :
    Indifferent (Exec.inspect f) := by
  intro D m within
  have read : f (m.withRoom D).stack = f m.stack := same _ _
  rw [inspect_eq, inspect_eq, read]
  cases f m.stack with
  | ok v => exact ⟨rfl, within⟩
  | error e => exact .inr ⟨rfl, within⟩

/-- What is done on a stack that has room enough. -/
theorem onStack {f : OnStack α}
    (h : ∀ s c, s.capacity ≤ c → s.pointer ≤ s.capacity →
      (∃ e, f s = .error e s ∧
        ((Fault.ofStack e).IsExhaustion ∨ f (s.withRoom c) = .error e (s.withRoom c))) ∨
      ∃ v t, f s = .ok v t ∧ f (s.withRoom c) = .ok v (t.withRoom c) ∧
        t.capacity = s.capacity ∧ t.pointer ≤ s.capacity) :
    Indifferent (Exec.onStack f) := by
  intro D m within
  have place : (m.withRoom D).stack = m.stack.withRoom D.stackCapacity := rfl
  rw [onStack_eq, onStack_eq, place]
  obtain ⟨e, failed, same⟩ | ⟨v, t, done, same, capacity, pointer⟩ :=
    h m.stack D.stackCapacity within.stack within.pointer
  · rw [failed]
    rcases same with exhausted | same
    · exact .inl exhausted
    · rw [same]
      exact .inr ⟨rfl, within⟩
  · rw [done, same]
    refine ⟨rfl, ?_⟩
    constructor
    · exact capacity ▸ within.stack
    · exact within.heap
    · exact capacity ▸ pointer
    · exact capacity ▸ within.record

/-- What is done on a heap that has room enough. -/
theorem onHeap {f : OnHeap α}
    (h : ∀ g c, g.capacity ≤ c →
      (∃ e, f g = .error e g ∧
        ((Fault.ofHeap e).IsExhaustion ∨ f (g.withRoom c) = .error e (g.withRoom c))) ∨
      ∃ v k, f g = .ok v k ∧ f (g.withRoom c) = .ok v (k.withRoom c) ∧ k.capacity = g.capacity) :
    Indifferent (Exec.onHeap f) := by
  intro D m within
  have place : (m.withRoom D).heap = m.heap.withRoom D.heapCapacity := rfl
  simp only [Exec.onHeap, place]
  obtain ⟨e, failed, same⟩ | ⟨v, k, done, same, capacity⟩ :=
    h m.heap D.heapCapacity within.heap
  · rw [failed]
    rcases same with exhausted | same
    · exact .inl exhausted
    · rw [same]
      exact .inr ⟨rfl, within⟩
  · rw [done, same]
    exact ⟨rfl, { within with heap := by simp only; exact capacity ▸ within.heap }⟩

theorem onWorld (f : Action α) : Indifferent (Exec.onWorld f) := by
  intro D m within
  have place : (m.withRoom D).world = m.world := rfl
  simp only [Exec.onWorld, place]
  cases f m.world with
  | ok v world => exact ⟨rfl, { within with }⟩
  | error e world => exact .inr ⟨rfl, { within with }⟩

theorem readHeap {f : Heap → World → Dictionary → Except HeapFault α}
    (same : ∀ h c w d, f (h.withRoom c) w d = f h w d) : Indifferent (Exec.readHeap f) := by
  intro D m within
  have read : f (m.withRoom D).heap (m.withRoom D).world (m.withRoom D).dictionary =
      f m.heap m.world m.dictionary := same _ _ _ _
  simp only [Exec.readHeap, read]
  cases f m.heap m.world m.dictionary with
  | ok v => exact ⟨rfl, within⟩
  | error e => exact .inr ⟨rfl, within⟩

end Indifferent
end

namespace Indifferent

theorem push (w : Word) : Indifferent (Exec.push w) := by
  apply onStack
  intro s c larger inside
  rw [Stack.push_eq, Stack.push_eq]
  by_cases full : s.capacity ≤ s.pointer
  · exact .inl ⟨_, if_pos full, .inl trivial⟩
  · have room : ¬ (s.withRoom c).capacity ≤ (s.withRoom c).pointer := by
      simp only [Stack.withRoom]
      omega
    refine .inr ⟨_, _, if_neg full, if_neg room, rfl, ?_⟩
    simp only
    omega

theorem pop : Indifferent Exec.pop := by
  apply onStack
  intro s c _ inside
  unfold Stack.pop
  by_cases bottom : s.pointer ≤ s.floor
  · exact .inl ⟨_, if_pos bottom, .inr (if_pos bottom)⟩
  · refine .inr ⟨_, _, if_neg bottom, if_neg bottom, rfl, ?_⟩
    simp only
    omega

theorem swap : Indifferent (Exec.onStack Stack.swap) := by
  apply onStack
  intro s c _ inside
  unfold Stack.swap
  by_cases bottom : s.pointer < s.floor + 2
  · exact .inl ⟨_, if_pos bottom, .inr (if_pos bottom)⟩
  · exact .inr ⟨_, _, if_neg bottom, if_neg bottom, rfl, inside⟩

theorem dropTop (n : Nat) : Indifferent (Exec.onStack (Stack.dropTop n)) := by
  apply onStack
  intro s c _ inside
  unfold Stack.dropTop
  by_cases bottom : s.pointer < s.floor + n
  · exact .inl ⟨_, if_pos bottom, .inr (if_pos bottom)⟩
  · refine .inr ⟨_, _, if_neg bottom, if_neg bottom, rfl, ?_⟩
    simp only
    omega

theorem setSlot (i : Nat) (w : Word) : Indifferent (Exec.onStack (Stack.setSlot i w)) := by
  apply onStack
  intro s c _ inside
  unfold Stack.setSlot
  by_cases bound : i < s.frame.slotCount
  · exact .inr ⟨_, _, if_pos bound, if_pos bound, rfl, inside⟩
  · exact .inl ⟨_, if_neg bound, .inr (if_neg bound)⟩

theorem pushFrame (frame : Frame) (record : Activation) :
    Indifferent (Exec.onStack (Stack.pushFrame frame record)) := by
  apply onStack
  intro s c larger _
  unfold Stack.pushFrame
  by_cases full : s.capacity < frame.operands
  · exact .inl ⟨_, if_pos full, .inl trivial⟩
  · have room : ¬ (s.withRoom c).capacity < frame.operands := by
      simp only [Stack.withRoom]
      omega
    exact .inr ⟨_, _, if_neg full, if_neg room, rfl, Nat.le_of_not_lt full⟩

theorem allocate (shape : Word) (fields : List Word) :
    Indifferent (Exec.onHeap (Heap.allocate shape fields)) := by
  apply onHeap
  intro h c larger
  unfold Heap.allocate
  by_cases full : h.available < Heap.headerSize + fields.length
  · exact .inl ⟨_, if_pos full, .inl trivial⟩
  have room : ¬ (h.withRoom c).available < Heap.headerSize + fields.length := by
    simp only [Heap.available, Heap.withRoom, Heap.pointer] at *
    omega
  by_cases far : 2 ^ 32 ≤ h.pointer
  · exact .inl ⟨_, (if_neg full).trans (if_pos far), .inl trivial⟩
  · exact .inr ⟨_, _, (if_neg full).trans (if_neg far), (if_neg room).trans (if_neg far), rfl⟩

theorem setField (w : World) (d : Dictionary) (offset : UInt32) (field : String) (value : Word) :
    Indifferent (Exec.onHeap (Heap.setField w d offset field value)) := by
  apply onHeap
  intro h c _
  have same : (h.withRoom c).fieldPlace w d offset field = h.fieldPlace w d offset field := rfl
  simp only [Heap.setField, same]
  cases h.fieldPlace w d offset field with
  | ok i => exact .inr ⟨_, _, rfl, rfl, rfl⟩
  | error e => exact .inl ⟨e, rfl, .inr rfl⟩

theorem jump (target : Nat) : Indifferent (Exec.jump target) :=
  change (fun _ _ => rfl) (fun _ => rfl) fun _ => rfl

theorem encodeValue (v : Value) : Indifferent (Exec.encodeValue v) :=
  fun _ _ within => ⟨rfl, { within with }⟩

theorem decodeWord (w : Word) : Indifferent (Exec.decodeWord w) := by
  apply get (fun _ _ => rfl)
  intro m
  cases decode m.dictionary m.heap w with
  | ok v => exact pure v
  | error e => exact throw _

theorem mapM_decodeWord (ws : List Word) : Indifferent (ws.mapM Exec.decodeWord) := by
  induction ws with
  | nil => exact pure []
  | cons w ws ih =>
    rw [List.mapM_cons]
    apply (decodeWord w).bind
    intro v
    exact ih.bind fun vs => pure _

theorem nameOf (w : Word) : Indifferent (Exec.nameOf w) := by
  apply get (fun _ _ => rfl)
  intro m
  split
  · exact pure _
  · exact throw _

theorem targetOf (w : Word) (field : String) : Indifferent (Exec.targetOf w field) := by
  apply (decodeWord w).bind
  intro v
  split
  · exact pure _
  · exact pure _
  · exact get (fun _ _ => rfl) fun _ => throw _

theorem newRecord (shape : Word) : Indifferent (Exec.newRecord shape) := by
  have record (width : Nat) :=
    (inspect (f := (·.top width)) fun _ _ => rfl).bind fun fields =>
      (allocate shape fields).bind fun offset => (dropTop width).bind fun _ => push (.heap offset)
  apply (decodeWord shape).bind
  intro v
  split
  · exact get (fun _ _ => rfl) fun m => record _
  · exact get (fun _ _ => rfl) fun m => throw _

theorem getField (name : Word) : Indifferent (Exec.getField name) := by
  apply (nameOf name).bind
  intro field
  apply pop.bind
  intro receiver
  apply (targetOf receiver field).bind
  intro target
  cases target with
  | record offset => exact (readHeap fun _ _ _ _ => rfl).bind push
  | host id => exact get (fun _ _ => rfl) fun m => (encodeValue _).bind push

theorem putField (name : Word) : Indifferent (Exec.putField name) := by
  apply (nameOf name).bind
  intro field
  apply pop.bind
  intro value
  apply pop.bind
  intro receiver
  apply (targetOf receiver field).bind
  intro target
  cases target with
  | record offset => exact get (fun _ _ => rfl) fun m => setField _ _ _ _ _
  | host id =>
    exact (decodeWord value).bind fun v => change (fun _ _ => rfl) (fun _ => rfl) fun _ => rfl

theorem printTop : Indifferent Exec.printTop := by
  apply pop.bind
  intro w
  apply (decodeWord w).bind
  intro v
  apply get (fun _ _ => rfl)
  intro m
  simp only
  split
  · split
    · exact (onWorld _).bind fun _ => push _
    · exact throw _
  · exact throw _

theorem callNative (id : ObjectId) (argc : Nat) : Indifferent (Exec.callNative id argc) := by
  apply (inspect fun _ _ => rfl).bind
  intro ws
  apply (mapM_decodeWord ws).bind
  intro values
  apply (onWorld _).bind
  intro result
  apply (dropTop _).bind
  intro _
  exact (encodeValue result).bind push

theorem enter (id : ObjectId) (code : Code) (argc : Nat) :
    Indifferent (Exec.enter id code argc) := by
  apply get (fun _ _ => rfl)
  intro m
  have begin (caller : Word) : Indifferent (do
      Exec.onStack (Stack.pushFrame ⟨m.stack.pointer - (argc + 1), code.slotCount⟩
        ⟨m.stack.frame.base, some m.pc, caller⟩)
      modify fun n => { n with function := some id, pc := 0 } : Exec Unit) :=
    (pushFrame _ _).bind fun _ => change (fun _ _ => rfl) (fun _ => rfl) fun _ => rfl
  cases m.function with
  | some f =>
    simp only
    split
    · exact (throw _).bind fun _ => (encodeValue _).bind begin
    · exact (encodeValue _).bind begin
  | none =>
    simp only
    split
    · exact (throw _).bind fun _ => begin _
    · exact begin _

theorem call (argc : Nat) : Indifferent (Exec.call argc) := by
  apply (inspect fun _ _ => rfl).bind
  intro w
  apply (decodeWord w).bind
  intro callee
  apply get (fun _ _ => rfl)
  intro m
  simp only
  split
  · split
    · exact callNative _ _
    · exact enter _ _ _
    · exact throw _
  · exact throw _

end Indifferent

/-- A word is popped only from above the floor, and only the pointer moves. -/
theorem Exec.pop_ok {m n : Engine} {w : Word} (h : Exec.pop m = .ok w n) :
    m.stack.floor < m.stack.pointer ∧
      n = { m with stack := { m.stack with pointer := m.stack.pointer - 1 } } := by
  rw [Exec.pop, onStack_eq, Stack.pop] at h
  by_cases bottom : m.stack.pointer ≤ m.stack.floor
  · rw [if_pos bottom] at h
    cases h
  · rw [if_neg bottom] at h
    cases h
    exact ⟨by omega, rfl⟩

/-- What lies on the stack reaches as high as the record of its frame. -/
theorem pop_above {m n : Engine} {w : Word} (h : Exec.pop m = .ok w n) :
    n.stack.floor ≤ n.stack.pointer := by
  obtain ⟨above, rfl⟩ := Exec.pop_ok h
  have same : Stack.floor { m.stack with pointer := m.stack.pointer - 1 } = m.stack.floor := rfl
  simp only [same]
  omega

namespace Engine.Within
variable {m : Engine} {D : EngineConfig}

theorem operands_le (h : m.Within D) (above : m.stack.floor ≤ m.stack.pointer) :
    m.stack.frame.operands ≤ m.stack.capacity := by
  have pointer := h.pointer
  unfold Stack.floor at above
  split at above
  · rename_i outside
    rw [outside]
    exact h.record
  · omega

/-- The record of a frame is found in it whatever lies above. -/
theorem activation (h : m.Within D) (above : m.stack.floor ≤ m.stack.pointer) :
    (m.withRoom D).stack.activation = m.stack.activation := by
  have inside := h.operands_le above
  have larger := h.stack
  have small : ¬ m.stack.capacity < m.stack.frame.activation + Frame.recordSize :=
    Nat.not_lt_of_le inside
  have large : ¬ D.stackCapacity < m.stack.frame.activation + Frame.recordSize :=
    Nat.not_lt_of_le (Nat.le_trans inside larger)
  exact (if_neg large).trans (if_neg small).symm

theorem popFrame (h : m.Within D) (above : m.stack.floor ≤ m.stack.pointer) (frame : Frame) :
    Engine.Within { m with stack := m.stack.popFrame frame } D := by
  have inside := h.operands_le above
  refine { h with pointer := ?_ }
  simp only [Stack.popFrame]
  simp only [Frame.operands, Frame.activation] at inside
  omega

end Engine.Within

namespace Indifferent

theorem leave : Indifferent Exec.leave := by
  intro D m within
  apply (pop D m within).bindOk
  intro w n popped within
  have above := pop_above popped
  rw [bind_eq, bind_eq, inspect_eq, inspect_eq, within.activation above]
  cases n.stack.activation with
  | error e => exact .inr ⟨rfl, within⟩
  | ok record =>
    simp only
    cases record.savedPc with
    | none =>
      simp only [bind_eq, decodeWord_engine]
      have same : decode (n.withRoom D).dictionary (n.withRoom D).heap w =
          decode n.dictionary n.heap w := rfl
      rw [same]
      cases decode n.dictionary n.heap w with
      | error e => exact .inr ⟨rfl, within⟩
      | ok v => exact ⟨rfl, within.popFrame above _⟩
    | some pc =>
      have same : (n.withRoom D).callerOf record.caller = n.callerOf record.caller := rfl
      have resume (caller : ObjectId) : Indifferent (do
          Exec.push w
          modify fun m => { m with function := some caller, pc }
          return none : Exec (Option Value)) :=
        (push w).bind fun _ => bind (change (fun _ _ => rfl) (fun _ => rfl) fun _ => rfl)
          fun _ => pure none
      simp only [bind_eq, get_eq, same]
      cases n.callerOf record.caller with
      | error e => exact .inr ⟨rfl, within⟩
      | ok caller => exact resume caller D _ (within.popFrame above _)

theorem execute (i : Instr) : Indifferent (Exec.execute i) := by
  cases i with
  | const w => exact (push w).bind fun _ => pure _
  | lookup name =>
    exact (nameOf name).bind fun x => get (fun _ _ => rfl) fun m => (encodeValue _).bind fun w =>
      (push w).bind fun _ => pure _
  | register name =>
    exact (nameOf name).bind fun x => pop.bind fun w => (decodeWord w).bind fun v =>
      bind (change (fun _ _ => rfl) (fun _ => rfl) fun _ => rfl) fun _ => pure none
  | load i => exact (inspect fun _ _ => rfl).bind fun w => (push w).bind fun _ => pure _
  | store i => exact pop.bind fun w => (setSlot i w).bind fun _ => pure _
  | dup => exact (inspect fun _ _ => rfl).bind fun w => (push w).bind fun _ => pure _
  | pop => exact pop.bind fun _ => pure _
  | swap => exact swap.bind fun _ => pure _
  | funcall argc => exact (call argc).bind fun _ => pure _
  | ret => exact leave
  | goto target => exact (jump target).bind fun _ => pure _
  | jumpIfFalse target =>
    apply pop.bind
    intro w
    split
    · exact (jump target).bind fun _ => pure _
    · exact pure _
  | new shape => exact (newRecord shape).bind fun _ => pure _
  | get name => exact (getField name).bind fun _ => pure _
  | put name => exact (putField name).bind fun _ => pure _
  | print => exact printTop.bind fun _ => pure _

theorem next : Indifferent Exec.next := by
  apply get (fun _ _ => rfl)
  intro m
  split
  · exact throw _
  · exact (jump _).bind fun _ => execute _

end Indifferent

/-- A result without the functions that were active when it failed. -/
def untraced {α : Type} : Except RunError α → Except RunError α
  | .ok v => .ok v
  | .error e => .error e.untraced

/-- Results that differ in the active functions at most. -/
theorem eq_or_fatal_of_untraced {α : Type} {r r' : Except RunError α}
    (h : untraced r' = untraced r) :
    r' = r ∨ ∃ kind trace trace',
      r = .error (.fatal kind trace) ∧ r' = .error (.fatal kind trace') := by
  cases r with
  | ok v =>
    cases r' with
    | ok v' => exact .inl h
    | error e' => cases h
  | error e =>
    cases r' with
    | ok v' => cases h
    | error e' =>
      injection h with same
      cases e <;> cases e' <;> cases same
      · exact .inl rfl
      · exact .inr ⟨_, _, _, rfl, rfl⟩
      · exact .inl rfl

theorem Engine.raise_untraced (m m' : Engine) (fault : Fault) :
    (m'.raise fault).untraced = (m.raise fault).untraced := by
  cases fault <;> rfl

/-- A step that does not run out of room is the same with more of it. -/
theorem Engine.Within.step {m : Engine} {D : EngineConfig} (h : m.Within D)
    (room : ∀ e, outcome m.step = .error e → ¬ e.IsExhaustion) :
    stateOf (m.withRoom D).step = (stateOf m.step).withRoom D ∧ (stateOf m.step).Within D ∧
    untraced (outcome (m.withRoom D).step) = untraced (outcome m.step) := by
  have status : (m.withRoom D).status = m.status := rfl
  unfold Engine.step at *
  rw [status]
  cases now : m.status with
  | done v => exact ⟨rfl, h, rfl⟩
  | idle =>
    refine ⟨rfl, h, ?_⟩
    exact congrArg Except.error (m.raise_untraced (m.withRoom D) _)
  | running =>
    simp only [now] at room
    have same := Indifferent.next D m h
    cases first : Exec.next m with
    | ok r n =>
      rw [first] at same
      obtain ⟨same, within⟩ := same
      rw [same]
      cases r with
      | none => exact ⟨rfl, within, rfl⟩
      | some v => exact ⟨rfl, { within with }, rfl⟩
    | error fault n =>
      rw [first] at same room
      rcases same with exhausted | ⟨same, within⟩
      · cases fault with
        | failure e => cases exhausted
        | fatal kind => exact absurd exhausted (room _ rfl)
      · rw [same]
        refine ⟨rfl, { within with }, ?_⟩
        exact congrArg Except.error (n.raise_untraced (n.withRoom D) fault)

/-- The functions that come with an error were active when it was raised. -/
theorem Engine.trace_of_step {m : Engine} {kind : FatalKind} {trace : List String}
    (h : outcome m.step = .error (.fatal kind trace)) :
    ∃ status, trace = Engine.stackTrace { stateOf m.step with status } := by
  have raised (n : Engine) (fault : Fault) (e : n.raise fault = .fatal kind trace) :
      trace = n.stackTrace := by
    cases fault with
    | failure e => cases e
    | fatal kind =>
      injection e with _ trace
      exact trace.symm
  unfold Engine.step at *
  split at h
  · cases h
  · injection h with e
    exact ⟨m.status, raised m _ e⟩
  · cases first : Exec.next m with
    | ok r n =>
      rw [first] at h
      cases r <;> cases h
    | error fault n =>
      rw [first] at h
      injection h with e
      exact ⟨n.status, raised n fault e⟩

theorem Tracks.withRoom {a : FrameMachine} {m : Engine} {D : EngineConfig} (h : Tracks a m)
    (within : m.Within D) (addressable : D.stackCapacity ≤ 2 ^ 62) (status : Status) :
    Tracks { a with config := D, heap := a.heap.withRoom D.heapCapacity, status }
      { m.withRoom D with status } := by
  obtain ⟨lower, callee, record, below, named, live, place⟩ := h.frames
  exact { h with
    config := rfl
    heap := congrArg (·.withRoom D.heapCapacity) h.heap
    status := rfl
    capacity := rfl
    addressable := addressable
    room := Nat.le_trans within.pointer within.stack
    frames := ⟨lower, callee, record, below, named, live, place⟩ }

theorem Finished.withRoom {a : FrameMachine} {m : Engine} (h : Finished a m) (D : EngineConfig) :
    Finished { a with config := D, heap := a.heap.withRoom D.heapCapacity } (m.withRoom D) :=
  { h with config := rfl, heap := congrArg (·.withRoom D.heapCapacity) h.heap }

/-- The trace is that of the frames, whatever room there is. -/
theorem Implements.trace_withRoom {a : FrameMachine} {m : Engine} {D : EngineConfig}
    (h : Implements a m) (within : m.Within D) (addressable : D.stackCapacity ≤ 2 ^ 62)
    (fits : m.dictionary.size ≤ 2 ^ 32) (status : Status) :
    Engine.stackTrace { m.withRoom D with status } = a.stackTrace := by
  obtain ⟨-, tracks | ⟨finished, -⟩⟩ := h
  · exact (tracks.withRoom within addressable status).stackTrace fits
  · have same : Finished _ { m.withRoom D with status } := { finished.withRoom D with }
    exact same.stackTrace

theorem Implements.trace {a : FrameMachine} {m : Engine} (h : Implements a m)
    (fits : m.dictionary.size ≤ 2 ^ 32) (status : Status) :
    Engine.stackTrace { m with status } = a.stackTrace := by
  obtain ⟨-, tracks | ⟨finished, -⟩⟩ := h
  · have same : Tracks { a with status } { m with status } := { tracks with status := rfl }
    exact same.stackTrace fits
  · have same : Finished a { m with status } := { finished with }
    exact same.stackTrace

/-- A step that does not run out of room raises the same error with more of it, trace included. -/
theorem Implements.outcome_withRoom {a : FrameMachine} {m : Engine} {D : EngineConfig}
    (h : Implements a m) (within : m.Within D) (addressable : D.stackCapacity ≤ 2 ^ 62)
    (room : ∀ e, outcome m.step = .error e → ¬ e.IsExhaustion)
    (fits : (stateOf m.step).dictionary.size ≤ 2 ^ 32) :
    outcome (m.withRoom D).step = outcome m.step := by
  obtain ⟨state, after, same⟩ := within.step room
  have next := (h.step fits).2
  obtain equal | ⟨kind, trace, trace', mine, wide⟩ := eq_or_fatal_of_untraced same
  · exact equal
  · obtain ⟨status, shown⟩ := Engine.trace_of_step mine
    obtain ⟨status', shown'⟩ := Engine.trace_of_step wide
    rw [state, next.trace_withRoom after addressable fits] at shown'
    rw [next.trace fits] at shown
    rw [mine, wide, shown, shown']

/-- A machine makes so many steps without running out of room. -/
def Engine.HasRoomFor (m : Engine) (n : Nat) : Prop :=
  ∀ k < n, ∀ e, outcome ((afterSteps Engine.step k m).step) = .error e → ¬ e.IsExhaustion

theorem Engine.Within.afterSteps_withRoom {m : Engine} {D : EngineConfig} (h : m.Within D) {n : Nat}
    (room : m.HasRoomFor n) {k : Nat} (hk : k ≤ n) :
    afterSteps Engine.step k (m.withRoom D) = (afterSteps Engine.step k m).withRoom D ∧
    (afterSteps Engine.step k m).Within D := by
  induction k with
  | zero => exact ⟨rfl, h⟩
  | succ k ih =>
    obtain ⟨same, within⟩ := ih (Nat.le_of_succ_le hk)
    obtain ⟨state, after, -⟩ := within.step (room k hk)
    simp only [afterSteps]
    rw [same]
    exact ⟨state, after⟩

theorem Indifferent.enterMain (id : ObjectId) (code : Code) :
    Indifferent (Engine.enterMain id code) :=
  (encodeValue _).bind fun w => (push w).bind fun _ => pushFrame _ _

/-- The frame that was entered takes up more than the record of it. -/
theorem Engine.Within.of_enterMain {main : ObjectId} {code : Code} {m n : Engine} {D : EngineConfig}
    (empty : m.stack = .empty m.config.stackCapacity)
    (stack : m.config.stackCapacity ≤ D.stackCapacity) (heap : m.heap.capacity ≤ D.heapCapacity)
    (entered : Engine.enterMain main code m = .ok () n) : m.Within D := by
  have record : Frame.recordSize ≤ m.config.stackCapacity := by
    obtain ⟨after, -, live, -, capacity, room⟩ := Engine.enterMain_ok empty entered
    have size := congrArg List.length live
    rw [Stack.length_live, length_frameWords, CallFrame.size] at size
    omega
  refine ⟨?_, heap, ?_, ?_⟩ <;> rw [empty]
  · exact stack
  · exact Nat.zero_le _
  · exact record

/-- A machine with an empty stack, which the frame of its function is entered on. -/
def Engine.makeFor (main : ObjectId) (config : EngineConfig) (w : World) (d : Dictionary) : Engine :=
  { make config w d with stack := .empty config.stackCapacity, function := some main, pc := 0 }

theorem Engine.start_of_code {config : EngineConfig} {w : World} {d : Dictionary} {main : ObjectId}
    {code : Code} (found : (w.object main).code? = some code) :
    start main (make config w d) =
      match Engine.enterMain main code (makeFor main config w d) with
      | .ok () m => .ok () { m with status := .running }
      | .error fault m => .error (m.raise fault) m := by
  simp only [start, make, found]
  rfl

theorem Engine.start_withRoom {C D : EngineConfig} (larger : C.AtMost D) {w : World}
    {d : Dictionary} {main : ObjectId} {m : Engine}
    (started : start main (make C w d) = .ok () m) :
    start main (make D w d) = .ok () (m.withRoom D) ∧ m.Within D := by
  cases found : (w.object main).code? with
  | none =>
    simp only [start, make, found] at started
    cases started
  | some code =>
    rw [start_of_code found] at started ⊢
    cases entered : Engine.enterMain main code (makeFor main C w d) with
    | error e n =>
      rw [entered] at started
      cases started
    | ok u n =>
      rw [entered] at started
      cases started
      have within : (makeFor main C w d).Within D :=
        .of_enterMain rfl larger.stack larger.heap entered
      have same := Indifferent.enterMain main code D (makeFor main C w d) within
      rw [entered] at same
      obtain ⟨same, after⟩ := same
      have wide : (makeFor main C w d).withRoom D = makeFor main D w d := rfl
      rw [← wide, same]
      exact ⟨rfl, { after with }⟩

/-- More room changes nothing in a run that has room enough: as long as no step runs out of it, the
machine goes through the same states, and each step comes to the same. The functions that come with
an error are the same ones while the dictionary does not outgrow the words, which the records of
callers depend on. -/
theorem Engine.steps_withRoom {C D : EngineConfig} (larger : C.AtMost D) {w : World}
    {d : Dictionary} {main : ObjectId} {m : Engine}
    (started : start main (make C w d) = .ok () m) (n : Nat) (room : m.HasRoomFor n) :
    start main (make D w d) = .ok () (m.withRoom D) ∧
    (∀ k ≤ n, afterSteps step k (m.withRoom D) = (afterSteps step k m).withRoom D) ∧
    (∀ k < n, untraced (outcome ((afterSteps step k (m.withRoom D)).step)) =
      untraced (outcome ((afterSteps step k m).step))) ∧
    ((make D w d).InMemory →
      (∀ k ≤ n, (afterSteps step k m).dictionary.size ≤ 2 ^ 32 →
        (afterSteps step k (m.withRoom D)).stackTrace = (afterSteps step k m).stackTrace) ∧
      (∀ k < n, (afterSteps step (k + 1) m).dictionary.size ≤ 2 ^ 32 →
        outcome ((afterSteps step k (m.withRoom D)).step) =
          outcome ((afterSteps step k m).step))) := by
  obtain ⟨begins, within⟩ := start_withRoom larger started
  have state {k : Nat} (hk : k ≤ n) := (within.afterSteps_withRoom room hk).1
  have inside {k : Nat} (hk : k ≤ n) := (within.afterSteps_withRoom room hk).2
  refine ⟨begins, fun k hk => state hk, ?_, fun memory => ?_⟩
  · intro k hk
    rw [state (Nat.le_of_lt hk)]
    exact ((inside (Nat.le_of_lt hk)).step (room k hk)).2.2
  · have small : (make C w d).InMemory :=
      { stack := Nat.le_trans larger.stack memory.stack, code := memory.code }
    have tracks := start_frames small started
    have point {k : Nat} (fits : (afterSteps step k m).dictionary.size ≤ 2 ^ 32) :=
      (Implements.afterSteps ⟨tracks.status, .inl tracks⟩ k fits).1
    constructor
    · intro k hk fits
      rw [state hk]
      have wide := (point fits).trace_withRoom (inside hk) memory.stack fits
      exact (wide _).trans ((point fits).trace fits _).symm
    · intro k hk fits
      have before := Nat.le_trans (m.grown_afterSteps k).size_le fits
      rw [state (Nat.le_of_lt hk)]
      exact (point before).outcome_withRoom (inside (Nat.le_of_lt hk)) memory.stack (room k hk) fits

theorem selfCall_hasRoom : (stateOf (Engine.start ⟨0⟩ selfCall)).HasRoomFor 6 := by
  have goes : ∀ k < 6, (outcome ((afterSteps Engine.step k
      (stateOf (Engine.start ⟨0⟩ selfCall))).step)).isOk := by
    decide +kernel
  intro k hk e failed
  have going := goes k hk
  rw [failed] at going
  cases going

theorem Engine.steps_selfCall_withRoom :
    let m := stateOf (start ⟨0⟩ selfCall)
    (∀ k ≤ 6, afterSteps step k (m.withRoom ⟨64, 8⟩) = (afterSteps step k m).withRoom ⟨64, 8⟩) ∧
    ∀ k < 6, outcome ((afterSteps step k (m.withRoom ⟨64, 8⟩)).step) =
      outcome ((afterSteps step k m).step) := by
  intro m
  have memory : (make ⟨64, 8⟩ selfCall.world selfCall.dictionary).InMemory :=
    { stack := by decide, code := selfCall_inMemory.code }
  have small : ∀ k < 6, (afterSteps step (k + 1) m).dictionary.size ≤ 2 ^ 32 := by
    decide +kernel
  have started : start ⟨0⟩ (make ⟨32, 0⟩ selfCall.world selfCall.dictionary) = .ok () m := rfl
  have larger : EngineConfig.AtMost ⟨32, 0⟩ ⟨64, 8⟩ := ⟨by decide, by decide⟩
  obtain ⟨-, states, -, traced⟩ := steps_withRoom larger started 6 selfCall_hasRoom
  exact ⟨states, fun k hk => (traced memory).2 k hk (small k hk)⟩

end TaggedScript
