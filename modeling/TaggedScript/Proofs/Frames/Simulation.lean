import TaggedScript.Proofs.Frames.Layout
import TaggedScript.Proofs.HostCode

/-!
Each instruction does to the shared stack what it does to a stack of frames.
-/
namespace TaggedScript

section
variable {α β : Type}

/-- Two results are the same, and so are the machines that they leave. -/
def Corresponds (r : EStateM.Result Fault FrameMachine α) (r' : EStateM.Result Fault Engine α) :
    Prop :=
  match r, r' with
  | .ok v a, .ok v' m => v = v' ∧ Tracks a m
  | .error e a, .error e' m => e = e' ∧ Tracks a m
  | _, _ => False

/-- Two actions correspond on all machines that do. -/
def Sim (x : FrameExec α) (y : Exec α) : Prop := ∀ a m, Tracks a m → Corresponds (x a) (y m)

namespace Corresponds

theorem cases {r : EStateM.Result Fault FrameMachine α} {r' : EStateM.Result Fault Engine α}
    (h : Corresponds r r') : (∃ v a m, r = .ok v a ∧ r' = .ok v m ∧ Tracks a m) ∨
      ∃ e a m, r = .error e a ∧ r' = .error e m ∧ Tracks a m := by
  rcases r with ⟨v, a⟩ | ⟨e, a⟩ <;> rcases r' with ⟨v', m⟩ | ⟨e', m⟩
  · obtain ⟨rfl, tracks⟩ := h
    exact .inl ⟨v, a, m, rfl, rfl, tracks⟩
  · exact h.elim
  · exact h.elim
  · obtain ⟨rfl, tracks⟩ := h
    exact .inr ⟨e, a, m, rfl, rfl, tracks⟩

/-- What follows on corresponding actions, with what is known of the first one. -/
theorem bindOk {x : FrameExec α} {y : Exec α} {f : α → FrameExec β} {g : α → Exec β}
    {a : FrameMachine} {m : Engine} (h : Corresponds (x a) (y m))
    (k : ∀ v a' m', x a = .ok v a' → Tracks a' m' → Corresponds (f v a') (g v m')) :
    Corresponds ((x >>= f) a) ((y >>= g) m) := by
  rw [bind_eq, bind_eq]
  obtain ⟨v, a', m', first, second, tracks⟩ | ⟨e, a', m', first, second, tracks⟩ := h.cases
  · simp only [first, second]
    exact k v a' m' first tracks
  · simp only [first, second]
    exact ⟨rfl, tracks⟩

theorem bind {x : FrameExec α} {y : Exec α} {f : α → FrameExec β} {g : α → Exec β}
    {a : FrameMachine} {m : Engine} (h : Corresponds (x a) (y m)) (k : ∀ v, Sim (f v) (g v)) :
    Corresponds ((x >>= f) a) ((y >>= g) m) :=
  h.bindOk fun v a' m' _ tracks => k v a' m' tracks

end Corresponds

namespace Sim

theorem bind {x : FrameExec α} {y : Exec α} {f : α → FrameExec β} {g : α → Exec β} (h : Sim x y)
    (k : ∀ v, Sim (f v) (g v)) : Sim (x >>= f) (y >>= g) :=
  fun a m tracks => (h a m tracks).bind k

theorem pure (v : α) : Sim (Pure.pure v) (Pure.pure v) := fun _ _ tracks => ⟨rfl, tracks⟩

theorem throw (e : Fault) : Sim (α := α) (throw e) (throw e) := fun _ _ tracks => ⟨rfl, tracks⟩

/-- What follows on a look at the machine. -/
theorem get {f : FrameMachine → FrameExec β} {g : Engine → Exec β}
    (k : ∀ a m, Tracks a m → Corresponds (f a a) (g m m)) : Sim (get >>= f) (get >>= g) :=
  fun a m tracks => k a m tracks

end Sim
end

namespace Tracks
variable {a : FrameMachine} {m : Engine}

/-- The machines still agree when the operands change on both sides. -/
theorem setOperands (h : Tracks a m) {operands : List Word} {stack : Stack}
    (capacity : stack.capacity = m.stack.capacity) (frame : stack.frame = m.stack.frame)
    (room : stack.pointer ≤ stack.capacity)
    (live : ∀ lower callee record, m.stack.live = frameWords lower callee a.current record →
      stack.live = frameWords lower callee { a.current with operands } record) :
    Tracks (a.setOperands operands) { m with stack } := by
  obtain ⟨lower, callee, record, below, named, lives, place⟩ := h.frames
  exact { h with
    capacity := capacity.trans h.capacity
    room := room
    frames := ⟨lower, callee, record, below, named, live _ _ _ lives, frame.trans place⟩ }

/-- Operands leave both machines. -/
theorem drop (h : Tracks a m) {n : Nat} (hn : n ≤ a.current.operands.length) :
    Tracks (a.setOperands (a.current.operands.drop n))
      { m with stack := { m.stack with pointer := m.stack.pointer - n } } := by
  have room := h.room
  refine h.setOperands rfl rfl (Nat.le_trans (Nat.sub_le _ _) room) ?_
  intro lower callee record live
  have size := congrArg List.length live
  rw [m.stack.length_live, length_frameWords] at size
  rw [m.stack.live_take m.stack.frame (by omega), live, size, take_frameWords _ _ _ hn]

theorem setHeap (h : Tracks a m) (heap : Heap) : Tracks { a with heap } { m with heap } :=
  { h with heap := rfl }

theorem setDictionary (h : Tracks a m) {dictionary : Dictionary}
    (dict : m.dictionary.Extends dictionary) :
    Tracks { a with dictionary } { m with dictionary } := by
  obtain ⟨lower, callee, record, below, named, lives, place⟩ := h.frames
  exact { h with
    dictionary := rfl
    frames := ⟨lower, callee, record, below.grow (World.SameCode.refl _) dict, named, lives, place⟩ }

theorem setWorld (h : Tracks a m) {world : World} (code : m.world.SameCode world) :
    Tracks { a with world } { m with world } := by
  obtain ⟨lower, callee, record, below, named, lives, place⟩ := h.frames
  obtain ⟨c, found, slots⟩ := h.runs
  exact { h with
    world := rfl
    code := h.code.same code
    runs := ⟨c, (code _).trans found, slots⟩
    frames := ⟨lower, callee, record, below.grow code (Dictionary.Extends.refl _), named, lives,
      place⟩ }

end Tracks

theorem onStack_eq {α : Type} (f : OnStack α) (m : Engine) :
    Exec.onStack f m = match f m.stack with
      | .ok v stack => .ok v { m with stack }
      | .error e stack => .error (.ofStack e) { m with stack } := rfl

theorem inspect_eq {α : Type} (f : Stack → Except StackFault α) (m : Engine) :
    Exec.inspect f m = match f m.stack with
      | .ok v => .ok v m
      | .error e => .error (.ofStack e) m := rfl

namespace Sim

theorem push (w : Word) : Sim (FrameExec.push w) (Exec.push w) := by
  intro a m h
  have pointer := h.pointer
  have capacity := h.capacity
  rw [Exec.push, onStack_eq, Stack.push_eq, FrameExec.push, h.config]
  by_cases full : m.stack.capacity ≤ m.stack.pointer
  · rw [if_pos (by omega), if_pos full, capacity]
    exact ⟨rfl, h⟩
  · rw [if_neg (by omega), if_neg full]
    refine ⟨rfl, h.setOperands rfl rfl (by simp only; omega) ?_⟩
    intro lower callee record live
    rw [Stack.live_push, live]
    simp [frameWords]

theorem pop : Sim FrameExec.pop Exec.pop := by
  intro a m h
  have pointer := h.pointer
  have floor := h.floor
  rw [Exec.pop, onStack_eq, Stack.pop, FrameExec.pop]
  cases ops : a.current.operands with
  | nil =>
    rw [ops] at floor
    rw [if_pos (by simp at floor; omega), pointer]
    exact ⟨rfl, h⟩
  | cons w rest =>
    have top := h.read_operand (i := 0) (w := w) (by simp [ops])
    rw [ops] at floor
    rw [if_neg (by simp at floor; omega)]
    have dropped := h.drop (n := 1) (by simp [ops])
    rw [ops] at dropped
    exact ⟨top.symm, dropped⟩

theorem peekAt (depth : Nat) :
    Sim (FrameExec.peekAt depth) (Exec.inspect (·.peekAt depth)) := by
  intro a m h
  have pointer := h.pointer
  have floor := h.floor
  simp only [FrameExec.peekAt, inspect_eq, Stack.peekAt]
  cases found : a.current.operands[depth]? with
  | none =>
    have := List.getElem?_eq_none_iff.mp found
    rw [if_pos (by omega), pointer]
    exact ⟨rfl, h⟩
  | some w =>
    have := (List.getElem?_eq_some_iff.mp found).1
    rw [if_neg (by omega)]
    exact ⟨(h.read_operand found).symm, h⟩

theorem top (n : Nat) : Sim (FrameExec.top n) (Exec.inspect (·.top n)) := by
  intro a m h
  have pointer := h.pointer
  have floor := h.floor
  simp only [FrameExec.top, inspect_eq, Stack.top]
  by_cases few : a.current.operands.length < n
  · rw [if_pos few, if_pos (by omega), pointer]
    exact ⟨rfl, h⟩
  · rw [if_neg few, if_neg (by omega)]
    exact ⟨(h.between_operands (by omega)).symm, h⟩

theorem dropTop (n : Nat) : Sim (FrameExec.dropTop n) (Exec.onStack (Stack.dropTop n)) := by
  intro a m h
  have pointer := h.pointer
  have floor := h.floor
  rw [FrameExec.dropTop, onStack_eq, Stack.dropTop]
  by_cases few : a.current.operands.length < n
  · rw [if_pos few, if_pos (by omega), pointer]
    exact ⟨rfl, h⟩
  · rw [if_neg few, if_neg (by omega)]
    exact ⟨rfl, h.drop (by omega)⟩

theorem slot (i : Nat) : Sim (FrameExec.slot i) (Exec.inspect (·.slot i)) := by
  intro a m h
  obtain ⟨lower, callee, record, -, -, -, frame⟩ := h.frames
  have count : m.stack.frame.slotCount = a.current.slots.length := by rw [frame]
  simp only [FrameExec.slot, inspect_eq, Stack.slot, count]
  cases found : a.current.slots[i]? with
  | none =>
    have := List.getElem?_eq_none_iff.mp found
    rw [if_neg (by omega)]
    exact ⟨rfl, h⟩
  | some w =>
    have bound := (List.getElem?_eq_some_iff.mp found).1
    rw [if_pos bound]
    exact ⟨(Stack.read_of_getElem? ((h.getElem?_live_slot bound).trans found)).symm, h⟩

theorem setSlot (i : Nat) (w : Word) :
    Sim (FrameExec.setSlot i w) (Exec.onStack (Stack.setSlot i w)) := by
  intro a m h
  obtain ⟨lower, callee, record, below, named, live, frame⟩ := h.frames
  have count : m.stack.frame.slotCount = a.current.slots.length := by rw [frame]
  rw [FrameExec.setSlot, onStack_eq, Stack.setSlot, count]
  by_cases bound : i < a.current.slots.length
  · rw [if_pos bound, if_pos bound]
    obtain ⟨code, found, slots⟩ := h.runs
    refine ⟨rfl, { h with
      runs := ⟨code, found, by simpa using slots⟩
      frames := ⟨lower, callee, record, below, named, ?_, by simp [frame]⟩ }⟩
    have size := congrArg List.length live
    rw [m.stack.length_live, length_frameWords, CallFrame.size] at size
    have base : m.stack.frame.base = lower.length + 1 := by rw [frame]
    rw [m.stack.live_write w (by omega), live, base]
    simp only [frameWords]
    rw [List.set_append_right _ _ (by omega),
      show lower.length + 1 + i - lower.length = i + 1 by omega, List.set_cons_succ,
      List.set_append_left _ _ bound]
  · rw [if_neg bound, if_neg bound]
    exact ⟨rfl, h⟩

theorem swap : Sim FrameExec.swap (Exec.onStack Stack.swap) := by
  intro a m h
  have pointer := h.pointer
  have floor := h.floor
  rw [FrameExec.swap, onStack_eq, Stack.swap]
  match ops : a.current.operands with
  | [] | [_] =>
    rw [ops] at floor
    rw [if_pos (by simp at floor; omega), pointer]
    exact ⟨rfl, h⟩
  | upper :: lower :: rest =>
    have first := h.read_operand (i := 0) (w := upper) (by simp [ops])
    have second := h.read_operand (i := 1) (w := lower) (by simp [ops])
    rw [ops] at floor
    simp only [List.length_cons] at floor
    rw [if_neg (by omega)]
    simp only [Nat.sub_zero, Nat.sub_sub] at first second
    rw [first, second]
    refine ⟨rfl, h.setOperands rfl rfl h.room ?_⟩
    intro below callee record live
    have size := congrArg List.length live
    rw [m.stack.length_live, length_frameWords, CallFrame.size, ops] at size
    simp only [Frame.recordSize, List.length_cons] at size
    let bottom := below ++ callee :: (a.current.slots ++ record.words) ++ rest.reverse
    have words : record.words.length = 3 := rfl
    have length : m.stack.pointer - 2 = bottom.length := by
      simp [bottom]
      omega
    have before : m.stack.live = bottom ++ [lower, upper] := by
      rw [live, frameWords_eq, ops]
      simp [bottom]
    rw [Stack.live_swap m.stack upper lower (by omega), before,
      show m.stack.pointer - 1 = bottom.length + 1 by omega, length,
      List.set_append_right _ _ (by omega), List.set_append_right _ _ (by omega), frameWords_eq]
    simp [bottom]

theorem onHeap {α : Type} (f : OnHeap α) : Sim (FrameExec.onHeap f) (Exec.onHeap f) := by
  intro a m h
  simp only [FrameExec.onHeap, Exec.onHeap, h.heap]
  cases f m.heap with
  | ok v heap => exact ⟨rfl, h.setHeap heap⟩
  | error e heap => exact ⟨rfl, h.setHeap heap⟩

theorem readHeap {α : Type} (f : Heap → World → Dictionary → Except HeapFault α) :
    Sim (FrameExec.readHeap f) (Exec.readHeap f) := by
  intro a m h
  simp only [FrameExec.readHeap, Exec.readHeap, h.heap, h.world, h.dictionary]
  cases f m.heap m.world m.dictionary with
  | ok v => exact ⟨rfl, h⟩
  | error e => exact ⟨rfl, h⟩

theorem onWorld {α : Type} {f : Action α} (keeps : KeepsCode f) :
    Sim (FrameExec.onWorld f) (Exec.onWorld f) := by
  intro a m h
  have same := keeps m.world
  simp only [FrameExec.onWorld, Exec.onWorld, h.world]
  cases result : f m.world with
  | ok v world =>
    rw [result] at same
    exact ⟨rfl, h.setWorld same⟩
  | error e world =>
    rw [result] at same
    exact ⟨rfl, h.setWorld same⟩

theorem changeWorld {f : World → World} (same : ∀ w, World.SameCode w (f w)) :
    Sim (modify fun m => { m with world := f m.world })
      (modify fun m => { m with world := f m.world }) := by
  intro a m h
  refine ⟨rfl, ?_⟩
  change Tracks { a with world := f a.world } { m with world := f m.world }
  rw [h.world]
  exact h.setWorld (same m.world)

theorem jump (target : Nat) : Sim (FrameExec.jump target) (Exec.jump target) := by
  intro a m h
  obtain ⟨lower, callee, record, below, named, lives, place⟩ := h.frames
  exact ⟨rfl, { h with pc := rfl, frames := ⟨lower, callee, record, below, named, lives, place⟩ }⟩

theorem encodeValue (v : Value) : Sim (FrameExec.encodeValue v) (Exec.encodeValue v) := by
  intro a m h
  have changed := h.setDictionary (encode_extends v m.dictionary)
  simp only [FrameExec.encodeValue, Exec.encodeValue, modifyGet_eq, h.dictionary]
  exact ⟨rfl, changed⟩

theorem decodeWord (w : Word) : Sim (FrameExec.decodeWord w) (Exec.decodeWord w) := by
  apply Sim.get
  intro a m h
  rw [h.dictionary, h.heap]
  cases decode m.dictionary m.heap w with
  | ok v => exact Sim.pure v a m h
  | error e => exact Sim.throw _ a m h

theorem nameOf (w : Word) : Sim (FrameExec.nameOf w) (Exec.nameOf w) := by
  apply Sim.get
  intro a m h
  rw [h.dictionary]
  match m.dictionary.lookup? w with
  | some (.str name) => exact Sim.pure name a m h
  | none | some .undefined | some (.bool _) | some (.int _) | some (.object _)
  | some (.shape _) | some (.ref _) => exact Sim.throw _ a m h

theorem targetOf (w : Word) (field : String) :
    Sim (FrameExec.targetOf w field) (Exec.targetOf w field) := by
  apply (decodeWord w).bind
  intro v
  cases v with
  | ref offset => exact Sim.pure _
  | object id => exact Sim.pure _
  | undefined | bool | int | str | shape =>
    apply Sim.get
    intro a m h
    rw [h.world]
    exact Sim.throw _ a m h

theorem newRecord (shape : Word) : Sim (FrameExec.newRecord shape) (Exec.newRecord shape) := by
  have allocate (width : Nat) :=
    (top width).bind fun fields => (onHeap (Heap.allocate shape fields)).bind fun offset =>
      (dropTop width).bind fun _ => push (.heap offset)
  apply (decodeWord shape).bind
  intro v
  cases v with
  | shape id =>
    apply Sim.get
    intro a m h
    rw [h.world]
    exact allocate _ a m h
  | undefined | bool | int | str | object | ref =>
    apply Sim.get
    intro a m h
    rw [h.world]
    exact Sim.throw _ a m h

theorem getField (name : Word) : Sim (FrameExec.getField name) (Exec.getField name) := by
  apply (nameOf name).bind
  intro field
  apply pop.bind
  intro receiver
  apply (targetOf receiver field).bind
  intro target
  cases target with
  | record offset => exact (readHeap _).bind push
  | host id =>
    apply Sim.get
    intro a m h
    rw [h.world]
    exact ((encodeValue _).bind push) a m h

theorem putField (name : Word) : Sim (FrameExec.putField name) (Exec.putField name) := by
  apply (nameOf name).bind
  intro field
  apply pop.bind
  intro value
  apply pop.bind
  intro receiver
  apply (targetOf receiver field).bind
  intro target
  cases target with
  | record offset =>
    apply Sim.get
    intro a m h
    rw [h.world, h.dictionary]
    exact onHeap _ a m h
  | host id =>
    apply (decodeWord value).bind
    intro v
    exact changeWorld fun w => World.sameCode_setField w id field v

/-- A call outside the machine. -/
theorem invoke (id : ObjectId) (receiver : Value) (args : List Value) :
    Sim (FrameExec.onWorld (TaggedScript.invoke id receiver args))
      (Exec.onWorld (TaggedScript.invoke id receiver args)) :=
  onWorld (keepsCode_invoke id receiver args)

theorem printTop : Sim FrameExec.printTop Exec.printTop := by
  apply pop.bind
  intro w
  apply (decodeWord w).bind
  intro v
  apply Sim.get
  intro a m h
  rw [h.world]
  simp only
  cases m.world.global printName with
  | object id =>
    simp only
    by_cases callable : (m.world.object id).isCallable
    · rw [if_pos callable, if_pos callable]
      exact ((invoke id .undefined [v]).bind fun _ => push _) a m h
    · rw [if_neg callable, if_neg callable]
      exact Sim.throw _ a m h
  | undefined | bool | int | str | shape | ref => exact Sim.throw _ a m h

theorem mapM_decodeWord (ws : List Word) :
    Sim (ws.mapM FrameExec.decodeWord) (ws.mapM Exec.decodeWord) := by
  induction ws with
  | nil => exact Sim.pure []
  | cons w ws ih =>
    rw [List.mapM_cons, List.mapM_cons]
    apply (decodeWord w).bind
    intro v
    exact ih.bind fun vs => Sim.pure _

theorem callNative (id : ObjectId) (argc : Nat) :
    Sim (FrameExec.callNative id argc) (Exec.callNative id argc) := by
  apply (top (argc + 1)).bind
  intro ws
  apply (mapM_decodeWord ws).bind
  intro values
  apply (invoke id _ _).bind
  intro result
  apply (dropTop (argc + 2)).bind
  intro _
  exact (encodeValue result).bind push

end Sim

end TaggedScript
