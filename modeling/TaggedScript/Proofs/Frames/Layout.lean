import TaggedScript.Proofs.Effects
import TaggedScript.Proofs.Frames.Machine
import TaggedScript.Proofs.Frames.StackView
import TaggedScript.Proofs.WordMeaning

/-!
Where the frames of a `FrameMachine` lie on the stack of an `Engine`: one on top of the other, each
linked to the one below by the record between its slots and its operands.
-/
namespace TaggedScript

/-- What the host promises of code: its frame has room for the parameters, and its positions are
positions of memory. -/
def World.CodeFits (w : World) : Prop :=
  ∀ id code, (w.object id).code? = some code →
    code.parameterCount ≤ code.slotCount ∧ code.stream.size < 2 ^ 62

theorem World.CodeFits.same {w v : World} (h : w.CodeFits) (same : w.SameCode v) : v.CodeFits :=
  fun id code found => h id code (same id ▸ found)

/-- The words of a frame on top of those that lie below it. -/
def frameWords (lower : List Word) (callee : Word) (f : CallFrame) (record : Activation) :
    List Word :=
  lower ++ callee :: (f.slots ++ (record.words ++ f.operands.reverse))

@[simp] theorem length_frameWords (lower : List Word) (callee : Word) (f : CallFrame)
    (record : Activation) : (frameWords lower callee f record).length = lower.length + f.size := by
  simp [frameWords, Activation.words, CallFrame.size, Frame.recordSize]
  omega

/-- The words of a frame end in its operands. -/
theorem frameWords_eq (lower : List Word) (callee : Word) (f : CallFrame) (record : Activation) :
    frameWords lower callee f record =
      (lower ++ callee :: (f.slots ++ record.words)) ++ f.operands.reverse := by
  simp [frameWords]

/-- A frame without its top operands. -/
theorem take_frameWords (lower : List Word) (callee : Word) {f : CallFrame} (record : Activation)
    {n : Nat} (h : n ≤ f.operands.length) :
    (frameWords lower callee f record).take (lower.length + f.size - n) =
      frameWords lower callee { f with operands := f.operands.drop n } record := by
  have words : record.words.length = 3 := rfl
  have size : f.size = 1 + f.slots.length + 3 + f.operands.length := rfl
  rw [frameWords_eq, frameWords_eq, List.take_append, List.take_of_length_le (by simp; omega),
    List.take_reverse]
  congr 3
  simp
  omega

/-- What lies below a frame. -/
theorem take_lower (lower : List Word) (callee : Word) (f : CallFrame) (record : Activation) :
    (frameWords lower callee f record).take lower.length = lower := List.take_left

/-- A frame has a slot for each of its function. -/
def CallFrame.Runs (w : World) (f : CallFrame) : Prop :=
  ∃ code, (w.object f.function).code? = some code ∧ f.slots.length = code.slotCount

/-- The word of a callee names no record. That of the function that nobody called is no position
either, which shows where the frames end. -/
structure CallFrame.IsCallee (callers : List CallFrame) (callee : Word) : Prop where
  odd : callers = [] → callee.asIndex = none
  notHeap : ∀ offset, callee.tag ≠ some (.heap offset)

/-- What lies below a frame are the frames of its callers, and the record of the frame leads back
to the first of them. The caller is found again as long as all indices fit into words. -/
inductive Below (w : World) (d : Dictionary) : List Word → Activation → List CallFrame → Prop
  | outermost : Below w d [] ⟨0, none, .undefined⟩ []
  | called {lower record callers} {g : CallFrame} {callee caller : Word} :
      Below w d lower record callers →
      CallFrame.IsCallee callers callee →
      g.Runs w →
      g.pc < 2 ^ 62 →
      lower.length + 1 < 2 ^ 62 →
      (d.size ≤ 2 ^ 32 → d.lookup? caller = some (.object g.function)) →
      Below w d (frameWords lower callee g record) ⟨lower.length + 1, some g.pc, caller⟩
        (g :: callers)

namespace Below
variable {w : World} {d : Dictionary} {lower : List Word} {record : Activation}
  {callers : List CallFrame}

theorem length_eq (h : Below w d lower record callers) :
    lower.length = (callers.map CallFrame.size).sum := by
  induction h with
  | outermost => rfl
  | called _ _ _ _ _ _ ih => simp [ih]; omega

theorem grow (h : Below w d lower record callers) {v : World} {e : Dictionary}
    (code : w.SameCode v) (dict : d.Extends e) : Below v e lower record callers := by
  induction h with
  | outermost => exact .outermost
  | called _ named runs pc base link ih =>
    obtain ⟨c, found, slots⟩ := runs
    refine .called ih named ⟨c, (code _).trans found, slots⟩ pc base ?_
    intro fits
    exact dict.lookup? (link (Nat.le_trans dict.size_le fits))

theorem fits (h : Below w d lower record callers) :
    record.savedBase < 2 ^ 62 ∧ ∀ pc ∈ record.savedPc, pc < 2 ^ 62 := by
  cases h with
  | outermost => simp
  | called _ _ _ pc base _ => exact ⟨base, by simpa using pc⟩

end Below

/-- The record of a frame is what its three words say. -/
theorem Stack.activationOf_of_words {s : Stack} {frame : Frame} {record : Activation}
    (room : frame.operands ≤ s.capacity)
    (words : s.between frame.activation frame.operands = record.words)
    (base : record.savedBase < 2 ^ 62) (pc : ∀ pc ∈ record.savedPc, pc < 2 ^ 62) :
    s.activationOf frame = .ok record := by
  have three : frame.operands - frame.activation = 3 := Nat.add_sub_cancel_left _ _
  rw [Stack.between, three] at words
  obtain ⟨first, second, third⟩ : s.read frame.activation = .ofIndex record.savedBase ∧
      s.read (frame.activation + 1) = record.savedPc.elim .undefined .ofIndex ∧
      s.read (frame.activation + 2) = record.caller := by
    simpa [List.range', Activation.words] using words
  have inside : ¬ s.capacity < frame.activation + Frame.recordSize := Nat.not_lt.mpr room
  simp only [Stack.activationOf, inside, ↓reduceIte, first, second, third,
    Word.asIndex_ofIndex base]
  obtain ⟨savedBase, savedPc, caller⟩ := record
  cases savedPc with
  | none => simp
  | some n =>
    have bound := pc n rfl
    simp [Word.ofIndex_ne_undefined bound, Word.asIndex_ofIndex bound]

/-- The record of a frame, read from the stack. -/
theorem Stack.activationOf_frame {s : Stack} {lower more : List Word} {callee : Word}
    {f : CallFrame} {record : Activation} (live : s.live = frameWords lower callee f record ++ more)
    (room : s.pointer ≤ s.capacity) (base : record.savedBase < 2 ^ 62)
    (pc : ∀ pc ∈ record.savedPc, pc < 2 ^ 62) :
    s.activationOf ⟨lower.length + 1, f.slots.length⟩ = .ok record := by
  have size : s.pointer = lower.length + f.size + more.length := by
    rw [← s.length_live, live]
    simp
  simp only [CallFrame.size, Frame.recordSize] at size
  refine activationOf_of_words ?_ ?_ base pc
  · simp only [Frame.operands, Frame.activation, Frame.recordSize]
    omega
  · have split : s.live = (lower ++ callee :: f.slots) ++
        (record.words ++ (f.operands.reverse ++ more)) := by
      rw [live, frameWords]
      simp
    have low : (lower ++ callee :: f.slots).length = lower.length + 1 + f.slots.length := by
      simp
      omega
    rw [s.between_eq (by simp only [Frame.operands, Frame.activation, Frame.recordSize]; omega),
      split, Frame.operands, Frame.activation, ← low, Frame.recordSize, List.take_length_add_append,
      List.drop_left]
    rfl

/-- The machines agree on all but how their frames are stored. -/
structure Tracks (a : FrameMachine) (m : Engine) : Prop where
  config : a.config = m.config
  world : a.world = m.world
  dictionary : a.dictionary = m.dictionary
  heap : a.heap = m.heap
  status : a.status = m.status
  function : m.function = some a.current.function
  pc : m.pc = a.current.pc
  capacity : m.stack.capacity = m.config.stackCapacity
  addressable : m.config.stackCapacity ≤ 2 ^ 62
  code : m.world.CodeFits
  runs : a.current.Runs m.world
  room : m.stack.pointer ≤ m.stack.capacity
  frames : ∃ lower callee record,
    Below m.world m.dictionary lower record a.callers ∧
    CallFrame.IsCallee a.callers callee ∧
    m.stack.live = frameWords lower callee a.current record ∧
    m.stack.frame = ⟨lower.length + 1, a.current.slots.length⟩

namespace Tracks
variable {a : FrameMachine} {m : Engine}

theorem pointer (h : Tracks a m) : m.stack.pointer = a.size := by
  obtain ⟨lower, callee, record, below, -, live, -⟩ := h.frames
  rw [← m.stack.length_live, live, length_frameWords, below.length_eq]
  simp [FrameMachine.size, FrameMachine.frames]
  omega

/-- Where the frame lies tells how much room those below it take. -/
theorem base (h : Tracks a m) :
    m.stack.frame.base = (a.callers.map CallFrame.size).sum + 1 := by
  obtain ⟨lower, callee, record, below, -, -, frame⟩ := h.frames
  rw [frame, below.length_eq]

/-- The operands are all that lies above the floor. -/
theorem floor (h : Tracks a m) :
    m.stack.floor + a.current.operands.length = m.stack.pointer := by
  obtain ⟨lower, callee, record, -, -, live, frame⟩ := h.frames
  rw [← m.stack.length_live, live]
  simp [Stack.floor, frame, Frame.outside, Frame.operands, Frame.activation, Frame.recordSize,
    CallFrame.size]
  omega

theorem getElem?_live_operand (h : Tracks a m) {i : Nat} (hi : i < a.current.operands.length) :
    m.stack.live[m.stack.pointer - 1 - i]? = a.current.operands[i]? := by
  obtain ⟨lower, callee, record, -, -, live, -⟩ := h.frames
  have size : m.stack.pointer = lower.length + a.current.size := by
    rw [← m.stack.length_live, live, length_frameWords]
  simp only [CallFrame.size, Frame.recordSize] at size
  have words : record.words.length = 3 := rfl
  rw [live, frameWords_eq, List.getElem?_append_right (by simp; omega)]
  rw [List.getElem?_reverse (by simp; omega)]
  congr 1
  simp
  omega

theorem read_operand (h : Tracks a m) {i : Nat} {w : Word}
    (found : a.current.operands[i]? = some w) :
    m.stack.read (m.stack.pointer - 1 - i) = w := by
  have bound := (List.getElem?_eq_some_iff.mp found).1
  exact Stack.read_of_getElem? ((h.getElem?_live_operand bound).trans found)

theorem between_operands (h : Tracks a m) {n : Nat} (hn : n ≤ a.current.operands.length) :
    m.stack.between (m.stack.pointer - n) m.stack.pointer =
      (a.current.operands.take n).reverse := by
  have floor := h.floor
  rw [m.stack.between_eq (Nat.le_refl _), List.take_of_length_le (by simp)]
  apply List.ext_getElem?
  intro i
  rw [List.getElem?_drop]
  by_cases hi : i < n
  · have place : m.stack.pointer - n + i = m.stack.pointer - 1 - (n - 1 - i) := by omega
    rw [place, h.getElem?_live_operand (by omega), List.getElem?_reverse (by simp; omega),
      List.getElem?_take, if_pos (by simp; omega)]
    congr 1
    simp
    omega
  · rw [List.getElem?_eq_none (by simp; omega), List.getElem?_eq_none (by simp; omega)]

theorem getElem?_live_slot (h : Tracks a m) {i : Nat} (hi : i < a.current.slots.length) :
    m.stack.live[m.stack.frame.base + i]? = a.current.slots[i]? := by
  obtain ⟨lower, callee, record, -, -, live, frame⟩ := h.frames
  rw [live, frame, frameWords, List.getElem?_append_right (by simp; omega)]
  rw [show (Frame.mk (lower.length + 1) a.current.slots.length).base + i - lower.length = i + 1 by
    simp; omega]
  rw [List.getElem?_cons_succ, List.getElem?_append_left hi]

end Tracks
end TaggedScript
