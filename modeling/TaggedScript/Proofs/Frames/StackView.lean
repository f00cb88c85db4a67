import TaggedScript.Machine.Stack

/-!
What the operations of the shared stack do to the words in use. No operation looks at a word above
the pointer, so these say all there is to know of it.
-/
namespace TaggedScript

/-- The words of an activation record. -/
def Activation.words (record : Activation) : List Word :=
  [.ofIndex record.savedBase, record.savedPc.elim .undefined .ofIndex, record.caller]

namespace Stack

/-- The words in use, the top one last. -/
def live (s : Stack) : List Word := s.between 0 s.pointer

@[simp] theorem length_live (s : Stack) : s.live.length = s.pointer := by simp [live, between]

theorem getElem?_live (s : Stack) {i : Nat} (h : i < s.pointer) :
    s.live[i]? = some (s.read i) := by
  simp [live, between, h]

theorem read_of_getElem? {s : Stack} {i : Nat} {w : Word} (h : s.live[i]? = some w) :
    s.read i = w := by
  have bound : i < s.pointer := by
    have := (List.getElem?_eq_some_iff.mp h).1
    simpa using this
  rw [s.getElem?_live bound] at h
  exact Option.some.inj h

/-- Two lists of words are the same if they agree on each place in use. -/
theorem live_eq_of_read {s : Stack} {ws : List Word} (size : ws.length = s.pointer)
    (same : ∀ i, i < s.pointer → ws[i]? = some (s.read i)) : s.live = ws := by
  apply List.ext_getElem?
  intro i
  by_cases h : i < s.pointer
  · rw [s.getElem?_live h, same i h]
  · rw [List.getElem?_eq_none (by simp; omega), List.getElem?_eq_none (by omega)]

theorem between_eq (s : Stack) {i j : Nat} (h : j ≤ s.pointer) :
    s.between i j = (s.live.take j).drop i := by
  apply List.ext_getElem?
  intro k
  by_cases hk : k < j - i
  · have hi : i + k < s.pointer := by omega
    simp [between, hk, List.getElem?_drop, show i + k < j by omega, s.getElem?_live hi]
  · rw [List.getElem?_eq_none (by simp [between]; omega), List.getElem?_eq_none (by simp; omega)]

theorem getD_writeWord (ws : Array Word) (i j : Nat) (w : Word) :
    (writeWord ws i w).getD j .undefined = if j = i then w else ws.getD j .undefined := by
  unfold writeWord
  simp only [Array.getD_eq_getD_getElem?]
  split <;> grind

theorem getD_clearWords (ws : Array Word) (i stop j : Nat) :
    (clearWords ws i stop).getD j .undefined =
      if i ≤ j ∧ j < stop then .undefined else ws.getD j .undefined := by
  unfold clearWords
  generalize hn : stop - i = n
  induction n generalizing ws i with
  | zero =>
    have : ¬ (i ≤ j ∧ j < stop) := by omega
    simp [this]
  | succ n ih =>
    rw [List.range'_succ, List.foldl_cons, ih _ (i + 1) (by omega), getD_writeWord]
    by_cases hj : j = i
    · subst hj
      have : j < stop := by omega
      simp [this]
    · by_cases hs : i + 1 ≤ j ∧ j < stop
      · have : i ≤ j ∧ j < stop := by omega
        simp [hs, this]
      · have : ¬ (i ≤ j ∧ j < stop) := by omega
        rw [if_neg hs, if_neg hj, if_neg this]

theorem getD_writeRecord (ws : Array Word) (place : Nat) (record : Activation) (j : Nat) :
    (writeRecord ws place record).getD j .undefined =
      if j = place + 2 then record.caller
      else if j = place + 1 then record.savedPc.elim .undefined .ofIndex
      else if j = place then .ofIndex record.savedBase
      else ws.getD j .undefined := by
  simp only [writeRecord, getD_writeWord]

theorem push_eq (s : Stack) (w : Word) :
    push w s = if s.capacity ≤ s.pointer then .error (.overflow s.capacity) s
      else .ok () { s with words := writeWord s.words s.pointer w, pointer := s.pointer + 1 } := rfl

theorem live_push (s : Stack) (w : Word) :
    live { s with words := writeWord s.words s.pointer w, pointer := s.pointer + 1 } =
      s.live ++ [w] := by
  apply live_eq_of_read (by simp)
  intro i hi
  change i < s.pointer + 1 at hi
  simp only [read, getD_writeWord]
  by_cases h : i = s.pointer
  · subst h
    simp
  · rw [List.getElem?_append_left (by simp; omega), s.getElem?_live (by omega)]
    simp [read, h]

theorem live_take (s : Stack) {n : Nat} (f : Frame) (h : n ≤ s.pointer) :
    live { s with pointer := n, frame := f } = s.live.take n := by
  apply live_eq_of_read (by simp [h])
  intro i hi
  change i < n at hi
  rw [List.getElem?_take, if_pos hi, s.getElem?_live (by omega)]
  rfl

theorem live_write (s : Stack) {i : Nat} (w : Word) (h : i < s.pointer) :
    live { s with words := writeWord s.words i w } = s.live.set i w := by
  apply live_eq_of_read (by simp)
  intro j hj
  change j < s.pointer at hj
  simp only [read, getD_writeWord, List.getElem?_set]
  by_cases hji : j = i
  · subst hji
    simp [h]
  · rw [if_neg (fun e => hji e.symm), s.getElem?_live hj, if_neg hji]
    rfl

theorem live_swap (s : Stack) (upper lower : Word) (h : 2 ≤ s.pointer) :
    live { s with
        words := writeWord (writeWord s.words (s.pointer - 2) upper) (s.pointer - 1) lower } =
      (s.live.set (s.pointer - 2) upper).set (s.pointer - 1) lower := by
  have first := s.live_write (i := s.pointer - 2) upper (by omega)
  have second := Stack.live_write
    { s with words := writeWord s.words (s.pointer - 2) upper } (i := s.pointer - 1) lower
    (by simp only; omega)
  rw [← first]
  exact second

theorem live_pushFrame (s : Stack) (frame : Frame) (record : Activation)
    (h : s.pointer ≤ frame.activation) :
    live { s with
        words := writeRecord (clearWords s.words s.pointer frame.activation) frame.activation record
        pointer := frame.operands
        frame } =
      s.live ++ List.replicate (frame.activation - s.pointer) .undefined ++ record.words := by
  apply live_eq_of_read
  · simp [Activation.words, Frame.operands, Frame.recordSize]; omega
  intro i hi
  change i < frame.operands at hi
  simp only [read, getD_writeRecord, getD_clearWords]
  rw [Frame.operands, Frame.recordSize] at hi
  by_cases low : i < s.pointer
  · rw [List.getElem?_append_left (by simp; omega), List.getElem?_append_left (by simp; omega),
      s.getElem?_live low]
    simp [read, show i ≠ frame.activation + 2 by omega, show i ≠ frame.activation + 1 by omega,
      show i ≠ frame.activation by omega, show ¬ s.pointer ≤ i by omega]
  · by_cases mid : i < frame.activation
    · rw [List.getElem?_append_left (by simp; omega), List.getElem?_append_right (by simp; omega)]
      simp [show i ≠ frame.activation + 2 by omega, show i ≠ frame.activation + 1 by omega,
        show i ≠ frame.activation by omega, mid, show s.pointer ≤ i by omega,
        List.getElem?_replicate]
    · rw [List.getElem?_append_right (by simp; omega)]
      have place : i = frame.activation ∨ i = frame.activation + 1 ∨ i = frame.activation + 2 := by
        omega
      have size : s.live.length + (frame.activation - s.pointer) = frame.activation := by
        simp; omega
      rcases place with e | e | e <;> simp [e, Activation.words, h]

end Stack
end TaggedScript
