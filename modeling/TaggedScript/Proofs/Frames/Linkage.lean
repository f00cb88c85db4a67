import TaggedScript.Proofs.Frames.Layout

/-!
What a frame keeps for its caller: its record and all that lies below its slots. Whatever is done to
its operands and slots, in any order and whether it fails or not, does not reach that.
-/
namespace TaggedScript
namespace Stack

/-- What code can do to the frame that it runs in. -/
inductive Access where
  | push (w : Word)
  | pop
  | peek
  | peekAt (depth : Nat)
  | swap
  | top (n : Nat)
  | dropTop (n : Nat)
  | slot (i : Nat)
  | setSlot (i : Nat) (w : Word)

/-- Looks at the stack and leaves it as it is. -/
def look (words : Stack → Except StackFault (List Word)) : OnStack (List Word) := fun s =>
  match words s with
  | .ok ws => .ok ws s
  | .error e => .error e s

/-- An access that first adds a count to the floor. Both are machine words, and a sum that is none
ends the program before the stack is touched. -/
def counted (n : Nat) (x : OnStack (List Word)) : OnStack (List Word) := fun s =>
  if s.floor + n < 2 ^ 64 then x s else .ok [] s

/-- Carries out an access and gives the words that it shows. -/
def Access.run : Access → OnStack (List Word)
  | push w => do
    Stack.push w
    return []
  | pop => do return [← Stack.pop]
  | peek => look fun s => s.peek.map ([·])
  | peekAt depth => counted (depth + 1) (look fun s => (s.peekAt depth).map ([·]))
  | swap => do
    Stack.swap
    return []
  | top n => counted n (look fun s => s.top n)
  | dropTop n => counted n do
    Stack.dropTop n
    return []
  | slot i => look fun s => (s.slot i).map ([·])
  | setSlot i w => do
    Stack.setSlot i w
    return []

/-- The stack after some accesses, those that failed among them. -/
def afterAll (accesses : List Access) (s : Stack) : Stack :=
  accesses.foldl (fun s access => stateOf (access.run s)) s

/-- One stack came from the other by what was done above the floor of the frame and in its
slots. -/
structure Confined (s t : Stack) : Prop where
  frame : t.frame = s.frame
  capacity : t.capacity = s.capacity
  floor : s.floor ≤ s.pointer → t.floor ≤ t.pointer
  kept : s.floor ≤ s.pointer → ∀ i, i < s.floor →
    ¬ (s.frame.base ≤ i ∧ i < s.frame.activation) → t.read i = s.read i

namespace Confined
variable {s t u : Stack}

theorem floor_eq (h : Confined s t) : t.floor = s.floor := by
  rw [Stack.floor, Stack.floor, h.frame]

theorem refl (s : Stack) : Confined s s := ⟨rfl, rfl, id, fun _ _ _ _ => rfl⟩

theorem trans (h : Confined s t) (g : Confined t u) : Confined s u := by
  refine ⟨g.frame.trans h.frame, g.capacity.trans h.capacity, g.floor ∘ h.floor, ?_⟩
  intro room i low noSlot
  have later := g.kept (h.floor room) i (h.floor_eq ▸ low) (h.frame ▸ noSlot)
  exact later.trans (h.kept room i low noSlot)

/-- Only the pointer moved, and not below the floor. -/
theorem move {n : Nat} (bound : s.floor ≤ s.pointer → s.floor ≤ n) :
    Confined s { s with pointer := n } :=
  ⟨rfl, rfl, bound, fun _ _ _ _ => rfl⟩

/-- Only one word changed, which was an operand or a slot. -/
theorem write {i : Nat} (w : Word)
    (place : s.floor ≤ s.pointer →
      s.floor ≤ i ∨ s.frame.base ≤ i ∧ i < s.frame.activation) :
    Confined s { s with words := writeWord s.words i w } := by
  refine ⟨rfl, rfl, id, fun room j low noSlot => ?_⟩
  rw [read, getD_writeWord, if_neg]
  · rfl
  · rintro rfl
    exact (place room).elim (by omega) noSlot

end Confined

theorem Confined.look (words : Stack → Except StackFault (List Word)) :
    Keeps Confined (Stack.look words) := by
  intro s
  unfold Stack.look
  split <;> exact .refl s

theorem Confined.counted {x : OnStack (List Word)} (h : Keeps Confined x) (n : Nat) :
    Keeps Confined (Stack.counted n x) := by
  intro s
  unfold Stack.counted
  split
  · exact h s
  · exact .refl s

theorem Confined.push (w : Word) : Keeps Confined (Stack.push w) := by
  intro s
  unfold Stack.push
  split
  · exact .refl s
  · exact .trans (.write w fun room => .inl room) (.move fun room => Nat.le_succ_of_le room)

theorem Confined.pop : Keeps Confined Stack.pop := by
  intro s
  unfold Stack.pop
  split
  · exact .refl s
  · exact .move fun _ => by omega

theorem Confined.swap : Keeps Confined Stack.swap := by
  intro s
  unfold Stack.swap
  split
  · exact .refl s
  · have lower : Confined s
        { s with words := writeWord s.words (s.pointer - 2) (s.read (s.pointer - 1)) } :=
      .write _ fun _ => .inl (by omega)
    exact lower.trans (.write _ fun _ => .inl (by change s.floor ≤ s.pointer - 1; omega))

theorem Confined.dropTop (n : Nat) : Keeps Confined (Stack.dropTop n) := by
  intro s
  unfold Stack.dropTop
  split
  · exact .refl s
  · exact .move fun _ => by omega

theorem Confined.setSlot (i : Nat) (w : Word) : Keeps Confined (Stack.setSlot i w) := by
  intro s
  unfold Stack.setSlot
  split
  · refine .write w fun _ => .inr ?_
    rw [Frame.activation]
    omega
  · exact .refl s

/-- One access, whether it fails or not. -/
theorem Access.confined (access : Access) : Keeps Confined access.run := by
  have shows {α : Type} {x : OnStack α} (f : α → List Word) (h : Keeps Confined x) :
      Keeps Confined (do return f (← x)) :=
    h.bind (fun _ _ _ => .trans) fun a => .pure .refl (f a)
  cases access with
  | push w => exact shows (fun _ => []) (.push w)
  | pop => exact shows ([·]) .pop
  | swap => exact shows (fun _ => []) .swap
  | dropTop n => exact .counted (shows (fun _ => []) (.dropTop n)) n
  | setSlot i w => exact shows (fun _ => []) (.setSlot i w)
  | peekAt depth => exact .counted (.look _) (depth + 1)
  | top n => exact .counted (.look _) n
  | peek | slot _ => exact .look _

theorem confined_afterAll (accesses : List Access) (s : Stack) :
    Confined s (afterAll accesses s) := by
  induction accesses generalizing s with
  | nil => exact .refl s
  | cons access accesses ih => exact (access.confined s).trans (ih _)

/-- A frame that is entered has its record between its slots and its operands, of which there are
none yet. What lies below its slots stays. -/
theorem entered {s t : Stack} {frame : Frame} {record : Activation}
    (enter : pushFrame frame record s = .ok () t) (base : frame.base ≤ s.pointer) :
    t.frame = frame ∧ t.pointer = frame.operands ∧ frame.operands ≤ t.capacity ∧
    t.between frame.activation frame.operands = record.words ∧
    ∀ i, i < frame.base → t.read i = s.read i := by
  unfold pushFrame at enter
  split at enter
  · cases enter
  · rename_i room
    cases enter
    refine ⟨rfl, rfl, by simpa using room, ?_, fun i low => ?_⟩
    · have three : frame.operands - frame.activation = 3 := Nat.add_sub_cancel_left _ _
      simp only [between, three, List.range', List.map_cons, List.map_nil, read, getD_writeRecord,
        Activation.words]
      simp
    · have slots : frame.base ≤ frame.activation := Nat.le_add_right _ _
      simp only [read, getD_writeRecord, getD_clearWords]
      rw [if_neg (by omega), if_neg (by omega), if_neg (by omega), if_neg (by omega)]

/-- Whatever is done to the operands and the slots of a frame after it was entered, its operands stay
above its record, the record is the one that was written, and what lies below the frame stays. The
one frame left out is the one that stands for no frame, see `exists_record_lost`. -/
theorem linkage_kept {s t : Stack} {frame : Frame} {record : Activation}
    (inside : frame ≠ .outside) (base : frame.base ≤ s.pointer)
    (savedBase : record.savedBase < 2 ^ 62) (savedPc : ∀ pc ∈ record.savedPc, pc < 2 ^ 62)
    (enter : pushFrame frame record s = .ok () t) (accesses : List Access) :
    frame.operands ≤ (afterAll accesses t).pointer ∧
    (afterAll accesses t).activation = .ok record ∧
    ∀ i, i < frame.base → (afterAll accesses t).read i = s.read i := by
  obtain ⟨current, pointer, room, words, below⟩ := entered enter base
  have confined := confined_afterAll accesses t
  have floor : t.floor = frame.operands := by rw [Stack.floor, current, if_neg inside]
  have above : t.floor ≤ t.pointer := Nat.le_of_eq (floor.trans pointer.symm)
  have slots : frame.base ≤ frame.activation := Nat.le_add_right _ _
  have record_below : frame.activation ≤ frame.operands := Nat.le_add_right _ _
  have kept := confined.kept above
  rw [floor, current] at kept
  refine ⟨?_, ?_, fun i low => ?_⟩
  · exact floor ▸ confined.floor_eq ▸ confined.floor above
  · rw [Stack.activation, confined.frame, current]
    refine activationOf_of_words (confined.capacity ▸ room) (.trans ?_ words) savedBase savedPc
    refine List.map_congr_left fun i mem => kept i ?_ ?_
    all_goals
      have bounds := List.mem_range'_1.mp mem
      omega
  · exact (kept i (by omega) (by omega)).trans (below i low)

/-- A called function writes its receiver and takes more operands than it has. -/
theorem linkage_kept_taken :
    let s : Stack := ⟨8, 2, #[.interned 0, .undefined], .outside⟩
    let record : Activation := ⟨0, some 9, .ofBool true⟩
    ∃ t, pushFrame ⟨1, 2⟩ record s = .ok () t ∧
      6 ≤ (afterAll [.pop, .setSlot 0 (.ofInt 5), .push .undefined, .swap, .dropTop 2] t).pointer ∧
      (afterAll [.pop, .setSlot 0 (.ofInt 5), .push .undefined, .swap, .dropTop 2] t).activation =
        .ok record := by
  intro s record
  have enter : pushFrame ⟨1, 2⟩ record s = .ok () (stateOf (pushFrame ⟨1, 2⟩ record s)) := rfl
  have kept := linkage_kept (by decide) (by decide) (by decide) (by decide) enter
    [.pop, .setSlot 0 (.ofInt 5), .push .undefined, .swap, .dropTop 2]
  exact ⟨_, enter, kept.1, kept.2.1⟩

/-- The frame without a place of its own stands for no frame, so it has no floor. One that is
entered all the same loses its record: a pop takes the caller in it, and a push writes another. -/
theorem exists_record_lost :
    let s := Stack.empty 8
    let record : Activation := ⟨0, none, .undefined⟩
    Frame.outside.base ≤ s.pointer ∧ s.pointer ≤ Frame.outside.activation ∧
    ∃ t, pushFrame .outside record s = .ok () t ∧
      (afterAll [.pop] t).pointer < Frame.outside.operands ∧
      (afterAll [.pop, .push (.ofInt 1)] t).activation = .ok ⟨0, none, .ofInt 1⟩ := by
  intro s record
  exact ⟨by decide, by decide, _, rfl, by decide, by cbv⟩

end Stack
end TaggedScript
