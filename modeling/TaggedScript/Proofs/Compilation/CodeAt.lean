import TaggedScript.Machine.Code
import TaggedScript.Proofs.WordMeaning

/-!
Where instructions stand in code, and that they are fetched as they were laid out.
-/
namespace TaggedScript

/-- The room that instructions take. -/
def codeWidth (instrs : List Instr) : Nat := instrs.foldr (fun i n => i.width + n) 0

@[simp] theorem codeWidth_nil : codeWidth [] = 0 := rfl

@[simp] theorem codeWidth_cons (i : Instr) (is : List Instr) :
    codeWidth (i :: is) = i.width + codeWidth is := rfl

@[simp] theorem codeWidth_append (is js : List Instr) :
    codeWidth (is ++ js) = codeWidth is + codeWidth js := by
  induction is with
  | nil => rw [List.nil_append, codeWidth_nil, Nat.zero_add]
  | cons i is ih => rw [List.cons_append, codeWidth_cons, codeWidth_cons, ih, Nat.add_assoc]

theorem length_encode_all (is : List Instr) :
    (is.flatMap Instr.encode).length = codeWidth is := by
  induction is with
  | nil => rfl
  | cons i is ih =>
    rw [List.flatMap_cons, List.length_append, ih, codeWidth_cons]
    rfl

theorem Instr.width_pos (i : Instr) : 0 < i.width := by
  simp [width, encode]

theorem length_le_codeWidth (is : List Instr) : is.length ≤ codeWidth is := by
  induction is with
  | nil => exact Nat.le_refl _
  | cons i is ih =>
    have width := i.width_pos
    simp only [List.length_cons, codeWidth_cons]
    omega

/-- An instruction is read back from what it was laid out as. -/
theorem Instr.decode_encode (i : Instr) (pc : Nat) {next? : Option Nat}
    (h : ∀ n ∈ i.operand?, next? = some n) : decode pc i.opcode next? = .ok i := by
  cases i with
  | const w | lookup w | register w | new w | get w | put w =>
    simp only [h w.toNat rfl, decode, opcode, form?, if_pos w.toNat_lt, Word.ofNat_toNat]
  | load n | store n | funcall n | goto n | jumpIfFalse n =>
    simp only [h n rfl, decode, opcode, form?]
  | dup | pop | swap | ret | print => rfl

/-- The instructions of a form have its opcode, and an operand if it takes one. -/
theorem Instr.of_form {number : Nat} {form : Form} (h : form? number = some form) :
    match form with
    | .plain i => i.opcode = number ∧ i.operand? = none
    | .word make => ∀ w, (make w).opcode = number ∧ (make w).operand? = some w.toNat
    | .index make => ∀ n, (make n).opcode = number ∧ (make n).operand? = some n := by
  unfold form? at h
  split at h <;> cases h <;> simp [opcode, operand?]

/-- An instruction is read from what it is laid out as. -/
theorem Instr.decode_ok {pc number : Nat} {next? : Option Nat} {i : Instr}
    (h : decode pc number next? = .ok i) :
    i.opcode = number ∧ ∀ n ∈ i.operand?, next? = some n := by
  unfold decode at h
  split at h
  · cases h
  · rename_i form
    cases h
    obtain ⟨same, none⟩ := of_form form
    exact ⟨same, by simp [none]⟩
  · rename_i n form
    cases h
    obtain ⟨same, operand⟩ := of_form form n
    exact ⟨same, by simp [operand]⟩
  · rename_i n form
    split at h
    · rename_i fits
      cases h
      obtain ⟨same, operand⟩ := of_form form (.ofNat n)
      rw [Word.toNat_ofNat fits] at operand
      exact ⟨same, by simp [operand]⟩
    · cases h
  · cases h
  · cases h

/-- Instructions with their positions when the first stands at `base`. -/
def positioned (base : Nat) : List Instr → List (Nat × Instr)
  | [] => []
  | i :: is => (base, i) :: positioned (base + i.width) is

theorem positioned_append (base : Nat) (is js : List Instr) :
    positioned base (is ++ js) = positioned base is ++ positioned (base + codeWidth is) js := by
  induction is generalizing base with
  | nil => rfl
  | cons i is ih => simp only [List.cons_append, positioned, ih, codeWidth_cons, Nat.add_assoc]

theorem map_snd_positioned (base : Nat) (is : List Instr) :
    (positioned base is).map (·.2) = is := by
  induction is generalizing base with
  | nil => rfl
  | cons i is ih => rw [positioned, List.map_cons, ih]

theorem Code.decodeFrom_encode (pc : Nat) (is : List Instr) :
    decodeFrom pc (is.flatMap Instr.encode) = (positioned pc is, none) := by
  induction is generalizing pc with
  | nil => simp [decodeFrom, positioned]
  | cons i is ih =>
    have decodes : Instr.decode pc i.opcode
        (i.operand?.toList ++ is.flatMap Instr.encode).head? = .ok i := by
      apply i.decode_encode
      intro n operand
      rw [Option.mem_def] at operand
      rw [operand]
      rfl
    rw [List.flatMap_cons, Instr.encode, List.cons_append, decodeFrom, decodes]
    simp only [List.drop_left, ih, positioned]

/-- Code that was laid out decodes to what it was laid out from. -/
theorem Code.decoded_of_stream {code : Code} {is : List Instr}
    (h : code.stream.toList = is.flatMap Instr.encode) :
    code.decoded = (positioned 0 is, none) := by
  rw [decoded, h, decodeFrom_encode]

theorem Code.decodeAll_of_stream {code : Code} {is : List Instr}
    (h : code.stream.toList = is.flatMap Instr.encode) :
    code.decodeAll = .ok (positioned 0 is) := by
  rw [decodeAll, decoded_of_stream h]

theorem Code.decoded_ofInstrs (parameterCount slotCount : Nat) (is : List Instr) :
    (ofInstrs parameterCount slotCount is).decoded = (positioned 0 is, none) :=
  decoded_of_stream rfl

theorem Code.decodeAll_ofInstrs (parameterCount slotCount : Nat) (is : List Instr) :
    (ofInstrs parameterCount slotCount is).decodeAll = .ok (positioned 0 is) :=
  decodeAll_of_stream rfl

namespace Code

/-- The instructions stand in the code one after the other from a position on. -/
def HasAt (code : Code) (pc : Nat) (is : List Instr) : Prop :=
  ∃ before after, code.stream.toList = before ++ is.flatMap Instr.encode ++ after ∧
    before.length = pc

namespace HasAt
variable {code : Code} {pc : Nat} {is js : List Instr} {i : Instr}

theorem left (h : code.HasAt pc (is ++ js)) : code.HasAt pc is := by
  obtain ⟨before, after, all, place⟩ := h
  exact ⟨before, js.flatMap Instr.encode ++ after, by simp [all], place⟩

theorem right (h : code.HasAt pc (is ++ js)) : code.HasAt (pc + codeWidth is) js := by
  obtain ⟨before, after, all, place⟩ := h
  refine ⟨before ++ is.flatMap Instr.encode, after, by simp [all], ?_⟩
  rw [List.length_append, place, length_encode_all]

theorem fetch (h : code.HasAt pc (i :: is)) : code.fetch pc = .ok i := by
  obtain ⟨before, after, all, place⟩ := h
  have stream : ∀ k, code.stream[pc + k]? =
      (i.encode ++ (is.flatMap Instr.encode ++ after))[k]? := by
    intro k
    rw [← Array.getElem?_toList, all, ← place, List.flatMap_cons, List.append_assoc,
      List.append_assoc, List.getElem?_append_right (Nat.le_add_right _ _),
      Nat.add_sub_cancel_left]
  have opcode : code.stream[pc]? = some i.opcode := stream 0
  rw [Code.fetch, opcode]
  apply i.decode_encode
  intro n operand
  rw [Option.mem_def] at operand
  rw [stream 1, Instr.encode, operand]
  rfl

end HasAt

theorem hasAt_ofInstrs (parameterCount slotCount : Nat) (is : List Instr) :
    (ofInstrs parameterCount slotCount is).HasAt 0 is := ⟨[], [], by simp [ofInstrs, make], rfl⟩

end Code
end TaggedScript
