import Mathlib.Data.List.Basic
import TaggedScript.Proofs.Compilation.CodeAt

/-!
Streams of numbers as lists of instructions. A stream decodes exactly if instructions were laid out
as it, and only those are read from it. One that does not decode is such a stream up to the fault.
-/
namespace TaggedScript

/-- The position that a fault names. -/
def DecodeFault.pc : DecodeFault → Nat
  | unknownOpcode _ pc | missingOperand _ pc | wideOperand _ pc _ | outOfBounds pc => pc

namespace Instr

/-- The operand has 64 bits. -/
def Fits (i : Instr) : Prop := ∀ n ∈ i.operand?, n < 2 ^ 64

/-- Why no instruction can be read from the numbers that begin at `pc`. An operand is too wide only
if it has more than 64 bits. -/
inductive Unread (pc : Nat) : List Nat → DecodeFault → Prop
  | unknown {number rest} : (∀ i : Instr, i.opcode ≠ number) →
      Unread pc (number :: rest) (.unknownOpcode number pc)
  | missing {i : Instr} : i.operand?.isSome →
      Unread pc [i.opcode] (.missingOperand i.mnemonic pc)
  | wide {i : Instr} {n rest} : (∀ j : Instr, j.encode ≠ [i.opcode, n]) → 2 ^ 64 ≤ n →
      Unread pc (i.opcode :: n :: rest) (.wideOperand i.mnemonic pc n)

theorem Unread.pc_eq {pc : Nat} {rest : List Nat} {e : DecodeFault} (h : Unread pc rest e) :
    e.pc = pc := by
  cases h <;> rfl

theorem fits_iff (i : Instr) : i.Fits ↔ ∀ n ∈ i.encode, n < 2 ^ 64 := by
  have small : i.opcode < 2 ^ 64 := by cases i <;> simp [opcode]
  rw [encode, List.forall_mem_cons, and_iff_right small]
  simp [Fits]

theorem isSome_form? (i : Instr) : (form? i.opcode).isSome := by
  cases i <;> rfl

theorem unread_of_decode {pc number : Nat} {rest : List Nat} {e : DecodeFault}
    (h : decode pc number rest.head? = .error e) : Unread pc (number :: rest) e := by
  have refused := h
  unfold decode at h
  split at h
  · rename_i none
    cases h
    refine .unknown fun i same => ?_
    have known := i.isSome_form?
    rw [same, none] at known
    cases known
  · cases h
  · cases h
  · rename_i make n form first
    split at h
    · cases h
    · rename_i wide
      cases h
      obtain ⟨more, rfl⟩ := List.head?_eq_some_iff.mp first
      obtain ⟨rfl, -⟩ := of_form form .undefined
      refine .wide (fun j laid => ?_) (by omega)
      obtain ⟨same, operand⟩ : j.opcode = (make .undefined).opcode ∧ j.operand?.toList = [n] := by
        simpa [encode] using laid
      have next (m : Nat) (mem : j.operand? = some m) : some n = some m := by
        rw [mem] at operand
        exact congrArg some (List.singleton_inj.mp operand).symm
      have read := j.decode_encode pc next
      rw [same] at read
      rw [List.head?_cons, read] at refused
      cases refused
  · rename_i make form first
    cases h
    obtain rfl := List.head?_eq_none_iff.mp first
    obtain ⟨rfl, operand⟩ := of_form form 0
    exact .missing (by rw [operand]; rfl)
  · rename_i make form first
    cases h
    obtain rfl := List.head?_eq_none_iff.mp first
    obtain ⟨rfl, operand⟩ := of_form form .undefined
    exact .missing (by rw [operand]; rfl)

/-- What is read stands at the front. -/
theorem eq_encode_of_decode {pc number : Nat} {rest : List Nat} {i : Instr}
    (h : decode pc number rest.head? = .ok i) :
    number :: rest = i.encode ++ rest.drop i.operand?.toList.length := by
  obtain ⟨rfl, stands⟩ := decode_ok h
  cases operand : i.operand? with
  | none => simp [encode, operand]
  | some n =>
    obtain ⟨more, rfl⟩ := List.head?_eq_some_iff.mp (stands n operand)
    simp [encode, operand]

end Instr

/-- An instruction stands at the sum of the widths before it. -/
theorem getElem?_positioned (base : Nat) (is : List Instr) (k : Nat) :
    (positioned base is)[k]? = is[k]?.map (base + ((is.take k).map Instr.width).sum, ·) := by
  induction is generalizing base k with
  | nil => rfl
  | cons i is ih =>
    cases k with
    | zero => simp [positioned]
    | succ k => simp [positioned, ih, Nat.add_assoc]

namespace Code

/-- A stream is laid out from what is read of it, up to where no more can be read. -/
theorem decodeFrom_spec (pc : Nat) (stream : List Nat) :
    ∃ is rest, stream = is.flatMap Instr.encode ++ rest ∧
      (decodeFrom pc stream).1 = positioned pc is ∧
      match (decodeFrom pc stream).2 with
      | none => rest = []
      | some e => Instr.Unread (pc + codeWidth is) rest e := by
  fun_induction decodeFrom pc stream with
  | case1 pc => exact ⟨[], [], rfl, rfl, rfl⟩
  | case2 pc number rest e refused =>
    exact ⟨[], number :: rest, rfl, rfl, Instr.unread_of_decode refused⟩
  | case3 pc number rest i read instrs fault eq ih =>
    obtain ⟨is, rest', split, laid, ends⟩ := ih
    rw [eq] at laid ends
    refine ⟨i :: is, rest', ?_, by rw [positioned, ← laid], ?_⟩
    · rw [Instr.eq_encode_of_decode read, split, List.flatMap_cons, List.append_assoc]
    · rw [codeWidth_cons, ← Nat.add_assoc]
      exact ends

theorem stream_of_decodeAll {code : Code} {xs : List (Nat × Instr)}
    (h : code.decodeAll = .ok xs) : code.stream.toList = (xs.map (·.2)).flatMap Instr.encode := by
  obtain ⟨is, rest, split, laid, ends⟩ := decodeFrom_spec 0 code.stream.toList
  unfold decodeAll at h
  split at h
  · rename_i instrs whole
    rw [decoded] at whole
    rw [whole] at laid ends
    cases h
    obtain rfl : xs = positioned 0 is := laid
    obtain rfl : rest = [] := ends
    rw [split, map_snd_positioned, List.append_nil]
  · cases h

theorem unread_of_decodeAll {code : Code} {e : DecodeFault} (h : code.decodeAll = .error e) :
    ∃ is rest, code.stream.toList = is.flatMap Instr.encode ++ rest ∧
      Instr.Unread (codeWidth is) rest e := by
  obtain ⟨is, rest, split, -, ends⟩ := decodeFrom_spec 0 code.stream.toList
  unfold decodeAll at h
  split at h
  · cases h
  · rename_i instrs fault stuck
    rw [decoded] at stuck
    rw [stuck, Nat.zero_add] at ends
    cases h
    exact ⟨is, rest, split, ends⟩

/-- What was laid out decodes to its instructions, each at the sum of the widths before it; what
decodes was laid out from what it decodes to; and what does not decode was laid out from what can be
read of it up to the position that the fault names. The numbers have 64 bits if the operands
have. -/
theorem decodeAll_exact (code : Code) :
    (∀ is, code.stream.toList = is.flatMap Instr.encode →
      ∃ xs, code.decodeAll = .ok xs ∧ xs.map (·.2) = is ∧
        ∀ k x, xs[k]? = some x → x.1 = ((is.take k).map Instr.width).sum) ∧
    (∀ xs, code.decodeAll = .ok xs →
      code.stream.toList = (xs.map (·.2)).flatMap Instr.encode) ∧
    (∀ e, code.decodeAll = .error e →
      ∃ is rest, code.stream.toList = is.flatMap Instr.encode ++ rest ∧
        (is.flatMap Instr.encode).length = e.pc ∧ Instr.Unread e.pc rest e ∧
        { code with stream := code.stream.take e.pc }.decodeAll = .ok (positioned 0 is)) ∧
    ∀ is : List Instr, (∀ i ∈ is, i.Fits) ↔ ∀ n ∈ is.flatMap Instr.encode, n < 2 ^ 64 := by
  refine ⟨fun is laid => ⟨positioned 0 is, decodeAll_of_stream laid, map_snd_positioned 0 is, ?_⟩,
    fun xs => stream_of_decodeAll, fun e failed => ?_, fun is => ?_⟩
  · intro k x there
    rw [getElem?_positioned, Option.map_eq_some_iff] at there
    obtain ⟨i, -, rfl⟩ := there
    exact Nat.zero_add _
  · obtain ⟨is, rest, split, unread⟩ := unread_of_decodeAll failed
    have place : (is.flatMap Instr.encode).length = e.pc :=
      (length_encode_all is).trans unread.pc_eq.symm
    refine ⟨is, rest, split, place, unread.pc_eq.symm ▸ unread, decodeAll_of_stream ?_⟩
    rw [Array.take_eq_extract, Array.toList_extract, List.extract_eq_take_drop, split, ← place]
    simp
  · simp only [Instr.fits_iff, List.mem_flatMap, forall_exists_index, and_imp]
    exact ⟨fun h n i mem => h i mem n, fun h i mem n => h n i mem⟩

/-- A jump to an operand that looks like an opcode, and after it an instruction without its
operand. -/
theorem decodeAll_exact_truncated :
    let code := make 1 1 #[11, 4, 6, 4]
    code.decodeAll = .error (.missingOperand "LOAD" 3) ∧
    ∃ is rest, code.stream.toList = is.flatMap Instr.encode ++ rest ∧
      (is.flatMap Instr.encode).length = 3 ∧ Instr.Unread 3 rest (.missingOperand "LOAD" 3) ∧
      { code with stream := code.stream.take 3 }.decodeAll = .ok (positioned 0 is) := by
  intro code
  have failed : code.decodeAll = .error (.missingOperand "LOAD" 3) := by cbv
  exact ⟨failed, (decodeAll_exact code).2.2.1 _ failed⟩

end Code
end TaggedScript
