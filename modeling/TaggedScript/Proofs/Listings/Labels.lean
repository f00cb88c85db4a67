import Mathlib.Data.Finset.Card
import TaggedScript.Proofs.Listings.Words
import TaggedScript.Proofs.Streams.Decoding
import TaggedScript.Proofs.Streams.Patching

/-!
The labels of a listing. Every jump shows the label of its target, and the labels are numbered by
address. A label is defined on the line of the instruction at its address, so that of a target where
no instruction stands is defined nowhere.
-/
namespace TaggedScript

/-- Instructions stand one after the other. -/
theorem increasing_positioned (base : Nat) (is : List Instr) :
    (positioned base is).Pairwise (·.1 < ·.1) := by
  induction is generalizing base with
  | nil => exact .nil
  | cons i is ih =>
    refine .cons (fun x mem => ?_) (ih _)
    have wide := i.width_pos
    have bounds := bounds_of_mem_positioned mem
    omega

/-- An address tells which instruction of the code it is. -/
theorem Code.index_unique {code : Code} {xs : List (Nat × Instr)}
    (decoded : code.decodeAll = .ok xs) {k j : Nat} {x y : Nat × Instr} (first : xs[k]? = some x)
    (second : xs[j]? = some y) (same : x.1 = y.1) : k = j := by
  have laid : xs = positioned 0 (xs.map (·.2)) := by
    have again := decodeAll_of_stream (Code.stream_of_decodeAll decoded)
    rw [decoded] at again
    exact Except.ok.inj again
  have once : (xs.map (·.1)).Nodup := by
    rw [laid]
    exact (increasing_positioned 0 _).map _ fun _ _ => Nat.ne_of_lt
  have inside : k < (xs.map (·.1)).length := by
    rw [List.length_map]
    exact (List.getElem?_eq_some_iff.mp first).1
  refine (List.getElem?_inj inside once).mp ?_
  rw [List.getElem?_map, List.getElem?_map, first, second, Option.map_some, Option.map_some, same]

namespace Listing
open Text

/-- There is a jump to that address. -/
def JumpsTo (xs : List (Nat × Instr)) (t : Nat) : Prop := ∃ x ∈ xs, x.2.jumpTarget? = some t

/-- The number of an address: how many addresses below it are jumped to. -/
def rank (xs : List (Nat × Instr)) (t : Nat) : Nat := (targets xs).countP (· < t)

/-- A line shows that label behind its own address. -/
def Defines (line label : String) : Prop := (words line)[1]? = some (label ++ ":")

variable {xs : List (Nat × Instr)} {t u : Nat}

theorem mem_targets : t ∈ targets xs ↔ JumpsTo xs t := by
  simp [targets, JumpsTo]

/-! ## Numbers -/

theorem rank_lt_rank (jump : JumpsTo xs t) (less : t < u) : rank xs t < rank xs u := by
  obtain ⟨before, after, split⟩ := List.append_of_mem (mem_targets.mpr jump)
  have mono (ts : List Nat) : ts.countP (· < t) ≤ ts.countP (· < u) :=
    List.countP_mono_left fun x _ low => by
      have : x < t := of_decide_eq_true low
      exact decide_eq_true (by omega)
  have first := mono before
  have last := mono after
  simp only [rank, split, List.countP_append, List.countP_cons, less, decide_true, ↓reduceIte,
    Nat.lt_irrefl, decide_false, Bool.false_eq_true]
  omega

theorem rank_lt_rank_iff (ht : JumpsTo xs t) (hu : JumpsTo xs u) :
    rank xs t < rank xs u ↔ t < u := by
  refine ⟨fun less => ?_, rank_lt_rank ht⟩
  obtain less' | rfl | more := Nat.lt_trichotomy t u
  · exact less'
  · exact absurd less (Nat.lt_irrefl _)
  · exact absurd (rank_lt_rank hu more) (Nat.lt_asymm less)

theorem rank_injective (ht : JumpsTo xs t) (hu : JumpsTo xs u) (same : rank xs t = rank xs u) :
    t = u := by
  obtain less | eq | more := Nat.lt_trichotomy t u
  · exact absurd same (rank_lt_rank ht less).ne
  · exact eq
  · exact absurd same (rank_lt_rank hu more).ne'

/-- No number is left out. -/
theorem exists_rank_iff {n : Nat} :
    (∃ t, JumpsTo xs t ∧ rank xs t = n) ↔ n < (targets xs).length := by
  have below {t : Nat} (jump : JumpsTo xs t) : rank xs t < (targets xs).length :=
    (rank_lt_rank jump (Nat.lt_succ_self t)).trans_le List.countP_le_length
  constructor
  · rintro ⟨t, jump, rfl⟩
    exact below jump
  · intro less
    -- As many numbers are given as there are, so each of them is.
    have jumps {t : Nat} (mem : t ∈ (targets xs).toFinset) : JumpsTo xs t :=
      mem_targets.mp (List.mem_toFinset.mp mem)
    have all : (targets xs).toFinset.image (rank xs) = .range (targets xs).length := by
      apply Finset.eq_of_subset_of_card_le
      · intro m mem
        obtain ⟨t, target, rfl⟩ := Finset.mem_image.mp mem
        exact Finset.mem_range.mpr (below (jumps target))
      · rw [Finset.card_range, Finset.card_image_of_injOn, List.toFinset_card_of_nodup]
        · exact nodup_eraseDups _
        · exact fun t ht u hu => rank_injective (jumps ht) (jumps hu)
    have given := all ▸ Finset.mem_range.mpr less
    obtain ⟨t, target, rfl⟩ := Finset.mem_image.mp given
    exact ⟨t, jumps target, rfl⟩

/-! ## Lines -/

variable {w : World} {d : Dictionary} {code : Code} {k : Nat} {line : String}

theorem getElem?_linesOf :
    (linesOf w d xs)[k]? = xs[k]?.map fun x => Listing.line w d (targets xs) x.1 x.2 := by
  simp [linesOf]

/-- The line of a jump ends in the label of its target. -/
theorem getLast?_words_jump {pc : Nat} {i : Instr} (goes : i.jumpTarget? = some t)
    (jump : JumpsTo xs t) :
    (words (Listing.line w d (targets xs) pc i)).getLast? = some (label (rank xs t)) := by
  have shown : operand w d (targets xs) i = label (rank xs t) := by
    cases i with
    | goto | jumpIfFalse =>
      cases goes
      simp only [operand, label?_eq, if_pos (mem_targets.mpr jump)]
      rfl
    | _ => cases goes
  have word := words_solid (solid_label (rank xs t)) (by simp [label_eq])
  rw [words_line, shown, word]
  exact List.getLast?_eq_some_iff.mpr
    ⟨toString pc :: (((label? (targets xs) pc).map (· ++ ":")).toList ++ [i.mnemonic]), by simp⟩

theorem label_injective {n m : Nat} (same : label n = label m) : n = m := by
  rw [label_eq, label_eq, String.append_right_inj, Nat.toString_eq_ofList_toDigits,
    Nat.toString_eq_ofList_toDigits, String.ofList_inj] at same
  calc
    n = Nat.ofDigitChars 10 (Nat.toDigits 10 n) 0 := Nat.ofDigitChars_ten_toDigits.symm
    _ = m := by rw [same, Nat.ofDigitChars_ten_toDigits]

/-- A line defines a label if a jump goes to its address, and then the label of its address. -/
theorem defines_line_iff {pc : Nat} {i : Instr} {l : String} :
    Defines (Listing.line w d (targets xs) pc i) l ↔ JumpsTo xs pc ∧ l = label (rank xs pc) := by
  rw [Defines, words_line, label?_eq]
  by_cases jump : JumpsTo xs pc
  · rw [if_pos (mem_targets.mpr jump)]
    simp only [Option.map_some, Option.toList_some, List.singleton_append,
      List.getElem?_cons_succ, List.getElem?_cons_zero, Option.some.injEq, jump, true_and]
    exact (String.append_left_inj ":").trans eq_comm
  · rw [if_neg (mt mem_targets.mp jump)]
    simp only [Option.map_none, Option.toList_none, List.nil_append, List.getElem?_cons_succ,
      List.getElem?_cons_zero, Option.some.injEq, jump, false_and, iff_false]
    intro same
    have colon := i.solid_mnemonic.2.2.2
    rw [same] at colon
    simp at colon

/-- A label that a jump shows is defined on the line of the instruction at the target and on no other
line, if there is such an instruction, and on no line at all if there is none. -/
theorem defines_iff (jump : JumpsTo xs t) (there : (linesOf w d xs)[k]? = some line) :
    Defines line (label (rank xs t)) ↔ ∃ i, xs[k]? = some (t, i) := by
  rw [getElem?_linesOf, Option.map_eq_some_iff] at there
  obtain ⟨⟨pc, i⟩, here, rfl⟩ := there
  rw [defines_line_iff, here]
  constructor
  · rintro ⟨other, same⟩
    obtain rfl := rank_injective jump other (label_injective same)
    exact ⟨i, rfl⟩
  · rintro ⟨_, same⟩
    cases same
    exact ⟨jump, rfl⟩

/-- In the listing of code that decodes there is one line for each instruction. The labels are
numbered by address without a gap, and each jump shows the label of its target, never the bare
address. If an instruction stands at the target, its line defines the label and no other line does;
if none stands there, the label is defined nowhere. -/
theorem labels_resolve (w : World) (d : Dictionary) (name : String) {code : Code}
    {xs : List (Nat × Instr)} (decoded : code.decodeAll = .ok xs) :
    functionText w d name code = header name code ++ String.join (linesOf w d xs) ∧
    (linesOf w d xs).length = xs.length ∧
    (∀ t u, JumpsTo xs t → JumpsTo xs u → (rank xs t < rank xs u ↔ t < u)) ∧
    (∀ n, (∃ t, JumpsTo xs t ∧ rank xs t = n) ↔ n < (targets xs).length) ∧
    (∀ (k : Nat) x line, xs[k]? = some x → (linesOf w d xs)[k]? = some line →
      ∀ t ∈ x.2.jumpTarget?, (words line).getLast? = some (label (rank xs t))) ∧
    ∀ t, JumpsTo xs t →
      (∀ (k : Nat) i, xs[k]? = some (t, i) → ∀ (j : Nat) line, (linesOf w d xs)[j]? = some line →
        (Defines line (label (rank xs t)) ↔ j = k)) ∧
      ((∀ i, (t, i) ∉ xs) → ∀ line ∈ linesOf w d xs, ¬ Defines line (label (rank xs t))) := by
  refine ⟨?_, by simp [linesOf], fun _ _ => rank_lt_rank_iff, fun _ => exists_rank_iff, ?_, ?_⟩
  · rw [functionText_eq, rows_ok w d decoded]
  · rintro k ⟨pc, i⟩ line here there t goes
    rw [getElem?_linesOf, here, Option.map_some, Option.some.injEq] at there
    rw [← there]
    exact getLast?_words_jump goes ⟨_, List.mem_of_getElem? here, goes⟩
  · refine fun t jump => ⟨fun k i here j line there => ?_, fun absent line mem => ?_⟩
    · rw [defines_iff jump there]
      constructor
      · rintro ⟨other, same⟩
        exact Code.index_unique decoded same here rfl
      · rintro rfl
        exact ⟨i, here⟩
    · obtain ⟨k, there⟩ := List.mem_iff_getElem?.mp mem
      rw [defines_iff jump there]
      rintro ⟨i, here⟩
      exact absent i (List.mem_of_getElem? here)

/-- One jump goes forward, one back, and one into the middle of an instruction. -/
theorem labels_resolve_loop :
    let xs : List (Nat × Instr) := [(0, .jumpIfFalse 4), (2, .goto 0), (4, .goto 3)]
    let code := Code.ofInstrs 1 1 [.jumpIfFalse 4, .goto 0, .goto 3]
    code.decodeAll = .ok xs ∧ rank xs 4 = 2 ∧
    ∀ w d, (∀ line, (linesOf w d xs)[2]? = some line → Defines line "L2") ∧
      ∀ line ∈ linesOf w d xs, ¬ Defines line "L1" := by
  intro xs code
  have decoded : code.decodeAll = .ok xs := by cbv
  have four : rank xs 4 = 2 := by cbv
  have three : rank xs 3 = 1 := by cbv
  refine ⟨decoded, four, fun w d => ?_⟩
  obtain ⟨-, -, -, -, -, defined⟩ := labels_resolve w d "main" decoded
  have last := (defined 4 ⟨(0, .jumpIfFalse 4), by simp [xs], rfl⟩).1 2 _ rfl 2
  have middle := (defined 3 ⟨(4, .goto 3), by simp [xs], rfl⟩).2 (by simp [xs])
  rw [four] at last
  rw [three] at middle
  exact ⟨fun line there => (last line there).mpr rfl, middle⟩

/-- This jump goes past the end, where no instruction stands. It shows a label all the same. -/
theorem exists_unresolved :
    let code := Code.ofInstrs 1 1 [.goto 5]
    code.decodeAll = .ok [(0, .goto 5)] ∧
    functionText default .empty "main" code =
      "main (params: 1, slots: 1)\n     0       GOTO          L0\n" ∧
    ∀ line ∈ linesOf default .empty [(0, .goto 5)], ¬ Defines line "L0" := by
  intro code
  have decoded : code.decodeAll = .ok [(0, .goto 5)] := by cbv
  refine ⟨decoded, by decide +kernel, fun line mem => ?_⟩
  simp only [linesOf, List.map_cons, List.map_nil, List.mem_singleton] at mem
  rw [mem, defines_line_iff]
  rintro ⟨⟨x, here, goes⟩, -⟩
  simp only [List.mem_singleton] at here
  rw [here] at goes
  cases goes

end Listing
end TaggedScript
