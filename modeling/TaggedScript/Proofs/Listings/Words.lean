import Mathlib.Data.List.TakeWhile
import TaggedScript.Proofs.Listings.Blocks

/-!
What a reader makes of a line in columns: its words, however many blanks are between them. The line
of an instruction reads as its address, the label of the address, the mnemonic and the operand.
-/
namespace TaggedScript
namespace Text

/-- The longest stretches without blanks. -/
def solidParts (cs : List Char) : List (List Char) := (cs.splitOnP isBlank).filter (!·.isEmpty)

/-- The words of a text. -/
def words (text : String) : List String := (solidParts text.toList).map String.ofList

/-- There is nothing to be seen. -/
def AllBlank (text : String) : Prop := ∀ c ∈ text.toList, isBlank c = true

/-- There is no blank. -/
def Solid (text : String) : Prop := ∀ c ∈ text.toList, isBlank c = false

instance (text : String) : Decidable (AllBlank text) := List.decidableBAll _ _

instance (text : String) : Decidable (Solid text) := List.decidableBAll _ _

theorem allBlank_blanks (n : Nat) : AllBlank (blanks n) := by
  simp only [AllBlank, blanks, String.toList_ofList, List.mem_replicate]
  rintro c ⟨-, rfl⟩
  rfl

theorem isBlank_of_digit {c : Char} (digit : c.isDigit = true) : isBlank c = false := by
  have low : 48 ≤ c.toNat := by
    have := (Bool.and_eq_true_iff.mp digit).1
    exact of_decide_eq_true this
  have high : c.toNat ≤ 57 := by
    have := (Bool.and_eq_true_iff.mp digit).2
    exact of_decide_eq_true this
  simp only [isBlank, Bool.or_eq_false_iff, Bool.and_eq_false_iff, decide_eq_false_iff_not,
    beq_eq_false_iff_ne]
  omega

theorem solid_toString (n : Nat) : Solid (toString n) := by
  rw [Solid, Nat.toString_eq_ofList_toDigits, String.toList_ofList]
  exact fun c mem => isBlank_of_digit (Nat.isDigit_of_mem_toDigits (by decide) (by decide) mem)

theorem Solid.append {s t : String} (hs : Solid s) (ht : Solid t) : Solid (s ++ t) := by
  intro c mem
  rw [String.toList_append, List.mem_append] at mem
  exact mem.elim (hs c) (ht c)

theorem solidParts_append {c : Char} (cs ds : List Char) (blank : isBlank c = true) :
    solidParts (cs ++ c :: ds) = solidParts cs ++ solidParts ds := by
  rw [solidParts, List.splitOnP_append_cons cs ds blank, List.filter_append]
  rfl

theorem solidParts_blanks_append {cs : List Char} (ds : List Char)
    (blank : ∀ c ∈ cs, isBlank c = true) : solidParts (cs ++ ds) = solidParts ds := by
  induction cs with
  | nil => rfl
  | cons c cs ih =>
    have first := solidParts_append [] (cs ++ ds) (blank c (by simp))
    have rest := ih fun c mem => blank c (List.mem_cons_of_mem _ mem)
    simpa [solidParts] using first.trans rest

theorem words_empty : words "" = [] := by
  simp [words, solidParts]

variable {s t b : String}

theorem words_blanks_append (blank : AllBlank b) : words (b ++ t) = words t := by
  rw [words, String.toList_append, solidParts_blanks_append _ blank, words]

/-- Blanks keep the words on their sides apart. -/
theorem words_apart (blank : AllBlank b) (some : b ≠ "") :
    words (s ++ (b ++ t)) = words s ++ words t := by
  obtain ⟨c, cs, text⟩ := List.exists_cons_of_ne_nil fun none =>
    some (String.toList_eq_nil_iff.mp none)
  rw [AllBlank, text] at blank
  rw [words, String.toList_append, String.toList_append, text, List.cons_append,
    solidParts_append _ _ (blank c (by simp)),
    solidParts_blanks_append _ fun c mem => blank c (List.mem_cons_of_mem _ mem), List.map_append]
  rfl

theorem words_append_blanks (blank : AllBlank b) : words (s ++ b) = words s := by
  by_cases some : b = ""
  · rw [some, String.append_empty]
  · have apart := words_apart (s := s) (t := "") blank some
    rwa [String.append_empty, words_empty, List.append_nil] at apart

theorem words_solid (solid : Solid s) (some : s ≠ "") : words s = [s] := by
  rw [words, solidParts, List.splitOnP_eq_singleton solid]
  simp [some]

theorem words_padLeft (width : Nat) : words (padLeft width s) = words s :=
  words_blanks_append (allBlank_blanks _)

/-- A column that is wider than its text ends in a blank. -/
theorem words_padRight {width : Nat} (narrow : s.length < width) :
    words (padRight width s ++ t) = words s ++ words t := by
  rw [padRight, String.append_assoc]
  refine words_apart (allBlank_blanks _) fun none => ?_
  have := congrArg String.length none
  simp only [blanks, String.length_ofList, List.length_replicate, String.length_empty] at this
  omega

theorem words_trimRight : words (trimRight s) = words s := by
  let trimmed := String.ofList (s.toList.reverse.takeWhile isBlank).reverse
  have split : trimRight s ++ trimmed = s := by
    rw [trimRight, dropRight, ← String.ofList_append, ← List.reverse_append,
      List.takeWhile_append_dropWhile, List.reverse_reverse, String.ofList_toList]
  have blank : AllBlank trimmed := by
    intro c mem
    rw [String.toList_ofList, List.mem_reverse] at mem
    exact List.mem_takeWhile_imp mem
  rw [← words_append_blanks blank, split]

end Text

theorem Instr.solid_mnemonic (i : Instr) :
    Text.Solid i.mnemonic ∧ i.mnemonic ≠ "" ∧ i.mnemonic.length < 14 ∧ ':' ∉ i.mnemonic.toList := by
  cases i <;> simp only [mnemonic] <;> decide

namespace Listing
open Text

/-- The label with that number. -/
def label (n : Nat) : String := s!"L{n}"

theorem label_eq (n : Nat) : label n = "L" ++ toString n := rfl

theorem label?_eq (targets : List Nat) (pc : Nat) :
    label? targets pc = if pc ∈ targets then some (label (targets.countP (· < pc))) else none := rfl

theorem solid_label (n : Nat) : Solid (label n) := by
  rw [label_eq]
  exact .append (by decide) (solid_toString n)

/-- The words of the line of an instruction. -/
theorem words_line (w : World) (d : Dictionary) (targets : List Nat) (pc : Nat) (i : Instr) :
    words (line w d targets pc i) = toString pc ::
      (((label? targets pc).map (· ++ ":")).toList ++
      i.mnemonic :: words (operand w d targets i)) := by
  obtain ⟨solid, nonempty, narrow, -⟩ := i.solid_mnemonic
  have one : AllBlank " " := allBlank_blanks 1
  have two : AllBlank "  " := allBlank_blanks 2
  have newline : AllBlank "\n" := by decide
  have address : words (toString pc) = [toString pc] :=
    words_solid (solid_toString pc) (Nat.repr_ne_empty)
  unfold line
  simp only [words_append_blanks newline, words_trimRight, String.append_assoc,
    words_blanks_append two, words_apart one (by decide), words_apart two (by decide),
    words_padLeft, words_padRight narrow, words_solid solid nonempty, address]
  refine congrArg (toString pc :: ·) (congrArg (· ++ _) ?_)
  rw [label?_eq]
  by_cases target : pc ∈ targets
  · simp only [if_pos target]
    have colon : Solid ":" := by decide
    exact words_solid ((solid_label _).append colon) (by simp [label_eq])
  · simp only [if_neg target]
    exact words_empty

end Listing
end TaggedScript
