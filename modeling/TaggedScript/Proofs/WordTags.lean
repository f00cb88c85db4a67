import Mathlib.Logic.ExistsUnique
import Mathlib.Tactic.ByContra
import TaggedScript.Proofs.WordMeaning

/-!
The bits of tagged words. The low bits of a word name a class and the bits above them what the word
holds. A word means what it holds if that is in the range of its class, and nothing otherwise; so
every meaning has one word and every word at most one meaning.
-/
namespace TaggedScript

/-- What kind of thing a valid word means. -/
inductive WordClass where
  | int | bool | undefined | interned | heap
deriving DecidableEq

def Tagged.wordClass : Tagged → WordClass
  | .int _ => .int
  | .bool _ => .bool
  | .undefined => .undefined
  | .interned _ => .interned
  | .heap _ => .heap

namespace Word

/-- The words of the values of a class. -/
def Of (c : WordClass) (w : Word) : Prop := ∃ t : Tagged, t.wordClass = c ∧ ofTagged t = w

/-- The bits above the lowest one as a signed number. -/
def signed (w : Word) : Int := (w.raw.toInt64 >>> 1).toInt

/-- The bits of a word say that value. -/
def Spells (w : Word) : Tagged → Prop
  | .int n => w.raw &&& 1 = 0 ∧ w.signed = n.toInt
  | .interned index => w.raw &&& 3 = 1 ∧ (w.raw >>> 2).toNat = index.toNat
  | .heap offset => w.raw &&& 7 = 3 ∧ (w.raw >>> 3).toNat = offset.toNat
  | .undefined => w.raw &&& 7 = 7 ∧ w.raw >>> 3 = 0
  | .bool b => w.raw &&& 7 = 7 ∧ w.raw >>> 3 = if b then 2 else 1

/-- What a word holds is out of the range of its class. -/
inductive OutOfRange (w : Word) : Prop
  | int (low : w.raw &&& 1 = 0) (high : w.signed < -2 ^ 31 ∨ 2 ^ 31 ≤ w.signed)
  | interned (low : w.raw &&& 3 = 1) (high : 2 ^ 32 ≤ (w.raw >>> 2).toNat)
  | heap (low : w.raw &&& 7 = 3) (high : 2 ^ 32 ≤ (w.raw >>> 3).toNat)
  | immediate (low : w.raw &&& 7 = 7) (high : 3 ≤ (w.raw >>> 3).toNat)

/-! ## Masks and shifts as remainders and quotients -/

theorem low_one_iff (w : Word) : w.raw &&& 1 = 0 ↔ w.toNat % 2 = 0 := by
  rw [← UInt64.toNat_inj, UInt64.toNat_and]
  exact Eq.congr_left (Nat.and_two_pow_sub_one_eq_mod w.toNat 1)

theorem low_two_iff (w : Word) : w.raw &&& 3 = 1 ↔ w.toNat % 4 = 1 := by
  rw [← UInt64.toNat_inj, UInt64.toNat_and]
  exact Eq.congr_left (Nat.and_two_pow_sub_one_eq_mod w.toNat 2)

theorem low_three (w : Word) : (w.raw &&& 7).toNat = w.toNat % 8 := by
  rw [UInt64.toNat_and]
  exact Nat.and_two_pow_sub_one_eq_mod w.toNat 3

theorem low_heap_iff (w : Word) : w.raw &&& 7 = 3 ↔ w.toNat % 8 = 3 := by
  rw [← UInt64.toNat_inj, low_three]
  rfl

theorem low_immediate_iff (w : Word) : w.raw &&& 7 = 7 ↔ w.toNat % 8 = 7 := by
  rw [← UInt64.toNat_inj, low_three]
  rfl

theorem high_two (w : Word) : (w.raw >>> 2).toNat = w.toNat / 4 := by
  rw [UInt64.toNat_shiftRight]
  exact Nat.shiftRight_eq_div_pow w.toNat 2

theorem high_three (w : Word) : (w.raw >>> 3).toNat = w.toNat / 8 := by
  rw [UInt64.toNat_shiftRight]
  exact Nat.shiftRight_eq_div_pow w.toNat 3

theorem signed_eq (w : Word) :
    w.signed = (if w.toNat < 2 ^ 63 then (w.toNat : Int) else w.toNat - 2 ^ 64) / 2 := by
  have whole : w.raw.toBitVec.toInt =
      if w.toNat < 2 ^ 63 then (w.toNat : Int) else w.toNat - 2 ^ 64 := by
    have value : w.raw.toBitVec.toNat = w.toNat := rfl
    rw [BitVec.toInt_eq_toNat_cond, value]
    split <;> split <;> omega
  rw [signed, ← Int64.toInt_toBitVec, Int64.toBitVec_shiftRight, BitVec.toInt_sshiftRight',
    UInt64.toBitVec_toInt64, whole, Int.shiftRight_eq_div_pow]
  rfl

/-! ## The two ways between words and meanings -/

theorem tag_ofTagged (t : Tagged) : (ofTagged t).tag = some t := by
  cases t with
  | int n => exact tag_ofInt n
  | bool b => exact tag_ofBool b
  | undefined => exact tag_undefined
  | interned index => exact tag_interned index
  | heap offset => exact tag_heap offset

theorem tag_eq_some_iff {w : Word} {t : Tagged} : w.tag = some t ↔ ofTagged t = w := by
  constructor
  · intro means
    exact (eq_ofTagged_of_tag means).symm
  · rintro rfl
    exact tag_ofTagged t

theorem ofTagged_inj {t u : Tagged} : ofTagged t = ofTagged u ↔ t = u := by
  constructor
  · intro same
    have means := tag_ofTagged t
    rw [same, tag_ofTagged] at means
    exact (Option.some.inj means).symm
  · rintro rfl
    rfl

/-- The word of a value is the one whose bits say it. -/
theorem spells_iff {w : Word} {t : Tagged} : w.Spells t ↔ ofTagged t = w := by
  have bound := w.toNat_lt
  have equal (u : Word) : u = w ↔ u.toNat = w.toNat := ⟨congrArg toNat, eq_of_toNat⟩
  cases t with
  | int n =>
    have value := toNat_ofInt n
    have least := n.le_toInt
    have most := n.toInt_lt
    rw [Spells, low_one_iff, signed_eq, ofTagged, equal]
    split <;> omega
  | bool b =>
    have value : (ofBool b).toNat = if b then 23 else 15 := by cases b <;> decide
    have payload : (if b then 2 else 1 : UInt64).toNat = if b then 2 else 1 := by cases b <;> rfl
    rw [Spells, low_immediate_iff, ← UInt64.toNat_inj, high_three, payload, ofTagged, equal, value]
    split <;> omega
  | undefined =>
    have value : undefined.toNat = 7 := by decide
    rw [Spells, low_immediate_iff, ← UInt64.toNat_inj, high_three, ofTagged, equal, value,
      UInt64.toNat_zero]
    omega
  | interned index =>
    rw [Spells, low_two_iff, high_two, ofTagged, equal, toNat_interned]
    omega
  | heap offset =>
    rw [Spells, low_heap_iff, high_three, ofTagged, equal, toNat_heap]
    omega

/-- The bits of a word say something unless it is out of range. -/
theorem exists_spells {w : Word} (inside : ¬ w.OutOfRange) : ∃ t, w.Spells t := by
  by_cases int : w.raw &&& 1 = 0
  · have range : -2 ^ 31 ≤ w.signed ∧ w.signed < 2 ^ 31 := by
      by_contra beyond
      exact inside (.int int (by omega))
    exact ⟨.int (Int32.ofInt w.signed), int,
      (Int32.toInt_ofInt_of_le (by omega) (by omega)).symm⟩
  by_cases interned : w.raw &&& 3 = 1
  · have range : (w.raw >>> 2).toNat < 2 ^ 32 := by
      by_contra beyond
      exact inside (.interned interned (by omega))
    exact ⟨.interned (UInt32.ofNat (w.raw >>> 2).toNat), interned,
      (UInt32.toNat_ofNat_of_lt' range).symm⟩
  by_cases heap : w.raw &&& 7 = 3
  · have range : (w.raw >>> 3).toNat < 2 ^ 32 := by
      by_contra beyond
      exact inside (.heap heap (by omega))
    exact ⟨.heap (UInt32.ofNat (w.raw >>> 3).toNat), heap,
      (UInt32.toNat_ofNat_of_lt' range).symm⟩
  have immediate : w.raw &&& 7 = 7 := by
    rw [low_immediate_iff]
    rw [low_one_iff] at int
    rw [low_two_iff] at interned
    rw [low_heap_iff] at heap
    omega
  have range : (w.raw >>> 3).toNat < 3 := by
    by_contra beyond
    exact inside (.immediate immediate (by omega))
  obtain zero | one | two :
      (w.raw >>> 3).toNat = 0 ∨ (w.raw >>> 3).toNat = 1 ∨ (w.raw >>> 3).toNat = 2 := by omega
  · exact ⟨.undefined, immediate, UInt64.toNat_inj.mp zero⟩
  · exact ⟨.bool false, immediate, UInt64.toNat_inj.mp one⟩
  · exact ⟨.bool true, immediate, UInt64.toNat_inj.mp two⟩

theorem tag_of_outOfRange {w : Word} (out : w.OutOfRange) : w.tag = none := by
  have bound := w.toNat_lt
  cases out with
  | int low high =>
    rw [low_one_iff] at low
    have wide : 2 ^ 32 ≤ w.toNat ∧ w.toNat < 2 ^ 64 - 2 ^ 32 := by
      rw [signed_eq] at high
      split at high <;> omega
    rw [tag, if_pos low, asInt, if_neg (by simp [isInt, low]), if_neg (by omega),
      if_neg (by omega)]
    rfl
  | interned low high =>
    rw [low_two_iff] at low
    rw [high_two] at high
    rw [tag, if_neg (by omega), if_pos low, if_neg (by omega)]
  | heap low high =>
    rw [low_heap_iff] at low
    rw [high_three] at high
    rw [tag, if_neg (by omega), if_neg (by omega), if_pos low, if_neg (by omega)]
  | immediate low high =>
    rw [low_immediate_iff] at low
    rw [high_three] at high
    have other {u : Word} (small : u.toNat < 24) : w ≠ u := by
      rintro rfl
      omega
    rw [tag, if_neg (by omega), if_neg (by omega), if_neg (by omega), if_neg (other (by decide)),
      if_neg (other (by decide)), if_neg (other (by decide))]

/-- The words without a meaning are those that hold something out of range. -/
theorem tag_eq_none_iff {w : Word} : w.tag = none ↔ w.OutOfRange := by
  constructor
  · intro meaningless
    by_contra inside
    obtain ⟨t, spelt⟩ := exists_spells inside
    rw [tag_eq_some_iff.mpr (spells_iff.mp spelt)] at meaningless
    cases meaningless
  · exact tag_of_outOfRange

/-! ## Classes -/

/-- A valid word is of the class of its meaning, and of no other. -/
theorem of_iff {c : WordClass} {w : Word} : w.Of c ↔ ∃ t, w.tag = some t ∧ t.wordClass = c := by
  constructor
  · rintro ⟨t, kind, rfl⟩
    exact ⟨t, tag_ofTagged t, kind⟩
  · rintro ⟨t, means, kind⟩
    exact ⟨t, kind, tag_eq_some_iff.mp means⟩

theorem existsUnique_of_iff {w : Word} : (∃! c, w.Of c) ↔ ∃ t, w.tag = some t := by
  constructor
  · rintro ⟨c, member, -⟩
    obtain ⟨t, means, -⟩ := of_iff.mp member
    exact ⟨t, means⟩
  · rintro ⟨t, means⟩
    refine ⟨t.wordClass, of_iff.mpr ⟨t, means, rfl⟩, fun c member => ?_⟩
    obtain ⟨u, same, rfl⟩ := of_iff.mp member
    rw [means] at same
    rw [Option.some.inj same]

/-- Words and their meanings are one to one, the classes divide the valid words among them, and a
word is invalid exactly if no value has it, which is when it holds something out of the range of
its class. -/
theorem tags_canonical :
    (∀ t : Tagged, (ofTagged t).tag = some t) ∧
    (∀ (w : Word) (t : Tagged), w.tag = some t ↔ ofTagged t = w) ∧
    (∀ t u : Tagged, ofTagged t = ofTagged u ↔ t = u) ∧
    (∀ w : Word, (∃ t, w.tag = some t) ↔ ∃! c, w.Of c) ∧
    (∀ w : Word, w.tag = none ↔ ¬ ∃ t, ofTagged t = w) ∧
    (∀ (w : Word) (t : Tagged), w.tag = some t ↔ w.Spells t) ∧
    (∀ w : Word, w.tag = none ↔ w.OutOfRange) := by
  refine ⟨tag_ofTagged, fun w t => tag_eq_some_iff, fun t u => ofTagged_inj,
    fun w => existsUnique_of_iff.symm, fun w => ?_, fun w t => ?_, fun w => tag_eq_none_iff⟩
  · simp only [← tag_eq_some_iff, Option.eq_none_iff_forall_ne_some, not_exists, ne_eq]
  · rw [tag_eq_some_iff, spells_iff]

end Word
end TaggedScript
