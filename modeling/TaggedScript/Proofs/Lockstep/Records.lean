import Mathlib.Algebra.GroupWithZero.Nat
import TaggedScript.Machine.Heap

/-!
How the words of a heap are laid out: one record after the other, each with the word of its class,
the mark and its fields. What is known of a record without its fields never changes.
-/
namespace TaggedScript

/-- What a record is, whatever its fields hold: the word of its class and how many fields it has. -/
structure Header where
  shape : Word
  width : Nat
deriving DecidableEq

namespace Header

/-- The words that the record takes. -/
def size (r : Header) : Nat := Heap.headerSize + r.width

theorem size_pos (r : Header) : 0 < r.size := Nat.lt_of_lt_of_le (by decide) (Nat.le_add_right _ _)

end Header

/-- The record that begins at an offset. -/
def headerAt? : List Header → Nat → Option Header
  | [], _ => none
  | r :: rs, offset =>
    if offset = 0 then some r
    else if r.size ≤ offset then headerAt? rs (offset - r.size)
    else none

/-- The words that all records take, which is where the next one begins. -/
def headerRoom (rs : List Header) : Nat := (rs.map Header.size).sum

theorem headerRoom_append (rs ss : List Header) :
    headerRoom (rs ++ ss) = headerRoom rs + headerRoom ss := by simp [headerRoom]

/-- The words are those of the records, one after the other, and no others. -/
def Tiles : List Header → List Word → Prop
  | [], words => words = []
  | r :: rs, words => ∃ fields rest, words = r.shape :: Heap.mark :: (fields ++ rest) ∧
      fields.length = r.width ∧ Tiles rs rest

/-- A record stays where it is when others are made. -/
theorem headerAt?_append {rs : List Header} (more : List Header) {offset : Nat} {r : Header}
    (h : headerAt? rs offset = some r) : headerAt? (rs ++ more) offset = some r := by
  induction rs generalizing offset with
  | nil => cases h
  | cons s rs ih =>
    simp only [List.cons_append, headerAt?] at h ⊢
    split at h
    · rename_i first
      rwa [if_pos first]
    · rename_i later
      rw [if_neg later]
      split at h
      · rename_i beyond
        rw [if_pos beyond]
        exact ih h
      · cases h

theorem headerAt?_prefix {rs ss : List Header} (h : rs <+: ss) {offset : Nat} {r : Header}
    (found : headerAt? rs offset = some r) : headerAt? ss offset = some r := by
  obtain ⟨more, rfl⟩ := h
  exact headerAt?_append more found

/-- A new record begins where the others end. -/
theorem headerAt?_new (rs : List Header) (r : Header) :
    headerAt? (rs ++ [r]) (headerRoom rs) = some r := by
  induction rs with
  | nil => rfl
  | cons s rs ih =>
    have size := s.size_pos
    have room : headerRoom (s :: rs) = s.size + headerRoom rs := by simp [headerRoom]
    simp only [List.cons_append, headerAt?, room]
    rw [if_neg (by omega), if_pos (by omega), Nat.add_sub_cancel_left]
    exact ih

theorem mem_of_headerAt? {rs : List Header} {offset : Nat} {r : Header}
    (h : headerAt? rs offset = some r) : r ∈ rs := by
  induction rs generalizing offset with
  | nil => cases h
  | cons s rs ih =>
    simp only [headerAt?] at h
    split at h
    · cases h
      exact List.mem_cons_self
    · split at h
      · exact List.mem_cons_of_mem _ (ih h)
      · cases h

namespace Tiles
variable {rs : List Header} {words : List Word}

theorem length_eq (h : Tiles rs words) : words.length = headerRoom rs := by
  induction rs generalizing words with
  | nil =>
    obtain rfl : words = [] := h
    rfl
  | cons r rs ih =>
    obtain ⟨fields, rest, rfl, width, tiles⟩ := h
    simp only [headerRoom, List.map_cons, List.sum_cons, Header.size, Heap.headerSize,
      List.length_cons, List.length_append, width, ih tiles]
    omega

/-- Words are laid out in one way, if their classes say how many fields there are. -/
theorem unique {ss : List Header} (h : Tiles rs words) (g : Tiles ss words)
    (width : ∀ r ∈ rs, ∀ s ∈ ss, r.shape = s.shape → r.width = s.width) : rs = ss := by
  induction rs generalizing ss words with
  | nil =>
    obtain rfl : words = [] := h
    cases ss with
    | nil => rfl
    | cons s ss =>
      obtain ⟨fields, rest, none, -⟩ := g
      cases none
  | cons r rs ih =>
    obtain ⟨fields, rest, rfl, count, tiles⟩ := h
    cases ss with
    | nil => cases g
    | cons s ss =>
      obtain ⟨others, rest', same, count', tiles'⟩ := g
      obtain ⟨shape, same⟩ : r.shape = s.shape ∧ fields ++ rest = others ++ rest' := by
        simpa using same
      have equal := width r List.mem_cons_self s List.mem_cons_self shape
      obtain ⟨-, rfl⟩ := List.append_inj same (by rw [count, count', equal])
      have first : r = s := by
        cases r
        cases s
        simp_all
      rw [first, ih tiles tiles' fun a mem b mem' =>
        width a (List.mem_cons_of_mem _ mem) b (List.mem_cons_of_mem _ mem')]

/-- A new record is laid out after the others. -/
theorem append (h : Tiles rs words) {r : Header} {fields : List Word}
    (width : fields.length = r.width) :
    Tiles (rs ++ [r]) (words ++ r.shape :: Heap.mark :: fields) := by
  induction rs generalizing words with
  | nil =>
    obtain rfl : words = [] := h
    exact ⟨fields, [], by simp, width, rfl⟩
  | cons s rs ih =>
    obtain ⟨others, rest, rfl, count, tiles⟩ := h
    exact ⟨others, _, by simp, count, ih tiles⟩

/-- A record among the words; its fields may be replaced. -/
theorem split (h : Tiles rs words) {offset : Nat} {r : Header}
    (found : headerAt? rs offset = some r) :
    ∃ before fields after, words = before ++ r.shape :: Heap.mark :: (fields ++ after) ∧
      before.length = offset ∧ fields.length = r.width ∧
      ∀ others, others.length = r.width →
        Tiles rs (before ++ r.shape :: Heap.mark :: (others ++ after)) := by
  induction rs generalizing offset words with
  | nil => cases found
  | cons s rs ih =>
    obtain ⟨own, rest, rfl, width, tiles⟩ := h
    simp only [headerAt?] at found
    split at found
    · rename_i first
      cases found
      exact ⟨[], own, rest, rfl, first.symm, width, fun others count =>
        ⟨others, rest, rfl, count, tiles⟩⟩
    · split at found
      · rename_i beyond
        obtain ⟨before, fields, after, rfl, place, count, replace⟩ := ih tiles found
        refine ⟨s.shape :: Heap.mark :: (own ++ before), fields, after, by simp, ?_, count,
          fun others same => ⟨own, _, by simp, width, replace others same⟩⟩
        simp only [Header.size, Heap.headerSize] at beyond place
        simp only [List.length_cons, List.length_append, width]
        omega
      · cases found

/-- The class of a record is the word that it begins with, and all of the record is there. -/
theorem header (h : Tiles rs words) {offset : Nat} {r : Header}
    (found : headerAt? rs offset = some r) :
    words[offset]? = some r.shape ∧ offset + r.size ≤ words.length := by
  obtain ⟨before, fields, after, rfl, rfl, count, -⟩ := h.split found
  refine ⟨by simp, ?_⟩
  simp only [List.length_append, List.length_cons, Header.size, Heap.headerSize]
  omega

/-- A field may be written. -/
theorem set (h : Tiles rs words) {offset slot : Nat} {r : Header}
    (found : headerAt? rs offset = some r) (inside : slot < r.width) (w : Word) :
    Tiles rs (words.set (offset + Heap.headerSize + slot) w) := by
  obtain ⟨before, fields, after, rfl, rfl, count, replace⟩ := h.split found
  have replaced := replace (fields.set slot w) (by simpa using count)
  have place : before.length + Heap.headerSize + slot - before.length = slot + 1 + 1 := by
    simp only [Heap.headerSize]
    omega
  rw [List.set_append_right _ _ (by omega), place, List.set_cons_succ, List.set_cons_succ,
    List.set_append_left _ _ (by omega)]
  exact replaced

end Tiles
end TaggedScript
