import Mathlib.Data.List.Forall2
import Mathlib.Logic.Function.Basic
import TaggedScript.Proofs.Codec
import TaggedScript.Proofs.Lockstep.Records

/-!
Two machines that run the same program with other dictionaries and in worlds that number their
objects and classes in other ways. Words correspond if they stand for the same value, whatever index
or number it has on either side.
-/
namespace TaggedScript

/-- The numbers that the objects and the classes of one world have in another. -/
structure Renumbering where
  object : ObjectId → ObjectId
  shape : ShapeId → ShapeId
  object_injective : Function.Injective object
  shape_injective : Function.Injective shape

namespace Renumbering
variable (R : Renumbering)

/-- The same value in the other world. -/
def value : Value → Value
  | .object id => .object (R.object id)
  | .shape id => .shape (R.shape id)
  | v => v

@[simp] theorem value_undefined : R.value .undefined = .undefined := rfl

@[simp] theorem value_bool (b : Bool) : R.value (.bool b) = .bool b := rfl

@[simp] theorem value_int (n : Int32) : R.value (.int n) = .int n := rfl

@[simp] theorem value_str (s : String) : R.value (.str s) = .str s := rfl

@[simp] theorem value_object (id : ObjectId) : R.value (.object id) = .object (R.object id) := rfl

@[simp] theorem value_shape (id : ShapeId) : R.value (.shape id) = .shape (R.shape id) := rfl

@[simp] theorem value_ref (offset : UInt32) : R.value (.ref offset) = .ref offset := rfl

theorem value_injective : Function.Injective R.value := by
  intro u v same
  cases u <;> cases v <;> simp_all [R.object_injective.eq_iff, R.shape_injective.eq_iff]

/-- All objects and classes have the same numbers. -/
def same : Renumbering := ⟨id, id, Function.injective_id, Function.injective_id⟩

@[simp] theorem value_same (v : Value) : same.value v = v := by cases v <;> rfl

/-- The other world has more objects between the first ones and the rest, and more classes before
all others. -/
def shift (first objects shapes : Nat) : Renumbering where
  object id := if id.index < first then id else ⟨id.index + objects⟩
  shape id := ⟨id.index + shapes⟩
  object_injective := by
    intro ⟨i⟩ ⟨j⟩ same
    by_cases left : i < first <;> by_cases right : j < first <;>
      simp [left, right] at same ⊢ <;> omega
  shape_injective := by
    intro ⟨i⟩ ⟨j⟩ same
    simpa using same

end Renumbering

/-- What two machines have come to agree on: how many of the objects and of the classes of the right
world have a counterpart in the left one, the records of their heaps, and their dictionaries. -/
structure Lockstep (R : Renumbering) where
  objects : Nat
  shapes : Nat
  records : List Header
  left : Dictionary
  right : Dictionary

namespace Lockstep
variable {R : Renumbering}

/-- The value has a counterpart. A reference is that of a record. -/
def Knows (L : Lockstep R) : Value → Prop
  | .object id => id.index < L.objects
  | .shape id => id.index < L.shapes
  | .ref offset => (headerAt? L.records offset.toNat).isSome
  | .undefined | .bool _ | .int _ | .str _ => True

/-- The words stand for a value and for its counterpart. -/
structure Same (L : Lockstep R) (v : Value) (w u : Word) : Prop where
  known : L.Knows v
  left : L.left.Spells (R.value v) w
  right : L.right.Spells v u

/-- The words stand for some value and for its counterpart. -/
def Pairs (L : Lockstep R) (w u : Word) : Prop := ∃ v, L.Same v w u

/-- More is agreed on, and nothing else. -/
structure Grows (L L' : Lockstep R) : Prop where
  objects : L.objects ≤ L'.objects
  shapes : L.shapes ≤ L'.shapes
  records : L.records <+: L'.records
  left : L.left.Extends L'.left
  right : L.right.Extends L'.right

namespace Grows
variable {L L' L'' : Lockstep R}

theorem refl (L : Lockstep R) : L.Grows L :=
  ⟨Nat.le_refl _, Nat.le_refl _, List.prefix_rfl, .refl _, .refl _⟩

theorem trans (h : L.Grows L') (g : L'.Grows L'') : L.Grows L'' where
  objects := Nat.le_trans h.objects g.objects
  shapes := Nat.le_trans h.shapes g.shapes
  records := h.records.trans g.records
  left := h.left.trans g.left
  right := h.right.trans g.right

theorem knows (h : L.Grows L') {v : Value} (known : L.Knows v) : L'.Knows v := by
  cases v with
  | object id => exact Nat.lt_of_lt_of_le known h.objects
  | shape id => exact Nat.lt_of_lt_of_le known h.shapes
  | ref offset =>
    obtain ⟨r, found⟩ := Option.isSome_iff_exists.mp known
    exact Option.isSome_iff_exists.mpr ⟨r, headerAt?_prefix h.records found⟩
  | undefined | bool | int | str => trivial

theorem same (h : L.Grows L') {v : Value} {w u : Word} (s : L.Same v w u) : L'.Same v w u :=
  ⟨h.knows s.known, s.left.mono h.left, s.right.mono h.right⟩

theorem pairs (h : L.Grows L') {w u : Word} (p : L.Pairs w u) : L'.Pairs w u :=
  p.imp fun _ => h.same

theorem all (h : L.Grows L') {ws us : List Word} (p : List.Forall₂ L.Pairs ws us) :
    List.Forall₂ L'.Pairs ws us := p.imp fun _ _ => h.pairs

end Grows

/-- What is the same word by word before is so afterwards, even if more objects or other ones have
a counterpart. -/
def Carries {R' : Renumbering} (L : Lockstep R) (L' : Lockstep R') : Prop :=
  ∀ {v : Value} {w u : Word}, L.Same v w u → L'.Same v w u

theorem Grows.carries {L L' : Lockstep R} (h : L.Grows L') : L.Carries L' := h.same

/-- A constant of the machine itself is the same word on both sides. -/
theorem same_plain (L : Lockstep R) {v : Value} (plain : v.isInterned = false) (known : L.Knows v)
    (moved : R.value v = v) : L.Same v (encode v .empty).1 (encode v .empty).1 := by
  refine ⟨known, ?_, ?_⟩
  · rw [moved]
    cases v <;> first | rfl | cases plain
  · cases v <;> first | rfl | cases plain

theorem same_undefined (L : Lockstep R) : L.Same .undefined .undefined .undefined :=
  L.same_plain rfl trivial rfl

theorem same_bool (L : Lockstep R) (b : Bool) : L.Same (.bool b) (.ofBool b) (.ofBool b) :=
  L.same_plain rfl trivial rfl

theorem same_int (L : Lockstep R) (n : Int32) : L.Same (.int n) (.ofInt n) (.ofInt n) :=
  L.same_plain rfl trivial rfl

theorem same_ref (L : Lockstep R) {offset : UInt32}
    (known : (headerAt? L.records offset.toNat).isSome) :
    L.Same (.ref offset) (.heap offset) (.heap offset) :=
  L.same_plain rfl known rfl

theorem pairs_undefined (L : Lockstep R) : L.Pairs .undefined .undefined := ⟨_, L.same_undefined⟩

/-- Slots that nothing was stored in. -/
theorem all_undefined (L : Lockstep R) (n : Nat) :
    List.Forall₂ L.Pairs (List.replicate n .undefined) (List.replicate n .undefined) := by
  induction n with
  | zero => exact .nil
  | succ n ih => exact .cons L.pairs_undefined ih

/-- Both sides have encoded a value. -/
def encoded (L : Lockstep R) (v u : Value) : Lockstep R :=
  { L with left := (encode v L.left).2, right := (encode u L.right).2 }

theorem grows_encoded (L : Lockstep R) (v u : Value) : L.Grows (L.encoded v u) :=
  { Grows.refl L with left := encode_extends v _, right := encode_extends u _ }

/-- A value that both sides encode gets words that stand for it. -/
theorem same_encoded (L : Lockstep R) {v : Value} (known : L.Knows v) :
    (L.encoded (R.value v) v).Same v (encode (R.value v) L.left).1 (encode v L.right).1 :=
  ⟨(L.grows_encoded _ v).knows known, L.left.spells_encode _, L.right.spells_encode v⟩

/-- Both sides have made a record. -/
def recorded (L : Lockstep R) (r : Header) : Lockstep R := { L with records := L.records ++ [r] }

theorem grows_recorded (L : Lockstep R) (r : Header) : L.Grows (L.recorded r) :=
  { Grows.refl L with records := List.prefix_append _ _ }

/-- All indices fit into words. -/
structure Fits (L : Lockstep R) : Prop where
  left : L.left.size ≤ 2 ^ 32
  right : L.right.size ≤ 2 ^ 32

section
variable {L : Lockstep R} (fits : L.Fits)
include fits

/-- A word stands for the same value if its partner does. -/
theorem Pairs.same_of_left {w u : Word} (h : L.Pairs w u) {v : Value}
    (known : L.left.Spells (R.value v) w) : L.Same v w u := by
  obtain ⟨v', same⟩ := h
  rwa [R.value_injective (known.value_unique fits.left same.left)]

theorem Pairs.same_of_right {w u : Word} (h : L.Pairs w u) {v : Value}
    (known : L.right.Spells v u) : L.Same v w u := by
  obtain ⟨v', same⟩ := h
  rwa [known.value_unique fits.right same.right]

/-- A word that is its own partner is met on both sides or on neither. -/
theorem Pairs.eq_iff {w u c : Word} (h : L.Pairs w u) {v : Value} (same : L.Same v c c) :
    w = c ↔ u = c := by
  constructor
  · rintro rfl
    exact (h.same_of_left fits same.left).right.word_unique same.right
  · rintro rfl
    exact (h.same_of_right fits same.right).left.word_unique same.left

/-- The words of a name are looked up. -/
theorem Same.lookup? {x : String} {w u : Word} (h : L.Same (.str x) w u) :
    L.left.lookup? w = some (.str x) ∧ L.right.lookup? u = some (.str x) :=
  ⟨h.left.lookup? fits.left rfl, h.right.lookup? fits.right rfl⟩

end

end Lockstep
end TaggedScript
