import Mathlib.Algebra.Group.Int.Defs
import Mathlib.Algebra.GroupWithZero.Nat
import TaggedScript.Machine.Codec

/-!
Words mean what they were made for, and entries of a dictionary stay where they are.
-/
namespace TaggedScript

namespace Word

theorem toNat_ofNat {n : Nat} (h : n < 2 ^ 64) : (ofNat n).toNat = n := by
  rw [toNat, ofNat, UInt64.toNat_ofNat', Nat.mod_eq_of_lt h]

theorem ofNat_toNat (w : Word) : ofNat w.toNat = w := by
  cases w with
  | mk raw => simp [ofNat, toNat]

theorem toNat_lt (w : Word) : w.toNat < 18446744073709551616 := w.raw.toNat_lt

@[simp] theorem tag_undefined : undefined.tag = some .undefined := by decide

@[simp] theorem tag_ofBool (b : Bool) : (ofBool b).tag = some (.bool b) := by cases b <;> decide

theorem toNat_interned (index : UInt32) : (interned index).toNat = 4 * index.toNat + 1 := by
  have := index.toNat_lt
  exact toNat_ofNat (by omega)

theorem toNat_heap (offset : UInt32) : (heap offset).toNat = 8 * offset.toNat + 3 := by
  have := offset.toNat_lt
  exact toNat_ofNat (by omega)

@[simp] theorem tag_interned (index : UInt32) : (interned index).tag = some (.interned index) := by
  have bound := index.toNat_lt
  have value := toNat_interned index
  have quotient : (interned index).toNat / 4 = index.toNat := by omega
  rw [tag, if_neg (by omega), if_pos (by omega), if_pos (by omega), quotient]
  simp

@[simp] theorem tag_heap (offset : UInt32) : (heap offset).tag = some (.heap offset) := by
  have bound := offset.toNat_lt
  have value := toNat_heap offset
  have quotient : (heap offset).toNat / 8 = offset.toNat := by omega
  rw [tag, if_neg (by omega), if_neg (by omega), if_pos (by omega), if_pos (by omega), quotient]
  simp

theorem toNat_ofInt (n : Int32) : ((ofInt n).toNat : Int) = (2 * n.toInt) % 2 ^ 64 := by
  simp only [ofInt, toNat, UInt64.ofInt]
  rw [UInt64.toNat_ofNat']
  omega

@[simp] theorem tag_ofInt (n : Int32) : (ofInt n).tag = some (.int n) := by
  have value := toNat_ofInt n
  have low := n.le_toInt
  have high := n.toInt_lt
  have even : (ofInt n).toNat % 2 = 0 := by omega
  rw [tag, if_pos even, asInt, if_neg (by simp [isInt, even])]
  by_cases small : (ofInt n).toNat < 4294967296
  · have half : (((ofInt n).toNat / 2 : Nat) : Int) = n.toInt := by omega
    rw [if_pos small]
    simp only [Option.map_some, Option.some.injEq, Tagged.int.injEq]
    rw [show ((ofInt n).toNat : Int) / 2 = n.toInt by omega, Int32.ofInt_toInt]
  · rw [if_neg small, if_pos (by omega)]
    simp only [Option.map_some, Option.some.injEq, Tagged.int.injEq]
    rw [show (((ofInt n).toNat : Int) - 18446744073709551616) / 2 = n.toInt by omega,
      Int32.ofInt_toInt]

theorem asIndex_ofIndex {n : Nat} (h : n < 2 ^ 62) : (ofIndex n).asIndex = some n := by
  have value : (ofIndex n).toNat = 2 * n := toNat_ofNat (by omega)
  rw [asIndex, if_pos ⟨by simp [isInt, value], by omega⟩, value]
  simp

theorem ofIndex_ne_undefined {n : Nat} (h : n < 2 ^ 62) : ofIndex n ≠ undefined := by
  intro same
  have value : (ofIndex n).toNat = 2 * n := toNat_ofNat (by omega)
  have seven : undefined.toNat = 7 := by decide
  rw [same] at value
  omega

theorem asIndex_interned (index : UInt32) : (interned index).asIndex = none := by
  have value := toNat_interned index
  simp only [asIndex, isInt, value]
  rw [if_neg]
  simp
  omega

theorem eq_of_toNat {w u : Word} (h : w.toNat = u.toNat) : w = u := by
  rw [← ofNat_toNat w, h, ofNat_toNat]

theorem eq_ofInt_of_asInt {w : Word} {n : Int32} (h : w.asInt = some n) : w = ofInt n := by
  have bound := w.toNat_lt
  have value := toNat_ofInt n
  have even : w.isInt = true := by
    cases even : w.isInt with
    | true => rfl
    | false => simp [asInt, even] at h
  rw [asInt, if_neg (by simp [even])] at h
  simp only [isInt, decide_eq_true_eq] at even
  apply eq_of_toNat
  split at h
  · cases h
    rw [Int32.toInt_ofInt_of_le (by omega) (by omega)] at value
    omega
  · split at h
    · cases h
      rw [Int32.toInt_ofInt_of_le (by omega) (by omega)] at value
      omega
    · cases h

/-- No two words have one meaning. -/
theorem eq_ofTagged_of_tag {w : Word} {t : Tagged} (h : w.tag = some t) : w = ofTagged t := by
  unfold tag at h
  split at h
  · obtain ⟨n, half, rfl⟩ := Option.map_eq_some_iff.mp h
    exact eq_ofInt_of_asInt half
  · split at h
    · split at h <;> cases h
      rename_i fits
      apply eq_of_toNat
      rw [ofTagged, toNat_interned, UInt32.toNat_ofNat', Nat.mod_eq_of_lt fits]
      omega
    · split at h
      · split at h <;> cases h
        rename_i fits
        apply eq_of_toNat
        rw [ofTagged, toNat_heap, UInt32.toNat_ofNat', Nat.mod_eq_of_lt fits]
        omega
      · split at h
        · cases h
          assumption
        · split at h
          · cases h
            assumption
          · split at h
            · cases h
              assumption
            · cases h

end Word

namespace Dictionary

/-- What has grown to another dictionary: all its entries are there, at the same places. -/
def Extends (d e : Dictionary) : Prop := d.entries.toList <+: e.entries.toList

theorem Extends.refl (d : Dictionary) : d.Extends d := List.prefix_rfl

theorem Extends.trans {d e f : Dictionary} (h : d.Extends e) (g : e.Extends f) : d.Extends f :=
  List.IsPrefix.trans h g

theorem Extends.size_le {d e : Dictionary} (h : d.Extends e) : d.size ≤ e.size := by
  simpa [size] using h.length_le

theorem Extends.get? {d e : Dictionary} (h : d.Extends e) {index : UInt32} {v : Value}
    (found : d.get? index = some v) : e.get? index = some v := by
  obtain ⟨later, all⟩ := h
  simp only [Dictionary.get?, ← Array.getElem?_toList] at found ⊢
  have bound := (List.getElem?_eq_some_iff.mp found).1
  rw [← all, List.getElem?_append_left bound, found]

theorem intern_extends (d : Dictionary) (v : Value) : d.Extends (d.intern v).2 := by
  cases known : d.entries.findIdx? (· = v) with
  | some i =>
    rw [intern_of_some known]
    exact Extends.refl d
  | none =>
    obtain ⟨e, interned, entries, -⟩ := intern_of_none known
    simp [interned, Extends, entries]

theorem notMem_of_findIdx? {d : Dictionary} {v : Value}
    (new : d.entries.findIdx? (· = v) = none) : v ∉ d.entries := fun mem => by
  simpa using Array.findIdx?_eq_none_iff.mp new v mem

theorem mem_intern {d : Dictionary} {v u : Value} :
    u ∈ (d.intern v).2.entries ↔ u ∈ d.entries ∨ u = v := by
  cases known : d.entries.findIdx? (· = v) with
  | some i =>
    obtain ⟨bound, same, -⟩ := Array.findIdx?_eq_some_iff_getElem.mp known
    have entry : v ∈ d.entries := of_decide_eq_true same ▸ Array.getElem_mem bound
    rw [intern_of_some known]
    exact ⟨.inl, fun h => h.elim id fun same => same ▸ entry⟩
  | none =>
    obtain ⟨e, interned, entries, -⟩ := intern_of_none known
    rw [interned, entries, Array.mem_push]

/-- A value that was interned has an entry, as long as all indices fit into words. -/
theorem get?_intern {d : Dictionary} {v : Value} (fits : (d.intern v).2.size ≤ 2 ^ 32) :
    (d.intern v).2.get? (d.intern v).1 = some v := by
  cases known : d.entries.findIdx? (· = v) with
  | some i =>
    rw [intern_of_some known] at fits ⊢
    obtain ⟨bound, same, -⟩ := Array.findIdx?_eq_some_iff_getElem.mp known
    simp only [size] at fits
    simp only [get?, UInt32.toNat_ofNat']
    rw [Nat.mod_eq_of_lt (by omega), Array.getElem?_eq_getElem bound]
    simpa using same
  | none =>
    obtain ⟨e, interned, entries, -⟩ := intern_of_none known
    simp only [interned, size, entries, Array.size_push] at fits
    simp only [interned, get?, entries, size, UInt32.toNat_ofNat']
    rw [Nat.mod_eq_of_lt (by omega)]
    simp

end Dictionary

/-- The values that have entries in a dictionary. -/
def Value.isInterned : Value → Bool
  | .str _ | .object _ | .shape _ => true
  | _ => false

/-- A dictionary with one entry each, and only for what words have no room for. -/
structure Dictionary.Interned (d : Dictionary) : Prop where
  needed : ∀ v ∈ d.entries, v.isInterned = true
  distinct : d.entries.toList.Nodup

theorem Dictionary.nodup_intern {d : Dictionary} (h : d.entries.toList.Nodup) (v : Value) :
    (d.intern v).2.entries.toList.Nodup := by
  cases known : d.entries.findIdx? (· = v) with
  | some i =>
    rw [intern_of_some known]
    exact h
  | none =>
    have new : v ∉ d.entries.toList := fun mem =>
      notMem_of_findIdx? known (Array.mem_toList_iff.mp mem)
    obtain ⟨e, interned, entries, -⟩ := intern_of_none known
    rw [interned, entries, Array.toList_push]
    exact List.nodup_append.mpr ⟨h, by simp, fun u mem w last same => by
      simp only [List.mem_singleton] at last
      exact new (last ▸ same ▸ mem)⟩

/-- What a dictionary has entries for once a value was encoded. -/
theorem mem_encode {d : Dictionary} {v u : Value} (mem : u ∈ (encode v d).2.entries) :
    u ∈ d.entries ∨ u = v ∧ v.isInterned = true := by
  cases v with
  | undefined | bool | int | ref => exact .inl mem
  | str | object | shape => exact (Dictionary.mem_intern.mp mem).imp_right fun same => ⟨same, rfl⟩

theorem encode_interned {d : Dictionary} (h : d.Interned) (v : Value) :
    (encode v d).2.Interned where
  needed u mem := by
    rcases mem_encode mem with old | ⟨rfl, new⟩
    · exact h.needed u old
    · exact new
  distinct := by
    cases v with
    | undefined | bool | int | ref => exact h.distinct
    | str | object | shape => exact d.nodup_intern h.distinct _

theorem encode_extends (v : Value) (d : Dictionary) : d.Extends (encode v d).2 := by
  cases v <;> first | exact Dictionary.Extends.refl d | exact d.intern_extends _

theorem lookup?_encode {v : Value} {d : Dictionary} (h : v.isInterned)
    (fits : (encode v d).2.size ≤ 2 ^ 32) : (encode v d).2.lookup? (encode v d).1 = some v := by
  cases v with
  | str s => simpa [encode, Dictionary.lookup?] using Dictionary.get?_intern fits
  | object id => simpa [encode, Dictionary.lookup?] using Dictionary.get?_intern fits
  | shape id => simpa [encode, Dictionary.lookup?] using Dictionary.get?_intern fits
  | undefined | bool | int | ref => simp [Value.isInterned] at h

theorem Dictionary.Extends.lookup? {d e : Dictionary} (h : d.Extends e) {w : Word} {v : Value}
    (found : d.lookup? w = some v) : e.lookup? w = some v := by
  unfold Dictionary.lookup? at found ⊢
  split at found
  · exact h.get? found
  · simp at found

theorem mem_of_lookup? {d : Dictionary} {w : Word} {v : Value} (found : d.lookup? w = some v) :
    v ∈ d.entries := by
  unfold Dictionary.lookup? at found
  split at found
  · exact Array.mem_of_getElem? found
  · cases found

/-- The entry that a word names is what it means. -/
theorem decode_of_lookup? {d : Dictionary} {w : Word} {v : Value} (h : Heap)
    (found : d.lookup? w = some v) : decode d h w = .ok v := by
  unfold Dictionary.lookup? at found
  split at found
  · rename_i index meaning
    simp [decode, meaning, found]
  · simp at found

/-- A record whose first word names a class is of that class. -/
theorem Heap.shapeOf_of_lookup? {h : Heap} {d : Dictionary} {offset : UInt32} {id : ShapeId}
    (w : World) (inside : h.contains offset = true)
    (named : d.lookup? (h.words.getD offset.toNat .undefined) = some (.shape id)) :
    h.shapeOf w d offset = .ok (w.shape id) := by
  unfold Dictionary.lookup? at named
  split at named
  · rename_i index tag
    simp only [shapeOf, classWord, headerWord, inside, ↓reduceIte, Nat.add_zero, bind, Except.bind,
      tag, named]
  · cases named

/-- The word of a value means that value, also when the dictionary and the heap have grown. -/
theorem decode_mono {d e : Dictionary} {h g : Heap} {w : Word} {v : Value} (dict : d.Extends e)
    (heap : h.pointer ≤ g.pointer) (means : decode d h w = .ok v) : decode e g w = .ok v := by
  unfold decode at means ⊢
  split at means
  · exact means
  · exact means
  · exact means
  · rename_i index tag
    split at means
    · rename_i u found
      rw [dict.get? found]
      exact means
    · simp at means
  · rename_i offset tag
    split at means
    · rename_i inside
      have : g.contains offset = true := by
        simp only [Heap.contains, decide_eq_true_eq] at inside ⊢
        omega
      rw [if_pos this]
      exact means
    · simp at means
  · simp at means

end TaggedScript
