import Mathlib.Data.List.Dedup
import Mathlib.Data.List.Perm.Basic
import TaggedScript.Proofs.Codec

/-!
What a row of calls makes of an empty dictionary. Each value that was interned has one entry and
one row in the table of keys; equal values and no others share an index, and keep it.
-/
namespace TaggedScript
namespace Dictionary

/-- Each entry has a row in the table, under its key, and no two of them share one. -/
structure Keyed (d : Dictionary) : Prop where
  distinct : d.entries.toList.Nodup
  rows : d.table.length = d.size
  leads : ∀ (k : Key) (index : UInt32),
    d.table.lookup k = some index ↔ ∃ v, d.get? index = some v ∧ v.key = k

/-! ## One call -/

theorem size_intern (d : Dictionary) (v : Value) :
    (d.intern v).2.size = d.size + if v ∈ d.entries then 0 else 1 := by
  cases known : d.entries.findIdx? (· = v) with
  | some i =>
    have entry : v ∈ d.entries := Array.mem_of_getElem? (findIdx?_eq_some_iff.mp known).1
    rw [intern_of_some known, if_pos entry, Nat.add_zero]
  | none =>
    obtain ⟨e, interned, entries, -⟩ := intern_of_none known
    rw [interned, if_neg (notMem_of_findIdx? known), size, entries, Array.size_push, size]

theorem rows_intern {d : Dictionary} (h : d.table.length = d.size) (v : Value) :
    (d.intern v).2.table.length = (d.intern v).2.size := by
  cases known : d.entries.findIdx? (· = v) with
  | some i =>
    rw [intern_of_some known]
    exact h
  | none =>
    obtain ⟨e, interned, entries, table⟩ := intern_of_none known
    rw [interned, table, List.length_cons, h, size, size, entries, Array.size_push]

/-- Without equal entries the first entry with a key is the only one. -/
theorem lookup_eq_some_iff {d : Dictionary} (distinct : d.entries.toList.Nodup)
    (fits : d.size ≤ 2 ^ 32) {k : Key} {index : UInt32} :
    d.table.lookup k = some index ↔ ∃ v, d.get? index = some v ∧ v.key = k := by
  constructor
  · intro found
    rw [d.indexed k, Option.map_eq_some_iff] at found
    obtain ⟨i, first, rfl⟩ := found
    obtain ⟨bound, same, -⟩ := Array.findIdx?_eq_some_iff_getElem.mp first
    have place : (UInt32.ofNat i).toNat = i :=
      UInt32.toNat_ofNat_of_lt' (Nat.lt_of_lt_of_le bound fits)
    refine ⟨d.entries[i], ?_, of_decide_eq_true same⟩
    rw [get?, place, Array.getElem?_eq_getElem bound]
  · rintro ⟨v, found, rfl⟩
    rw [d.lookup_key, findIdx?_of_distinct distinct found, Option.map_some, UInt32.ofNat_toNat]

/-! ## A row of calls -/

/-- What each call keeps, a row of them keeps. -/
theorem internAll_keeps {P : Dictionary → Prop} (keeps : ∀ d v, P d → P (d.intern v).2)
    {d : Dictionary} (h : P d) (vs : List Value) : P (d.internAll vs) := by
  induction vs generalizing d with
  | nil => exact h
  | cons v vs ih => exact ih (keeps d v h)

theorem extends_internAll (d : Dictionary) (vs : List Value) : d.Extends (d.internAll vs) :=
  internAll_keeps (P := d.Extends) (fun e v h => h.trans (e.intern_extends v)) (.refl d) vs

theorem nodup_internAll (vs : List Value) : (empty.internAll vs).entries.toList.Nodup :=
  internAll_keeps (P := fun d => d.entries.toList.Nodup) (fun _ v h => nodup_intern h v)
    List.nodup_nil vs

theorem rows_internAll (vs : List Value) :
    (empty.internAll vs).table.length = (empty.internAll vs).size :=
  internAll_keeps (P := fun d => d.table.length = d.size) (fun _ v h => rows_intern h v) rfl vs

theorem mem_internAll {d : Dictionary} {vs : List Value} {u : Value} :
    u ∈ (d.internAll vs).entries ↔ u ∈ d.entries ∨ u ∈ vs := by
  induction vs generalizing d with
  | nil => simp [internAll]
  | cons v vs ih =>
    have first : d.internAll (v :: vs) = (d.intern v).2.internAll vs := rfl
    rw [first, ih, mem_intern, or_assoc, List.mem_cons]

/-- There is one entry for each value that was interned, however often it was. -/
theorem size_internAll (vs : List Value) : (empty.internAll vs).size = vs.dedup.length := by
  have same : (empty.internAll vs).entries.toList.Perm vs.dedup := by
    refine (List.perm_ext_iff_of_nodup (nodup_internAll vs) vs.nodup_dedup).mpr fun v => ?_
    rw [Array.mem_toList_iff, mem_internAll, List.mem_dedup]
    simp [empty]
  simpa [size] using same.length_eq

theorem keyed_internAll {vs : List Value} (fits : (empty.internAll vs).size ≤ 2 ^ 32) :
    (empty.internAll vs).Keyed where
  distinct := nodup_internAll vs
  rows := rows_internAll vs
  leads _ _ := lookup_eq_some_iff (nodup_internAll vs) fits

/-- Whatever was interned before and between, entries and table are in step, the entry of a value is
at the index that it was given, two values are given one index exactly if they are equal, a value
comes in exactly if it was not there, and what is there stays. -/
theorem interning_bijective (before between : List Value) (v u : Value)
    (few : (before ++ v :: between ++ [u]).dedup.length ≤ 2 ^ 32) :
    let d := empty.internAll before
    let i := (d.intern v).1
    let e := (d.intern v).2
    let f := e.internAll between
    let j := (f.intern u).1
    let g := (f.intern u).2
    (d.Keyed ∧ e.Keyed ∧ g.Keyed) ∧
    (e.get? i = some v ∧ g.get? j = some u) ∧
    (i = j ↔ v = u) ∧
    ((∀ x, x ∈ d.entries ↔ x ∈ before) ∧ e.size = d.size + if v ∈ d.entries then 0 else 1) ∧
    (∀ n x, d.get? n = some x → e.get? n = some x) ∧
    ∀ n x, e.get? n = some x → g.get? n = some x := by
  intro d i e f j g
  have whole : empty.internAll (before ++ v :: between ++ [u]) = g := by
    simp only [internAll, List.foldl_append, List.foldl_cons, List.foldl_nil, d, e, f, g]
  have start : empty.internAll (before ++ [v]) = e := by
    simp only [internAll, List.foldl_append, List.foldl_cons, List.foldl_nil, d, e]
  have fits : g.size ≤ 2 ^ 32 := by
    rw [← whole, size_internAll]
    exact few
  have first : d.Extends e := d.intern_extends v
  have rest : e.Extends g := (extends_internAll e between).trans (f.intern_extends u)
  have fits' : e.size ≤ 2 ^ 32 := Nat.le_trans rest.size_le fits
  have given : e.get? i = some v := get?_intern fits'
  have given' : g.get? j = some u := get?_intern fits
  refine ⟨⟨?_, ?_, ?_⟩, ⟨given, given'⟩, ⟨?_, ?_⟩, ⟨fun x => ?_, d.size_intern v⟩,
    fun _ _ => first.get?, fun _ _ => rest.get?⟩
  · exact keyed_internAll (Nat.le_trans first.size_le fits')
  · exact start ▸ keyed_internAll (start ▸ fits')
  · exact whole ▸ keyed_internAll (whole ▸ fits)
  · intro same
    have stays : g.get? i = some v := rest.get? given
    rw [same, given'] at stays
    exact (Option.some.inj stays).symm
  · rintro rfl
    have again : f.intern v = (i, f) := intern_mono (extends_internAll e between) (d.intern_again v)
    exact (congrArg Prod.fst again).symm
  · rw [mem_internAll]
    simp [empty]

/-- A name that comes back after an object and a class of the same place. -/
theorem interning_bijective_again :
    let before : List Value := [.object ⟨3⟩, .undefined]
    let between : List Value := [.shape ⟨3⟩, .object ⟨3⟩]
    let name : Value := .str "print"
    let first := (empty.internAll before).intern name
    let second := (first.2.internAll between).intern name
    (before ++ name :: between ++ [name]).dedup.length ≤ 2 ^ 32 ∧
    first.1 = 2 ∧ second.1 = 2 ∧ first.2.size = 3 ∧ second.2.size = 4 ∧ second.2.Keyed ∧
    second.2.get? 2 = some name := by
  intro before between name first second
  have few : (before ++ name :: between ++ [name]).dedup.length ≤ 2 ^ 32 := by decide
  obtain ⟨⟨-, -, keyed⟩, ⟨-, entry⟩, same, -, -, -⟩ :=
    interning_bijective before between name name few
  have index : first.1 = 2 := by decide
  have index' : second.1 = 2 := (same.mpr rfl).symm.trans index
  exact ⟨few, index, index', by decide, by decide, keyed, index' ▸ entry⟩

end Dictionary
end TaggedScript
