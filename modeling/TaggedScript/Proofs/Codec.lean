import TaggedScript.Proofs.WordMeaning

/-!
The codec loses nothing and confuses nothing. A dictionary that was filled by encoding has one
word for each value and one value for each word, and what came later does not change either.
-/
namespace TaggedScript

namespace Dictionary

/-- What a tag stands for. A reference stands for its offset, whatever the heap holds there. -/
inductive Means (d : Dictionary) : Tagged → Value → Prop
  | int (n : Int32) : Means d (.int n) (.int n)
  | bool (b : Bool) : Means d (.bool b) (.bool b)
  | undefined : Means d .undefined .undefined
  | ref (offset : UInt32) : Means d (.heap offset) (.ref offset)
  | entry {index : UInt32} {v : Value} (found : d.get? index = some v) :
    Means d (.interned index) v

theorem Means.value_unique {d : Dictionary} {t : Tagged} {v u : Value} (h : d.Means t v)
    (g : d.Means t u) : v = u := by
  cases h with
  | int | bool | undefined | ref => cases g; rfl
  | entry found =>
    cases g with
    | entry also => exact Option.some.inj (found.symm.trans also)

/-- The value has the word, and needs no new entry for it. -/
def Spells (d : Dictionary) (v : Value) (w : Word) : Prop := encode v d = (w, d)

theorem Spells.word_unique {d : Dictionary} {v : Value} {w u : Word} (h : d.Spells v w)
    (g : d.Spells v u) : w = u := congrArg Prod.fst (h.symm.trans g)

theorem findIdx?_eq_some_iff {d : Dictionary} {v : Value} {i : Nat} :
    d.entries.findIdx? (· = v) = some i ↔
      d.entries[i]? = some v ∧ ∀ j < i, d.entries[j]? ≠ some v := by
  rw [Array.findIdx?_eq_some_iff_getElem]
  constructor
  · rintro ⟨bound, same, before⟩
    refine ⟨by simpa [Array.getElem?_eq_getElem bound] using same, fun j less found => ?_⟩
    have apart := before j less
    rw [Array.getElem?_eq_getElem (by omega)] at found
    simp_all
  · rintro ⟨found, before⟩
    obtain ⟨bound, same⟩ := Array.getElem?_eq_some_iff.mp found
    refine ⟨bound, by simpa using same, fun j less => ?_⟩
    have apart := before j less
    rw [Array.getElem?_eq_getElem (by omega)] at apart
    simpa using apart

theorem findIdx?_of_distinct {d : Dictionary} (distinct : d.entries.toList.Nodup) {v : Value}
    {i : Nat} (found : d.entries[i]? = some v) : d.entries.findIdx? (· = v) = some i := by
  refine findIdx?_eq_some_iff.mpr ⟨found, fun j less earlier => ?_⟩
  have bound : j < d.entries.toList.length := by
    simpa using (Array.getElem?_eq_some_iff.mp earlier).1
  have place : j = i := (List.getElem?_inj bound distinct).mp <| by
    rw [Array.getElem?_toList, Array.getElem?_toList]
    exact earlier.trans found.symm
  omega

/-- A value with an entry gets the index of the first one. -/
theorem intern_eq_iff {d : Dictionary} {v : Value} {index : UInt32} :
    d.intern v = (index, d) ↔
      ∃ i, d.entries[i]? = some v ∧ (∀ j < i, d.entries[j]? ≠ some v) ∧
        UInt32.ofNat i = index := by
  constructor
  · intro h
    cases known : d.entries.findIdx? (· = v) with
    | some i =>
      obtain ⟨found, before⟩ := findIdx?_eq_some_iff.mp known
      rw [intern_of_some known] at h
      exact ⟨i, found, before, congrArg Prod.fst h⟩
    | none =>
      obtain ⟨e, interned, entries, -⟩ := intern_of_none known
      rw [interned] at h
      obtain rfl : e = d := congrArg Prod.snd h
      have same := congrArg Array.size entries
      simp at same
  · rintro ⟨i, found, before, rfl⟩
    exact intern_of_some (findIdx?_eq_some_iff.mpr ⟨found, before⟩)

theorem getElem?_of_extends {d e : Dictionary} (h : d.Extends e) {i : Nat} (bound : i < d.size) :
    e.entries[i]? = d.entries[i]? := by
  obtain ⟨later, all⟩ := h
  rw [← Array.getElem?_toList, ← Array.getElem?_toList, ← all,
    List.getElem?_append_left (by simpa [size] using bound)]

theorem intern_mono {d e : Dictionary} (h : d.Extends e) {v : Value} {index : UInt32}
    (known : d.intern v = (index, d)) : e.intern v = (index, e) := by
  obtain ⟨i, found, before, place⟩ := intern_eq_iff.mp known
  have bound : i < d.size := (Array.getElem?_eq_some_iff.mp found).1
  refine intern_eq_iff.mpr ⟨i, by rw [getElem?_of_extends h bound, found], fun j less => ?_, place⟩
  rw [getElem?_of_extends h (by omega)]
  exact before j less

theorem intern_again (d : Dictionary) (v : Value) :
    (d.intern v).2.intern v = ((d.intern v).1, (d.intern v).2) := by
  cases known : d.entries.findIdx? (· = v) with
  | some i => rw [intern_of_some known, intern_of_some known]
  | none =>
    obtain ⟨e, interned, entries, -⟩ := intern_of_none known
    rw [interned]
    refine intern_eq_iff.mpr ⟨d.size, by simp [entries, size], fun j less found => ?_, rfl⟩
    have earlier : j < d.entries.size := less
    rw [entries, Array.getElem?_push, if_neg (Nat.ne_of_lt earlier)] at found
    exact notMem_of_findIdx? known (Array.mem_of_getElem? found)

theorem Spells.mono {d e : Dictionary} (h : d.Extends e) {v : Value} {w : Word}
    (known : d.Spells v w) : e.Spells v w := by
  have word : (encode v d).1 = w := congrArg Prod.fst known
  have same : (encode v d).2 = d := congrArg Prod.snd known
  subst word
  cases v with
  | undefined | bool | int | ref => rfl
  | str | object | shape =>
    have interned := intern_mono h (Prod.ext rfl same)
    simp only [Spells, encode, interned]

/-- The word that a value was given is its word from then on. -/
theorem spells_encode (d : Dictionary) (v : Value) : (encode v d).2.Spells v (encode v d).1 := by
  cases v with
  | undefined | bool | int | ref => rfl
  | str | object | shape => simp only [Spells, encode, intern_again]

/-- A word means the value that it was given for, as long as all indices fit into words. -/
theorem Spells.means {d : Dictionary} {v : Value} {w : Word} (known : d.Spells v w)
    (fits : d.size ≤ 2 ^ 32) : ∃ t, w.tag = some t ∧ d.Means t v := by
  have word : (encode v d).1 = w := congrArg Prod.fst known
  have same : (encode v d).2 = d := congrArg Prod.snd known
  subst word
  cases v with
  | undefined => exact ⟨_, Word.tag_undefined, .undefined⟩
  | bool b => exact ⟨_, Word.tag_ofBool b, .bool b⟩
  | int n => exact ⟨_, Word.tag_ofInt n, .int n⟩
  | ref offset => exact ⟨_, Word.tag_heap offset, .ref offset⟩
  | str | object | shape =>
    have found := get?_intern (by rw [show (d.intern _).2 = d from same]; exact fits)
    rw [show (d.intern _).2 = d from same] at found
    exact ⟨_, Word.tag_interned _, .entry found⟩

/-- What needs an entry is looked up by its word. -/
theorem Spells.lookup? {d : Dictionary} {v : Value} {w : Word} (known : d.Spells v w)
    (fits : d.size ≤ 2 ^ 32) (needed : v.isInterned = true) : d.lookup? w = some v := by
  obtain ⟨t, tag, means⟩ := known.means fits
  cases means with
  | entry found =>
    rw [Dictionary.lookup?, tag]
    exact found
  | undefined | bool | int | ref => cases needed

/-- A value is given the word that means it. -/
theorem spells_of_means {d : Dictionary} (h : d.Interned) {v : Value} {w : Word} {t : Tagged}
    (tag : w.tag = some t) (means : d.Means t v) : d.Spells v w := by
  rw [Word.eq_ofTagged_of_tag tag]
  cases means with
  | int | bool | undefined | ref => rfl
  | @entry index v found =>
    have mem : v ∈ d.entries := Array.mem_of_getElem? found
    have first : d.intern v = (index, d) := by
      rw [intern_of_some (findIdx?_of_distinct h.distinct found), UInt32.ofNat_toNat]
    cases v with
    | undefined | bool | int | ref => cases h.needed _ mem
    | str | object | shape => simp only [Spells, encode, first, Word.ofTagged]

/-- No two values have one word. -/
theorem Spells.value_unique {d : Dictionary} (fits : d.size ≤ 2 ^ 32) {v u : Value} {w : Word}
    (one : d.Spells v w) (other : d.Spells u w) : v = u := by
  obtain ⟨t, tag, means⟩ := one.means fits
  obtain ⟨s, tag', means'⟩ := other.means fits
  obtain rfl := Option.some.inj (tag.symm.trans tag')
  exact means.value_unique means'

end Dictionary

/-- A reference is that of a record in the heap. -/
def Value.InHeap (h : Heap) (v : Value) : Prop := ∀ offset, v = .ref offset → h.contains offset

/-- The word of a value is read as that value. -/
theorem Dictionary.Spells.decode {d : Dictionary} {v : Value} {w : Word} (known : d.Spells v w)
    (fits : d.size ≤ 2 ^ 32) {h : Heap} (inside : v.InHeap h) : decode d h w = .ok v := by
  obtain ⟨t, tag, means⟩ := known.means fits
  unfold TaggedScript.decode
  rw [tag]
  cases means with
  | int | bool | undefined => rfl
  | ref offset => simp [inside offset rfl]
  | entry found => simp [found]

theorem decode_eq_ok_iff {d : Dictionary} (interned : d.Interned) (fits : d.size ≤ 2 ^ 32)
    {h : Heap} {w : Word} {v : Value} : decode d h w = .ok v ↔ d.Spells v w ∧ v.InHeap h := by
  refine ⟨fun means => ?_, fun ⟨known, inside⟩ => known.decode fits inside⟩
  unfold decode at means
  split at means
  · rename_i n tag
    cases means
    exact ⟨Dictionary.spells_of_means interned tag (.int n), nofun⟩
  · rename_i b tag
    cases means
    exact ⟨Dictionary.spells_of_means interned tag (.bool b), nofun⟩
  · rename_i tag
    cases means
    exact ⟨Dictionary.spells_of_means interned tag .undefined, nofun⟩
  · rename_i index tag
    split at means <;> cases means
    rename_i found
    refine ⟨Dictionary.spells_of_means interned tag (.entry found), ?_⟩
    rintro offset rfl
    cases interned.needed _ (Array.mem_of_getElem? found)
  · rename_i offset tag
    split at means <;> cases means
    rename_i inside
    exact ⟨Dictionary.spells_of_means interned tag (.ref offset),
      fun _ same => Value.ref.inj same ▸ inside⟩
  · cases means

/-- Only one word stands for a value. -/
theorem eq_encode_of_decode {d : Dictionary} (interned : d.Interned) (fits : d.size ≤ 2 ^ 32)
    {h : Heap} {w : Word} {v : Value} (means : decode d h w = .ok v) : w = (encode v d).1 :=
  (congrArg Prod.fst ((decode_eq_ok_iff interned fits).mp means).1).symm

/-- What values are stored in. -/
structure Store where
  dictionary : Dictionary
  heap : Heap

/-- What is done to a store. -/
inductive Storing where
  | encode (v : Value)
  | allocate (shape : Word) (fields : List Word)

namespace Store

/-- Nothing was encoded yet. -/
def onHeap (heap : Heap) : Store := ⟨.empty, heap⟩

def step (s : Store) : Storing → Store
  | .encode v => { s with dictionary := (TaggedScript.encode v s.dictionary).2 }
  | .allocate shape fields =>
    match Heap.allocate shape fields s.heap with
    | .ok _ heap | .error _ heap => { s with heap := heap }

def after (s : Store) (history : List Storing) : Store := history.foldl step s

/-- The word that the store gives to a value. -/
def word (s : Store) (v : Value) : Word := (TaggedScript.encode v s.dictionary).1

def read (s : Store) (w : Word) : Except InvalidWord Value := decode s.dictionary s.heap w

/-- Indices of the dictionary have 32 bits. -/
def Fits (s : Store) : Prop := s.dictionary.size ≤ 2 ^ 32

instance (s : Store) : Decidable s.Fits := inferInstanceAs (Decidable (_ ≤ _))

theorem step_interned {s : Store} (h : s.dictionary.Interned) (action : Storing) :
    (s.step action).dictionary.Interned := by
  cases action with
  | encode v => exact encode_interned h v
  | allocate shape fields =>
    simp only [step]
    split <;> exact h

theorem step_grows (s : Store) (action : Storing) :
    s.dictionary.Extends (s.step action).dictionary ∧
      s.heap.pointer ≤ (s.step action).heap.pointer := by
  cases action with
  | encode v => exact ⟨encode_extends v _, Nat.le_refl _⟩
  | allocate shape fields =>
    simp only [step, Heap.allocate]
    split
    · rename_i made
      split at made
      · cases made
      · split at made <;> cases made
        exact ⟨.refl _, by simp [Heap.pointer, ← Array.length_toList]⟩
    · rename_i failed
      split at failed
      · cases failed
        exact ⟨.refl _, Nat.le_refl _⟩
      · split at failed <;> cases failed
        exact ⟨.refl _, Nat.le_refl _⟩

theorem after_interned {s : Store} (h : s.dictionary.Interned) (history : List Storing) :
    (s.after history).dictionary.Interned := by
  induction history generalizing s with
  | nil => exact h
  | cons action history ih => exact ih (step_interned h action)

theorem after_grows (s : Store) (history : List Storing) :
    s.dictionary.Extends (s.after history).dictionary ∧
      s.heap.pointer ≤ (s.after history).heap.pointer := by
  induction history generalizing s with
  | nil => exact ⟨.refl _, Nat.le_refl _⟩
  | cons action history ih =>
    obtain ⟨dict, heap⟩ := s.step_grows action
    obtain ⟨dict', heap'⟩ := ih (s.step action)
    exact ⟨dict.trans dict', Nat.le_trans heap heap'⟩

theorem onHeap_interned (heap : Heap) : (onHeap heap).dictionary.Interned where
  needed v mem := by simp [onHeap, Dictionary.empty] at mem
  distinct := by simp [onHeap, Dictionary.empty]

/-- A word that was given out is the word of its value at every later time. -/
theorem spells_after (s : Store) (v : Value) (later : List Storing) :
    (s.after (.encode v :: later)).dictionary.Spells v (s.word v) :=
  (Dictionary.spells_encode s.dictionary v).mono ((s.step (.encode v)).after_grows later).1

/-- What is encoded is read back at every later time; two values that were encoded at any two
times have the same word exactly if they are the same; and every word that can be read is the one
that encoding gives to its value, for which nothing is added. -/
theorem codec_faithful (heap : Heap) (before : List Storing) :
    let s := (onHeap heap).after before
    (∀ v later, let t := s.after (.encode v :: later)
      (t.Fits → v.InHeap s.heap → t.read (s.word v) = .ok v) ∧
        ∀ u, (t.after [.encode u]).Fits → (t.word u = s.word v ↔ u = v)) ∧
      (s.Fits → ∀ w v, s.read w = .ok v → encode v s.dictionary = (w, s.dictionary)) := by
  intro s
  have interned : s.dictionary.Interned := after_interned (onHeap_interned heap) before
  refine ⟨fun v later => ⟨fun fits inside => ?_, fun u fits => ⟨fun same => ?_, ?_⟩⟩,
    fun fits w v read => ((decode_eq_ok_iff interned fits).mp read).1⟩
  · have grows := (s.after_grows (.encode v :: later)).2
    refine (decode_eq_ok_iff (after_interned interned _) fits).mpr
      ⟨s.spells_after v later, fun offset same => ?_⟩
    have contained := inside offset same
    simp only [Heap.contains, decide_eq_true_eq] at contained ⊢
    omega
  · have one := (s.spells_after v later).mono
      (encode_extends u (s.after (.encode v :: later)).dictionary)
    have other := Dictionary.spells_encode (s.after (.encode v :: later)).dictionary u
    rw [show (encode u _).1 = s.word v from same] at other
    exact other.value_unique fits one
  · rintro rfl
    exact (Dictionary.spells_encode _ u).word_unique
      ((s.spells_after u later).mono (encode_extends u _))

/-- A record of the class that was interned first, and the name of its field. -/
theorem codec_faithful_record :
    let s := (onHeap (.empty 8)).after
      [.encode (.shape ⟨0⟩), .allocate (.interned 0) [.ofInt 1], .encode (.str "x")]
    let t := s.after (.encode (.ref 0) :: [.encode (.str "y"), .allocate (.interned 0) []])
    t.read (.heap 0) = .ok (.ref 0) ∧ t.word (.str "x") ≠ .heap 0 ∧
      encode (.str "x") s.dictionary = (.interned 1, s.dictionary) := by
  intro s t
  obtain ⟨forwards, backwards⟩ := codec_faithful (.empty 8)
    [.encode (.shape ⟨0⟩), .allocate (.interned 0) [.ofInt 1], .encode (.str "x")]
  obtain ⟨reads, apart⟩ := forwards (.ref 0) [.encode (.str "y"), .allocate (.interned 0) []]
  refine ⟨reads (by decide +kernel) ?_, fun same => ?_,
    backwards (by decide +kernel) (.interned 1) (.str "x") ?_⟩
  · rintro offset ⟨⟩
    decide
  · cases (apart (.str "x") (by decide +kernel)).mp same
  · with_unfolding_all rfl

end Store

end TaggedScript
