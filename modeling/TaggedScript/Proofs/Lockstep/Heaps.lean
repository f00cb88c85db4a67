import TaggedScript.Proofs.Compilation.Heap
import TaggedScript.Proofs.Lockstep.Worlds

/-!
Heaps with the same records, whose words correspond. What is done to a record on one side is done to
the same record on the other.
-/
namespace TaggedScript
namespace Lockstep
variable {R : Renumbering}

/-- The heaps are laid out alike, and the class of each record is a class with a counterpart that
has as many fields. -/
structure Heaps (L : Lockstep R) (w' : World) (h h' : Heap) : Prop where
  capacity : h.capacity = h'.capacity
  words : List.Forall₂ L.Pairs h.words.toList h'.words.toList
  tiles : Tiles L.records h'.words.toList
  classes : ∀ r ∈ L.records, ∃ id, id.index < L.shapes ∧ L.right.Spells (.shape id) r.shape ∧
    (w'.shape id).fields.length = r.width

namespace Heaps
variable {L L' : Lockstep R} {w w' : World} {h h' : Heap} {offset : UInt32} {r : Header}

theorem grow_known (s : L.Heaps w' h h') (grows : L.Grows L') (records : L'.records = L.records)
    {v' : World} (shapes : ∀ id, id.index < L.shapes → v'.shape id = w'.shape id) :
    L'.Heaps v' h h' where
  capacity := s.capacity
  words := grows.all s.words
  tiles := records ▸ s.tiles
  classes r mem := by
    obtain ⟨id, known, spells, width⟩ := s.classes r (records ▸ mem)
    refine ⟨id, Nat.lt_of_lt_of_le known grows.shapes, spells.mono grows.right, ?_⟩
    rw [shapes id known]
    exact width

theorem grow (s : L.Heaps w' h h') (grows : L.Grows L') (records : L'.records = L.records)
    {v' : World} (shapes : v'.shapes = w'.shapes) : L'.Heaps v' h h' :=
  s.grow_known grows records fun _ _ => by rw [World.shape, World.shape, shapes]

/-- The next record begins at the same place. -/
theorem pointer_eq (s : L.Heaps w' h h') : h.pointer = h'.pointer := by
  simpa [Heap.pointer] using s.words.length_eq

theorem available_eq (s : L.Heaps w' h h') : h.available = h'.available := by
  rw [Heap.available, Heap.available, s.capacity, s.pointer_eq]

theorem pointer_room (s : L.Heaps w' h h') : h'.pointer = headerRoom L.records := by
  simpa [Heap.pointer] using s.tiles.length_eq

/-- The words at a place. -/
theorem getD (s : L.Heaps w' h h') (i : Nat) :
    L.Pairs (h.words.getD i .undefined) (h'.words.getD i .undefined) := by
  rw [Array.getD_eq_getD_getElem?, Array.getD_eq_getD_getElem?, ← Array.getElem?_toList,
    ← Array.getElem?_toList]
  cases right : h'.words.toList[i]? with
  | some u =>
    obtain ⟨w, left, pairs⟩ := forall₂_getElem? s.words right
    rw [left]
    exact pairs
  | none =>
    have left : h.words.toList[i]? = none := by
      rw [List.getElem?_eq_none_iff] at right ⊢
      rwa [s.words.length_eq]
    rw [left]
    exact L.pairs_undefined

section
variable (s : L.Heaps w' h h') (found : headerAt? L.records offset.toNat = some r)
include s found

theorem contains : h.contains offset = true ∧ h'.contains offset = true := by
  have size := (s.tiles.header found).2
  have same := s.pointer_eq
  simp only [Header.size, Array.length_toList] at size
  simp only [Heap.contains, decide_eq_true_eq, same]
  exact ⟨by simp only [Heap.pointer]; omega, by simp only [Heap.pointer]; omega⟩

/-- The class of a record is found. -/
theorem shapeOf (fits : L.Fits) (programs : L.Programs w w') :
    ∃ shape, h.shapeOf w L.left offset = .ok shape ∧ h'.shapeOf w' L.right offset = .ok shape ∧
      shape.fields.length = r.width := by
  obtain ⟨left, right⟩ := s.contains found
  obtain ⟨id, known, spells, width⟩ := s.classes r (mem_of_headerAt? found)
  have word : h'.words.getD offset.toNat .undefined = r.shape := by
    rw [Array.getD_eq_getD_getElem?, ← Array.getElem?_toList, (s.tiles.header found).1]
    rfl
  have pairs := s.getD offset.toNat
  rw [word] at pairs
  have same := pairs.same_of_right fits spells
  have named := same.left.lookup? fits.left rfl
  refine ⟨w'.shape id, ?_, Heap.shapeOf_of_lookup? w' right (word ▸ spells.lookup? fits.right rfl),
    width⟩
  rw [← programs.shapes id known]
  exact Heap.shapeOf_of_lookup? w left named

/-- A field of a record is in use. -/
theorem place {slot : Nat} (inside : slot < r.width) :
    h.place offset slot = .ok (offset.toNat + Heap.headerSize + slot) ∧
      h'.place offset slot = .ok (offset.toNat + Heap.headerSize + slot) := by
  have size := (s.tiles.header found).2
  have same := s.pointer_eq
  simp only [Header.size, Array.length_toList] at size
  simp only [Heap.pointer] at same
  unfold Heap.place Heap.pointer
  rw [same]
  rw [if_pos (by omega)]
  exact ⟨rfl, rfl⟩

theorem getField (fits : L.Fits) (programs : L.Programs w w') (x : String) :
    ∃ a b, h.getField w L.left offset x = .ok a ∧ h'.getField w' L.right offset x = .ok b ∧
      L.Pairs a b := by
  obtain ⟨shape, left, right, width⟩ := s.shapeOf found fits programs
  simp only [Heap.getField, left, right, bind, Except.bind]
  cases slot : shape.slotOf? x with
  | none => exact ⟨_, _, rfl, rfl, L.pairs_undefined⟩
  | some i =>
    obtain ⟨bound, -⟩ := List.findIdx?_eq_some_iff_getElem.mp slot
    have inside : i < r.width := by omega
    obtain ⟨left', right'⟩ := s.place found inside
    simp only [left', right']
    exact ⟨_, _, rfl, rfl, s.getD _⟩

/-- A field is written on both sides, or it is a field of neither. -/
theorem setField (fits : L.Fits) (programs : L.Programs w w') (x : String) {a b : Word}
    (pairs : L.Pairs a b) :
    (∃ g g', Heap.setField w L.left offset x a h = .ok () g ∧
        Heap.setField w' L.right offset x b h' = .ok () g' ∧ L.Heaps w' g g') ∨
      ∃ e, Heap.setField w L.left offset x a h = .error e h ∧
        Heap.setField w' L.right offset x b h' = .error e h' := by
  obtain ⟨shape, left, right, width⟩ := s.shapeOf found fits programs
  simp only [Heap.setField, Heap.fieldPlace, left, right, bind, Except.bind]
  cases slot : shape.slotOf? x with
  | none => exact .inr ⟨_, rfl, rfl⟩
  | some i =>
    obtain ⟨bound, -⟩ := List.findIdx?_eq_some_iff_getElem.mp slot
    have inside : i < r.width := by omega
    obtain ⟨left', right'⟩ := s.place found inside
    simp only [left', right']
    refine .inl ⟨_, _, rfl, rfl, s.capacity, ?_, ?_, s.classes⟩
    · simpa using forall₂_set s.words pairs
    · simpa using s.tiles.set found inside b

end

/-- A record is made on both sides, at the same place, or neither heap has room for it. -/
theorem allocate (s : L.Heaps w' h h') {id : ShapeId} {shape shape' : Word}
    {fields fields' : List Word} (same : L.Same (.shape id) shape shape')
    (width : (w'.shape id).fields.length = fields'.length)
    (pairs : List.Forall₂ L.Pairs fields fields') :
    let L' := L.recorded ⟨shape', fields'.length⟩
    (∃ offset g g', Heap.allocate shape fields h = .ok offset g ∧
        Heap.allocate shape' fields' h' = .ok offset g' ∧ L'.Heaps w' g g' ∧
        L'.Knows (.ref offset)) ∨
      ∃ e, Heap.allocate shape fields h = .error e h ∧
        Heap.allocate shape' fields' h' = .error e h' := by
  intro L'
  have grows : L.Grows L' := L.grows_recorded _
  have mark : L'.Pairs Heap.mark Heap.mark := ⟨_, L'.same_int (-2)⟩
  simp only [Heap.allocate, s.available_eq, s.pointer_eq, pairs.length_eq]
  by_cases full : h'.available < Heap.headerSize + fields'.length
  · rw [if_pos full, if_pos full]
    exact .inr ⟨_, rfl, rfl⟩
  by_cases far : 4294967296 ≤ h'.pointer
  · rw [if_neg full, if_pos far, if_neg full, if_pos far]
    exact .inr ⟨_, rfl, rfl⟩
  rw [if_neg full, if_neg far, if_neg full, if_neg far]
  refine .inl ⟨_, _, _, rfl, rfl, ⟨s.capacity, ?_, ?_, fun r mem => ?_⟩, ?_⟩
  · have added : List.Forall₂ L'.Pairs (shape :: Heap.mark :: fields)
        (shape' :: Heap.mark :: fields') := .cons ⟨_, grows.same same⟩ (.cons mark (grows.all pairs))
    simpa using List.rel_append (grows.all s.words) added
  · have tiles := s.tiles.append (r := ⟨shape', fields'.length⟩) rfl
    simpa [L', recorded] using tiles
  · rcases List.mem_append.mp mem with old | new
    · exact s.classes r old
    · rw [List.mem_singleton.mp new]
      exact ⟨id, same.known, same.right, width⟩
  · have place : (UInt32.ofNat h'.pointer).toNat = headerRoom L.records := by
      rw [UInt32.toNat_ofNat', Nat.mod_eq_of_lt (by omega), s.pointer_room]
    simp only [Knows, place]
    exact Option.isSome_iff_exists.mpr ⟨_, headerAt?_new L.records _⟩

end Heaps
end Lockstep
end TaggedScript
