import TaggedScript.Proofs.Compilation.Relation

/-!
The heap of a machine does to words what the meaning of a script does to records.
-/
namespace TaggedScript

namespace Table

/-- The fields of a table by their place. -/
theorem get?_eq (t : Table) (x : String) :
    t.get? x = ((t.map (·.1)).findIdx? (· = x)).bind fun i => (t.map (·.2))[i]? := by
  induction t with
  | nil => rfl
  | cons p t ih =>
    obtain ⟨k, v⟩ := p
    simp only [get?, List.map_cons, List.findIdx?_cons]
    by_cases same : k = x
    · simp [same]
    · simp only [same, ↓reduceIte, decide_false, Bool.false_eq_true, ih]
      cases (t.map (·.1)).findIdx? (· = x) <;> simp

theorem isSome_get? (t : Table) (x : String) :
    (t.get? x).isSome = ((t.map (·.1)).findIdx? (· = x)).isSome := by
  rw [get?_eq]
  cases found : (t.map (·.1)).findIdx? (· = x) with
  | none => rfl
  | some i =>
    obtain ⟨bound, -⟩ := List.findIdx?_eq_some_iff_getElem.mp found
    rw [Option.bind_some, List.getElem?_eq_getElem (by simpa using bound)]
    rfl

/-- A field that is there is changed at its place. -/
theorem set_of_place {t : Table} {x : String} {i : Nat}
    (found : (t.map (·.1)).findIdx? (· = x) = some i) (v : Value) :
    (t.set x v).map (·.1) = t.map (·.1) ∧ (t.set x v).map (·.2) = (t.map (·.2)).set i v := by
  induction t generalizing i with
  | nil => cases found
  | cons p t ih =>
    obtain ⟨k, u⟩ := p
    simp only [List.map_cons, List.findIdx?_cons] at found
    by_cases same : k = x
    · simp only [same, decide_true, ↓reduceIte, Option.some.injEq] at found
      subst found
      simp [set, same]
    · simp only [same, decide_false, Bool.false_eq_true, ↓reduceIte] at found
      obtain ⟨j, later, next⟩ := Option.map_eq_some_iff.mp found
      subst next
      obtain ⟨keys, values⟩ := ih later
      simp [set, same, keys, values]

theorem length_set_of_place {t : Table} {x : String} {i : Nat}
    (found : (t.map (·.1)).findIdx? (· = x) = some i) (v : Value) :
    (t.set x v).length = t.length := by
  simpa using congrArg List.length (set_of_place found v).1

end Table

theorem forall₂_set {α β : Type} {R : α → β → Prop} {xs : List α} {ys : List β} {i : Nat} {x : α}
    {y : β} (h : List.Forall₂ R xs ys) (same : R x y) :
    List.Forall₂ R (xs.set i x) (ys.set i y) := by
  induction h generalizing i with
  | nil => exact .nil
  | cons first rest ih =>
    cases i with
    | zero => exact .cons same rest
    | succ i => exact .cons first ih

theorem forall₂_getElem? {α β : Type} {R : α → β → Prop} {xs : List α} {ys : List β}
    (h : List.Forall₂ R xs ys) {i : Nat} {y : β} (found : ys[i]? = some y) :
    ∃ x, xs[i]? = some x ∧ R x y := by
  induction h generalizing i with
  | nil => cases found
  | cons first rest ih =>
    cases i with
    | zero =>
      cases found
      exact ⟨_, rfl, first⟩
    | succ i => exact ih found

namespace HeapHolds
variable {I : Image} {σ : Memory} {a : FrameMachine} {ws : List Word} {ts : List Table}

theorem length_eq (h : HeapHolds I σ a ws ts) : ws.length = roomOf ts := by
  induction h with
  | nil => rfl
  | cons _ _ means _ ih =>
    have size := means.length_eq
    simp only [List.length_map] at size
    simp only [List.length_cons, List.length_append, ih, size, roomOf, List.map_cons,
      List.sum_cons, recordRoom, Heap.headerSize]
    omega

theorem append (h : HeapHolds I σ a ws ts) {t : Table} {shape : Word} {id : ShapeId}
    {fields : List Word}
    (names : a.dictionary.size ≤ 2 ^ 32 → a.dictionary.lookup? shape = some (.shape id))
    (declares : (a.world.shape id).fields = t.map (·.1))
    (means : List.Forall₂ (Denotes I σ a) fields (t.map (·.2))) :
    HeapHolds I σ a (ws ++ shape :: Heap.mark :: fields) (ts ++ [t]) := by
  induction h with
  | nil =>
    have last : HeapHolds I σ a [] [] := .nil
    simpa using HeapHolds.cons names declares means last
  | cons first keys values _ ih =>
    have longer := HeapHolds.cons first keys values ih
    simpa using longer

/-- The words of a record, and those before and after it. -/
structure Split (I : Image) (σ : Memory) (a : FrameMachine) (ws : List Word) (ts : List Table) (offset : Nat)
    (t : Table) where
  before : List Word
  after : List Word
  shape : Word
  id : ShapeId
  fields : List Word
  all : ws = before ++ shape :: Heap.mark :: (fields ++ after)
  place : before.length = offset
  names : a.dictionary.size ≤ 2 ^ 32 → a.dictionary.lookup? shape = some (.shape id)
  declares : (a.world.shape id).fields = t.map (·.1)
  means : List.Forall₂ (Denotes I σ a) fields (t.map (·.2))
  /-- Another record with as many fields may take its place. -/
  replace : ∀ (u : Table) (others : List Word), (a.world.shape id).fields = u.map (·.1) →
    List.Forall₂ (Denotes I σ a) others (u.map (·.2)) →
    HeapHolds I σ a (before ++ shape :: Heap.mark :: (others ++ after)) (setRecord ts offset u)

theorem split (h : HeapHolds I σ a ws ts) {offset : Nat} {t : Table}
    (found : recordAt? ts offset = some t) : Nonempty (Split I σ a ws ts offset t) := by
  induction h generalizing offset with
  | nil => cases found
  | @cons r rest fields more shape id names declares means tail ih =>
    have size := means.length_eq
    simp only [List.length_map] at size
    simp only [recordAt?] at found
    by_cases first : offset = 0
    · subst first
      rw [if_pos rfl] at found
      injection found with same
      subst same
      exact ⟨{
        before := [], after := more, shape, id, fields, names, declares, means
        all := rfl
        place := rfl
        replace := fun u others keys values => by
          rw [setRecord, if_pos rfl]
          exact .cons names keys values tail }⟩
    · rw [if_neg first] at found
      by_cases beyond : recordRoom r ≤ offset
      · rw [if_pos beyond] at found
        obtain ⟨s⟩ := ih found
        have place := s.place
        have room := beyond
        simp only [recordRoom, Heap.headerSize] at place room
        exact ⟨{
          before := shape :: Heap.mark :: (fields ++ s.before)
          after := s.after, shape := s.shape, id := s.id, fields := s.fields
          names := s.names, declares := s.declares, means := s.means
          all := by simp [s.all]
          place := by simp only [List.length_cons, List.length_append, size, place]; omega
          replace := fun u others keys values => by
            rw [setRecord, if_neg first, if_pos beyond]
            have replaced := HeapHolds.cons names declares means (s.replace u others keys values)
            simpa using replaced }⟩
      · rw [if_neg beyond] at found
        cases found

/-- A field is written at its place. -/
theorem set (h : HeapHolds I σ a ws ts) {offset : Nat} {t : Table} {x : String} {i : Nat} {w : Word}
    {v : Value} (found : recordAt? ts offset = some t)
    (place : (t.map (·.1)).findIdx? (· = x) = some i) (means : Denotes I σ a w v) :
    HeapHolds I σ a (ws.set (offset + Heap.headerSize + i) w) (setRecord ts offset (t.set x v)) := by
  obtain ⟨⟨before, after, shape, id, fields, all, start, names, declares, values, replace⟩⟩ :=
    h.split found
  obtain ⟨keys, changes⟩ := Table.set_of_place place v
  obtain ⟨bound, -⟩ := List.findIdx?_eq_some_iff_getElem.mp place
  have size := values.length_eq
  simp only [List.length_map] at size bound
  have changed : List.Forall₂ (Denotes I σ a) (fields.set i w) ((t.set x v).map (·.2)) := by
    rw [changes]
    exact forall₂_set values means
  have replaced := replace _ _ (declares.trans keys.symm) changed
  have slot : offset + Heap.headerSize + i - before.length = i + 1 + 1 := by
    simp only [Heap.headerSize]
    omega
  rw [all, List.set_append_right _ _ (by omega), slot, List.set_cons_succ, List.set_cons_succ,
    List.set_append_left _ _ (by omega)]
  exact replaced

end HeapHolds

namespace Holds
variable {I : Image} {σ : Memory} {a : FrameMachine} {offset : UInt32} {t : Table}

theorem contains (h : Holds I σ a) (found : recordAt? σ.records offset.toNat = some t) :
    a.heap.contains offset = true := by
  obtain ⟨⟨before, after, shape, id, fields, all, start, names, declares, values, replace⟩⟩ :=
    h.heap.split found
  have size := congrArg List.length all
  simp only [Array.length_toList, List.length_append, List.length_cons] at size
  apply decide_eq_true
  simp only [Heap.pointer, Heap.headerSize]
  omega

theorem shapeOf (h : Holds I σ a) (fits : a.dictionary.size ≤ 2 ^ 32)
    (found : recordAt? σ.records offset.toNat = some t) :
    ∃ shape, a.heap.shapeOf a.world a.dictionary offset = .ok shape ∧
      shape.fields = t.map (·.1) := by
  obtain ⟨⟨before, after, shape, id, fields, all, start, names, declares, values, replace⟩⟩ :=
    h.heap.split found
  have word : a.heap.words.getD offset.toNat .undefined = shape := by
    rw [Array.getD_eq_getD_getElem?, ← Array.getElem?_toList, all, ← start]
    simp
  exact ⟨a.world.shape id,
    Heap.shapeOf_of_lookup? a.world (h.contains found) (word ▸ names fits), declares⟩

/-- The place of a field that the record has. -/
theorem place (h : Holds I σ a) (found : recordAt? σ.records offset.toNat = some t) {x : String}
    {i : Nat} (field : (t.map (·.1)).findIdx? (· = x) = some i) :
    a.heap.place offset i = .ok (offset.toNat + Heap.headerSize + i) := by
  obtain ⟨⟨before, after, shape, id, fields, all, start, names, declares, values, replace⟩⟩ :=
    h.heap.split found
  obtain ⟨bound, -⟩ := List.findIdx?_eq_some_iff_getElem.mp field
  have size := congrArg List.length all
  have count := values.length_eq
  simp only [Array.length_toList, List.length_append, List.length_cons, List.length_map]
    at size bound count
  have inside : offset.toNat + Heap.headerSize + i < a.heap.words.size := by
    simp only [Heap.headerSize]
    omega
  rw [Heap.place]
  exact if_pos inside

theorem getField (h : Holds I σ a) (fits : a.dictionary.size ≤ 2 ^ 32)
    (found : recordAt? σ.records offset.toNat = some t) (x : String) :
    ∃ w, a.heap.getField a.world a.dictionary offset x = .ok w ∧
      Denotes I σ a w ((t.get? x).getD .undefined) := by
  obtain ⟨shape, known, declares⟩ := h.shapeOf fits found
  simp only [Heap.getField, known, bind, Except.bind, Shape.slotOf?, declares, Table.get?_eq]
  cases field : (t.map (·.1)).findIdx? (· = x) with
  | none =>
    refine ⟨.undefined, rfl, ?_, fun _ => by simp [decode]⟩
    exact Memory.knows_plain I σ rfl (by simp)
  | some i =>
    obtain ⟨⟨before, after, shape, id, fields, all, start, names, -, values, replace⟩⟩ :=
      h.heap.split found
    obtain ⟨bound, -⟩ := List.findIdx?_eq_some_iff_getElem.mp field
    have there := List.getElem?_eq_getElem (l := t.map (·.2)) (i := i) (by simpa using bound)
    obtain ⟨w, stored, means⟩ := forall₂_getElem? values there
    have inside := (List.getElem?_eq_some_iff.mp stored).1
    have word : a.heap.words.getD (offset.toNat + Heap.headerSize + i) .undefined = w := by
      have slot : offset.toNat + Heap.headerSize + i - before.length = i + 1 + 1 := by
        simp only [Heap.headerSize]
        omega
      rw [Array.getD_eq_getD_getElem?, ← Array.getElem?_toList, all,
        List.getElem?_append_right (by omega), slot, List.getElem?_cons_succ,
        List.getElem?_cons_succ, List.getElem?_append_left inside, stored]
      rfl
    simp only [h.place found field]
    rw [word, Option.bind_some, there]
    exact ⟨w, rfl, means⟩

theorem fieldPlace (h : Holds I σ a) (fits : a.dictionary.size ≤ 2 ^ 32)
    (found : recordAt? σ.records offset.toNat = some t) (x : String) :
    a.heap.fieldPlace a.world a.dictionary offset x =
      match (t.map (·.1)).findIdx? (· = x) with
      | some i => .ok (offset.toNat + Heap.headerSize + i)
      | none => .error (.unknownField x) := by
  obtain ⟨shape, known, declares⟩ := h.shapeOf fits found
  simp only [Heap.fieldPlace, known, bind, Except.bind, Shape.slotOf?, declares]
  cases field : (t.map (·.1)).findIdx? (· = x) with
  | none => rfl
  | some i => exact h.place found field

end Holds
end TaggedScript
