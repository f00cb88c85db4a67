import TaggedScript.Machine.Compiler

/-!
Which names have slots, and what becomes of the others.
-/
namespace TaggedScript

section
variable {slots : List String} {x y : String} {i : Nat}

/-- The slot of a name is the first place where the name stands. -/
theorem getElem?_slotOf? (h : slotOf? slots x = some i) : slots[i]? = some x := by
  obtain ⟨inside, same, -⟩ := List.findIdx?_eq_some_iff_getElem.mp h
  rw [List.getElem?_eq_getElem inside, of_decide_eq_true same]

theorem slotOf?_inj (hx : slotOf? slots x = some i) (hy : slotOf? slots y = some i) : x = y :=
  Option.some.inj ((getElem?_slotOf? hx).symm.trans (getElem?_slotOf? hy))

theorem slotOf?_lt (h : slotOf? slots x = some i) : i < slots.length :=
  (List.findIdx?_eq_some_iff_getElem.mp h).1

theorem slotOf?_isSome : (slotOf? slots x).isSome = true ↔ x ∈ slots := by
  rw [slotOf?, List.findIdx?_isSome]
  simp

theorem slotOf?_eq_none : slotOf? slots x = none ↔ x ∉ slots := by
  rw [← Option.not_isSome_iff_eq_none, slotOf?_isSome]

theorem slotOf?_this (x : String) :
    slotOf? [thisName] x = if x = thisName then some 0 else none := by
  simp only [slotOf?, List.findIdx?_cons, List.findIdx?_nil, eq_comm (a := thisName)]
  split <;> simp_all

theorem slotOf?_mono {xs ys : List String} (h : xs <+: ys) (slot : slotOf? xs x = some i) :
    slotOf? ys x = some i := by
  obtain ⟨more, rfl⟩ := h
  rw [slotOf?] at slot ⊢
  rw [List.findIdx?_append, slot]
  rfl

theorem slotOf?_cons (y : String) (ys : List String) (x : String) :
    slotOf? (y :: ys) x = if y = x then some 0 else (slotOf? ys x).map (· + 1) := by
  simp only [slotOf?, List.findIdx?_cons, decide_eq_true_eq]

end

section
variable {slots names : List String} {x : String}

theorem mem_extendSlots : x ∈ extendSlots slots names ↔ x ∈ slots ∨ x ∈ names := by
  unfold extendSlots
  induction names generalizing slots with
  | nil => simp
  | cons y names ih =>
    rw [List.foldl_cons, ih, List.mem_cons]
    split
    · rename_i old
      constructor
      · rintro (mem | mem)
        · exact .inl mem
        · exact .inr (.inr mem)
      · rintro (mem | rfl | mem)
        · exact .inl mem
        · exact .inl old
        · exact .inr mem
    · rw [List.mem_append, List.mem_singleton, or_assoc]

theorem prefix_extendSlots (slots names : List String) : slots <+: extendSlots slots names := by
  unfold extendSlots
  induction names generalizing slots with
  | nil => exact List.prefix_refl _
  | cons y names ih =>
    rw [List.foldl_cons]
    split
    · exact ih slots
    · exact (List.prefix_append slots [y]).trans (ih (slots ++ [y]))

theorem nodup_concat_of_notMem (differ : slots.Nodup) (new : x ∉ slots) :
    (slots ++ [x]).Nodup := by
  rw [List.nodup_append]
  refine ⟨differ, List.pairwise_singleton _ x, fun y mem z last same => new ?_⟩
  rwa [← List.mem_singleton.mp last, ← same]

theorem nodup_extendSlots (differ : slots.Nodup) (names : List String) :
    (extendSlots slots names).Nodup := by
  unfold extendSlots
  induction names generalizing slots with
  | nil => exact differ
  | cons y names ih =>
    rw [List.foldl_cons]
    split
    · exact ih differ
    · rename_i new
      exact ih (nodup_concat_of_notMem differ new)

theorem eraseDups_of_nodup (differ : slots.Nodup) : slots.eraseDups = slots := by
  induction slots with
  | nil => rfl
  | cons x slots ih =>
    rw [List.nodup_cons] at differ
    have others : slots.filter (fun y => !y == x) = slots := by
      rw [List.filter_eq_self]
      intro y mem
      simpa using fun same : y = x => differ.1 (same ▸ mem)
    rw [List.eraseDups_cons, others, ih differ.2]

/-- Each name gets its slot where it first occurs. -/
theorem extendSlots_eq (differ : slots.Nodup) (names : List String) :
    extendSlots slots names = (slots ++ names).eraseDups := by
  induction names generalizing slots with
  | nil => rw [List.append_nil, eraseDups_of_nodup differ]; rfl
  | cons y names ih =>
    rw [extendSlots, List.foldl_cons]
    split
    · rename_i old
      have rest := ih differ
      rw [extendSlots] at rest
      rw [rest, List.eraseDups_append, List.eraseDups_append, List.cons_removeAll,
        if_neg (by simpa using old)]
    · rename_i new
      have rest := ih (nodup_concat_of_notMem differ new)
      rw [List.append_assoc, List.singleton_append] at rest
      exact rest

end

end TaggedScript
