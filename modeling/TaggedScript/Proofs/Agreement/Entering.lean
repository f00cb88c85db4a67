import TaggedScript.Proofs.Agreement.Operations

/-!
When a function is entered, the scope of the call has what its slots have.
-/
namespace TaggedScript

/-- The value of the parameter of that name. -/
theorem get?_parameters {params : List String} (differ : params.Nodup) {args : List Value}
    (count : args.length = params.length) (t : Table) (x : String) :
    ((params.zip args).foldl (fun t (name, v) => t.set name v) t).get? x =
      match slotOf? params x with
      | some i => args[i]?
      | none => t.get? x := by
  induction params generalizing args t with
  | nil => rfl
  | cons y params ih =>
    cases args with
    | nil => cases count
    | cons a args =>
      rw [List.nodup_cons] at differ
      rw [List.zip_cons_cons, List.foldl_cons, ih differ.2 (Nat.succ.inj count), slotOf?_cons,
        Table.get?_set]
      by_cases same : y = x
      · subst same
        have absent : slotOf? params y = none := slotOf?_eq_none.mpr differ.1
        rw [absent, if_pos rfl, if_pos rfl]
        rfl
      · rw [if_neg (Ne.symm same), if_neg same]
        cases slotOf? params x <;> rfl

section
variable {pairs : List Value} {w v : World} {f : FunDef} {receiver receiver' : Value}
  {args args' : List Value}

theorem FunDef.Sound.of_variable (sound : f.Sound) {x : String} (mem : x ∈ f.variables) :
    x ≠ thisName ∧ x ≠ printName := by
  obtain ⟨e, listed, declares⟩ := List.mem_filterMap.mp mem
  have own : e ∈ e.parts := by
    rw [Expr.parts_eq]
    exact List.mem_cons_self
  obtain ⟨-, this, print⟩ := sound.parts e (Expr.mem_partsAll listed own)
  have bound := Expr.mem_bound_of_declares declares
  exact ⟨fun eq => this (eq ▸ bound), fun eq => print (eq ▸ bound)⟩

/-- A name of the scope of a call, and where its value is among the receiver and the arguments. -/
theorem callScope_get? (sound : f.Sound) (count : args.length = f.params.length) (x : String) :
    (World.callScope World.globalScope receiver f.params args).bindings.get? x =
      (slotOf? (thisName :: f.params) x).bind fun i => (receiver :: args)[i]? := by
  have this : slotOf? f.params thisName = none := slotOf?_eq_none.mpr sound.this
  rw [World.callScope, get?_parameters sound.differ count, slotOf?_cons]
  by_cases same : thisName = x
  · subst same
    rw [this, if_pos rfl]
    simp [Table.get?]
  · rw [if_neg same]
    cases slotOf? f.params x with
    | some i => rfl
    | none => simp [Table.get?, same]

namespace FunDef.Sound
variable (sound : f.Sound) (first : Nat)
include sound

theorem locals_eq :
    (f.procedure first).locals = extendSlots (thisName :: f.params) f.variables := by
  have distinct : (thisName :: f.params).Nodup := List.nodup_cons.mpr ⟨sound.this, sound.differ⟩
  rw [FunDef.procedure, ← extendSlots_declaredAll f distinct, sound.ordered.declaredAll_eq]

theorem mem_locals (x : String) :
    x ∈ (f.procedure first).locals ↔ x ∈ thisName :: f.params ∨ x ∈ f.variables := by
  rw [sound.locals_eq, mem_extendSlots]

/-- The receiver and the parameters have the first slots. -/
theorem slotOf?_parameter {x : String} {i : Nat}
    (slot : slotOf? (f.procedure first).locals x = some i) (listed : x ∈ thisName :: f.params) :
    slotOf? (thisName :: f.params) x = some i := by
  obtain ⟨j, early⟩ := Option.isSome_iff_exists.mp (slotOf?_isSome.mpr listed)
  have same := slotOf?_mono (prefix_extendSlots _ f.variables) early
  rw [← sound.locals_eq first, slot] at same
  rw [early, same]

theorem slotOf?_print : slotOf? (f.procedure first).locals printName = none := by
  rw [slotOf?_eq_none, sound.mem_locals]
  rintro (listed | listed)
  · obtain this | parameter := List.mem_cons.mp listed
    · revert this
      decide
    · exact sound.print parameter
  · exact (sound.of_variable listed).2 rfl

end FunDef.Sound

/-- The scope that was made for a call has what the slots of the call have. -/
theorem sameLocals_call (sound : f.Sound) (rooted : 0 < w.scopes.size)
    (count : args.length = f.params.length) (receivers : Same pairs receiver receiver')
    (same : List.Forall₂ (Same pairs) args args') (first : Nat)
    (scopes : v.scopes = w.scopes.push
      (World.callScope World.globalScope receiver f.params args)) :
    SameLocals pairs v ⟨w.scopes.size⟩ (f.procedure first).locals f.variables
      ((f.procedure first).slots receiver' args') := by
  have own : v.scope ⟨w.scopes.size⟩ =
      World.callScope World.globalScope receiver f.params args := by
    rw [World.scope, scopes, Array.getD_eq_getD_getElem?, Array.getElem?_push_size,
      Option.getD_some]
  have size : args'.length = f.params.length := same.length_eq.symm.trans count
  have unbound (x : String) (h : x ∉ thisName :: f.params) :
      v.lookupLocal? ⟨w.scopes.size⟩ x = none := by
    rw [World.lookupLocal?, own, callScope_get? sound count]
    rw [slotOf?_eq_none.mpr h, Option.bind_none]
  exact {
    inside := ⟨rooted, by rw [scopes, Array.size_push]; exact Nat.lt_succ_self _⟩
    parent := by rw [own, World.callScope]
    length := by
      have room : (f.procedure first).locals.length ≥ args'.length + 1 := by
        rw [sound.locals_eq, size]
        exact (prefix_extendSlots (thisName :: f.params) f.variables).length_le
      simp only [Procedure.slots, List.length_append, List.length_cons, List.length_replicate]
      omega
    bound := fun x i slot now => by
      have known := slotOf?_isSome.mp (Option.isSome_of_eq_some slot)
      have listed := ((sound.mem_locals first x).mp known).resolve_right now
      have early := sound.slotOf?_parameter first slot listed
      have inside : i < (receiver' :: args').length := by
        have lt := slotOf?_lt early
        rw [List.length_cons] at lt ⊢
        rwa [size]
      obtain ⟨a, given, related⟩ := forall₂_getElem? (.cons receivers same)
        (List.getElem?_eq_getElem inside)
      refine ⟨a, ?_, ?_⟩
      · rw [World.lookupLocal?, own, callScope_get? sound count, early]
        exact given
      · rw [Procedure.slots, List.getD_eq_getElem?_getD, List.getElem?_append_left inside,
          List.getElem?_eq_getElem inside]
        exact related
    unbound := fun x none => by
      apply unbound
      intro listed
      obtain none | variable_ := none
      · rw [slotOf?_eq_none, sound.mem_locals] at none
        exact none (.inl listed)
      · obtain this | parameter := List.mem_cons.mp listed
        · exact (sound.of_variable variable_).1 this
        · exact sound.ordered.fresh x variable_ parameter
    declared := fun x listed => slotOf?_isSome.mpr ((sound.mem_locals first x).mpr (.inr listed))
    print := sound.slotOf?_print first }

end
end TaggedScript
