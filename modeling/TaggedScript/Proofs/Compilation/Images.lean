import TaggedScript.Proofs.Compilation.Runs

/-!
What was compiled is ready to run in a world whose values a run may meet.
-/
namespace TaggedScript

/-- A run may begin in the world: its functions without code are tame, and the values that the run
can read are allowed and no references. -/
structure World.Lends (w : World) (I : Image) : Prop where
  natives : ∀ id n, (w.object id).body = .native n → n.Tame I
  globals : ∀ x, I.Reads x → I.allows (w.global x) ∧ ∀ offset, w.global x ≠ .ref offset
  fields : ∀ id x, I.allows (.object id) → I.Reads x →
    I.allows (w.field id x) ∧ ∀ offset, w.field id x ≠ .ref offset

/-- No script has acted on the world. Its functions print or apply an operator. -/
structure World.Builtin (w : World) : Prop where
  natives : ∀ id, match (w.object id).body with
    | .plain => True
    | .native n => n = .print ∨ ∃ op, n = .operator op
    | .compiled _ => False
  globals : ∀ x, w.global x = .undefined ∨
    ∃ id, w.global x = .object id ∧ id.index < w.objects.size
  fields : ∀ id x, w.field id x = .undefined

namespace World

theorem OnlyBuiltins.addFunction {w : World} (h : w.OnlyBuiltins) (name : String)
    (code : Code) : (w.addObject (.ofCode name code)).2.OnlyBuiltins := by
  intro id n native
  rw [object_addObject] at native
  split at native
  · cases native
  · exact h id n native

theorem Builtin.install {w : World} (h : w.Builtin) (name : String) {native : Native}
    (known : native = .print ∨ ∃ op, native = .operator op) : (w.install name native).Builtin where
  natives id := by
    rw [object_install]
    by_cases new : id.index = w.objects.size
    · rw [if_pos new]
      exact known
    · rw [if_neg new]
      exact h.natives id
  globals x := by
    rw [objects_size_install, global_install]
    split
    · exact .inr ⟨_, rfl, Nat.lt_succ_self _⟩
    · obtain none | ⟨id, same, inside⟩ := h.globals x
      · exact .inl none
      · exact .inr ⟨id, same, Nat.lt_succ_of_lt inside⟩
  fields id x := by
    rw [field, object_install]
    split
    · rfl
    · exact h.fields id x

theorem builtin_empty (closed : Bool) : (World.empty closed).Builtin where
  natives id := by simp [World.object, World.empty, default, HostObject.plain]
  globals x := by
    rw [global_eq]
    simp [World.empty, World.scope, globalScope, Table.get?]
  fields id x := by simp [field, World.object, World.empty, default, HostObject.plain,
    Table.get?]

/-- The world that programs start in. -/
theorem builtin_initial (closed : Bool) : (World.initial closed).Builtin :=
  initial_induction (builtin_empty closed) fun _ name _ known h => h.install name known

theorem Builtin.code?_eq_none {w : World} (h : w.Builtin) (id : ObjectId) :
    (w.object id).code? = none := by
  have native := h.natives id
  rw [HostObject.code?]
  split
  · rename_i code body
    rw [body] at native
    cases native
  · rfl

theorem Builtin.onlyBuiltins {w : World} (h : w.Builtin) : w.OnlyBuiltins := by
  intro id n native
  have known := h.natives id
  rw [native] at known
  exact known

/-- The value is an object of the world that has no code. -/
def Lists (w : World) (v : Value) : Prop :=
  ∃ id, v = .object id ∧ id.index < w.objects.size ∧ (w.object id).code? = none

end World

section
variable {c₀ c : Compiling} {ps : List Procedure}

/-- An object is that of a function that was compiled, or it is as it was before. -/
theorem Compiling.Adds.object (h : c₀.Adds ps c) (id : ObjectId) :
    (Program.placed c₀.world.objects.size ps id = none ∧
      c.world.object id = c₀.world.object id) ∨
    ∃ p, Program.placed c₀.world.objects.size ps id = some p ∧
      p.Compiled c (c.world.object id) := by
  obtain ⟨os, all, compiled⟩ := h.added
  have found : c.world.object id = (c₀.world.objects.toList ++ os)[id.index]?.getD default := by
    rw [World.object, Array.getD_eq_getD_getElem?, ← Array.getElem?_toList, all]
  have before : c₀.world.object id = c₀.world.objects.toList[id.index]?.getD default := by
    rw [World.object, Array.getD_eq_getD_getElem?, ← Array.getElem?_toList]
  rw [Program.placed]
  by_cases old : id.index < c₀.world.objects.size
  · rw [if_pos old]
    refine .inl ⟨rfl, ?_⟩
    rw [found, before, List.getElem?_append_left (by simpa using old)]
  rw [if_neg old]
  have new : c₀.world.objects.toList.length ≤ id.index := by simpa using old
  have size : c₀.world.objects.toList.length = c₀.world.objects.size := Array.length_toList
  rw [List.getElem?_append_right new, size] at found
  cases there : os[id.index - c₀.world.objects.size]? with
  | some o =>
    obtain ⟨p, listed, made⟩ := forall₂_getElem? compiled there
    rw [there] at found
    refine .inr ⟨p, listed, ?_⟩
    rw [found]
    exact made
  | none =>
    refine .inl ⟨?_, ?_⟩
    · rw [List.getElem?_eq_none_iff] at there ⊢
      rwa [compiled.length_eq]
    · rw [found, before, there, List.getElem?_eq_none new]

variable (adds : c₀.Adds ps c) (fresh : c₀.dictionary.entries = #[])
  (fits : c.dictionary.size ≤ 2 ^ 32)

include adds fresh in
/-- A dictionary that was empty names no object that was there before. -/
theorem Compiling.Adds.object_of_named {id : ObjectId} (named : .object id ∈ c.dictionary.entries) :
    c₀.world.object id = default := by
  have new : c₀.world.objects.size ≤ id.index := by
    obtain old | new := adds.named id named
    · simp [fresh] at old
    · exact new
  rw [World.object, Array.getD_eq_getD_getElem?, Array.getElem?_eq_none new]
  rfl

/-- What was compiled with a dictionary of its own, for a world that offers such values. -/
def Image.ofAdded (offers : Value → Prop)
    (codeless : ∀ id, offers (.object id) → (c₀.world.object id).code? = none) : Image where
  program := .placed c₀.world.objects.size ps
  compiled := c
  allows v := v.isInterned = false ∨ v ∈ c.dictionary.entries ∨ offers v
  fits := fits
  built id p known := by
    obtain ⟨other, -⟩ | ⟨q, same, compiled⟩ := adds.object id
    · cases other.symm.trans known
    · cases same.symm.trans known
      exact compiled
  plain v plain := .inl plain
  constants v mem := .inr (.inl mem)
  complete id allowed hasCode := by
    obtain ⟨-, old⟩ | ⟨q, same, -⟩ := adds.object id
    case inr =>
      rw [same]
      rfl
    rw [old] at hasCode
    obtain plain | entry | offered := allowed
    · cases plain
    · rw [adds.object_of_named fresh entry] at hasCode
      cases hasCode
    · rw [codeless id offered] at hasCode
      cases hasCode

/-- What a world lends to functions, it still lends with them in it. -/
theorem World.Lends.later {offers : Value → Prop}
    {codeless : ∀ id, offers (.object id) → (c₀.world.object id).code? = none}
    (lends : c₀.world.Lends (.ofAdded adds fresh fits offers codeless)) :
    c.world.Lends (.ofAdded adds fresh fits offers codeless) where
  natives id n native := by
    obtain ⟨-, old⟩ | ⟨p, -, compiled⟩ := adds.object id
    · rw [old] at native
      exact lends.natives id n native
    · obtain ⟨-, _, _, _, -, -, -, object⟩ := compiled
      rw [object] at native
      cases native
  globals x reads := by
    have same : c.world.global x = c₀.world.global x :=
      World.global_of_scopes (by rw [← adds.later.others]) x
    rw [same]
    exact lends.globals x reads
  fields id x allowed reads := by
    obtain ⟨-, old⟩ | ⟨p, -, compiled⟩ := adds.object id
    · rw [World.field, old]
      exact lends.fields id x allowed reads
    · obtain ⟨-, _, _, _, -, -, -, object⟩ := compiled
      rw [World.field, object]
      exact ⟨Image.plain _ _ rfl, by simp [HostObject.ofCode, Table.get?]⟩

/-- A machine made for functions has nothing in its heap. -/
theorem Engine.carries_make {I : Image} (lends : I.compiled.world.Lends I)
    (interned : I.compiled.dictionary.Interned) (config : EngineConfig) :
    (Engine.make config I.compiled.world I.compiled.dictionary).Carries I
      ⟨[], I.compiled.world, [], config.heapCapacity⟩ := fun _ => {
  world := rfl
  hosts := {
    code := .refl _
    names := fun _ => rfl
    natives := lends.natives
    shapes := rfl }
  dictionary := .refl _
  interned := interned
  entries := fun v mem => .inl (I.constants v mem)
  globals := by
    intro x reads
    obtain ⟨allowed, noReference⟩ := lends.globals x reads
    exact Memory.knows_of_ne allowed noReference
  fields := by
    intro id x known reads
    obtain ⟨allowed, noReference⟩ := lends.fields id x known reads
    exact Memory.knows_of_ne allowed noReference
  heap := .nil
  capacity := rfl
  addressed := fun offset there => by cases there }

include adds fresh in
theorem Compiling.Adds.interned : c.dictionary.Interned := by
  apply adds.later.interned
  constructor <;> simp [fresh]

/-- What was compiled in a world that no script has acted on. -/
def Image.ofBuiltin : Image :=
  .ofAdded adds fresh fits c₀.world.Lists fun _ ⟨_, same, _, codeless⟩ => by
    cases same
    exact codeless

theorem World.Builtin.lends (bare : c₀.world.Builtin) :
    c₀.world.Lends (.ofBuiltin adds fresh fits) where
  natives id n native := by
    obtain rfl | ⟨op, rfl⟩ := bare.onlyBuiltins id n native <;> trivial
  globals x _ := by
    obtain unbound | ⟨id, bound, inside⟩ := bare.globals x
    · rw [unbound]
      exact ⟨.inl rfl, by simp⟩
    · rw [bound]
      exact ⟨.inr (.inr ⟨id, rfl, inside, bare.code?_eq_none id⟩), by simp⟩
  fields id x _ _ := by
    rw [bare.fields id x]
    exact ⟨.inl rfl, by simp⟩

theorem Engine.carries_builtin (bare : c₀.world.Builtin) (config : EngineConfig) :
    (make config c.world c.dictionary).Carries (.ofBuiltin adds fresh fits)
      ⟨[], c.world, [], config.heapCapacity⟩ :=
  carries_make (I := .ofBuiltin adds fresh fits) (bare.lends adds fresh fits).later
    (adds.interned fresh) config

end
end TaggedScript
