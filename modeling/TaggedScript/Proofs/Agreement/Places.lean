import TaggedScript.Proofs.Agreement.Changes

/-!
Where an expression stands. Its variables are names in a scope on one side and slots on the other.
-/
namespace TaggedScript

/-- Outside of all functions, after so many of them were made; or in the body of one, with the scope
and the variables of its call and those that it is still to declare. -/
inductive Place where
  | top (made : Nat)
  | inner (scope : ScopeId) (locals later : List String) (made : Nat)

namespace Place

def scope : Place → ScopeId
  | top _ => World.globalScope
  | inner scope .. => scope

def locals : Place → List String
  | top _ => [thisName]
  | inner _ locals .. => locals

def later : Place → List String
  | top _ => []
  | inner _ _ later _ => later

def made : Place → Nat
  | top made => made
  | inner _ _ _ made => made

/-- The place after an expression with so many functions in it. -/
def next : Place → Nat → Place
  | top made, n => top (made + n)
  | inner scope locals later made, _ => inner scope locals later made

end Place

/-- Another place in the same body, where no fewer functions are made. -/
structure Place.Before (p q : Place) : Prop where
  scope : q.scope = p.scope
  made : p.made ≤ q.made

namespace Place.Before
variable {p q r : Place}

theorem refl (p : Place) : p.Before p := ⟨rfl, Nat.le_refl _⟩

theorem next (p : Place) (n : Nat) : p.Before (p.next n) := by
  cases p with
  | top made => exact ⟨rfl, Nat.le_add_right made n⟩
  | inner => exact .refl _

theorem of_le (p : Place) {n k : Nat} (h : n ≤ k) : (p.next n).Before (p.next k) := by
  cases p with
  | top made => exact ⟨rfl, Nat.add_le_add_left h made⟩
  | inner => exact .refl _

end Place.Before

namespace Place

theorem next_add (p : Place) (n k : Nat) : p.next (n + k) = (p.next n).next k := by
  cases p with
  | top made => simp only [next, Nat.add_assoc]
  | inner => rfl

theorem scope_next (p : Place) (n : Nat) : (p.next n).scope = p.scope := by
  cases p <;> rfl

theorem locals_next (p : Place) (n : Nat) : (p.next n).locals = p.locals := by
  cases p <;> rfl

theorem later_next (p : Place) (n : Nat) : (p.next n).later = p.later := by
  cases p <;> rfl

end Place

/-- The value of a name in a function with these variables. -/
def Memory.valueOf (σ : Memory) (locals : List String) (x : String) : Value :=
  match slotOf? locals x with
  | some i => σ.slots.getD i .undefined
  | none => σ.world.global x

/-- The names of a scope have the values of the slots, those aside that are declared later. -/
structure SameLocals (pairs : List Value) (w : World) (scope : ScopeId) (locals later : List String)
    (slots : List Value) : Prop where
  inside : World.globalScope.index < scope.index ∧ scope.index < w.scopes.size
  parent : (w.scope scope).parent = some World.globalScope
  length : slots.length = locals.length
  bound : ∀ x i, slotOf? locals x = some i → x ∉ later →
    ∃ v, w.lookupLocal? scope x = some v ∧ Same pairs v (slots.getD i .undefined)
  unbound : ∀ x, slotOf? locals x = none ∨ x ∈ later → w.lookupLocal? scope x = none
  declared : ∀ x ∈ later, (slotOf? locals x).isSome = true
  print : slotOf? locals printName = none

/-- The variables of a place have the same values on both sides. -/
def Place.Settled (p : Place) (pairs : List Value) (w : World) (slots : List Value) : Prop :=
  match p with
  | .top _ => slots = [.undefined]
  | .inner scope locals later _ => SameLocals pairs w scope locals later slots

/-- Both sides agree at a place. -/
structure Place.Here (program : Program) (p : Place) (pairs : List Value) (w : World)
    (σ : Memory) : Prop where
  agree : Agree program p.made pairs w σ
  settled : p.Settled pairs w σ.slots

/-- At most this scope and the global one were changed, of those that there were. -/
structure World.Kept (scope : ScopeId) (w v : World) : Prop where
  size : w.scopes.size ≤ v.scopes.size
  others : ∀ id : ScopeId, id.index < w.scopes.size → id ≠ scope → id ≠ globalScope →
    v.scope id = w.scope id

namespace World

/-- A name of a function belongs to the scope of the call if this binds it, or is a global. -/
theorem resolve_inner {w : World} {scope : ScopeId} (inner : globalScope.index < scope.index)
    (parent : (w.scope scope).parent = some globalScope) (x : String) :
    w.resolve scope x = if (w.lookupLocal? scope x).isSome then scope else globalScope := by
  rw [resolve, lookupLocal?, parent]
  cases bound : (w.scope scope).bindings.get? x with
  | none => simp [inner, resolve_root]
  | some v => simp

theorem global_register {w : World} {scope : ScopeId} (apart : globalScope ≠ scope) (x : String)
    (v : Value) (y : String) : (w.register scope x v).global y = w.global y := by
  rw [global_eq, global_eq, scope_register_of_ne apart]

namespace Kept
variable {scope other : ScopeId} {w v u : World}

theorem refl (scope : ScopeId) (w : World) : w.Kept scope w := ⟨Nat.le_refl _, fun _ _ _ _ => rfl⟩

theorem trans (h : w.Kept scope v) (g : v.Kept scope u) : w.Kept scope u where
  size := Nat.le_trans h.size g.size
  others id inside apart inner :=
    (g.others id (Nat.lt_of_lt_of_le inside h.size) apart inner).trans
      (h.others id inside apart inner)

/-- What changes no scope but the global one changes no other. -/
theorem any (h : w.Kept globalScope v) (scope : ScopeId) : w.Kept scope v where
  size := h.size
  others id inside _ inner := h.others id inside inner inner

theorem of_scopes (h : v.scopes = w.scopes) (scope : ScopeId) : w.Kept scope v :=
  ⟨Nat.le_of_eq (by rw [h]), fun _ _ _ _ => by rw [World.scope, World.scope, h]⟩

theorem register (w : World) (scope : ScopeId) (x : String) (v : Value) :
    w.Kept scope (w.register scope x v) where
  size := Nat.le_of_eq (scopes_size_register w scope x v).symm
  others _ _ apart _ := scope_register_of_ne apart x v

end Kept
end World

section
variable {pairs more : List Value} {w v : World} {slots : List Value}

theorem SameLocals.later {scope : ScopeId} {locals later : List String}
    (h : SameLocals pairs w scope locals later slots) (grows : pairs <+: more)
    (size : w.scopes.size ≤ v.scopes.size) (kept : v.scope scope = w.scope scope) :
    SameLocals more v scope locals later slots where
  inside := ⟨h.inside.1, Nat.lt_of_lt_of_le h.inside.2 size⟩
  parent := by rw [kept, h.parent]
  length := h.length
  bound x i slot now := by
    obtain ⟨u, bound, same⟩ := h.bound x i slot now
    exact ⟨u, by rw [World.lookupLocal?, kept]; exact bound, same.mono grows⟩
  unbound x none := by
    rw [World.lookupLocal?, kept]
    exact h.unbound x none
  declared := h.declared
  print := h.print

/-- What changes no scope but the global one changes no local variable. -/
theorem Place.Settled.later {p : Place} (h : p.Settled pairs w slots) (grows : pairs <+: more)
    (kept : w.Kept World.globalScope v) : p.Settled more v slots := by
  cases p with
  | top => exact h
  | inner scope locals later made =>
    have apart : scope ≠ World.globalScope := by
      rintro rfl
      exact Nat.lt_irrefl _ h.inside.1
    exact SameLocals.later h grows kept.size (kept.others scope h.inside.2 apart apart)

end

section
variable {program : Program} {p : Place} {pairs : List Value} {w : World} {σ : Memory}

theorem Place.Here.next (h : p.Here program pairs w σ) (n : Nat) :
    (p.next n).Here program pairs w σ := by
  cases p with
  | top => exact ⟨h.agree.mono (Nat.le_add_right _ _), h.settled⟩
  | inner => exact h

/-- Only objects were changed or made. -/
theorem Place.Here.withObjects (h : p.Here program pairs w σ) {more : List Value} {v : World}
    {τ : Memory} (agree : Agree program p.made more v τ) (grows : pairs <+: more)
    (left : v.scopes = w.scopes) (right : τ.slots = σ.slots) : p.Here program more v τ where
  agree := agree
  settled := by
    rw [right]
    exact h.settled.later grows (.of_scopes left _)

/-- A name has the same value on both sides, unless it is declared later. -/
theorem Place.Here.read (h : p.Here program pairs w σ) {x : String} (now : x ∉ p.later) :
    Same pairs (w.lookup p.scope x) (σ.valueOf p.locals x) := by
  cases p with
  | top made =>
    obtain ⟨agree, slots⟩ := h
    have global : w.lookup World.globalScope x = w.global x := rfl
    simp only [Place.scope, Place.locals, Memory.valueOf, slotOf?_this, global]
    by_cases this : x = thisName
    · rw [if_pos this, this, agree.globals.this, slots]
      exact .undefined
    · rw [if_neg this]
      exact agree.globals.values x
  | inner scope locals later made =>
    obtain ⟨agree, settled⟩ := h
    have owner := World.resolve_inner settled.inside.1 settled.parent x
    simp only [Place.scope, Place.locals, Memory.valueOf, World.lookup, owner]
    cases slot : slotOf? locals x with
    | some i =>
      obtain ⟨v, bound, same⟩ := settled.bound x i slot now
      simp only [bound, Option.isSome_some, ↓reduceIte, Option.getD_some]
      exact same
    | none =>
      simp only [settled.unbound x (.inl slot), Option.isSome_none, Bool.false_eq_true, ↓reduceIte]
      have global := agree.globals.values x
      rwa [World.global, World.lookup, World.resolve_root] at global

/-- The name `print` belongs to the function that prints. -/
theorem Place.Here.lookup_print (h : p.Here program pairs w σ) :
    w.lookup p.scope printName = .object printId := by
  obtain ⟨agree, settled⟩ := h
  have global := agree.globals.print.1
  cases p with
  | top made => exact global
  | inner scope locals later made =>
    have owner := World.resolve_inner settled.inside.1 settled.parent printName
    have unbound := settled.unbound printName (.inl settled.print)
    rw [unbound, Option.isSome_none, if_neg Bool.false_ne_true] at owner
    rwa [World.global, World.lookup, World.resolve_root, ← owner] at global

/-- A variable of a function was given a value. -/
theorem SameLocals.set {scope : ScopeId} {locals later rest : List String} {slots : List Value}
    (h : SameLocals pairs w scope locals later slots) {x : String} {i : Nat}
    (slot : slotOf? locals x = some i) (others : ∀ y, y ∈ rest ↔ y ∈ later ∧ y ≠ x) {a b : Value}
    (same : Same pairs a b) :
    SameLocals pairs (w.register scope x a) scope locals rest (slots.set i b) where
  inside := ⟨h.inside.1, by rw [World.scopes_size_register]; exact h.inside.2⟩
  parent := by
    have kept : ((w.register scope x a).scope scope).parent = (w.scope scope).parent := by
      simp only [World.scope, World.register, Array.getD_eq_getD_getElem?, Array.getElem?_modify]
      rw [Array.getElem?_eq_getElem h.inside.2]
      rfl
    rw [kept, h.parent]
  length := by rw [List.length_set, h.length]
  bound y j slot' now := by
    rw [World.lookupLocal?_register]
    by_cases mine : y = x
    · subst mine
      obtain rfl : i = j := Option.some.inj (slot.symm.trans slot')
      have inside : i < slots.length := by
        rw [h.length]
        exact slotOf?_lt slot
      rw [if_pos ⟨⟨rfl, h.inside.2⟩, rfl⟩]
      refine ⟨a, rfl, ?_⟩
      rwa [List.getD_eq_getElem?_getD, List.getElem?_set_self inside, Option.getD_some]
    · have apart : i ≠ j := by
        rintro rfl
        exact mine (slotOf?_inj slot' slot)
      rw [if_neg fun both => mine both.2, List.getD_eq_getElem?_getD, List.getElem?_set_ne apart,
        ← List.getD_eq_getElem?_getD]
      exact h.bound y j slot' fun mem => now ((others y).mpr ⟨mem, mine⟩)
  unbound y none := by
    have other : y ≠ x := by
      rintro rfl
      obtain none | mem := none
      · rw [slot] at none
        cases none
      · exact ((others y).mp mem).2 rfl
    rw [World.lookupLocal?_register, if_neg fun both => other both.2]
    exact h.unbound y (none.imp_right fun mem => ((others y).mp mem).1)
  declared y mem := h.declared y ((others y).mp mem).1
  print := h.print

/-- What a name was given a value in. -/
def Memory.write (σ : Memory) (locals : List String) (x : String) (v : Value) : Memory :=
  match slotOf? locals x with
  | some i => { σ with slots := σ.slots.set i v }
  | none => { σ with world := σ.world.setGlobal x v }

theorem Agree.setLocal {made : Nat} (h : Agree program made pairs w σ) {scope : ScopeId}
    (inner : World.globalScope.index < scope.index) (x : String) (a : Value)
    (slots : List Value) :
    Agree program made pairs (w.register scope x a) { σ with slots } := by
  have apart : World.globalScope ≠ scope := fun same => Nat.lt_irrefl _ (same ▸ inner)
  exact h.locals rfl rfl rfl (by rw [World.scopes_size_register]; exact h.globals.rooted.1)
    (World.global_register apart x a) rfl rfl

/-- A name was given a value, on both sides. -/
theorem Place.Here.write (h : p.Here program pairs w σ) {x : String} (now : x ∉ p.later)
    (this : x ≠ thisName) (print : x ≠ printName) {a b : Value} (same : Same pairs a b) :
    p.Here program pairs (w.assign p.scope x a) (σ.write p.locals x b) ∧
      w.Kept p.scope (w.assign p.scope x a) := by
  cases p with
  | top made =>
    obtain ⟨agree, slots⟩ := h
    simp only [Place.scope, Place.locals, Memory.write, slotOf?_this, if_neg this,
      World.assign_root]
    exact ⟨⟨agree.setGlobal this print same, slots⟩, .register _ _ _ _⟩
  | inner scope locals later made =>
    obtain ⟨agree, settled⟩ := h
    have owner := World.resolve_inner settled.inside.1 settled.parent x
    simp only [Place.scope, Place.locals, Memory.write, World.assign, owner]
    cases slot : slotOf? locals x with
    | some i =>
      obtain ⟨v, bound, -⟩ := settled.bound x i slot now
      simp only [bound, Option.isSome_some, ↓reduceIte]
      have others : ∀ y, y ∈ later ↔ y ∈ later ∧ y ≠ x :=
        fun y => ⟨fun mem => ⟨mem, fun same => now (same ▸ mem)⟩, And.left⟩
      exact ⟨⟨agree.setLocal settled.inside.1 x a _, settled.set slot others same⟩,
        .register _ _ _ _⟩
    | none =>
      simp only [settled.unbound x (.inl slot), Option.isSome_none, Bool.false_eq_true, ↓reduceIte]
      have kept := World.Kept.register w World.globalScope x a
      exact ⟨⟨agree.setGlobal this print same, Place.Settled.later (p := .inner scope locals later
        made) settled (List.prefix_refl _) kept⟩, kept.any scope⟩

/-- A function declared the next of its variables. -/
theorem Place.Here.declare {scope : ScopeId} {locals later : List String} {made : Nat} {x : String}
    (h : (Place.inner scope locals (x :: later) made).Here program pairs w σ) (once : x ∉ later)
    {a b : Value} (same : Same pairs a b) :
    w.lookupLocal? scope x = none ∧
      (Place.inner scope locals later made).Here program pairs (w.register scope x a)
        (σ.write locals x b) := by
  obtain ⟨agree, settled⟩ := h
  have mem : x ∈ x :: later := List.mem_cons_self
  obtain ⟨i, slot⟩ := Option.isSome_iff_exists.mp (settled.declared x mem)
  have others : ∀ y, y ∈ later ↔ y ∈ x :: later ∧ y ≠ x := by
    intro y
    rw [List.mem_cons]
    exact ⟨fun mem => ⟨.inr mem, fun same => once (same ▸ mem)⟩,
      fun ⟨mem, other⟩ => mem.resolve_left other⟩
  simp only [Memory.write, slot]
  exact ⟨settled.unbound x (.inr mem),
    ⟨agree.setLocal settled.inside.1 x a _, settled.set slot others same⟩⟩

end
end TaggedScript
