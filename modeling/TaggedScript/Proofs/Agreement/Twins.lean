import TaggedScript.Proofs.Agreement.Flat
import TaggedScript.Proofs.Agreement.Watched
import TaggedScript.Proofs.Compilation.Natives

/-!
How what the tree evaluator acts on and what a meaning acts on belong together. The objects that the
evaluator made are paired, in their order, with the functions and records of the meaning.
-/
namespace TaggedScript

/-- Two values are the same to a script. `pairs` has the value for each object. -/
inductive Same (pairs : List Value) : Value → Value → Prop
  | undefined : Same pairs .undefined .undefined
  | bool (b : Bool) : Same pairs (.bool b) (.bool b)
  | int (n : Int32) : Same pairs (.int n) (.int n)
  | str (s : String) : Same pairs (.str s) (.str s)
  | object {id : ObjectId} {v : Value} : pairs[id.index]? = some v → Same pairs (.object id) v

/-- Two tables have the same names, with the same values. -/
def SameFields (pairs : List Value) (t u : Table) : Prop :=
  ∀ x, Option.Rel (Same pairs) (t.get? x) (u.get? x)

/-- What a flat script asks of each of its functions, and its text too. -/
structure FunDef.Sound (f : FunDef) : Prop where
  differ : f.params.Nodup
  this : thisName ∉ f.params
  print : printName ∉ f.params
  ordered : f.Ordered
  parts : ∀ p ∈ Expr.partsAll f.body,
    p.definition? = none ∧ thisName ∉ p.bound ∧ printName ∉ p.bound

/-- A function as it is called, when `first` is the place of the first function inside it. -/
def FunDef.procedure (f : FunDef) (first : Nat) : Procedure where
  name := f.displayName
  arity := f.params.length
  locals := f.slotNames
  body := f.body
  first := first

/-- The functions without code are the same on both sides, and closures are functions of the
program. -/
inductive Twins (program : Program) (w : World) : HostObject → ObjectId → Prop
  | builtin {o : HostObject} {n : Native} {id : ObjectId} : n = .print ∨ (∃ op, n = .operator op) →
      o.body = .native n → (w.object id).body = .native n → program id = none → Twins program w o id
  | closure {o : HostObject} {run : RunId} {f : FunDef} {id : ObjectId} {first : Nat} :
      o.body = .native (.closure World.globalScope run f) → o.name = f.displayName → f.Sound →
      program id = some (f.procedure first) → Twins program w o id

/-- What stands for an object of the tree evaluator. -/
inductive Stands (program : Program) (σ : Memory) (o : HostObject) : Value → Prop
  | function {id : ObjectId} : Twins program σ.world o id → (σ.world.object id).isCallable = true →
      (σ.world.object id).name = o.name → Stands program σ o (.object id)
  | record {offset : UInt32} : o.body = .plain → (recordAt? σ.records offset.toNat).isSome = true →
      Stands program σ o (.ref offset)

/-- The fields of a function or of a record. -/
def Memory.fieldsOf (σ : Memory) : Value → Table
  | .object id => (σ.world.object id).fields
  | .ref offset => σ.record offset
  | _ => []

/-- The objects of the tree evaluator and what stands for them. The functions of the program from
the place `made` on are not made yet. -/
structure SameObjects (program : Program) (made : Nat) (pairs : List Value) (w : World)
    (σ : Memory) : Prop where
  size : pairs.length = w.objects.size
  distinct : pairs.Nodup
  stands : ∀ id v, pairs[id.index]? = some v → Stands program σ (w.object id) v
  fields : ∀ id v, pairs[id.index]? = some v →
    SameFields pairs (w.object id).fields (σ.fieldsOf v)
  before : ∀ id, .object id ∈ pairs → (program id).isSome → id.index < made
  callable : ∀ id p, program id = some p → (σ.world.object id).isCallable = true ∧
    (σ.world.object id).name = p.name
  after : ∀ id, (program id).isSome → made ≤ id.index → (σ.world.object id).fields = []

/-- The function that prints is made before all others. -/
def printId : ObjectId := ⟨0⟩

/-- The globals have the same values. Nobody has touched `this` and `print`. -/
structure SameGlobals (pairs : List Value) (w : World) (σ : Memory) : Prop where
  rooted : 0 < w.scopes.size ∧ 0 < σ.world.scopes.size
  values : ∀ x, Same pairs (w.global x) (σ.world.global x)
  this : w.global thisName = .undefined
  print : w.global printName = .object printId ∧ (w.object printId).body = .native .print

/-- A world of the tree evaluator and what a meaning acts on, apart from local variables. -/
structure Agree (program : Program) (made : Nat) (pairs : List Value) (w : World)
    (σ : Memory) : Prop where
  output : w.output = σ.world.output
  closed : w.closed = σ.world.closed
  objects : SameObjects program made pairs w σ
  globals : SameGlobals pairs w σ

section
variable {pairs more : List Value}

theorem getElem?_mono {α : Type} {xs ys : List α} (h : xs <+: ys) {i : Nat} {x : α}
    (found : xs[i]? = some x) : ys[i]? = some x := by
  obtain ⟨later, rfl⟩ := h
  rw [List.getElem?_append_left (List.getElem?_eq_some_iff.mp found).1, found]

theorem Same.mono (h : pairs <+: more) {v u : Value} (same : Same pairs v u) : Same more v u := by
  cases same with
  | object found => exact .object (getElem?_mono h found)
  | undefined | bool | int | str => constructor

theorem same_all_mono (h : pairs <+: more) {vs us : List Value}
    (same : List.Forall₂ (Same pairs) vs us) : List.Forall₂ (Same more) vs us :=
  same.imp fun _ _ => Same.mono h

theorem SameFields.mono (h : pairs <+: more) {t u : Table} (same : SameFields pairs t u) :
    SameFields more t u := by
  intro x
  match t.get? x, u.get? x, same x with
  | _, _, .some values => exact .some (values.mono h)
  | _, _, .none => exact .none

theorem SameFields.getD {t u : Table} (h : SameFields pairs t u) (x : String) :
    Same pairs ((t.get? x).getD .undefined) ((u.get? x).getD .undefined) := by
  match t.get? x, u.get? x, h x with
  | _, _, .some values => exact values
  | _, _, .none => exact .undefined

theorem SameFields.set {t u : Table} (h : SameFields pairs t u) (x : String) {v v' : Value}
    (same : Same pairs v v') : SameFields pairs (t.set x v) (u.set x v') := by
  intro y
  rw [Table.get?_set, Table.get?_set]
  split
  · exact .some same
  · exact h y

theorem sameFields_nil : SameFields pairs [] [] := fun _ => .none

theorem SameFields.cons {t u : Table} (h : SameFields pairs t u) (x : String) {v v' : Value}
    (same : Same pairs v v') : SameFields pairs ((x, v) :: t) ((x, v') :: u) := by
  intro y
  simp only [Table.get?]
  split
  · exact .some same
  · exact h y

theorem same_of_plain {v : Value} (plain : v.isInterned = false) (h : ∀ offset, v ≠ .ref offset) :
    Same pairs v v := by
  cases v with
  | undefined | bool | int => constructor
  | str | object | shape => cases plain
  | ref offset => exact absurd rfl (h offset)

/-- Only `false` is the same as `false`. -/
theorem Same.eq_false_iff {program : Program} {made : Nat} {w : World} {σ : Memory}
    (h : SameObjects program made pairs w σ) {v u : Value} (same : Same pairs v u) :
    v = .bool false ↔ u = .bool false := by
  cases same with
  | undefined | bool | int | str => rfl
  | @object id u found =>
    cases h.stands id u found <;> simp

end

section
variable {program : Program} {made : Nat} {pairs : List Value} {w : World} {σ : Memory}
  (h : SameObjects program made pairs w σ)
include h

theorem SameObjects.index_lt {id : ObjectId} {v : Value} (found : pairs[id.index]? = some v) :
    id.index < w.objects.size := by
  rw [← h.size]
  exact (List.getElem?_eq_some_iff.mp found).1

/-- Objects are functions exactly where what stands for them is no record. -/
theorem SameObjects.callable_iff {id : ObjectId} {v : Value} (found : pairs[id.index]? = some v) :
    (w.object id).isCallable = true ↔ ∃ g, v = .object g := by
  cases h.stands id v found with
  | function twins callable name =>
    cases twins with
    | builtin _ body | closure body =>
      simp [HostObject.isCallable, body]
  | record body => simp [HostObject.isCallable, body]

/-- What is no plain object shows in the same way. -/
theorem Same.text_eq {v u : Value} (same : Same pairs v u) (shown : w.isPlain v = false) :
    w.text v = σ.world.text u := by
  cases same with
  | undefined | bool | int | str => rfl
  | @object id u found =>
    have callable : (w.object id).isCallable = true := by simpa [World.isPlain] using shown
    cases h.stands id u found with
    | function twins callable' name =>
      simp only [World.text, World.textWithin, callable, callable', name, ↓reduceIte]
    | record body => simp [HostObject.isCallable, body] at callable

theorem Same.typeOf_eq {v u : Value} (same : Same pairs v u) : w.typeOf v = σ.world.typeOf u := by
  cases same with
  | undefined | bool | int | str => rfl
  | @object id u found =>
    have callable := h.callable_iff found
    cases h.stands id u found with
    | function twins callable' name =>
      simp only [World.typeOf, callable.mpr ⟨_, rfl⟩, callable', ↓reduceIte]
    | record body => simp [World.typeOf, HostObject.isCallable, body]

/-- Values can be told apart exactly where their counterparts can. -/
theorem Same.eq_iff {a a' b b' : Value} (left : Same pairs a a') (right : Same pairs b b') :
    a = b ↔ a' = b' := by
  have noValue {id : ObjectId} {v : Value} (found : pairs[id.index]? = some v) :
      v ≠ .undefined ∧ (∀ b, v ≠ .bool b) ∧ (∀ n, v ≠ .int n) ∧ ∀ s, v ≠ .str s := by
    cases h.stands id v found <;> simp
  cases left with
  | undefined | bool | int | str =>
    cases right with
    | undefined | bool | int | str => simp
    | object found =>
      have other := noValue found
      simp [Ne.symm other.1, fun b => Ne.symm (other.2.1 b), fun n => Ne.symm (other.2.2.1 n),
        fun s => Ne.symm (other.2.2.2 s)]
  | @object id v found =>
    cases right with
    | undefined | bool | int | str =>
      have other := noValue found
      simp [other]
    | @object id' v' found' =>
      constructor
      · intro same
        cases same
        exact Option.some.inj (found.symm.trans found')
      · rintro rfl
        have place := (List.getElem?_inj (List.getElem?_eq_some_iff.mp found).1 h.distinct).mp
          (found.trans found'.symm)
        cases id
        cases id'
        exact congrArg _ (congrArg _ place)

/-- An operator has the same result on both sides. -/
theorem SameObjects.apply_eq (op : Operator) {a a' b b' : Value} (left : Same pairs a a')
    (right : Same pairs b b') : op.apply w a b = op.apply σ.world a' b' := by
  have order : Operator.order? a b = Operator.order? a' b' := by
    cases left with
    | undefined | bool => rfl
    | int | str =>
      cases right with
      | undefined | bool | int | str => rfl
      | object found => cases h.stands _ _ found <;> rfl
    | object found => cases h.stands _ _ found <;> rfl
  have types := left.typeOf_eq h
  have types' := right.typeOf_eq h
  have equal := left.eq_iff h right
  cases op with
  | eq | ne => simp only [Operator.apply, ne_eq, equal]
  | lt | le | gt | ge => simp only [Operator.apply, order, types, types']
  | add | sub | mul | div | rem =>
    simp only [Operator.apply, types, types']
    cases left with
    | undefined | bool | str => rfl
    | int =>
      cases right with
      | undefined | bool | int | str => rfl
      | object found => cases h.stands _ _ found <;> rfl
    | object found => cases h.stands _ _ found <;> rfl

end
end TaggedScript
