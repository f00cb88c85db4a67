import TaggedScript.Proofs.Agreement.Reading
import TaggedScript.Proofs.Semantics.Meaning

/-!
Statements that follow on each other. Without a `return` of its own what was read from a text leaves
the variables of a script as they were: `this` is the only one, and nothing is assigned to that.
-/
namespace TaggedScript

namespace Expr

mutual

/-- There is a `return` in the expression, functions inside it left out. -/
def returns : Expr → Bool
  | literal .. => false
  | var .. => false
  | assign _ _ _ e => e.returns
  | field _ r _ => r.returns
  | setField _ r _ e => r.returns || e.returns
  | call _ f args => f.returns || returnsAll args
  | methodCall _ r _ args => r.returns || returnsAll args
  | function .. => false
  | object _ fields => returnsFields fields
  | cond _ c t e => c.returns || returnsAll t || returnsAll e
  | ret .. => true
  | block _ body => returnsAll body

def returnsAll : List Expr → Bool
  | [] => false
  | e :: es => e.returns || returnsAll es

def returnsFields : List (String × Expr) → Bool
  | [] => false
  | (_, e) :: fields => e.returns || returnsFields fields

end

end Expr

/-- It does not return, and if it has a result then the variables are as they were. -/
class Straight {α : Type} (x : Meaning α) : Prop where
  goes : ∀ σ, match x σ with
    | .ok _ τ => τ.slots = σ.slots
    | .error (.returned _) _ => False
    | .error _ _ => True

namespace Straight
variable {α β : Type}

instance pure (a : α) : Straight (Pure.pure a : Meaning α) := ⟨fun _ => rfl⟩

theorem throw {stop : Stop} (other : ∀ v, stop ≠ .returned v) :
    Straight (MonadExcept.throw stop : Meaning α) where
  goes σ := by
    cases stop with
    | returned v => exact other v rfl
    | failed | tooDeep | noRoom => trivial

instance fail (e : Failure) : Straight (Meaning.fail e : Meaning α) := throw nofun

instance bind (x : Meaning α) (f : α → Meaning β) [hx : Straight x] [hf : ∀ a, Straight (f a)] :
    Straight (x >>= f) where
  goes σ := by
    have first := hx.goes σ
    rw [bind_eq]
    generalize x σ = r at first
    rcases r with ⟨a, τ⟩ | ⟨stop, τ⟩
    · have second := (hf a).goes τ
      rw [show τ.slots = σ.slots from first] at second
      exact second
    · cases stop <;> exact first

instance ite (c : Prop) [Decidable c] (x y : Meaning α) [hx : Straight x] [hy : Straight y] :
    Straight (if c then x else y) := by
  split
  · exact hx
  · exact hy

instance look : Straight (get : Meaning Memory) := ⟨fun _ => rfl⟩

instance outside (f : Action α) : Straight (Meaning.outside f) where
  goes σ := by
    unfold Meaning.outside
    cases f σ.world with
    | ok => rfl
    | error => trivial

instance read (locals : List String) (x : String) : Straight (Meaning.read locals x) := by
  unfold Meaning.read
  infer_instance

theorem write {x : String} (name : x ≠ thisName) (v : Value) :
    Straight (Meaning.write [thisName] x v) where
  goes σ := by
    have global : x ∉ [thisName] := by simpa using name
    simp only [Meaning.write, if_neg global, modify_eq]

instance getField (receiver : Value) (x : String) : Straight (Meaning.getField receiver x) where
  goes σ := by cases receiver <;> first | rfl | trivial

instance setField (receiver : Value) (x : String) (v : Value) :
    Straight (Meaning.setField receiver x v) where
  goes σ := by
    cases receiver with
    | ref place =>
      simp only [Meaning.setField, bind_eq, get_eq]
      by_cases has : ((σ.record place).get? x).isSome = true
      · simp only [has, ↓reduceIte, set_eq]
      · simp only [has]
        trivial
    | object => rfl
    | undefined | bool | int | str | shape => trivial

instance newRecord (t : Table) : Straight (Meaning.newRecord t) where
  goes σ := by
    rw [Meaning.newRecord_eq]
    by_cases full : σ.capacity - roomOf σ.records < recordRoom t ∨ 2 ^ 32 ≤ roomOf σ.records
    · rw [if_pos full]
      trivial
    · rw [if_neg full]

instance print (v : Value) : Straight (Meaning.print v) := by
  unfold Meaning.print
  infer_instance

instance setGlobal (x : String) (v : Value) :
    Straight (modify fun σ => { σ with world := σ.world.setGlobal x v } : Meaning Unit) :=
  ⟨fun _ => rfl⟩

end Straight

section
variable (apply : Applier) [∀ callee receiver args, Straight (apply callee receiver args)]

theorem straight_inductive : Expr.Inductive
    (fun e => e.Readable → e.returns = false → ∀ first,
      Straight (e.meaning apply [thisName] first))
    (fun es => Expr.AllReadable es → Expr.returnsAll es = false → ∀ first,
      Straight (Expr.meaningAll apply [thisName] first es) ∧
      Straight (Expr.meaningBlock apply [thisName] first es))
    (fun fs => Expr.FieldsReadable fs → Expr.returnsFields fs = false → ∀ first,
      Straight (Expr.meaningFields apply [thisName] first fs)) where
  literal s v _ _ first := by
    simp only [Expr.meaning]
    infer_instance
  var s x _ _ first := by
    simp only [Expr.meaning]
    infer_instance
  assign s x declare e ih readable goes first := by
    rw [Expr.Readable, Expr.parts, List.forall_mem_cons] at readable
    obtain ⟨own, inside⟩ := readable
    have value := ih inside goes
    have name : x ≠ thisName := by simpa [Expr.bound, eq_comm] using own.this
    have writes := Straight.write name
    simp only [Expr.meaning]
    infer_instance
  field s r x ih readable goes first := by
    rw [Expr.Readable, Expr.parts, List.forall_mem_cons] at readable
    have receiver := ih readable.2 goes
    simp only [Expr.meaning]
    infer_instance
  setField s r x e ihr ihe readable goes first := by
    rw [Expr.Readable, Expr.parts, List.forall_mem_cons, List.forall_mem_append] at readable
    simp only [Expr.returns, Bool.or_eq_false_iff] at goes
    have value := ihe readable.2.1 goes.2
    have receiver := ihr readable.2.2 goes.1
    simp only [Expr.meaning]
    infer_instance
  call s f args ihf ihargs readable goes first := by
    rw [Expr.Readable, Expr.parts, List.forall_mem_cons, List.forall_mem_append] at readable
    simp only [Expr.returns, Bool.or_eq_false_iff] at goes
    have callee := ihf readable.2.1 goes.1
    have values := fun first => (ihargs readable.2.2 goes.2 first).1
    simp only [Expr.meaning]
    infer_instance
  methodCall s r x args ihr ihargs readable goes first := by
    rw [Expr.Readable, Expr.parts, List.forall_mem_cons, List.forall_mem_append] at readable
    simp only [Expr.returns, Bool.or_eq_false_iff] at goes
    have receiver := ihr readable.2.1 goes.1
    have values := fun first => (ihargs readable.2.2 goes.2 first).1
    simp only [Expr.meaning]
    infer_instance
  function s name params body _ _ _ first := by
    simp only [Expr.meaning]
    cases name <;> infer_instance
  object s fields ih readable goes first := by
    rw [Expr.Readable, Expr.parts, List.forall_mem_cons] at readable
    have values := ih readable.2 goes
    simp only [Expr.meaning]
    infer_instance
  cond s c t e ihc iht ihe readable goes first := by
    rw [Expr.Readable, Expr.parts, List.forall_mem_cons, List.forall_mem_append,
      List.forall_mem_append] at readable
    simp only [Expr.returns, Bool.or_eq_false_iff] at goes
    have test := ihc readable.2.1.1 goes.1.1
    have whenTrue := fun first => (iht readable.2.1.2 goes.1.2 first).2
    have whenFalse := fun first => (ihe readable.2.2 goes.2 first).2
    simp only [Expr.meaning]
    infer_instance
  ret s e ih readable goes first := by cases goes
  block s body ih readable goes first := by
    rw [Expr.Readable, Expr.parts, List.forall_mem_cons] at readable
    have all := (ih readable.2 goes first).2
    simp only [Expr.meaning]
    infer_instance
  nil _ _ first := by
    simp only [Expr.meaningAll, Expr.meaningBlock]
    exact ⟨inferInstance, inferInstance⟩
  cons e es ihe ihes readable goes first := by
    rw [Expr.AllReadable, Expr.partsAll, List.forall_mem_append] at readable
    simp only [Expr.returnsAll, Bool.or_eq_false_iff] at goes
    have one := ihe readable.1 goes.1
    have values := fun first => (ihes readable.2 goes.2 first).1
    have block := fun first => (ihes readable.2 goes.2 first).2
    simp only [Expr.meaningAll, Expr.meaningBlock]
    exact ⟨inferInstance, inferInstance⟩
  noFields _ _ first := by
    simp only [Expr.meaningFields]
    infer_instance
  consField x e fields ihe ihfields readable goes first := by
    rw [Expr.FieldsReadable, Expr.partsFields, List.forall_mem_append] at readable
    simp only [Expr.returnsFields, Bool.or_eq_false_iff] at goes
    have one := ihe readable.1 goes.1
    have rest := ihfields readable.2 goes.2
    simp only [Expr.meaningFields]
    infer_instance

end

/-- A function may return, but it returns from itself. -/
theorem straight_run {apply : Applier} (p : Procedure) (receiver : Value) (args : List Value) :
    Straight (p.run apply receiver args) where
  goes σ := by
    simp only [Procedure.run]
    rcases Expr.meaningBlock apply p.locals p.first p.body _ with ⟨⟨⟩, τ⟩ | ⟨_ | _ | _ | _, τ⟩
    · rfl
    · rfl
    · trivial
    · trivial
    · trivial

instance straight_apply (program : Program) (call : Procedure → Value → List Value → Meaning Value)
    [∀ p receiver args, Straight (call p receiver args)] (callee receiver : Value)
    (args : List Value) : Straight (Meaning.apply program call callee receiver args) := by
  unfold Meaning.apply
  split
  · split <;> infer_instance
  · infer_instance

instance straight_callWithin (program : Program) (depth : Nat) (p : Procedure) (receiver : Value)
    (args : List Value) : Straight (Meaning.callWithin program depth p receiver args) := by
  cases depth with
  | zero => exact .throw nofun
  | succ depth =>
    rw [Meaning.callWithin]
    exact straight_run p receiver args

end TaggedScript
