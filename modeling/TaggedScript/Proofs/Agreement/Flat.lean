import TaggedScript.Machine.Compiler
import TaggedScript.Proofs.Semantics.Variables
import TaggedScript.Proofs.SyntaxInduction

/-!
Flat scripts. Their functions have no functions inside them and declare their variables in order,
and they leave `print` alone.
-/
namespace TaggedScript

namespace Expr

mutual

/-- An expression and all expressions in it, those in functions among them. -/
def parts : Expr → List Expr
  | literal s v => [literal s v]
  | var s x => [var s x]
  | assign s x declare e => assign s x declare e :: e.parts
  | field s r x => field s r x :: r.parts
  | setField s r x e => setField s r x e :: (e.parts ++ r.parts)
  | call s f args => call s f args :: (f.parts ++ partsAll args)
  | methodCall s r x args => methodCall s r x args :: (r.parts ++ partsAll args)
  | function s name params body => function s name params body :: partsAll body
  | object s fields => object s fields :: partsFields fields
  | cond s c t e => cond s c t e :: (c.parts ++ partsAll t ++ partsAll e)
  | ret s e => ret s e :: e.parts
  | block s body => block s body :: partsAll body

def partsAll : List Expr → List Expr
  | [] => []
  | e :: es => e.parts ++ partsAll es

def partsFields : List (String × Expr) → List Expr
  | [] => []
  | (_, e) :: fields => e.parts ++ partsFields fields

end

/-- All expressions inside an expression. -/
def inside (e : Expr) : List Expr := e.parts.tail

/-- The names to which an expression itself gives a value, in its scope or in a new one. -/
def bound : Expr → List String
  | assign _ x _ _ => [x]
  | function _ name params _ => name.toList ++ params
  | _ => []

/-- The variable that an expression itself reads or writes. -/
def mentioned : Expr → List String
  | var _ x => [x]
  | assign _ x _ _ => [x]
  | _ => []

theorem parts_eq (e : Expr) : e.parts = e :: e.inside := by
  cases e <;> rfl

theorem mem_partsAll {es : List Expr} {e p : Expr} (listed : e ∈ es) (part : p ∈ e.parts) :
    p ∈ partsAll es := by
  induction es with
  | nil => cases listed
  | cons e' es ih =>
    rw [partsAll, List.mem_append]
    obtain rfl | later := List.mem_cons.mp listed
    · exact .inl part
    · exact .inr (ih later)

theorem eq_assign_of_declares {e : Expr} {x : String} (h : e.declares? = some x) :
    ∃ s value, e = assign s x true value := by
  cases e with
  | assign s y declare value =>
    cases declare with
    | true =>
      cases h
      exact ⟨s, value, rfl⟩
    | false => cases h
  | _ => cases h

theorem mem_bound_of_declares {e : Expr} {x : String} (h : e.declares? = some x) : x ∈ e.bound := by
  obtain ⟨s, value, rfl⟩ := eq_assign_of_declares h
  exact List.mem_singleton.mpr rfl

end Expr

/-- The variables that the statements of a function declare. -/
def FunDef.variables (f : FunDef) : List String := f.body.filterMap Expr.declares?

/-- A function declares each of its variables once, in a statement of its own, and none of them
occurs before the end of that statement. -/
structure FunDef.Ordered (f : FunDef) : Prop where
  direct : ∀ e ∈ f.body, ∀ p ∈ e.inside, p.declares? = none
  fresh : ∀ x ∈ f.variables, x ∉ f.params
  once : f.variables.Nodup
  initial : ∀ e ∈ f.body, ∀ x, e.declares? = some x → ∀ p ∈ e.inside, x ∉ p.mentioned
  later : f.body.Pairwise fun e next =>
    ∀ x, next.declares? = some x → ∀ p ∈ e.parts, x ∉ p.mentioned

instance (f : FunDef) : Decidable f.Ordered :=
  decidable_of_iff
    ((∀ e ∈ f.body, ∀ p ∈ e.inside, p.declares? = none) ∧
      (∀ x ∈ f.variables, x ∉ f.params) ∧ f.variables.Nodup ∧
      (∀ e ∈ f.body, ∀ x ∈ e.declares?, ∀ p ∈ e.inside, x ∉ p.mentioned) ∧
      f.body.Pairwise fun e next => ∀ x ∈ next.declares?, ∀ p ∈ e.parts, x ∉ p.mentioned)
    ⟨fun ⟨direct, fresh, once, initial, later⟩ => ⟨direct, fresh, once, initial, later⟩,
      fun ⟨direct, fresh, once, initial, later⟩ => ⟨direct, fresh, once, initial, later⟩⟩

namespace Script

/-- The functions that a script defines. -/
def functions (s : Script) : List FunDef := (Expr.partsAll s.body).filterMap Expr.definition?

/-- A flat script: no function stands in the body of another, `print` is never declared, assigned or
taken as the name of a function or of a parameter, and all functions are ordered. -/
structure Flat (s : Script) : Prop where
  shallow : ∀ f ∈ s.functions, ∀ p ∈ Expr.partsAll f.body, p.definition? = none
  prints : ∀ p ∈ Expr.partsAll s.body, printName ∉ p.bound
  ordered : ∀ f ∈ s.functions, f.Ordered

instance (s : Script) : Decidable s.Flat :=
  decidable_of_iff
    ((∀ f ∈ s.functions, ∀ p ∈ Expr.partsAll f.body, p.definition?.isNone = true) ∧
      (∀ p ∈ Expr.partsAll s.body, printName ∉ p.bound) ∧ ∀ f ∈ s.functions, f.Ordered)
    ⟨fun ⟨shallow, prints, ordered⟩ =>
        ⟨fun f listed p part => Option.isNone_iff_eq_none.mp (shallow f listed p part), prints,
          ordered⟩,
      fun ⟨shallow, prints, ordered⟩ =>
        ⟨fun f listed p part => Option.isNone_iff_eq_none.mpr (shallow f listed p part), prints,
          ordered⟩⟩

end Script

open TaggedScript.Expr

/-- What holds no declaration and no function declares nothing. -/
theorem declared_inductive : Expr.Inductive
    (fun e => (∀ p ∈ e.parts, p.declares? = none) → e.declared = [])
    (fun es => (∀ p ∈ partsAll es, p.declares? = none) → declaredAll es = [])
    (fun fs => (∀ p ∈ partsFields fs, p.declares? = none) → declaredFields fs = []) where
  literal s v _ := rfl
  var s x _ := rfl
  assign s x declare e ih h := by
    rw [parts, List.forall_mem_cons] at h
    cases declare with
    | true => cases h.1
    | false => simpa [declared] using ih h.2
  field s r x ih h := by
    rw [parts, List.forall_mem_cons] at h
    exact ih h.2
  setField s r x e ihr ihe h := by
    rw [parts, List.forall_mem_cons, List.forall_mem_append] at h
    simp [declared, ihe h.2.1, ihr h.2.2]
  call s f args ihf ihargs h := by
    rw [parts, List.forall_mem_cons, List.forall_mem_append] at h
    simp [declared, ihf h.2.1, ihargs h.2.2]
  methodCall s r x args ihr ihargs h := by
    rw [parts, List.forall_mem_cons, List.forall_mem_append] at h
    simp [declared, ihr h.2.1, ihargs h.2.2]
  function s name params body _ _ := rfl
  object s fields ih h := by
    rw [parts, List.forall_mem_cons] at h
    exact ih h.2
  cond s c t e ihc iht ihe h := by
    rw [parts, List.forall_mem_cons, List.forall_mem_append, List.forall_mem_append] at h
    simp [declared, ihc h.2.1.1, iht h.2.1.2, ihe h.2.2]
  ret s e ih h := by
    rw [parts, List.forall_mem_cons] at h
    exact ih h.2
  block s body ih h := by
    rw [parts, List.forall_mem_cons] at h
    exact ih h.2
  nil _ := rfl
  cons e es ihe ihes h := by
    rw [partsAll, List.forall_mem_append] at h
    simp [declaredAll, ihe h.1, ihes h.2]
  noFields _ := rfl
  consField x e fields ihe ihfields h := by
    rw [partsFields, List.forall_mem_append] at h
    simp [declaredFields, ihe h.1, ihfields h.2]

/-- A function with all declarations in statements of their own declares what these do. -/
theorem FunDef.Ordered.declaredAll_eq {f : FunDef} (h : f.Ordered) :
    declaredAll f.body = f.variables := by
  have direct := h.direct
  rw [FunDef.variables]
  generalize f.body = es at direct
  induction es with
  | nil => rfl
  | cons e es ih =>
    rw [List.forall_mem_cons] at direct
    have rest := ih direct.2
    cases own : e.declares? with
    | none =>
      have nothing : e.declared = [] := by
        apply declared_inductive.expr e
        rw [parts_eq, List.forall_mem_cons]
        exact ⟨own, direct.1⟩
      rw [List.filterMap_cons_none own, declaredAll, nothing, rest, List.nil_append]
    | some x =>
      obtain ⟨s, value, rfl⟩ := eq_assign_of_declares own
      have nothing : value.declared = [] := declared_inductive.expr value direct.1
      rw [List.filterMap_cons_some own, declaredAll, declared, nothing, rest]
      rfl

end TaggedScript
