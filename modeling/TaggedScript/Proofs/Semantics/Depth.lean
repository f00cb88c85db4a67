import TaggedScript.Proofs.Effects
import TaggedScript.Proofs.Semantics.Meaning
import TaggedScript.Proofs.SyntaxInduction

/-!
Allowing more calls inside each other changes no meaning that there is.
-/
namespace TaggedScript

namespace Meaning
variable {α β : Type}

/-- Two meanings are the same where the first does not go too deep. -/
def Refines (x y : Meaning α) : Prop := ∀ σ, (∃ τ, x σ = .error .tooDeep τ) ∨ x σ = y σ

namespace Refines

theorem refl (x : Meaning α) : Refines x x := fun _ => .inr rfl

theorem trans {x y z : Meaning α} (h : Refines x y) (g : Refines y z) : Refines x z := by
  intro σ
  rcases h σ with deep | same
  · exact .inl deep
  · rw [same]
    exact g σ

theorem bind {x y : Meaning α} {f g : α → Meaning β} (h : Refines x y)
    (next : ∀ a, Refines (f a) (g a)) : Refines (x >>= f) (y >>= g) := by
  intro σ
  rcases h σ with ⟨τ, deep⟩ | same
  · refine .inl ⟨τ, ?_⟩
    rw [bind_eq, deep]
  · rw [bind_eq, bind_eq, same]
    cases y σ with
    | ok a τ => exact next a τ
    | error stop τ => exact .inr rfl

end Refines
end Meaning

open Meaning

section
variable {apply apply' : Applier} (locals : List String)
  (h : ∀ callee receiver args, Refines (apply callee receiver args) (apply' callee receiver args))
include h

/-- Trees mean the same wherever calls do. -/
theorem refines_inductive : Expr.Inductive
    (fun e => ∀ first, Refines (e.meaning apply locals first) (e.meaning apply' locals first))
    (fun es => ∀ first,
      Refines (Expr.meaningAll apply locals first es) (Expr.meaningAll apply' locals first es) ∧
      Refines (Expr.meaningBlock apply locals first es) (Expr.meaningBlock apply' locals first es))
    (fun fs => ∀ first, Refines (Expr.meaningFields apply locals first fs)
      (Expr.meaningFields apply' locals first fs)) where
  literal s v first := .refl _
  var s x first := by
    simp only [Expr.meaning]
    exact .refl _
  assign s x declare e ih first := by
    simp only [Expr.meaning]
    exact (ih first).bind fun v => .refl _
  field s r x ih first := by
    simp only [Expr.meaning]
    exact (ih first).bind fun receiver => .refl _
  setField s r x e ihr ihe first := by
    simp only [Expr.meaning]
    exact (ihe first).bind fun v => (ihr _).bind fun receiver => .refl _
  call s f args ihf ihargs first := by
    simp only [Expr.meaning]
    split
    · exact (ihargs first).1.bind fun values => .refl _
    · exact (ihf first).bind fun callee => (ihargs _).1.bind fun values => h callee _ values
  methodCall s r x args ihr ihargs first := by
    simp only [Expr.meaning]
    exact (ihr first).bind fun receiver => (Refines.refl _).bind fun method =>
      (ihargs _).1.bind fun values => h method receiver values
  function s name params body _ first := by
    simp only [Expr.meaning]
    exact .refl _
  object s fields ih first := by
    simp only [Expr.meaning]
    exact (ih first).bind fun table => .refl _
  cond s c t e ihc iht ihe first := by
    simp only [Expr.meaning]
    apply (ihc first).bind
    intro v
    split
    · exact (ihe _).2.bind fun _ => .refl _
    · exact (iht _).2.bind fun _ => .refl _
  ret s e ih first := by
    simp only [Expr.meaning]
    exact (ih first).bind fun v => .refl _
  block s body ih first := by
    simp only [Expr.meaning]
    exact (ih first).2.bind fun _ => .refl _
  nil first := by
    simp only [Expr.meaningAll, Expr.meaningBlock]
    exact ⟨.refl _, .refl _⟩
  cons e es ihe ihes first := by
    simp only [Expr.meaningAll, Expr.meaningBlock]
    exact ⟨(ihe first).bind fun v => (ihes _).1.bind fun vs => .refl _,
      (ihe first).bind fun _ => (ihes _).2⟩
  noFields first := by
    simp only [Expr.meaningFields]
    exact .refl _
  consField x e fields ihe ihfields first := by
    simp only [Expr.meaningFields]
    exact (ihe first).bind fun v => (ihfields _).bind fun rest => .refl _

end

theorem refines_run {apply apply' : Applier}
    (h : ∀ callee receiver args, Refines (apply callee receiver args) (apply' callee receiver args))
    (p : Procedure) (receiver : Value) (args : List Value) :
    Refines (p.run apply receiver args) (p.run apply' receiver args) := by
  intro σ
  have body := (((refines_inductive p.locals h).list p.body) p.first).2
    { σ with slots := p.slots receiver args }
  simp only [Procedure.run]
  rcases body with ⟨τ, deep⟩ | same
  · rw [deep]
    exact .inl ⟨_, rfl⟩
  · rw [same]
    exact .inr rfl

theorem refines_apply {program : Program} {call call' : Procedure → Value → List Value → Meaning Value}
    (h : ∀ p receiver args, Refines (call p receiver args) (call' p receiver args))
    (callee receiver : Value) (args : List Value) :
    Refines (apply program call callee receiver args) (apply program call' callee receiver args) := by
  unfold Meaning.apply
  split
  · split
    · split
      · exact h _ receiver args
      · exact .refl _
    · exact .refl _
  · exact .refl _

theorem refines_callWithin_succ (program : Program) (depth : Nat) (p : Procedure)
    (receiver : Value) (args : List Value) :
    Refines (callWithin program depth p receiver args)
      (callWithin program (depth + 1) p receiver args) := by
  induction depth generalizing p receiver args with
  | zero => exact fun σ => .inl ⟨σ, rfl⟩
  | succ depth ih => exact refines_run (refines_apply ih) p receiver args

theorem refines_callWithin {program : Program} {depth more : Nat} (le : depth ≤ more)
    (p : Procedure) (receiver : Value) (args : List Value) :
    Refines (callWithin program depth p receiver args)
      (callWithin program more p receiver args) := by
  induction le with
  | refl => exact .refl _
  | step _ ih => exact ih.trans (refines_callWithin_succ program _ p receiver args)

namespace Script

/-- What a script comes to. Functions that call each other without end come to nothing. -/
def Means (s : Script) (first : Nat) (σ : Memory) (r : EStateM.Result Stop Memory Value) : Prop :=
  (∀ τ, r ≠ .error .tooDeep τ) ∧ ∃ depth, s.meaning first depth σ = r

/-- A script comes to one thing at most. -/
theorem means_unique {s : Script} {first : Nat} {σ : Memory}
    {r r' : EStateM.Result Stop Memory Value} (h : s.Means first σ r) (g : s.Means first σ r') :
    r = r' := by
  obtain ⟨shallow, depth, here⟩ := h
  obtain ⟨shallow', depth', there⟩ := g
  have enough {d : Nat} {q : EStateM.Result Stop Memory Value} (le : d ≤ max depth depth')
      (shallow : ∀ τ, q ≠ .error .tooDeep τ) (here : s.meaning first d σ = q) :
      s.meaning first (max depth depth') σ = q := by
    rcases refines_callWithin le (s.procedure first) .undefined [] σ with ⟨τ, deep⟩ | same
    · exact absurd (here.symm.trans deep) (shallow τ)
    · exact same.symm.trans here
  exact (enough (Nat.le_max_left _ _) shallow here).symm.trans
    (enough (Nat.le_max_right _ _) shallow' there)

end Script
end TaggedScript
