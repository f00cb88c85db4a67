import TaggedScript.Syntax

/-!
Induction on syntax trees, with the lists of trees inside a tree.
-/
namespace TaggedScript

/-- What holds of a tree whenever it holds of the trees in it, holds of all trees. -/
structure Expr.Inductive (P : Expr → Prop) (Q : List Expr → Prop)
    (R : List (String × Expr) → Prop) : Prop where
  literal : ∀ s v, P (.literal s v)
  var : ∀ s x, P (.var s x)
  assign : ∀ s x d e, P e → P (.assign s x d e)
  field : ∀ s r x, P r → P (.field s r x)
  setField : ∀ s r x e, P r → P e → P (.setField s r x e)
  call : ∀ s f args, P f → Q args → P (.call s f args)
  methodCall : ∀ s r x args, P r → Q args → P (.methodCall s r x args)
  function : ∀ s name params body, Q body → P (.function s name params body)
  object : ∀ s fields, R fields → P (.object s fields)
  cond : ∀ s c t e, P c → Q t → Q e → P (.cond s c t e)
  ret : ∀ s e, P e → P (.ret s e)
  block : ∀ s body, Q body → P (.block s body)
  nil : Q []
  cons : ∀ e es, P e → Q es → Q (e :: es)
  noFields : R []
  consField : ∀ x e fields, P e → R fields → R ((x, e) :: fields)

namespace Expr.Inductive

variable {P : Expr → Prop} {Q : List Expr → Prop} {R : List (String × Expr) → Prop}

theorem expr (h : Expr.Inductive P Q R) (e : Expr) : P e :=
  Expr.rec (motive_1 := P) (motive_2 := Q) (motive_3 := R) (motive_4 := fun p => P p.2)
    h.literal h.var (fun s x d e => h.assign s x d e) (fun s r x => h.field s r x)
    (fun s r x e => h.setField s r x e) h.call h.methodCall h.function h.object h.cond h.ret
    h.block h.nil h.cons h.noFields (fun p fields => h.consField p.1 p.2 fields) (fun _ _ h => h) e

theorem list (h : Expr.Inductive P Q R) (es : List Expr) : Q es := by
  induction es with
  | nil => exact h.nil
  | cons e es ih => exact h.cons e es (h.expr e) ih

theorem fields (h : Expr.Inductive P Q R) (fs : List (String × Expr)) : R fs := by
  induction fs with
  | nil => exact h.noFields
  | cons p fs ih => exact h.consField p.1 p.2 fs (h.expr p.2) ih

end Expr.Inductive
end TaggedScript
