import TaggedScript.Syntax

/-!
The variables of a function: the receiver, its parameters, and what its body declares wherever a
declaration stands in it, the bodies of functions inside left out.
-/
namespace TaggedScript

namespace Expr

/-- The function that an expression itself is. -/
def definition? : Expr → Option FunDef
  | function _ name params body => some ⟨name, params, body⟩
  | _ => none

/-- The variable that an expression itself declares. -/
def declares? : Expr → Option String
  | assign _ x true _ => some x
  | _ => none

mutual

/-- An expression and all expressions in it, in the order of the text, without those in the bodies
of functions. -/
def own : Expr → List Expr
  | literal s v => [literal s v]
  | var s x => [var s x]
  | assign s x declare e => assign s x declare e :: e.own
  | field s r x => field s r x :: r.own
  | setField s r x e => setField s r x e :: (r.own ++ e.own)
  | call s f args => call s f args :: (f.own ++ ownAll args)
  | methodCall s r x args => methodCall s r x args :: (r.own ++ ownAll args)
  | function s name params body => [function s name params body]
  | object s fields => object s fields :: ownFields fields
  | cond s c t e => cond s c t e :: (c.own ++ ownAll t ++ ownAll e)
  | ret s e => ret s e :: e.own
  | block s body => block s body :: ownAll body

def ownAll : List Expr → List Expr
  | [] => []
  | e :: es => e.own ++ ownAll es

def ownFields : List (String × Expr) → List Expr
  | [] => []
  | (_, e) :: fields => e.own ++ ownFields fields

end

/-- A call that is handed to the global `print` as it is: one of this name where it is no variable,
with one argument. -/
def isPrint (locals : List String) (callee : Expr) (args : List Expr) : Bool :=
  match callee with
  | var _ x => x = printName ∧ printName ∉ locals ∧ args.length = 1
  | _ => false

end Expr

open TaggedScript.Expr

namespace FunDef

/-- The names that the body of a function declares outside of functions inside it. -/
def declarations (f : FunDef) : List String := (ownAll f.body).filterMap declares?

/-- The names with slots: the receiver, the parameters, and what the body declares, each where it
first occurs. -/
def slotNames (f : FunDef) : List String := (thisName :: f.params ++ f.declarations).eraseDups

end FunDef
end TaggedScript
