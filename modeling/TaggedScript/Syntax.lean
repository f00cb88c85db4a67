import TaggedScript.Operator
import TaggedScript.Source.Span
/-!
Abstract syntax. Statements are expressions too: a declaration, a conditional and a `return` all
stand where a value can stand. A block is the list of its statements.
-/
namespace TaggedScript

inductive Literal where
  | undefined
  | bool (b : Bool)
  | int (n : Int32)
  | str (s : String)
deriving DecidableEq, Repr

inductive Expr where
  | literal (span : Span) (value : Literal)
  /-- A variable, `this`, or an operator read as the name of a builtin. -/
  | var (span : Span) (name : String)
  /-- `var x = e` declares, `x = e` does not. -/
  | assign (span : Span) (name : String) (declare : Bool) (value : Expr)
  | field (span : Span) (receiver : Expr) (name : String)
  | setField (span : Span) (receiver : Expr) (name : String) (value : Expr)
  | call (span : Span) (callee : Expr) (args : List Expr)
  /-- `o.m(a)` calls with `o` as `this`. -/
  | methodCall (span : Span) (receiver : Expr) (name : String) (args : List Expr)
  | function (span : Span) (name : Option String) (params : List String) (body : List Expr)
  | object (span : Span) (fields : List (String × Expr))
  | cond (span : Span) (test : Expr) (thenBlock elseBlock : List Expr)
  | ret (span : Span) (value : Expr)
  | block (span : Span) (body : List Expr)
deriving Repr, Inhabited

/-- A function without the place of its text. -/
structure FunDef where
  name : Option String
  params : List String
  body : List Expr
deriving Repr, Inhabited

/-- A whole text: the body of the implicit function `main`. -/
structure Script where
  body : List Expr
  source : Option String
deriving Repr, Inhabited

/-- The name that a function without one goes by. -/
def lambdaName : String := "lambda"

/-- The name of the receiver inside a function. -/
def thisName : String := "this"

/-- The name of the function that prints. -/
def printName : String := "print"

def FunDef.displayName (f : FunDef) : String := f.name.getD lambdaName

namespace Expr

def span : Expr → Span
  | literal s _ | var s _ | assign s .. | field s .. | setField s .. | call s ..
  | methodCall s .. | function s .. | object s _ | cond s .. | ret s _ | block s _ => s

/-- `left op right` calls the builtin of that operator. -/
def binary (op : Operator) (opSpan : Span) (left right : Expr) : Expr :=
  call (left.span.merge right.span) (var opSpan op.symbol) [left, right]

mutual

/-- The same tree as if it had not been read from a text. -/
def eraseSpans : Expr → Expr
  | literal _ v => literal .none v
  | var _ x => var .none x
  | assign _ x d e => assign .none x d e.eraseSpans
  | field _ r x => field .none r.eraseSpans x
  | setField _ r x e => setField .none r.eraseSpans x e.eraseSpans
  | call _ f args => call .none f.eraseSpans (eraseSpansAll args)
  | methodCall _ r x args => methodCall .none r.eraseSpans x (eraseSpansAll args)
  | function _ name params body => function .none name params (eraseSpansAll body)
  | object _ fields => object .none (eraseSpansFields fields)
  | cond _ c t e => cond .none c.eraseSpans (eraseSpansAll t) (eraseSpansAll e)
  | ret _ e => ret .none e.eraseSpans
  | block _ body => block .none (eraseSpansAll body)

def eraseSpansAll : List Expr → List Expr
  | [] => []
  | e :: es => e.eraseSpans :: eraseSpansAll es

def eraseSpansFields : List (String × Expr) → List (String × Expr)
  | [] => []
  | (x, e) :: fields => (x, e.eraseSpans) :: eraseSpansFields fields

end

mutual

/-- The spans of a tree in pre-order. -/
def spans : Expr → List Span
  | literal s _ => [s]
  | var s _ => [s]
  | assign s _ _ e => s :: e.spans
  | field s r _ => s :: r.spans
  | setField s r _ e => s :: (r.spans ++ e.spans)
  | call s f args => s :: (f.spans ++ spansAll args)
  | methodCall s r _ args => s :: (r.spans ++ spansAll args)
  | function s _ _ body => s :: spansAll body
  | object s fields => s :: spansFields fields
  | cond s c t e => s :: (c.spans ++ spansAll t ++ spansAll e)
  | ret s e => s :: e.spans
  | block s body => s :: spansAll body

def spansAll : List Expr → List Span
  | [] => []
  | e :: es => e.spans ++ spansAll es

def spansFields : List (String × Expr) → List Span
  | [] => []
  | (_, e) :: fields => e.spans ++ spansFields fields

end

end Expr

/-- The same script without its text and the places in it. -/
def Script.eraseSpans (s : Script) : Script := ⟨Expr.eraseSpansAll s.body, none⟩

end TaggedScript
