import Mathlib.Data.List.Nodup
import TaggedScript.Proofs.SyntaxInduction
import TaggedScript.Syntax.Parser

/-!
The scripts that a text can say. Declarations, conditionals and `return` are statements, names are
identifiers, and an operator has two operands.
-/
namespace TaggedScript

/-- The words that are no names. -/
def keywords : List String :=
  ["var", "function", "return", "if", "else", "new", "this", "true", "false", "undefined"]

def isIdentifier (x : String) : Bool :=
  match x.toList with
  | [] => false
  | c :: cs => Lexer.isNameStart c && cs.all Lexer.isNamePart

def isName (x : String) : Bool := isIdentifier x && !keywords.contains x

/-- A text that can stand between quotes. -/
def isQuotable (s : String) : Bool := s.toList.all fun c => c != '"' && c != '\n'

theorem isName_iff {x : String} : isName x = true ↔ isIdentifier x = true ∧ x ∉ keywords := by
  simp [isName]

theorem isName_ne_this {x : String} (h : isName x = true) : x ≠ thisName := by
  rintro rfl
  exact (isName_iff.mp h).2 (by decide)

namespace Literal

/-- The smallest integer has no text: the literal after the sign would be too large. -/
def isExpressible : Literal → Bool
  | undefined | bool _ => true
  | int n => decide (-2147483648 < n.toInt)
  | str s => isQuotable s

end Literal

namespace Operator

def ofSymbol? : String → Option Operator
  | "+" => some add
  | "-" => some sub
  | "*" => some mul
  | "/" => some div
  | "%" => some rem
  | "==" => some eq
  | "!=" => some ne
  | "<" => some lt
  | "<=" => some le
  | ">" => some gt
  | ">=" => some ge
  | _ => none

@[simp] theorem ofSymbol?_symbol (op : Operator) : ofSymbol? op.symbol = some op := by
  cases op <;> rfl

theorem symbol_of_ofSymbol? {x : String} {op : Operator} (h : ofSymbol? x = some op) :
    op.symbol = x := by
  unfold ofSymbol? at h
  split at h <;> cases h <;> rfl

theorem isName_symbol (op : Operator) : isName op.symbol = false := by
  cases op <;> decide

end Operator

namespace Expr

/-- The operator that a callee names. -/
def operator? : Expr → Option Operator
  | var _ x => Operator.ofSymbol? x
  | _ => none

mutual

/-- Whether a text can say an expression, as a direct statement of a block or inside another
expression. -/
def isExpressible (direct : Bool) : Expr → Bool
  | literal _ v => v.isExpressible
  | var _ x => isName x || x == thisName
  | assign _ x declare e => (direct || !declare) && isName x && e.isExpressible false
  | field _ r x => r.isExpressible false && isName x
  | setField _ r x e => r.isExpressible false && isName x && e.isExpressible false
  | call _ f args =>
    (f.isExpressible false || f.operator?.isSome && args.length == 2) && allExpressible false args
  | methodCall _ r x args => r.isExpressible false && isName x && allExpressible false args
  | function _ name params body =>
    name.all isName && params.all isName && decide params.Nodup && allExpressible true body
  | object _ fields => decide (fields.map (·.1)).Nodup && fieldsExpressible fields
  | cond _ c t e =>
    direct && c.isExpressible false && allExpressible true t && allExpressible true e
  | ret _ e => direct && e.isExpressible false
  | block .. => false

def allExpressible (direct : Bool) : List Expr → Bool
  | [] => true
  | e :: es => e.isExpressible direct && allExpressible direct es

def fieldsExpressible : List (String × Expr) → Bool
  | [] => true
  | (x, e) :: fields => isQuotable x && e.isExpressible false && fieldsExpressible fields

end

end Expr

/-- A text can say the script. -/
def Script.IsExpressible (s : Script) : Prop := Expr.allExpressible true s.body = true

instance (s : Script) : Decidable s.IsExpressible := inferInstanceAs (Decidable (_ = _))

namespace Expr

theorem allExpressible_iff {direct : Bool} {es : List Expr} :
    allExpressible direct es = true ↔ ∀ e ∈ es, e.isExpressible direct = true := by
  induction es with
  | nil => simp [allExpressible]
  | cons e es ih => simp [allExpressible, ih]

theorem fieldsExpressible_iff {fs : List (String × Expr)} :
    fieldsExpressible fs = true ↔
      ∀ p ∈ fs, isQuotable p.1 = true ∧ p.2.isExpressible false = true := by
  induction fs with
  | nil => simp [fieldsExpressible]
  | cons p fs ih => simp [fieldsExpressible, ih]

/-- What can stand inside an expression is a statement too. -/
theorem isExpressible_direct {e : Expr} (h : e.isExpressible false = true) :
    e.isExpressible true = true := by
  cases e <;> simp_all [isExpressible]

theorem isExpressible_binary {op : Operator} {s : Span} {l r : Expr}
    (hl : l.isExpressible false = true) (hr : r.isExpressible false = true) :
    (binary op s l r).isExpressible false = true := by
  simp [binary, isExpressible, allExpressible, operator?, hl, hr]

end Expr

namespace Parser
open TaggedScript.Expr

theorem isExpressible_of_assignment? {target value e : Expr} {span : Span}
    (ht : target.isExpressible false = true) (hv : value.isExpressible false = true)
    (h : assignment? target value span = some e) : e.isExpressible false = true := by
  unfold assignment? at h
  split at h
  · split at h
    · cases h
    · rename_i name other
      cases h
      simpa [isExpressible, other, hv] using ht
  · cases h
    simpa [isExpressible, hv] using ht
  · cases h

/-- All integers but the smallest have a negation. -/
theorem toInt_neg_of_lt {n : Int32} (h : -2147483648 < n.toInt) : (-n).toInt = -n.toInt := by
  have high : n.toInt ≤ 2147483647 := n.toInt_le
  rw [Int32.toInt_neg, Int.bmod_eq_of_le (by omega) (by omega)]

/-- A negated literal is in the range of literals again. -/
theorem isExpressible_negate {e : Expr} (minus : Span) (h : e.isExpressible false = true) :
    (negate minus e).isExpressible false = true := by
  unfold negate
  split
  · rename_i n
    simp only [isExpressible, Literal.isExpressible, decide_eq_true_eq] at h ⊢
    have high : n.toInt ≤ 2147483647 := n.toInt_le
    rw [toInt_neg_of_lt h]
    omega
  · exact isExpressible_binary rfl h

end Parser
end TaggedScript
