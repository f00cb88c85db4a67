import TaggedScript.Proofs.Syntax.Lexemes

/-!
A text for a script. Whatever has operands stands in parentheses, and each statement ends with a
semicolon.
-/
namespace TaggedScript

namespace Token

/-- Pieces with commas between them. -/
def listed (pieces : List (List Token)) : List Token := [comma].intercalate pieces

/-- Statements with a semicolon after each. -/
def ended (pieces : List (List Token)) : List Token := pieces.flatMap (· ++ [semi])

def inParens (ts : List Token) : List Token := lparen :: (ts ++ [rparen])

def inBraces (ts : List Token) : List Token := lbrace :: (ts ++ [rbrace])

end Token

namespace Literal
open TaggedScript.Token

/-- Integers have no sign of their own. A negative one is said by the operator. -/
def tokens : Literal → List Token
  | undefined => [undefinedKw]
  | bool true => [trueKw]
  | bool false => [falseKw]
  | int n => if 0 ≤ n.toInt then [Token.int n] else inParens [op .sub, Token.int (-n)]
  | str s => [Token.str s]

end Literal

namespace Expr
open TaggedScript.Token

/-- The tokens of a call, from those of its parts. -/
def callTokens (operator : Option Operator) (callee : List Token) (args : List (List Token)) :
    List Token :=
  match operator, args with
  | some o, [left, right] => inParens (left ++ op o :: right)
  | _, _ => inParens (callee ++ inParens (listed args))

mutual

def tokens : Expr → List Token
  | literal _ v => v.tokens
  | var _ x => if x = thisName then [thisKw] else [ident x]
  | assign _ x true e => varKw :: ident x :: Token.assign :: e.tokens
  | assign _ x false e => inParens (ident x :: Token.assign :: e.tokens)
  | field _ r x => inParens (r.tokens ++ [dot, ident x])
  | setField _ r x e => inParens (r.tokens ++ dot :: ident x :: Token.assign :: e.tokens)
  | call _ f args => callTokens f.operator? f.tokens (tokensAll args)
  | methodCall _ r x args => inParens (r.tokens ++ dot :: ident x :: inParens (listed (tokensAll args)))
  | function _ name params body =>
    inParens (functionKw :: (name.toList.map ident ++
      (inParens (listed (params.map fun x => [ident x])) ++ inBraces (ended (tokensAll body)))))
  | object _ fields => inParens (inBraces (listed (tokensFields fields)))
  | cond _ c t e =>
    ifKw :: (inParens c.tokens ++ (inBraces (ended (tokensAll t)) ++
      elseKw :: inBraces (ended (tokensAll e))))
  | ret _ e => returnKw :: e.tokens
  | block _ body => inBraces (ended (tokensAll body))

/-- The tokens of each expression of a list. -/
def tokensAll : List Expr → List (List Token)
  | [] => []
  | e :: es => e.tokens :: tokensAll es

/-- The tokens of each field. Its name stands in quotes. -/
def tokensFields : List (String × Expr) → List (List Token)
  | [] => []
  | (x, e) :: fields => (Token.str x :: colon :: e.tokens) :: tokensFields fields

end

end Expr

/-- The fully parenthesised text of a script. -/
def Script.text (s : Script) : String := Token.layOut (Token.ended (Expr.tokensAll s.body))

namespace Token

/-- All tokens of a list occur in texts. -/
def AllOccur (ts : List Token) : Prop := ∀ t ∈ ts, t.occurs = true

@[simp] theorem allOccur_nil : AllOccur [] := fun _ mem => absurd mem List.not_mem_nil

@[simp] theorem allOccur_cons {t : Token} {ts : List Token} :
    AllOccur (t :: ts) ↔ t.occurs = true ∧ AllOccur ts := List.forall_mem_cons

@[simp] theorem allOccur_append {ts us : List Token} :
    AllOccur (ts ++ us) ↔ AllOccur ts ∧ AllOccur us := List.forall_mem_append

@[simp] theorem listed_nil : listed [] = [] := rfl

@[simp] theorem listed_singleton (ts : List Token) : listed [ts] = ts := by simp [listed]

@[simp] theorem listed_cons_cons (ts us : List Token) (pieces : List (List Token)) :
    listed (ts :: us :: pieces) = ts ++ comma :: listed (us :: pieces) := by simp [listed]

@[simp] theorem ended_nil : ended [] = [] := rfl

@[simp] theorem ended_cons (ts : List Token) (pieces : List (List Token)) :
    ended (ts :: pieces) = ts ++ semi :: ended pieces := by simp [ended]

@[simp] theorem allOccur_inParens {ts : List Token} : AllOccur (inParens ts) ↔ AllOccur ts := by
  simp [inParens, occurs]

@[simp] theorem allOccur_inBraces {ts : List Token} : AllOccur (inBraces ts) ↔ AllOccur ts := by
  simp [inBraces, occurs]

theorem allOccur_listed {pieces : List (List Token)} (h : ∀ ts ∈ pieces, AllOccur ts) :
    AllOccur (listed pieces) := by
  induction pieces with
  | nil => simp
  | cons ts pieces ih =>
    rw [List.forall_mem_cons] at h
    cases pieces with
    | nil => simpa using h.1
    | cons us pieces => simpa [occurs, h.1] using ih h.2

theorem allOccur_ended {pieces : List (List Token)} (h : ∀ ts ∈ pieces, AllOccur ts) :
    AllOccur (ended pieces) := by
  induction pieces with
  | nil => simp
  | cons ts pieces ih =>
    rw [List.forall_mem_cons] at h
    simpa [occurs, h.1] using ih h.2

end Token

open TaggedScript.Token

theorem Literal.allOccur_tokens {v : Literal} (h : v.isExpressible = true) : AllOccur v.tokens := by
  cases v with
  | undefined => simp [tokens, occurs]
  | bool b => cases b <;> simp [tokens, occurs]
  | str s => simpa [tokens, occurs, isExpressible] using h
  | int n =>
    simp only [isExpressible, decide_eq_true_eq] at h
    have high : n.toInt ≤ 2147483647 := n.toInt_le
    simp only [tokens]
    split
    · simpa [occurs]
    · have opposite : (-n).toInt = -n.toInt := by
        rw [Int32.toInt_neg, Int.bmod_eq_of_le (by omega) (by omega)]
      have positive : 0 ≤ (-n).toInt := by omega
      simpa [occurs] using positive

namespace Expr

theorem allOccur_callTokens {operator : Option Operator} {callee : List Token}
    {args : List (List Token)} (h : operator.isSome = true ∧ args.length = 2 ∨ AllOccur callee)
    (hargs : ∀ ts ∈ args, AllOccur ts) : AllOccur (callTokens operator callee args) := by
  unfold callTokens
  split
  · simpa [occurs] using hargs
  · rename_i other
    obtain ⟨named, two⟩ | h := h
    · obtain ⟨o, rfl⟩ := Option.isSome_iff_exists.mp named
      obtain ⟨left, right, rfl⟩ := List.length_eq_two.mp two
      exact absurd rfl (other o left right rfl)
    · simpa [h] using allOccur_listed hargs

@[simp] theorem length_tokensAll (es : List Expr) : (tokensAll es).length = es.length := by
  induction es with
  | nil => rfl
  | cons e es ih => simp [tokensAll, ih]

/-- Every token of an expression that a text can say occurs in texts. -/
theorem allOccur_inductive : Expr.Inductive
    (fun e => ∀ direct, e.isExpressible direct = true → AllOccur e.tokens)
    (fun es => ∀ direct, allExpressible direct es = true → ∀ ts ∈ tokensAll es, AllOccur ts)
    (fun fs => fieldsExpressible fs = true → ∀ ts ∈ tokensFields fs, AllOccur ts) where
  literal s v direct h := v.allOccur_tokens h
  var s x direct h := by
    simp only [isExpressible, Bool.or_eq_true, beq_iff_eq] at h
    rw [tokens]
    split
    · simp [occurs]
    · rename_i other
      simpa [occurs] using h.resolve_right other
  assign s x declare e ih direct h := by
    simp only [isExpressible, Bool.and_eq_true] at h
    cases declare <;> simp [tokens, occurs, h.1.2, ih false h.2]
  field s r x ih direct h := by
    simp only [isExpressible, Bool.and_eq_true] at h
    simp [tokens, occurs, ih false h.1, h.2]
  setField s r x e ihr ihe direct h := by
    simp only [isExpressible, Bool.and_eq_true] at h
    simp [tokens, occurs, ihr false h.1.1, h.1.2, ihe false h.2]
  call s f args ihf ihargs direct h := by
    simp only [isExpressible, Bool.and_eq_true, Bool.or_eq_true, beq_iff_eq] at h
    rw [tokens]
    refine allOccur_callTokens ?_ (ihargs false h.2)
    obtain callee | operator := h.1
    · exact .inr (ihf false callee)
    · exact .inl ⟨operator.1, (length_tokensAll args).trans operator.2⟩
  methodCall s r x args ihr ihargs direct h := by
    simp only [isExpressible, Bool.and_eq_true] at h
    simp [tokens, occurs, ihr false h.1.1, h.1.2, allOccur_listed (ihargs false h.2)]
  function s name params body ih direct h := by
    simp only [isExpressible, Bool.and_eq_true] at h
    obtain ⟨⟨⟨hname, hparams⟩, -⟩, hbody⟩ := h
    have named : AllOccur (name.toList.map ident) := by
      cases name with
      | none => simp
      | some x => simpa [occurs] using hname
    have params : AllOccur (listed (params.map fun x => [ident x])) := by
      apply allOccur_listed
      intro ts mem
      obtain ⟨x, param, rfl⟩ := List.mem_map.mp mem
      simpa [occurs] using List.all_eq_true.mp hparams x param
    simp [tokens, occurs, named, params, allOccur_ended (ih true hbody)]
  object s fields ih direct h := by
    simp only [isExpressible, Bool.and_eq_true] at h
    simp [tokens, allOccur_listed (ih h.2)]
  cond s c t e ihc iht ihe direct h := by
    simp only [isExpressible, Bool.and_eq_true] at h
    simp [tokens, occurs, ihc false h.1.1.2, allOccur_ended (iht true h.1.2),
      allOccur_ended (ihe true h.2)]
  ret s e ih direct h := by
    simp only [isExpressible, Bool.and_eq_true] at h
    simp [tokens, occurs, ih false h.2]
  block s body ih direct h := by cases h
  nil direct h := fun _ mem => absurd mem List.not_mem_nil
  cons e es ihe ihes direct h := by
    simp only [allExpressible, Bool.and_eq_true] at h
    rw [tokensAll, List.forall_mem_cons]
    exact ⟨ihe direct h.1, ihes direct h.2⟩
  noFields h := fun _ mem => absurd mem List.not_mem_nil
  consField x e fs ihe ihfs h := by
    simp only [fieldsExpressible, Bool.and_eq_true] at h
    rw [tokensFields, List.forall_mem_cons]
    exact ⟨by simp [occurs, h.1.1, ihe false h.1.2], ihfs h.2⟩

end Expr

/-- The tokens of a script are read back from its text. -/
theorem Script.lex_text {s : Script} (h : s.IsExpressible) :
    ∃ xs, lex s.text = .ok xs ∧ xs.map (·.token) = ended (Expr.tokensAll s.body) :=
  Lexer.lexFrom_layOut (allOccur_ended (Expr.allOccur_inductive.list s.body true h)) 0

end TaggedScript
