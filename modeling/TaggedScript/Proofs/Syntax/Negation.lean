import TaggedScript.Proofs.Agreement.Flat
import TaggedScript.Proofs.Syntax.Parsed
import TaggedScript.Proofs.Syntax.Progress

/-!
The range of the integers that are read from a text. The smallest integer has no literal, and no
nesting of signs and parentheses makes one; so the negation of a literal is always exact.
-/
namespace TaggedScript

namespace Expr

/-- The literals of an expression that a text can say are literals that a text can say. -/
theorem literals_inductive : Expr.Inductive
    (fun e => ∀ direct, e.isExpressible direct = true →
      ∀ s v, literal s v ∈ e.parts → v.isExpressible = true)
    (fun es => ∀ direct, allExpressible direct es = true →
      ∀ s v, literal s v ∈ partsAll es → v.isExpressible = true)
    (fun fs => fieldsExpressible fs = true →
      ∀ s v, literal s v ∈ partsFields fs → v.isExpressible = true) where
  literal _ v := by
    intro _ h s w mem
    obtain ⟨-, rfl⟩ := literal.inj (List.mem_singleton.mp mem)
    exact h
  var _ x := by
    intro _ _ s v mem
    cases List.mem_singleton.mp mem
  assign _ x declare e he := by
    intro _ h s v mem
    simp only [isExpressible, Bool.and_eq_true] at h
    simp only [parts, List.mem_cons, reduceCtorEq, false_or] at mem
    exact he false h.2 s v mem
  field _ r x hr := by
    intro _ h s v mem
    simp only [isExpressible, Bool.and_eq_true] at h
    simp only [parts, List.mem_cons, reduceCtorEq, false_or] at mem
    exact hr false h.1 s v mem
  setField _ r x e hr he := by
    intro _ h s v mem
    simp only [isExpressible, Bool.and_eq_true] at h
    simp only [parts, List.mem_cons, List.mem_append, reduceCtorEq, false_or] at mem
    exact mem.elim (he false h.2 s v) (hr false h.1.1 s v)
  call _ f args hf hargs := by
    intro _ h s v mem
    simp only [isExpressible, Bool.and_eq_true, Bool.or_eq_true] at h
    simp only [parts, List.mem_cons, List.mem_append, reduceCtorEq, false_or] at mem
    obtain callee | arg := mem
    · obtain ordinary | ⟨named, -⟩ := h.1
      · exact hf false ordinary s v callee
      · -- An operator is a variable, in which there is no literal.
        cases f with
        | var _ x => cases List.mem_singleton.mp callee
        | _ => cases named
    · exact hargs false h.2 s v arg
  methodCall _ r x args hr hargs := by
    intro _ h s v mem
    simp only [isExpressible, Bool.and_eq_true] at h
    simp only [parts, List.mem_cons, List.mem_append, reduceCtorEq, false_or] at mem
    exact mem.elim (hr false h.1.1 s v) (hargs false h.2 s v)
  function _ name params body hbody := by
    intro _ h s v mem
    simp only [isExpressible, Bool.and_eq_true] at h
    simp only [parts, List.mem_cons, reduceCtorEq, false_or] at mem
    exact hbody true h.2 s v mem
  object _ fields hfields := by
    intro _ h s v mem
    simp only [isExpressible, Bool.and_eq_true] at h
    simp only [parts, List.mem_cons, reduceCtorEq, false_or] at mem
    exact hfields h.2 s v mem
  cond _ c t e hc ht he := by
    intro _ h s v mem
    simp only [isExpressible, Bool.and_eq_true] at h
    simp only [parts, List.mem_cons, List.mem_append, reduceCtorEq, false_or] at mem
    obtain (test | thenPart) | elsePart := mem
    · exact hc false h.1.1.2 s v test
    · exact ht true h.1.2 s v thenPart
    · exact he true h.2 s v elsePart
  ret _ e he := by
    intro _ h s v mem
    simp only [isExpressible, Bool.and_eq_true] at h
    simp only [parts, List.mem_cons, reduceCtorEq, false_or] at mem
    exact he false h.2 s v mem
  block _ body _ := by
    intro _ h
    cases h
  nil := by
    intro _ _ s v mem
    cases mem
  cons e es he hes := by
    intro direct h s v mem
    simp only [allExpressible, Bool.and_eq_true] at h
    exact (List.mem_append.mp mem).elim (he direct h.1 s v) (hes direct h.2 s v)
  noFields := by
    intro _ s v mem
    cases mem
  consField x e fields he hfields := by
    intro h s v mem
    simp only [fieldsExpressible, Bool.and_eq_true] at h
    exact (List.mem_append.mp mem).elim (he false h.1.2 s v) (hfields h.2 s v)

end Expr

namespace Parser
open TaggedScript.Expr

/-- The tokens of a text are those that occur in texts, from wherever they are read. -/
theorem clean_of_lex {source : String} {xs : List Lexeme} (lexed : lex source = .ok xs)
    {c : Cursor} (stands : c.lexemes = xs) : c.Clean := by
  intro x mem
  exact Lexer.occurs_lexFrom lexed x (stands ▸ List.mem_append_right _ mem)

theorem isValue_of_yields {p : Parser Expr} (yields : Yields IsValue p) {c d : Cursor} {e : Expr}
    (clean : c.Clean) (read : p c = .ok e d) : IsValue e := by
  have result := yields c clean
  rw [read] at result
  exact result.1

/-- The integers in what a text can say are those with a negation. -/
theorem IsValue.integers {e : Expr} (h : IsValue e) {s : Span} {k : Int32}
    (part : literal s (.int k) ∈ e.parts) : -2147483648 < k.toInt :=
  of_decide_eq_true (literals_inductive.expr e false h s (.int k) part)

/-- Wherever in a text an operand is read, with its signs, with what follows it or on its own, all
integers in it are in the range of literals, also those in parentheses and in functions. If it is an
integer itself its negation is exact. -/
theorem negate_exact {source : String} {xs : List Lexeme} (lexed : lex source = .ok xs)
    {c d : Cursor} (stands : c.lexemes = xs) {n : Nat} {e : Expr}
    (read : unary n c = .ok e d ∨ (primary n >>= postfixes n) c = .ok e d ∨
      primary n c = .ok e d) :
    (∀ s k, literal s (.int k) ∈ e.parts → -2147483647 ≤ k.toInt ∧ k.toInt ≤ 2147483647) ∧
    ∀ minus s k, e = literal s (.int k) →
      ∃ m : Int32, negate minus e = literal (minus.merge s) (.int m) ∧ m.toInt = -k.toInt := by
  have clean := clean_of_lex lexed stands
  have value : IsValue e := by
    obtain read | read | read := read
    · exact isValue_of_yields (reads n).unary clean read
    · exact isValue_of_yields ((reads n).primary.bind (reads n).postfixes) clean read
    · exact isValue_of_yields (reads n).primary clean read
  constructor
  · intro s k part
    have low := value.integers part
    have high : k.toInt ≤ 2147483647 := k.toInt_le
    omega
  · rintro minus s k rfl
    exact ⟨-k, rfl, toInt_neg_of_lt (value.integers (List.mem_singleton.mpr rfl))⟩

/-- The negation of the least literal, which stands in parentheses. -/
theorem negate_exact_least :
    let xs : List Lexeme := [⟨.op .sub, ⟨0, 1⟩⟩, ⟨.lparen, ⟨1, 2⟩⟩, ⟨.op .sub, ⟨2, 3⟩⟩,
      ⟨.int 2147483647, ⟨3, 13⟩⟩, ⟨.rparen, ⟨13, 14⟩⟩]
    let c : Cursor := ⟨[⟨.op .sub, ⟨0, 1⟩⟩], xs.tail⟩
    let e := literal ⟨2, 13⟩ (.int (-2147483647))
    lex "-(-2147483647)" = .ok xs ∧ c.lexemes = xs ∧ (∃ d, unary 20 c = .ok e d) ∧
    ∃ m : Int32, negate ⟨0, 1⟩ e = literal ⟨0, 13⟩ (.int m) ∧ m.toInt = 2147483647 := by
  intro xs c e
  have lexed : lex "-(-2147483647)" = .ok xs := by decide +kernel
  have read : unary 20 c = .ok e ⟨xs.reverse, []⟩ := rfl
  obtain ⟨m, negated, value⟩ := (negate_exact lexed rfl (.inl read)).2 ⟨0, 1⟩ ⟨2, 13⟩ _ rfl
  exact ⟨lexed, rfl, ⟨_, read⟩, m, negated, value⟩

end Parser
end TaggedScript
