import TaggedScript.Proofs.Syntax.Accepting
import TaggedScript.Proofs.Syntax.Layout

/-!
Operands are read back from their own text. An operand is read wherever a primary expression is, so
it is the same in all places.
-/
namespace TaggedScript

open TaggedScript.Token

namespace Token

/-- The tokens that an expression begins with in its own text. -/
def opens : Token → Bool
  | lparen | int _ | str _ | trueKw | falseKw | undefinedKw | thisKw | ident _ => true
  | _ => false

/-- The tokens that come after an expression in its own text. -/
def closes : Token → Bool
  | rparen | rbrace | comma | semi => true
  | _ => false

end Token

namespace Expr

/-- Two trees differ in their places alone. -/
def Same (e a : Expr) : Prop := a.eraseSpans = e.eraseSpans

/-- An expression is read back wherever an operand is read. -/
structure Operand (e : Expr) : Prop where
  opens : ∃ t ts, e.tokens = t :: ts ∧ t.opens = true
  takes : ∀ after, Takes (16 * e.tokens.length) Parser.primary e.tokens after e.Same

/-- An expression is read back as a statement. -/
structure Statement (e : Expr) : Prop where
  begins : ∃ t ts, e.tokens = t :: ts ∧ t ≠ rbrace ∧ t ≠ semi
  takes : ∀ after, after.head? ≠ some semi →
    Takes (16 * e.tokens.length + 13) Parser.statement (e.tokens ++ [semi]) after e.Same

end Expr

namespace Parser

variable {P : Expr → Prop} {ts us after : List Token} {t : Token} {need : Nat}

theorem takes_binary_of_unary (h : Takes need unary ts after P) :
    Takes (need + 1) (binary · unaryLevel) ts after P := by
  apply Takes.succ
  intro n room
  rw [binary, if_pos rfl]
  exact h n room

theorem takes_binary_of_tighter (level : Nat) (below : level ≠ unaryLevel)
    (h : Takes need (binary · (level + 1)) ts after P)
    (ends : ∀ o, after.head? = some (op o) → o.precedence ≠ level) :
    Takes (need + 2) (binary · level) ts after P := by
  apply Takes.succ
  intro n room
  rw [binary, if_neg below]
  apply (h n (by omega)).bindLast
  intro left hleft
  obtain ⟨m, rfl⟩ : ∃ m, n = m + 1 := ⟨n - 1, by omega⟩
  rw [binaryTail]
  exact .noOperator ends (.pure hleft)

/-- A chain of operators that bind tightly is one of looser ones too, if no operator comes next
that would go on with it. -/
theorem takes_binary_down {low : Nat} (steps : Nat) (high : low + steps ≤ unaryLevel)
    (h : Takes need (binary · (low + steps)) ts after P)
    (ends : ∀ o, after.head? = some (op o) → o.precedence < low) :
    Takes (need + 2 * steps) (binary · low) ts after P := by
  induction steps generalizing need with
  | zero => exact h
  | succ steps ih =>
    have next := takes_binary_of_tighter (low + steps) (by omega) h
      fun o first => by have := ends o first; omega
    exact (ih (by omega) next).le (by omega)

theorem takes_binary_of_closes (closes : t.closes = true)
    (h : Takes need (binary · unaryLevel) ts (t :: after) P) :
    Takes (need + 8) (binary · 0) ts (t :: after) P := by
  refine takes_binary_down unaryLevel (Nat.le_refl _) h ?_
  rintro o ⟨rfl⟩
  cases closes

theorem takes_expr_of_binary (closes : t.closes = true)
    (h : Takes need (binary · 0) ts (t :: after) P) : Takes (need + 1) expr ts (t :: after) P := by
  apply Takes.succ
  intro n room
  rw [expr]
  apply (h n room).bindLast
  intro target htarget
  apply Accepts.nextSpan
  intro s
  apply Accepts.skip
  · rintro ⟨rfl⟩
    cases closes
  · exact .pure htarget

theorem takes_expr_of_unary (closes : t.closes = true) (h : Takes need unary ts (t :: after) P) :
    Takes (need + 10) expr ts (t :: after) P :=
  takes_expr_of_binary closes (takes_binary_of_closes closes (takes_binary_of_unary h))

/-- No call and no field access comes next. -/
theorem takes_postfixes_nil (call : t ≠ lparen) (field : t ≠ dot) {e : Expr} (h : P e) :
    Takes 1 (postfixes · e) [] (t :: after) P := by
  apply Takes.succ
  intro n _
  rw [postfixes]
  apply Accepts.next
  split
  · rename_i first
    exact absurd (Option.some_inj.mp first) call
  · rename_i first
    exact absurd (Option.some_inj.mp first) field
  · exact .pure h

theorem takes_unary_of_postfixes {Q : Expr → Prop}
    (plain : (ts ++ us ++ after).head? ≠ some (op .sub))
    (h : Takes need primary ts (us ++ after) Q)
    (later : ∀ a, Q a → Takes need (postfixes · a) us after P) :
    Takes (need + 1) unary (ts ++ us) after P := by
  apply Takes.succ
  intro n room
  rw [unary]
  apply Accepts.nextSpan
  intro s
  apply Accepts.skip plain
  exact (h n room).bind fun a ha => later a ha n room

theorem takes_unary_of_primary (plain : (ts ++ t :: after).head? ≠ some (op .sub))
    (call : t ≠ lparen) (field : t ≠ dot) (h : Takes need primary ts (t :: after) P) :
    Takes (need + 2) unary ts (t :: after) P := by
  have whole : Takes (need + 1 + 1) unary (ts ++ []) (t :: after) P := by
    refine takes_unary_of_postfixes ?_ (h.le (Nat.le_succ need)) fun a ha => ?_
    · rwa [List.append_nil]
    · exact (takes_postfixes_nil call field ha).le (by omega)
  rwa [List.append_nil] at whole

end Parser

/-- A statement is what its part of the parser reads, and a semicolon. -/
theorem Expr.Statement.of_part {e : Expr} (p : Nat → Parser Expr)
    (begins : ∃ t ts, e.tokens = t :: ts ∧ t ≠ rbrace ∧ t ≠ semi)
    (part : ∀ n after, Accepts (do let a ← p n; Parser.semicolons; return a) (e.tokens ++ [semi])
      after e.Same → Accepts (Parser.statement (n + 1)) (e.tokens ++ [semi]) after e.Same)
    (takes : ∀ after, Takes (16 * e.tokens.length + 12) p e.tokens (semi :: after) e.Same) :
    Statement e where
  begins := begins
  takes after other := by
    refine Takes.succ fun n room => part n after ?_
    exact (takes after n room).bind fun a same => .semicolon other (.pure same)

namespace Expr.Operand

variable {P : Expr → Prop} {ts us after : List Token} {t : Token} {need : Nat} {e : Expr}

theorem head (h : Operand e) :
    ∃ t, t.opens = true ∧ ∀ us, (e.tokens ++ us).head? = some t := by
  obtain ⟨t, ts, first, opens⟩ := h.opens
  exact ⟨t, opens, fun us => by rw [first]; rfl⟩

theorem plain (h : Operand e) (us : List Token) : (e.tokens ++ us).head? ≠ some (op .sub) := by
  obtain ⟨t, opens, head⟩ := h.head
  rw [head]
  rintro ⟨rfl⟩
  cases opens

theorem unary_postfixes (h : Operand e) (enough : 16 * e.tokens.length ≤ need)
    (later : ∀ a, e.Same a → Takes need (Parser.postfixes · a) us after P) :
    Takes (need + 1) Parser.unary (e.tokens ++ us) after P := by
  refine Parser.takes_unary_of_postfixes ?_ ((h.takes _).le enough) later
  rw [List.append_assoc]
  exact h.plain _

theorem unary (h : Operand e) (text : e.tokens = ts) (call : t ≠ lparen) (field : t ≠ dot) :
    Takes (16 * ts.length + 2) Parser.unary ts (t :: after) e.Same := by
  subst text
  exact Parser.takes_unary_of_primary (h.plain _) call field (h.takes _)

theorem expr (h : Operand e) (closes : t.closes = true) :
    Takes (16 * e.tokens.length + 12) Parser.expr e.tokens (t :: after) e.Same := by
  refine Parser.takes_expr_of_unary closes (h.unary rfl ?_ ?_)
  all_goals
    rintro rfl
    cases closes

/-- What is no statement alone is one too. -/
theorem statement (h : Operand e) : Statement e := by
  obtain ⟨t, ts, first, opens⟩ := h.opens
  refine .of_part Parser.expr ⟨t, ts, first, ?_, ?_⟩ (fun n after rest => ?_) fun after => h.expr rfl
  · rintro rfl
    cases opens
  · rintro rfl
    cases opens
  · rw [Parser.statement]
    apply Accepts.next
    rw [first, List.cons_append, List.cons_append, List.head?_cons, ← List.cons_append, ← first]
    split
    case h_4 => exact rest
    all_goals
      rename_i same
      cases same
      cases opens

/-- An expression in parentheses is an operand. -/
theorem of_inParens (text : e.tokens = inParens ts)
    (h : ∀ after, Takes (16 * ts.length + 31) Parser.expr ts (rparen :: after) e.Same) :
    Operand e where
  opens := ⟨lparen, ts ++ [rparen], text, rfl⟩
  takes after := by
    have length : 16 * e.tokens.length = 16 * ts.length + 31 + 1 := by
      rw [text, inParens, List.length_cons, List.length_append, List.length_singleton]
      omega
    rw [length, text]
    apply Takes.succ
    intro n room
    apply Accepts.nextSpan
    intro s
    apply Accepts.next
    apply Accepts.advance
    exact (h after n room).bind fun a same => .expect fun _ => .pure same

/-- An expression of one token is an operand. -/
theorem of_token (t : Token) (text : e.tokens = [t]) (opens : t.opens = true)
    (h : ∀ n after, Accepts (Parser.primary (n + 1)) [t] after e.Same) : Operand e where
  opens := ⟨t, [], text, opens⟩
  takes after := by
    rw [text]
    exact Takes.succ fun n _ => h n after

theorem accepts_leaf {a : Expr} (same : e.Same a) :
    Accepts (do Parser.advance; return a) [t] after e.Same :=
  .advance (.pure same)

theorem of_int (s : Span) {k : Int32} (h : 0 ≤ k.toInt) : Operand (literal s (.int k)) :=
  of_token (.int k) (by rw [tokens, Literal.tokens, if_pos h]) rfl
    fun _ _ => .nextSpan fun _ => .next (accepts_leaf rfl)

/-- The negation of an integer literal is read as one literal. -/
theorem takes_negative {s : Span} {k : Int32} (low : -2147483648 < k.toInt) (h : k.toInt < 0) :
    Takes 19 Parser.unary [op .sub, .int (-k)] (rparen :: after) (literal s (.int k)).Same := by
  have opposite : (-k).toInt = -k.toInt := by
    rw [Int32.toInt_neg, Int.bmod_eq_of_le (by omega) (by omega)]
  have positive : 0 ≤ (-k).toInt := by omega
  have text : (literal .none (.int (-k))).tokens = [.int (-k)] := by
    rw [tokens, Literal.tokens, if_pos positive]
  apply Takes.succ
  intro n room
  rw [Parser.unary]
  apply Accepts.nextSpan
  intro place
  apply Accepts.eat
  rw [if_pos rfl]
  apply ((of_int .none positive).unary text (by simp) (by simp) n room).bindLast
  intro a same
  cases a with
  | literal s' v =>
    cases same
    refine .pure ?_
    rw [Same, Parser.negate, eraseSpans, eraseSpans, Int32.neg_neg]
  | _ => cases same

theorem of_literal (s : Span) {v : Literal} (h : v.isExpressible = true) :
    Operand (literal s v) := by
  cases v with
  | undefined =>
    exact of_token .undefinedKw rfl rfl fun _ _ => .nextSpan fun _ => .next (accepts_leaf rfl)
  | str x => exact of_token (.str x) rfl rfl fun _ _ => .nextSpan fun _ => .next (accepts_leaf rfl)
  | bool b =>
    cases b with
    | true =>
      exact of_token .trueKw rfl rfl fun _ _ => .nextSpan fun _ => .next (accepts_leaf rfl)
    | false =>
      exact of_token .falseKw rfl rfl fun _ _ => .nextSpan fun _ => .next (accepts_leaf rfl)
  | int k =>
    by_cases sign : 0 ≤ k.toInt
    · exact of_int s sign
    · refine of_inParens (by rw [tokens, Literal.tokens, if_neg sign]) fun after => ?_
      exact (Parser.takes_expr_of_unary rfl
        (takes_negative (of_decide_eq_true h) (by omega))).le (by simp)

theorem of_var (s : Span) (x : String) : Operand (var s x) := by
  by_cases this : x = thisName
  · refine of_token .thisKw (by rw [tokens, if_pos this]) rfl fun _ _ => ?_
    exact .nextSpan fun _ => .next (accepts_leaf (by rw [this]; rfl))
  · exact of_token (.ident x) (by rw [tokens, if_neg this]) rfl
      fun _ _ => .nextSpan fun _ => .next (accepts_leaf rfl)

/-- The two sides of an assignment, of which the whole is made. -/
theorem takes_assignment {value : Expr} {P : Expr → Prop} (hv : Operand value)
    (ht : Takes need (Parser.binary · 0) ts (Token.assign :: (value.tokens ++ rparen :: after)) P)
    (made : ∀ target v span, P target → value.Same v →
      ∃ a, Parser.assignment? target v span = some a ∧ e.Same a) :
    Takes (need + 16 * value.tokens.length + 13) Parser.expr (ts ++ Token.assign :: value.tokens)
      (rparen :: after) e.Same := by
  apply Takes.succ
  intro n room
  rw [Parser.expr]
  apply (ht n (by omega)).bind
  intro target htarget
  apply Accepts.nextSpan
  intro place
  apply Accepts.eat
  rw [if_pos rfl]
  apply (hv.expr rfl n (by omega)).bindLast
  intro v same
  apply Accepts.lastSpan
  intro last
  obtain ⟨a, assigned, same⟩ := made target v (target.span.merge last) htarget same
  simp only [assigned]
  exact .pure same

/-- What stands before `=` is read up to there. -/
theorem takes_target {P : Expr → Prop}
    (h : Takes need Parser.unary ts (Token.assign :: after) P) :
    Takes (need + 9) (Parser.binary · 0) ts (Token.assign :: after) P :=
  Parser.takes_binary_down Parser.unaryLevel (Nat.le_refl _) (Parser.takes_binary_of_unary h)
    (by simp)

theorem of_assign {s : Span} {x : String} {value : Expr} (name : x ≠ thisName)
    (hv : Operand value) : Operand (assign s x false value) := by
  have text : (var .none x).tokens = [ident x] := by rw [tokens, if_neg name]
  have target (rest : List Token) :
      Takes 27 (Parser.binary · 0) [ident x] (Token.assign :: rest) (var .none x).Same :=
    takes_target ((of_var .none x).unary text (by simp) (by simp))
  refine of_inParens rfl fun after => ?_
  refine (takes_assignment hv (target _) ?_).le (by simp; omega)
  intro a v span hsame same
  cases a with
  | var s' y =>
    cases hsame
    refine ⟨_, if_neg name, ?_⟩
    rw [Same, eraseSpans, eraseSpans, same]
  | _ => cases hsame

/-- A field access after a receiver is read up to what follows it. -/
theorem takes_field {r : Expr} {x : String} (hr : Operand r) (call : t ≠ lparen)
    (field : t ≠ dot) :
    Takes (16 * r.tokens.length + 3) Parser.unary (r.tokens ++ [dot, ident x]) (t :: after)
      fun a => ∃ s r', a = .field s r' x ∧ r.Same r' := by
  refine hr.unary_postfixes (by omega) fun a same => ?_
  refine Takes.le (Takes.succ fun n (room : 1 ≤ n) => ?_) (by omega)
  rw [Parser.postfixes]
  refine .next (.advance (.identifier (.next ?_)))
  split
  · rename_i first
    exact absurd (Option.some_inj.mp first) call
  · exact .lastSpan fun last => Parser.takes_postfixes_nil call field ⟨_, a, rfl, same⟩ n room

theorem of_field {s : Span} {r : Expr} {x : String} (hr : Operand r) : Operand (field s r x) := by
  refine of_inParens rfl fun after => ?_
  refine ((Parser.takes_expr_of_unary rfl (takes_field hr (by simp) (by simp))).mono ?_).le
    (by simp; omega)
  rintro _ ⟨s', r', rfl, same⟩
  rw [Same, eraseSpans, eraseSpans, same]

theorem of_setField {s : Span} {r value : Expr} {x : String} (hr : Operand r)
    (hv : Operand value) : Operand (setField s r x value) := by
  have text : (setField s r x value).tokens =
      inParens (r.tokens ++ [dot, ident x] ++ Token.assign :: value.tokens) := by simp [tokens]
  refine of_inParens text fun after => ?_
  refine (takes_assignment hv (takes_target (takes_field hr (by simp) (by simp))) ?_).le
    (by simp; omega)
  rintro _ v span ⟨s', r', rfl, same⟩ same'
  refine ⟨_, rfl, ?_⟩
  rw [Same, eraseSpans, eraseSpans, same, same']

end Expr.Operand
end TaggedScript
