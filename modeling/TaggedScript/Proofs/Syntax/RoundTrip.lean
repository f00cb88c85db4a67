import TaggedScript.Proofs.Syntax.Operands
import TaggedScript.Proofs.Syntax.Parsed

/-!
The parser's language. What is read from a text can be said by a text, and what can be said is read
back from its own text.
-/
namespace TaggedScript

open TaggedScript.Token

namespace Expr

def SameAll (es as : List Expr) : Prop := eraseSpansAll as = eraseSpansAll es

def SameFields (fs gs : List (String × Expr)) : Prop := eraseSpansFields gs = eraseSpansFields fs

theorem SameAll.cons {e a : Expr} {es as : List Expr} (same : e.Same a) (sames : SameAll es as) :
    SameAll (e :: es) (a :: as) := by
  rw [SameAll, eraseSpansAll, eraseSpansAll, same, sames]

theorem SameFields.cons {x : String} {e a : Expr} {fs gs : List (String × Expr)} (same : e.Same a)
    (sames : SameFields fs gs) : SameFields ((x, e) :: fs) ((x, a) :: gs) := by
  rw [SameFields, eraseSpansFields, eraseSpansFields, same, sames]

end Expr

namespace Parser
open TaggedScript.Expr

variable {after : List Token}

theorem takes_argumentList {es : List Expr} (h : ∀ e ∈ es, Operand e) :
    Takes (16 * (listed (tokensAll es)).length + 13) argumentList (listed (tokensAll es))
      (rparen :: after) (SameAll es) := by
  induction es with
  | nil =>
    refine Takes.succ fun n _ => ?_
    rw [argumentList]
    exact .next (.pure rfl)
  | cons e es ih =>
    rw [List.forall_mem_cons] at h
    obtain ⟨t, opens, head⟩ := h.1.head
    refine Takes.succ fun n room => ?_
    rw [argumentList]
    apply Accepts.next
    cases es with
    | nil =>
      rw [tokensAll, tokensAll, listed_singleton] at room ⊢
      rw [head]
      split
      · rename_i first
        cases first
        cases opens
      · apply (h.1.expr rfl n room).bindLast
        intro a same
        exact .skip (by simp) (.pure (.cons same rfl))
    | cons e' es =>
      rw [tokensAll, tokensAll, listed_cons_cons, List.length_append, List.length_cons] at room
      rw [tokensAll, tokensAll, listed_cons_cons, List.append_assoc, head]
      split
      · rename_i first
        cases first
        cases opens
      · apply (h.1.expr rfl n (by omega)).bind
        intro a same
        apply Accepts.eat
        apply (ih h.2 n (by rw [tokensAll]; omega)).bindLast
        exact fun as sames => .pure (.cons same sames)

theorem takes_arguments {es : List Expr} (h : ∀ e ∈ es, Operand e) :
    Takes (16 * (listed (tokensAll es)).length + 14) arguments (inParens (listed (tokensAll es)))
      after (SameAll es) := by
  refine Takes.succ fun n room => ?_
  rw [arguments]
  refine .expect fun _ => (takes_argumentList h n room).bind fun as sames => ?_
  exact .expect fun _ => .pure sames

/-- Fields are read back whose names differ from each other and from those before them. -/
theorem takes_fieldList {fs : List (String × Expr)} {seen : List String}
    (h : ∀ p ∈ fs, Operand p.2) (fresh : Fresh seen (fs.map (·.1))) :
    Takes (16 * (listed (tokensFields fs)).length + 13) (fieldList · seen)
      (listed (tokensFields fs)) (rbrace :: after) (SameFields fs) := by
  induction fs generalizing seen with
  | nil =>
    refine Takes.succ fun n _ => ?_
    rw [fieldList]
    exact .next (.pure rfl)
  | cons p fs ih =>
    obtain ⟨x, e⟩ := p
    rw [List.forall_mem_cons] at h
    have operand : Operand e := h.1
    refine Takes.succ fun n room => ?_
    rw [fieldList]
    cases fs with
    | nil =>
      rw [tokensFields, tokensFields, listed_singleton] at room ⊢
      refine .next (.fieldName ?_)
      rw [if_neg (fresh.new x (by simp))]
      refine .advance (.expect fun _ => ?_)
      apply (operand.expr rfl n (by simp at room; omega)).bindLast
      intro a same
      exact .skip (by simp) (.pure (.cons same rfl))
    | cons q fs =>
      rw [tokensFields, tokensFields, listed_cons_cons, List.length_append, List.length_cons,
        List.length_cons, List.length_cons] at room
      rw [tokensFields, tokensFields, listed_cons_cons]
      refine .next (.fieldName ?_)
      rw [if_neg (fresh.new x (by simp))]
      refine .advance (.expect fun _ => ?_)
      apply (operand.expr rfl n (by omega)).bind
      intro a same
      apply Accepts.eat
      apply (ih h.2 fresh.tail n (by rw [tokensFields]; omega)).bindLast
      exact fun gs sames => .pure (.cons same sames)

theorem takes_parameters {params seen : List String} (fresh : Fresh seen params) :
    Takes ((listed (params.map fun x => [ident x])).length + 1) (parameters · seen)
      (listed (params.map fun x => [ident x])) (rparen :: after) (· = params) := by
  induction params generalizing seen with
  | nil =>
    refine Takes.succ fun n _ => ?_
    rw [parameters]
    exact .next (.pure rfl)
  | cons x params ih =>
    refine Takes.succ fun n room => ?_
    rw [parameters]
    cases params with
    | nil =>
      refine .next (.identifier ?_)
      rw [if_neg (fresh.new x (by simp))]
      exact .skip (by simp) (.pure rfl)
    | cons y params =>
      rw [List.map_cons, List.map_cons, listed_cons_cons, List.length_append, List.length_cons,
        List.length_cons] at room
      rw [List.map_cons, List.map_cons, listed_cons_cons]
      refine .next (.identifier ?_)
      rw [if_neg (fresh.new x (by simp))]
      apply Accepts.eat
      apply (ih fresh.tail n (by rw [List.map_cons]; omega)).bindLast
      rintro _ rfl
      exact .pure rfl

/-! ## Statements -/

theorem head_ended {es : List Expr} (h : ∀ e ∈ es, Statement e) (other : after.head? ≠ some semi) :
    (ended (tokensAll es) ++ after).head? ≠ some semi := by
  cases es with
  | nil => exact other
  | cons e es =>
    obtain ⟨t, ts, first, -, notSemi⟩ := (List.forall_mem_cons.mp h).1.begins
    rw [tokensAll, ended_cons, first]
    simpa using notSemi

/-- Statements are read back by whatever reads statements up to `after`. -/
theorem takes_sequence {p : Nat → Parser (List Expr)} {es : List Expr}
    (h : ∀ e ∈ es, Statement e) (other : after.head? ≠ some semi)
    (done : Takes 1 p [] after (· = []))
    (more : ∀ n ts t P, (ts ++ after).head? = some t → t ≠ rbrace →
      Accepts (do let first ← statement n; return first :: (← p n)) ts after P →
        Accepts (p (n + 1)) ts after P) :
    Takes (16 * (ended (tokensAll es)).length + 2) p (ended (tokensAll es)) after (SameAll es) := by
  induction es with
  | nil => exact (done.mono fun as same => by rw [same]; rfl).le (by omega)
  | cons e es ih =>
    rw [List.forall_mem_cons] at h
    obtain ⟨t, ts, first, brace, -⟩ := h.1.begins
    rw [tokensAll, ended_cons, List.append_cons, List.length_append, List.length_append,
      List.length_singleton]
    refine Takes.succ fun n room => more n _ t _ (by rw [first]; rfl) brace ?_
    apply (h.1.takes _ (head_ended h.2 other) n (by omega)).bind
    intro a same
    apply (ih h.2 n (by omega)).bindLast
    exact fun as sames => .pure (.cons same sames)

theorem takes_statements {es : List Expr} (h : ∀ e ∈ es, Statement e) :
    Takes (16 * (ended (tokensAll es)).length + 2) statements (ended (tokensAll es))
      (rbrace :: after) (SameAll es) := by
  refine takes_sequence h (by simp) (Takes.succ fun n _ => ?_) fun n ts t P head brace rest => ?_
  · rw [statements]
    exact .next (.pure rfl)
  · rw [statements]
    apply Accepts.next
    rw [head]
    split
    · rename_i none
      cases none
    · rename_i same
      exact absurd (Option.some_inj.mp same) brace
    · exact rest

theorem takes_script {es : List Expr} (h : ∀ e ∈ es, Statement e) :
    Takes (16 * (ended (tokensAll es)).length + 2) script (ended (tokensAll es)) []
      (SameAll es) := by
  refine takes_sequence h (by simp) (Takes.succ fun n _ => ?_) fun n ts t P head _ rest => ?_
  · rw [script]
    exact .next (.pure rfl)
  · rw [script]
    apply Accepts.next
    rw [head]
    exact rest

theorem takes_block {es : List Expr} (h : ∀ e ∈ es, Statement e) :
    Takes (16 * (ended (tokensAll es)).length + 3) block (inBraces (ended (tokensAll es))) after
      (SameAll es) := by
  refine Takes.succ fun n room => ?_
  rw [block]
  refine .expect fun _ => (takes_statements h n room).bind fun as sames => ?_
  exact .expect fun _ => .pure sames

end Parser

namespace Expr
open TaggedScript.Parser (Fresh)

variable {after : List Token}

/-! ## Operands with parts -/

/-- What a token other than a minus begins is read in parentheses as it would be alone. -/
theorem Operand.of_primary {e : Expr} {t : Token} {ts : List Token}
    (text : e.tokens = inParens (t :: ts)) (plain : t ≠ op .sub)
    (h : ∀ after, Takes (16 * ts.length + 32) Parser.primary (t :: ts) after e.Same) :
    Operand e := by
  refine of_inParens text fun after => ?_
  have whole := Parser.takes_unary_of_primary (by simpa using plain) (by simp) (by simp)
    (h (rparen :: after))
  exact (Parser.takes_expr_of_unary rfl whole).le (by simp; omega)

theorem Operand.of_function {s : Span} {name : Option String} {params : List String}
    {body : List Expr} (differ : params.Nodup) (h : ∀ e ∈ body, Statement e) :
    Operand (function s name params body) := by
  refine of_primary rfl (by simp) fun after => ?_
  refine Takes.succ fun n room => ?_
  simp only [List.length_append, inParens, inBraces, List.length_cons, List.length_nil] at room
  obtain ⟨n, rfl⟩ : ∃ m, n = m + 1 := ⟨n - 1, by omega⟩
  refine .nextSpan fun start => .next ?_
  show Accepts (Parser.function (n + 1)) _ _ _
  rw [Parser.function]
  apply Accepts.expect
  intro start
  have rest (name : Option String) : Accepts (do
      let _ ← Parser.expect .lparen
      let params ← Parser.parameters n []
      let _ ← Parser.expect .rparen
      let body ← Parser.block n
      return .function (start.merge (← Parser.lastSpan)) name params body)
      (inParens (listed (params.map fun x => [ident x])) ++ inBraces (ended (tokensAll body)))
      after (function s name params body).Same := by
    rw [inParens, List.cons_append, List.append_assoc]
    apply Accepts.expect
    intro _
    apply (Parser.takes_parameters ⟨differ, by simp⟩ n (by omega)).bind
    rintro _ rfl
    apply Accepts.expect
    intro _
    apply (Parser.takes_block h n (by omega)).bindLast
    intro as sames
    refine .lastSpan fun last => .pure ?_
    rw [Same, eraseSpans, eraseSpans, sames]
  apply Accepts.next
  cases name with
  | none => exact rest none
  | some x => exact .advance (rest (some x))

theorem Operand.of_object {s : Span} {fields : List (String × Expr)}
    (differ : (fields.map (·.1)).Nodup) (h : ∀ p ∈ fields, Operand p.2) :
    Operand (object s fields) := by
  refine of_primary rfl (by simp) fun after => ?_
  refine Takes.succ fun n room => ?_
  obtain ⟨n, rfl⟩ : ∃ m, n = m + 1 := ⟨n - 1, by simp at room; omega⟩
  refine .nextSpan fun start => .next ?_
  show Accepts (Parser.object (n + 1) start) _ _ _
  rw [Parser.object]
  refine .expect fun _ => ?_
  apply (Parser.takes_fieldList h ⟨differ, by simp⟩ n (by simp at room; omega)).bind
  intro gs sames
  refine .expect fun _ => .lastSpan fun last => .pure ?_
  rw [Same, eraseSpans, eraseSpans, sames]

/-- A call is made of what was read before its arguments and of these. -/
theorem accepts_call {args : List Expr} {e : Expr} {n : Nat} {make : Span → List Expr → Expr}
    (h : ∀ e ∈ args, Operand e) (room : 16 * (listed (tokensAll args)).length + 14 ≤ n)
    (made : ∀ s as, SameAll args as → e.Same (make s as)) :
    Accepts (do
      let as ← Parser.arguments n
      Parser.postfixes n (make (← Parser.lastSpan) as))
      (inParens (listed (tokensAll args))) (rparen :: after) e.Same := by
  apply (Parser.takes_arguments h n room).bindLast
  intro as sames
  apply Accepts.lastSpan
  intro last
  exact Parser.takes_postfixes_nil (by simp) (by simp) (made last as sames) n (by omega)

/-- What is called is read before the arguments, with what leads from it to them. -/
theorem Operand.of_applied {e callee : Expr} (front : List Token) {args : List Expr}
    (hc : Operand callee)
    (text : e.tokens = inParens (callee.tokens ++ (front ++ inParens (listed (tokensAll args)))))
    (reads : ∀ n a after, callee.Same a → 16 * (listed (tokensAll args)).length + 14 ≤ n →
      Accepts (Parser.postfixes (n + 1) a) (front ++ inParens (listed (tokensAll args)))
        (rparen :: after) e.Same) : Operand e := by
  refine of_inParens text fun after => ?_
  refine (Parser.takes_expr_of_unary rfl (hc.unary_postfixes (Nat.le_add_right _
    (16 * (listed (tokensAll args)).length + 15)) fun a same => ?_)).le ?_
  · exact (Takes.succ fun n room => reads n a after same room).le (Nat.le_add_left _ _)
  · simp [inParens]
    omega

theorem Operand.of_methodCall {s : Span} {r : Expr} {x : String} {args : List Expr}
    (hr : Operand r) (hargs : ∀ e ∈ args, Operand e) : Operand (methodCall s r x args) := by
  refine of_applied [dot, ident x] hr rfl fun n a after same room => ?_
  rw [Parser.postfixes]
  refine .next (.advance (.identifier (.next (accepts_call hargs room ?_))))
  intro last as sames
  rw [Same, eraseSpans, eraseSpans, same, sames]

theorem Operand.of_call {s : Span} {f : Expr} {args : List Expr} (hf : Operand f)
    (text : (call s f args).tokens = inParens (f.tokens ++ inParens (listed (tokensAll args))))
    (hargs : ∀ e ∈ args, Operand e) : Operand (call s f args) := by
  refine of_applied [] hf text fun n a after same room => ?_
  rw [Parser.postfixes]
  refine .next (accepts_call hargs room ?_)
  intro last as sames
  rw [Same, eraseSpans, eraseSpans, same, sames]

/-- An operand is read whole beside an operator, up to one that binds no more tightly. -/
theorem Operand.beside {e : Expr} {t : Token} (h : Operand e) {o : Operator} (call : t ≠ lparen)
    (field : t ≠ dot) (ends : ∀ o', t = op o' → o'.precedence ≤ o.precedence) :
    Takes (16 * e.tokens.length + 9) (Parser.binary · (o.precedence + 1)) e.tokens (t :: after)
      e.Same := by
  have high : o.precedence + 1 + (3 - o.precedence) = Parser.unaryLevel := by cases o <;> rfl
  have tight : Takes (16 * e.tokens.length + 3)
      (Parser.binary · (o.precedence + 1 + (3 - o.precedence))) e.tokens (t :: after) e.Same := by
    rw [high]
    exact Parser.takes_binary_of_unary (h.unary rfl call field)
  refine (Parser.takes_binary_down (3 - o.precedence) (Nat.le_of_eq high) tight ?_).le (by omega)
  exact fun o' first => Nat.lt_succ_of_le (ends o' (Option.some_inj.mp first))

theorem eraseSpans_of_operator? {f : Expr} {o : Operator} (h : f.operator? = some o) :
    f.eraseSpans = var .none o.symbol := by
  cases f with
  | var s x => rw [eraseSpans, Operator.symbol_of_ofSymbol? h]
  | _ => cases h

theorem Operand.of_binary {s : Span} {f left right : Expr} {o : Operator}
    (operator : f.operator? = some o) (hl : Operand left) (hr : Operand right) :
    Operand (call s f [left, right]) := by
  have text : (call s f [left, right]).tokens = inParens (left.tokens ++ op o :: right.tokens) := by
    rw [tokens, tokensAll, tokensAll, tokensAll, operator, callTokens]
  refine of_inParens text fun after => ?_
  have chain : Takes (16 * left.tokens.length + 16 * right.tokens.length + 12)
      (Parser.binary · (0 + o.precedence)) (left.tokens ++ op o :: right.tokens) (rparen :: after)
      (call s f [left, right]).Same := by
    rw [Nat.zero_add]
    refine Takes.succ fun n room => ?_
    obtain ⟨n, rfl⟩ : ∃ m, n = m + 2 := ⟨n - 2, by omega⟩
    rw [Parser.binary, if_neg (by cases o <;> decide)]
    apply (hl.beside (by simp) (by simp) (by rintro _ ⟨rfl⟩; exact Nat.le_refl _) _
      (by omega)).bind
    intro a same
    rw [Parser.binaryTail]
    apply Accepts.operator
    intro place
    apply (hr.beside (by simp) (by simp) (by simp) _ (by omega)).bindLast
    intro b same'
    rw [Parser.binaryTail]
    refine .noOperator (by simp) (.pure ?_)
    have sides : SameAll [left, right] [a, b] := .cons same (.cons same' rfl)
    rw [Same, Expr.binary, eraseSpans, eraseSpans, eraseSpans, eraseSpans_of_operator? operator,
      sides]
  have loose := Parser.takes_binary_down o.precedence (by cases o <;> decide) chain (by simp)
  refine (Parser.takes_expr_of_binary rfl loose).le ?_
  have low : o.precedence ≤ 3 := by cases o <;> decide
  simp only [List.length_append, List.length_cons]
  omega

/-! ## Statements that are no operands -/

theorem Statement.of_declaration {s : Span} {x : String} {e : Expr} (h : Operand e) :
    Statement (assign s x true e) := by
  refine .of_part Parser.declaration ⟨varKw, _, rfl, by simp, by simp⟩
    (fun n after rest => ?_) fun after => ?_
  · rw [Parser.statement]
    exact .next rest
  · refine Takes.succ fun n room => ?_
    have length : (assign s x true e).tokens.length = e.tokens.length + 3 := rfl
    rw [Parser.declaration]
    refine .expect fun _ => .identifier (.eat ?_)
    apply (h.expr rfl n (by omega)).bindLast
    intro a same
    refine .lastSpan fun last => .pure ?_
    rw [Same, eraseSpans, eraseSpans, same]

theorem Statement.of_ret {s : Span} {e : Expr} (h : Operand e) : Statement (ret s e) := by
  refine .of_part Parser.returning ⟨returnKw, _, rfl, by simp, by simp⟩
    (fun n after rest => ?_) fun after => ?_
  · rw [Parser.statement]
    exact .next rest
  · refine Takes.succ fun n room => ?_
    have length : (ret s e).tokens.length = e.tokens.length + 1 := rfl
    obtain ⟨t, opens, head⟩ := h.head
    rw [Parser.returning]
    refine .expect fun _ => .next ?_
    rw [head]
    split
    case h_4 =>
      apply (h.expr rfl n (by omega)).bindLast
      intro a same
      refine .lastSpan fun last => .pure ?_
      rw [Same, eraseSpans, eraseSpans, same]
    all_goals
      rename_i first
      cases first <;> cases opens

theorem Statement.of_cond {s : Span} {c : Expr} {t e : List Expr} (hc : Operand c)
    (ht : ∀ b ∈ t, Statement b) (he : ∀ b ∈ e, Statement b) : Statement (cond s c t e) := by
  refine .of_part Parser.conditional ⟨ifKw, _, rfl, by simp, by simp⟩
    (fun n after rest => ?_) fun after => ?_
  · rw [Parser.statement]
    exact .next rest
  · refine Takes.succ fun n room => ?_
    have length : (cond s c t e).tokens.length = c.tokens.length +
        (ended (tokensAll t)).length + (ended (tokensAll e)).length + 8 := by
      simp [tokens, inParens, inBraces]
      omega
    rw [Parser.conditional, tokens, inParens, List.cons_append, List.append_assoc]
    refine .expect fun _ => .expect fun _ => ?_
    apply (hc.expr rfl n (by omega)).bind
    intro a same
    refine .expect fun _ => ?_
    apply (Parser.takes_block ht n (by omega)).bind
    intro as sames
    refine .eat (.next ?_)
    apply (Parser.takes_block he n (by omega)).bindLast
    intro bs sames'
    refine .lastSpan fun last => .pure ?_
    rw [Same, eraseSpans, eraseSpans, same, sames, sames']

/-! ## All expressions -/

/-- An expression is read back from its text wherever a text can say it. -/
structure ReadBack (e : Expr) : Prop where
  operand : e.isExpressible false = true → Operand e
  statement : e.isExpressible true = true → Statement e

theorem ReadBack.of_operand {e : Expr} (same : e.isExpressible true = e.isExpressible false)
    (h : e.isExpressible false = true → Operand e) : ReadBack e :=
  ⟨h, fun expressible => (h (same ▸ expressible)).statement⟩

theorem operands {es : List Expr} (h : ∀ e ∈ es, ReadBack e)
    (expressible : allExpressible false es = true) : ∀ e ∈ es, Operand e :=
  fun e mem => (h e mem).operand (allExpressible_iff.mp expressible e mem)

theorem statements {es : List Expr} (h : ∀ e ∈ es, ReadBack e)
    (expressible : allExpressible true es = true) : ∀ e ∈ es, Statement e :=
  fun e mem => (h e mem).statement (allExpressible_iff.mp expressible e mem)

theorem operator?_of_isExpressible {f : Expr} (h : f.isExpressible false = true) :
    f.operator? = none := by
  cases f with
  | var s x =>
    cases named : (var s x).operator? with
    | none => rfl
    | some o =>
      cases Operator.symbol_of_ofSymbol? named
      rw [isExpressible, o.isName_symbol] at h
      cases o <;> cases h
  | _ => rfl

theorem readBack_inductive : Expr.Inductive ReadBack (fun es => ∀ e ∈ es, ReadBack e)
    (fun fs => ∀ p ∈ fs, ReadBack p.2) where
  literal s v := .of_operand rfl fun h => .of_literal s h
  var s x := .of_operand rfl fun _ => .of_var s x
  assign s x declare e ih := by
    cases declare with
    | false =>
      refine .of_operand rfl fun h => ?_
      simp only [isExpressible, Bool.and_eq_true] at h
      exact .of_assign (isName_ne_this h.1.2) (ih.operand h.2)
    | true =>
      refine ⟨fun h => absurd h Bool.false_ne_true, fun h => ?_⟩
      simp only [isExpressible, Bool.and_eq_true] at h
      exact .of_declaration (ih.operand h.2)
  field s r x ih := .of_operand rfl fun h => by
    simp only [isExpressible, Bool.and_eq_true] at h
    exact .of_field (ih.operand h.1)
  setField s r x e ihr ihe := .of_operand rfl fun h => by
    simp only [isExpressible, Bool.and_eq_true] at h
    exact .of_setField (ihr.operand h.1.1) (ihe.operand h.2)
  call s f args ihf ihargs := .of_operand rfl fun h => by
    simp only [isExpressible, Bool.and_eq_true, Bool.or_eq_true, beq_iff_eq] at h
    have sides := operands ihargs h.2
    obtain callee | ⟨operator, two⟩ := h.1
    · refine .of_call (ihf.operand callee) ?_ sides
      rw [tokens, operator?_of_isExpressible callee, callTokens]
      rintro _ _ _ ⟨⟩
    · obtain ⟨left, right, rfl⟩ := List.length_eq_two.mp two
      obtain ⟨o, named⟩ := Option.isSome_iff_exists.mp operator
      exact .of_binary named (sides left (by simp)) (sides right (by simp))
  methodCall s r x args ihr ihargs := .of_operand rfl fun h => by
    simp only [isExpressible, Bool.and_eq_true] at h
    exact .of_methodCall (ihr.operand h.1.1) (operands ihargs h.2)
  function s name params body ih := .of_operand rfl fun h => by
    simp only [isExpressible, Bool.and_eq_true, decide_eq_true_eq] at h
    exact .of_function h.1.2 (statements ih h.2)
  object s fields ih := .of_operand rfl fun h => by
    simp only [isExpressible, Bool.and_eq_true, decide_eq_true_eq] at h
    exact .of_object h.1 fun p mem =>
      (ih p mem).operand (fieldsExpressible_iff.mp h.2 p mem).2
  cond s c t e ihc iht ihe := by
    refine ⟨fun h => absurd h Bool.false_ne_true, fun h => ?_⟩
    simp only [isExpressible, Bool.and_eq_true] at h
    exact .of_cond (ihc.operand h.1.1.2) (statements iht h.1.2) (statements ihe h.2)
  ret s e ih := by
    refine ⟨fun h => absurd h Bool.false_ne_true, fun h => ?_⟩
    simp only [isExpressible, Bool.and_eq_true] at h
    exact .of_ret (ih.operand h.2)
  block s body ih := ⟨fun h => absurd h Bool.false_ne_true, fun h => absurd h Bool.false_ne_true⟩
  nil := fun _ mem => absurd mem List.not_mem_nil
  cons e es ihe ihes := List.forall_mem_cons.mpr ⟨ihe, ihes⟩
  noFields := fun _ mem => absurd mem List.not_mem_nil
  consField x e fs ihe ihfs := List.forall_mem_cons.mpr ⟨ihe, ihfs⟩

end Expr

namespace Script
open TaggedScript.Expr

theorem parseSource_text {s : Script} (h : s.IsExpressible) :
    ∃ t, parseSource s.text = .ok t ∧ t.eraseSpans = s.eraseSpans := by
  obtain ⟨xs, lexed, same⟩ := lex_text h
  have place : (Cursor.ofLexemes xs).tokens = ended (tokensAll s.body) ++ [] := by
    rw [List.append_nil]
    exact same
  have room : 16 * (ended (tokensAll s.body)).length + 2 ≤ Parser.allowance (.ofLexemes xs) := by
    rw [← same, List.length_map]
    exact Nat.add_le_add_left (by decide) _
  obtain ⟨body, d, parsed, sames, -⟩ :=
    Parser.takes_script (statements (readBack_inductive.list s.body) h) _ room _ place
  refine ⟨⟨body, some s.text⟩, ?_, by rw [eraseSpans, eraseSpans, sames]⟩
  have whole : Parser.parseScript (.ofLexemes xs) =
      Parser.script (Parser.allowance (.ofLexemes xs)) (.ofLexemes xs) := rfl
  rw [parseSource, lexed]
  simp only [whole, parsed]

/-- Just the scripts that a text can say are read from texts, up to their places and their text. A
script that a text can say is read from its fully parenthesised text. -/
theorem parseSource_roundTrip :
    (∀ (source : String) (s : Script), parseSource source = .ok s → s.IsExpressible) ∧
    ∀ s : Script, s.IsExpressible →
      ∃ t, parseSource s.text = .ok t ∧ t.eraseSpans = s.eraseSpans :=
  ⟨fun _ _ => isExpressible_of_parseSource, fun _ => parseSource_text⟩

/-- A declaration with an operator, a method call and a negative integer. -/
def declaration : Script where
  body := [.assign .none "x" true (.binary .sub .none
    (.methodCall .none (.var .none "a") "f" [.literal .none (.int (-3))]) (.var .none thisName))]
  source := none

theorem parseSource_roundTrip_declaration :
    declaration.IsExpressible ∧ declaration.text = "var x = ( ( a . f ( ( - 3 ) ) ) - this ) ; " ∧
    ∃ t, parseSource declaration.text = .ok t ∧ t.eraseSpans = declaration.eraseSpans ∧
      t.IsExpressible := by
  have expressible : declaration.IsExpressible := by decide
  obtain ⟨t, parsed, same⟩ := parseSource_roundTrip.2 declaration expressible
  exact ⟨expressible, by decide, t, parsed, same, parseSource_roundTrip.1 _ t parsed⟩

end Script
end TaggedScript
