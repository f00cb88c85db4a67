import TaggedScript.Proofs.Effects
import TaggedScript.Proofs.Syntax.Lexemes

/-!
What the parser reads from the tokens of a text is a script that a text can say.
-/
namespace TaggedScript

open TaggedScript.Expr

theorem isQuotable_of_isName {x : String} (h : isName x = true) : isQuotable x = true := by
  have word := (isName_iff.mp h).1
  unfold isIdentifier at word
  split at word
  · cases word
  · rename_i c cs letters
    rw [Bool.and_eq_true, List.all_eq_true] at word
    have part (c : Char) (h : Lexer.isNamePart c = true) : (c != '"' && c != '\n') = true := by
      rw [Bool.and_eq_true, bne_iff_ne, bne_iff_ne]
      exact ⟨by rintro rfl; revert h; decide, by rintro rfl; revert h; decide⟩
    have start : Lexer.isNamePart c = true := by simp [Lexer.isNamePart, word.1]
    rw [isQuotable, letters, List.all_eq_true, List.forall_mem_cons]
    exact ⟨part c start, fun d mem => part d (word.2 d mem)⟩

/-- The tokens that are left to read occur in texts. -/
def Cursor.Clean (c : Cursor) : Prop := ∀ x ∈ c.rest, x.token.occurs = true

/-- What a parser yields is as it should be, and so are the tokens that it leaves. -/
def Yields {α : Type} (P : α → Prop) (x : Parser α) : Prop := ∀ c : Cursor, c.Clean →
  match x c with
  | .ok a d => P a ∧ d.Clean
  | .error _ _ => True

namespace Yields
variable {α β : Type} {P : α → Prop} {Q : β → Prop}

theorem bind {x : Parser α} {f : α → Parser β} (h : Yields P x) (next : ∀ a, P a → Yields Q (f a)) :
    Yields Q (x >>= f) := by
  intro c clean
  have first := h c clean
  rw [bind_eq]
  generalize x c = r at first
  cases r with
  | ok a d => exact next a first.1 d first.2
  | error e d => trivial

theorem pure {a : α} (h : P a) : Yields P (Pure.pure a) := fun _ clean => ⟨h, clean⟩

theorem throw (e : ParseError) : Yields P (MonadExcept.throw e : Parser α) := fun _ _ => trivial

theorem get : Yields Cursor.Clean (MonadState.get : Parser Cursor) := fun _ clean => ⟨clean, clean⟩

end Yields

namespace Cursor

theorem Clean.advance {c : Cursor} (h : c.Clean) : c.advance.Clean := by
  unfold Cursor.advance
  split
  · rename_i x rest eq
    intro y mem
    exact h y (by rw [eq]; exact List.mem_cons_of_mem x mem)
  · exact h

theorem Clean.passAll {t : Token} {passed rest : List Lexeme}
    (h : ∀ x ∈ rest, x.token.occurs = true) : (Cursor.passAll t passed rest).Clean := by
  induction rest generalizing passed with
  | nil => exact h
  | cons x rest ih =>
    rw [Cursor.passAll]
    split
    · exact ih fun y mem => h y (List.mem_cons_of_mem x mem)
    · exact h

end Cursor

namespace Parser

/-- Nothing is said of what a parser yields. -/
def any {α : Type} (_ : α) : Prop := True

theorem yields_next : Yields (fun first => ∀ t, first = some t → t.occurs = true) next := by
  intro c clean
  refine ⟨?_, clean⟩
  intro t first
  rw [Cursor.next, Option.map_eq_some_iff] at first
  obtain ⟨x, head, rfl⟩ := first
  exact clean x (List.mem_of_mem_head? head)

theorem yields_nextSpan : Yields any nextSpan := fun _ clean => ⟨trivial, clean⟩

theorem yields_lastSpan : Yields any lastSpan := fun _ clean => ⟨trivial, clean⟩

theorem yields_advance : Yields any advance := fun _ clean => ⟨trivial, clean.advance⟩

theorem yields_semicolons : Yields any semicolons := fun _ clean => ⟨trivial, .passAll clean⟩

variable {α : Type} {P : α → Prop}

theorem yields_failHere (fault : ParseFault) : Yields P (failHere fault : Parser α) :=
  fun _ _ => trivial

theorem yields_failExpected (what : Expected) : Yields P (failExpected what : Parser α) :=
  fun _ _ => trivial

theorem yields_failBefore (fault : ParseFault) : Yields P (failBefore fault : Parser α) :=
  fun _ _ => trivial

theorem yields_eat (t : Token) : Yields any (eat t) := by
  apply yields_next.bind
  intro first _
  split
  · exact yields_advance.bind fun _ _ => .pure trivial
  · exact .pure trivial

theorem yields_expect (t : Token) : Yields any (expect t) := by
  apply yields_next.bind
  intro first _
  split
  · exact yields_nextSpan.bind fun _ _ => yields_advance.bind fun _ _ => .pure trivial
  · exact yields_failExpected _

theorem yields_identifier : Yields (isName · = true) identifier := by
  apply yields_next.bind
  intro first clean
  split
  · rename_i name
    exact yields_advance.bind fun _ _ => .pure (clean _ rfl)
  · exact yields_failExpected _

theorem yields_operator? (level : Nat) : Yields any (operator? level) := by
  apply yields_next.bind
  intro first _
  split
  · split
    · exact yields_nextSpan.bind fun _ _ => yields_advance.bind fun _ _ => .pure trivial
    · exact .pure trivial
  · exact .pure trivial

theorem yields_fieldName : Yields (isQuotable · = true) fieldName := by
  apply yields_next.bind
  intro first clean
  split
  · exact .pure (isQuotable_of_isName (clean _ rfl))
  · exact .pure (clean _ rfl)
  · exact yields_failExpected _

/-- An expression that may stand inside another. -/
def IsValue (e : Expr) : Prop := e.isExpressible false = true

def IsStatement (e : Expr) : Prop := e.isExpressible true = true

def AreValues (es : List Expr) : Prop := allExpressible false es = true

def AreStatements (es : List Expr) : Prop := allExpressible true es = true

/-- Names that may stand after others. -/
structure Fresh (seen names : List String) : Prop where
  differ : names.Nodup
  new : ∀ x ∈ names, x ∉ seen

theorem Fresh.nil (seen : List String) : Fresh seen [] :=
  ⟨List.nodup_nil, fun _ mem => absurd mem List.not_mem_nil⟩

theorem Fresh.cons {seen names : List String} {x : String} (new : x ∉ seen)
    (h : Fresh (seen ++ [x]) names) : Fresh seen (x :: names) where
  differ := List.nodup_cons.mpr ⟨fun mem => h.new x mem (by simp), h.differ⟩
  new := by
    intro y mem
    obtain rfl | mem := List.mem_cons.mp mem
    · exact new
    · exact fun old => h.new y mem (List.mem_append_left _ old)

theorem Fresh.tail {seen names : List String} {x : String} (h : Fresh seen (x :: names)) :
    Fresh (seen ++ [x]) names where
  differ := h.differ.of_cons
  new := by
    intro y mem old
    obtain old | same := List.mem_append.mp old
    · exact h.new y (List.mem_cons_of_mem x mem) old
    · exact (List.nodup_cons.mp h.differ).1 (List.mem_singleton.mp same ▸ mem)

/-- Parameters that may stand after others. -/
def Parameters (seen params : List String) : Prop :=
  params.all isName = true ∧ Fresh seen params

/-- Fields that may stand after others. -/
def Fields (seen : List String) (fs : List (String × Expr)) : Prop :=
  fieldsExpressible fs = true ∧ Fresh seen (fs.map (·.1))

theorem areValues_cons {e : Expr} {es : List Expr} (he : IsValue e) (hes : AreValues es) :
    AreValues (e :: es) := Bool.and_eq_true_iff.mpr ⟨he, hes⟩

theorem areStatements_cons {e : Expr} {es : List Expr} (he : IsStatement e)
    (hes : AreStatements es) : AreStatements (e :: es) := Bool.and_eq_true_iff.mpr ⟨he, hes⟩

theorem Parameters.cons {seen params : List String} {x : String} (name : isName x = true)
    (new : x ∉ seen) (h : Parameters (seen ++ [x]) params) : Parameters seen (x :: params) :=
  ⟨Bool.and_eq_true_iff.mpr ⟨name, h.1⟩, h.2.cons new⟩

theorem Fields.cons {seen : List String} {fs : List (String × Expr)} {x : String} {e : Expr}
    (name : isQuotable x = true) (new : x ∉ seen) (he : IsValue e) (h : Fields (seen ++ [x]) fs) :
    Fields seen ((x, e) :: fs) := by
  refine ⟨?_, h.2.cons new⟩
  rw [fieldsExpressible, name, he, h.1]
  rfl

/-- What each part of the parser yields with so much allowance. -/
structure Reads (n : Nat) : Prop where
  expr : Yields IsValue (expr n)
  binary : ∀ level, Yields IsValue (binary n level)
  binaryTail : ∀ level left, IsValue left → Yields IsValue (binaryTail n level left)
  unary : Yields IsValue (unary n)
  postfixes : ∀ e, IsValue e → Yields IsValue (postfixes n e)
  arguments : Yields AreValues (arguments n)
  argumentList : Yields AreValues (argumentList n)
  primary : Yields IsValue (primary n)
  function : Yields IsValue (function n)
  parameters : ∀ seen, Yields (Parameters seen) (parameters n seen)
  object : ∀ start, Yields IsValue (object n start)
  fieldList : ∀ seen, Yields (Fields seen) (fieldList n seen)
  block : Yields AreStatements (block n)
  statements : Yields AreStatements (statements n)
  statement : Yields IsStatement (statement n)
  declaration : Yields IsStatement (declaration n)
  returning : Yields IsStatement (returning n)
  conditional : Yields IsStatement (conditional n)

theorem reads_zero : Reads 0 := by
  constructor
  all_goals
    intros
    exact yields_failHere .nesting

variable {n : Nat} (h : Reads n)
include h

theorem yields_expr : Yields IsValue (expr (n + 1)) := by
  rw [expr]
  apply (h.binary 0).bind
  intro target htarget
  apply yields_nextSpan.bind
  intro assignSpan _
  apply (yields_eat .assign).bind
  intro eaten _
  split
  · apply h.expr.bind
    intro value hvalue
    apply yields_lastSpan.bind
    intro last _
    simp only
    split
    · rename_i e assigned
      exact .pure (isExpressible_of_assignment? htarget hvalue assigned)
    · exact Yields.get.bind fun _ _ => .throw _
  · exact .pure htarget

theorem yields_binary (level : Nat) : Yields IsValue (binary (n + 1) level) := by
  rw [binary]
  split
  · exact h.unary
  · exact (h.binary _).bind fun left hleft => h.binaryTail level left hleft

theorem yields_binaryTail (level : Nat) {left : Expr} (hl : IsValue left) :
    Yields IsValue (binaryTail (n + 1) level left) := by
  rw [binaryTail]
  apply (yields_operator? level).bind
  intro op _
  split
  · exact (h.binary _).bind fun right hr => h.binaryTail level _ (isExpressible_binary hl hr)
  · exact .pure hl

theorem yields_unary : Yields IsValue (unary (n + 1)) := by
  rw [unary]
  apply yields_nextSpan.bind
  intro span _
  apply (yields_eat _).bind
  intro eaten _
  split
  · exact h.unary.bind fun e he => .pure (isExpressible_negate span he)
  · exact h.primary.bind fun e he => h.postfixes e he

theorem yields_postfixes {e : Expr} (he : IsValue e) : Yields IsValue (postfixes (n + 1) e) := by
  rw [postfixes]
  apply yields_next.bind
  intro first _
  split
  · apply h.arguments.bind
    intro args hargs
    apply yields_lastSpan.bind
    intro last _
    apply h.postfixes
    rw [IsValue, isExpressible, he, hargs]
    rfl
  · apply yields_advance.bind
    intro _ _
    apply yields_identifier.bind
    intro name hname
    apply yields_next.bind
    intro second _
    split
    · apply h.arguments.bind
      intro args hargs
      apply yields_lastSpan.bind
      intro last _
      apply h.postfixes
      rw [IsValue, isExpressible, he, hname, hargs]
      rfl
    · apply yields_lastSpan.bind
      intro last _
      apply h.postfixes
      rw [IsValue, isExpressible, he, hname]
      rfl
  · exact .pure he

theorem yields_arguments : Yields AreValues (arguments (n + 1)) := by
  rw [arguments]
  exact (yields_expect _).bind fun _ _ => h.argumentList.bind fun args hargs =>
    (yields_expect _).bind fun _ _ => .pure hargs

theorem yields_argumentList : Yields AreValues (argumentList (n + 1)) := by
  rw [argumentList]
  apply yields_next.bind
  intro first _
  split
  · exact .pure rfl
  · apply h.expr.bind
    intro e he
    apply (yields_eat _).bind
    intro eaten _
    split
    · exact h.argumentList.bind fun es hes => .pure (areValues_cons he hes)
    · exact .pure (areValues_cons he rfl)

theorem yields_primary : Yields IsValue (primary (n + 1)) := by
  -- No `rw [primary]`: its equation has a case for each token and takes the simplifier too deep.
  apply yields_nextSpan.bind
  intro start _
  apply yields_next.bind
  intro first occurs
  cases first with
  | none => exact yields_failExpected _
  | some t =>
    have occurs := occurs t rfl
    cases t with
    | int k =>
      refine yields_advance.bind fun _ _ => .pure ?_
      have small : 0 ≤ k.toInt := of_decide_eq_true occurs
      exact decide_eq_true (by omega)
    | str s => exact yields_advance.bind fun _ _ => .pure occurs
    | trueKw | falseKw | undefinedKw => exact yields_advance.bind fun _ _ => .pure rfl
    | thisKw => exact yields_advance.bind fun _ _ => .pure rfl
    | ident name =>
      exact yields_advance.bind fun _ _ => .pure (Bool.or_eq_true_iff.mpr (.inl occurs))
    | lparen =>
      exact yields_advance.bind fun _ _ => h.expr.bind fun e he =>
        (yields_expect _).bind fun _ _ => .pure he
    | functionKw => exact h.function
    | newKw => exact yields_advance.bind fun _ _ => h.object start
    | lbrace => exact h.object start
    | _ => exact yields_failExpected _

theorem yields_function : Yields IsValue (function (n + 1)) := by
  rw [function]
  apply (yields_expect _).bind
  intro start _
  apply yields_next.bind
  intro first occurs
  have named (name : Option String) (hname : name.all isName = true) : Yields IsValue (do
      let _ ← expect .lparen
      let params ← parameters n []
      let _ ← expect .rparen
      let body ← block n
      return .function (start.merge (← lastSpan)) name params body) := by
    refine (yields_expect _).bind fun _ _ => (h.parameters []).bind fun params hparams =>
      (yields_expect _).bind fun _ _ => h.block.bind fun body hbody =>
        yields_lastSpan.bind fun _ _ => .pure ?_
    rw [IsValue, isExpressible, hname, hparams.1, decide_eq_true hparams.2.differ, hbody]
    rfl
  simp only [pure_bind]
  split
  · rename_i name
    exact yields_advance.bind fun _ _ => named (some name) (occurs _ rfl)
  · exact named none rfl

theorem yields_parameters (seen : List String) :
    Yields (Parameters seen) (parameters (n + 1) seen) := by
  rw [parameters]
  apply yields_next.bind
  intro first _
  split
  · exact .pure ⟨rfl, .nil seen⟩
  · apply yields_identifier.bind
    intro name hname
    simp only
    split
    · exact (yields_failBefore (P := fun _ => False) _).bind fun _ impossible => impossible.elim
    · rename_i fresh
      apply (yields_eat _).bind
      intro eaten _
      split
      · exact (h.parameters _).bind fun params hparams => .pure (hparams.cons hname fresh)
      · exact .pure (Parameters.cons hname fresh ⟨rfl, .nil _⟩)

theorem yields_object (start : Span) : Yields IsValue (object (n + 1) start) := by
  rw [object]
  refine (yields_expect _).bind fun _ _ => (h.fieldList []).bind fun fields hfields =>
    (yields_expect _).bind fun _ _ => yields_lastSpan.bind fun _ _ => .pure ?_
  rw [IsValue, isExpressible, hfields.1, decide_eq_true hfields.2.differ]
  rfl

theorem yields_fieldList (seen : List String) : Yields (Fields seen) (fieldList (n + 1) seen) := by
  rw [fieldList]
  apply yields_next.bind
  intro first _
  split
  · exact .pure ⟨rfl, .nil seen⟩
  · apply yields_fieldName.bind
    intro name hname
    simp only
    split
    · exact (yields_failHere (P := fun _ => False) _).bind fun _ impossible => impossible.elim
    · rename_i fresh
      apply yields_advance.bind
      intro _ _
      apply (yields_expect _).bind
      intro _ _
      apply h.expr.bind
      intro value hvalue
      apply (yields_eat _).bind
      intro eaten _
      split
      · exact (h.fieldList _).bind fun fields hfields =>
          .pure (hfields.cons hname fresh hvalue)
      · exact .pure (Fields.cons hname fresh hvalue ⟨rfl, .nil _⟩)

theorem yields_block : Yields AreStatements (block (n + 1)) := by
  rw [block]
  exact (yields_expect _).bind fun _ _ => h.statements.bind fun body hbody =>
    (yields_expect _).bind fun _ _ => .pure hbody

theorem yields_statements : Yields AreStatements (statements (n + 1)) := by
  rw [statements]
  apply yields_next.bind
  intro first _
  split
  · exact .pure rfl
  · exact .pure rfl
  · exact h.statement.bind fun e he => h.statements.bind fun es hes =>
      .pure (areStatements_cons he hes)

theorem yields_statement : Yields IsStatement (statement (n + 1)) := by
  rw [statement]
  apply yields_next.bind
  intro first _
  have ended (e : Expr) (he : IsStatement e) : Yields IsStatement (do semicolons; return e) :=
    yields_semicolons.bind fun _ _ => .pure he
  split
  · exact h.declaration.bind ended
  · exact h.returning.bind ended
  · exact h.conditional.bind ended
  · exact h.expr.bind fun e he => ended e (isExpressible_direct he)

theorem yields_declaration : Yields IsStatement (declaration (n + 1)) := by
  rw [declaration]
  apply (yields_expect _).bind
  intro start _
  apply yields_identifier.bind
  intro name hname
  apply (yields_eat _).bind
  intro eaten _
  have declared (value : Expr) (hvalue : IsValue value) : Yields IsStatement (do
      return .assign (start.merge (← lastSpan)) name true value) := by
    refine yields_lastSpan.bind fun _ _ => .pure ?_
    rw [IsStatement, isExpressible, hname, hvalue]
    rfl
  simp only [pure_bind]
  split
  · exact h.expr.bind declared
  · exact yields_lastSpan.bind fun _ _ => declared _ rfl

theorem yields_returning : Yields IsStatement (returning (n + 1)) := by
  rw [returning]
  apply (yields_expect _).bind
  intro start _
  apply yields_next.bind
  intro first _
  have returned (value : Expr) (hvalue : IsValue value) : Yields IsStatement (do
      return .ret (start.merge (← lastSpan)) value) :=
    yields_lastSpan.bind fun _ _ => .pure hvalue
  simp only [pure_bind]
  split
  · exact returned _ rfl
  · exact returned _ rfl
  · exact returned _ rfl
  · exact h.expr.bind returned

theorem yields_conditional : Yields IsStatement (conditional (n + 1)) := by
  rw [conditional]
  apply (yields_expect _).bind
  intro start _
  apply (yields_expect _).bind
  intro _ _
  apply h.expr.bind
  intro test htest
  apply (yields_expect _).bind
  intro _ _
  apply h.block.bind
  intro thenBlock hthen
  apply (yields_eat _).bind
  intro eaten _
  have selected (elseBlock : List Expr) (helse : AreStatements elseBlock) :
      Yields IsStatement (do
        return .cond (start.merge (← lastSpan)) test thenBlock elseBlock) := by
    refine yields_lastSpan.bind fun _ _ => .pure ?_
    rw [IsStatement, isExpressible, htest, hthen, helse]
    rfl
  simp only [pure_bind]
  split
  · apply yields_next.bind
    intro first _
    split
    · exact h.conditional.bind fun e he => selected [e] (areStatements_cons he rfl)
    · exact h.block.bind selected
  · exact selected [] rfl

omit h in
theorem reads (n : Nat) : Reads n := by
  induction n with
  | zero => exact reads_zero
  | succ n h =>
    exact {
      expr := yields_expr h
      binary := yields_binary h
      binaryTail := fun level _ => yields_binaryTail h level
      unary := yields_unary h
      postfixes := fun _ => yields_postfixes h
      arguments := yields_arguments h
      argumentList := yields_argumentList h
      primary := yields_primary h
      function := yields_function h
      parameters := yields_parameters h
      object := yields_object h
      fieldList := yields_fieldList h
      block := yields_block h
      statements := yields_statements h
      statement := yields_statement h
      declaration := yields_declaration h
      returning := yields_returning h
      conditional := yields_conditional h }

omit h in
theorem yields_script (n : Nat) : Yields AreStatements (script n) := by
  induction n with
  | zero => exact yields_failHere .nesting
  | succ n ih =>
    rw [script]
    apply yields_next.bind
    intro first _
    split
    · exact .pure rfl
    · exact (reads n).statement.bind fun e he => ih.bind fun es hes =>
        .pure (areStatements_cons he hes)

end Parser

/-- A text can say what was read from a text. -/
theorem isExpressible_of_parseSource {source : String} {s : Script}
    (h : parseSource source = .ok s) : s.IsExpressible := by
  unfold parseSource at h
  split at h
  · cases h
  · rename_i lexemes lexed
    have clean : (Cursor.ofLexemes lexemes).Clean := Lexer.occurs_lexFrom lexed
    have parsed := Parser.yields_script (Parser.allowance (.ofLexemes lexemes)) _ clean
    have whole : Parser.parseScript (.ofLexemes lexemes) =
        Parser.script (Parser.allowance (.ofLexemes lexemes)) (.ofLexemes lexemes) := rfl
    rw [whole] at h
    generalize Parser.script _ _ = r at h parsed
    cases r with
    | error e c => cases h
    | ok body c =>
      cases h
      exact parsed.1

end TaggedScript
