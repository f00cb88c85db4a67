import TaggedScript.Proofs.Syntax.Accepting
import TaggedScript.Proofs.SyntaxInduction

/-!
What the parser makes of tokens does not depend on where they stand, nor on what comes after them
unless it was the end of the text that the parser looked at.
-/
namespace TaggedScript

theorem Cursor.rest_ne_nil_of_next {c : Cursor} {t : Token} (h : c.next = some t) : c.rest ≠ [] := by
  intro none
  simp [next, none] at h

/-- A parser that succeeds does so with the same tokens elsewhere and before `more`, of which it takes
none. What it yields is the same in the view. -/
def Echoes {α γ : Type} (more : List Token) (view : α → γ) (x y : Parser α) : Prop :=
  ∀ c a d, x c = .ok a d → ∀ c' : Cursor, c'.tokens = c.tokens ++ more →
    ∃ b d', y c' = .ok b d' ∧ view b = view a ∧ d'.tokens = d.tokens ++ more

/-- The same of a parser that takes a token, unless it is the last that there is. A closed parser may
take that too: it has not looked beyond. -/
def Mimics {α γ : Type} (closed : Prop) (more : List Token) (view : α → γ) (x y : Parser α) : Prop :=
  ∀ c a d, x c = .ok a d → closed ∨ d.rest ≠ [] → c.rest ≠ [] ∧
    ∀ c' : Cursor, c'.tokens = c.tokens ++ more →
      ∃ b d', y c' = .ok b d' ∧ view b = view a ∧ d'.tokens = d.tokens ++ more

namespace Echoes
variable {α β γ δ : Type} {more : List Token} {view : α → γ} {view' : β → δ}
  {x y : Parser α} {f g : α → Parser β}

theorem bind (h : Echoes more view x y)
    (next : ∀ a b, view b = view a → Echoes more view' (f a) (g b)) :
    Echoes more view' (x >>= f) (y >>= g) := by
  intro c b e result c' place
  obtain ⟨a, d, first, second⟩ := ok_of_bind result
  obtain ⟨a', d', first', same, place'⟩ := h c a d first c' place
  obtain ⟨b', e', second', same', place''⟩ := next a a' same d b e second d' place'
  exact ⟨b', e', by rw [bind_eq, first']; exact second', same', place''⟩

theorem pure {a b : α} (same : view b = view a) :
    Echoes more view (Pure.pure a) (Pure.pure b) := by
  rintro c _ _ ⟨⟩ c' place
  exact ⟨b, c', rfl, same, place⟩

theorem lastSpan {f g : Span → Parser β} (h : ∀ s s', Echoes more view' (f s) (g s')) :
    Echoes more view' (Parser.lastSpan >>= f) (Parser.lastSpan >>= g) :=
  fun c b d result c' place => h c.lastSpan c'.lastSpan c b d result c' place

/-- What comes next is a token, or `more` begins where the tokens end. -/
theorem next {f g : Option Token → Parser β}
    (inside : ∀ t, Echoes more view' (f (some t)) (g (some t)))
    (atEnd : Echoes more view' (f none) (g more.head?)) :
    Echoes more view' (Parser.next >>= f) (Parser.next >>= g) := by
  intro c b d result c' place
  change f c.next c = .ok b d at result
  have first : c'.next = (c.tokens ++ more).head? := by rw [c'.next_eq, place]
  change ∃ b d', g c'.next c' = .ok b d' ∧ _
  rw [first, List.head?_append, ← c.next_eq]
  cases looked : c.next with
  | none =>
    rw [looked] at result
    exact atEnd c b d result c' place
  | some t =>
    rw [looked] at result
    exact inside t c b d result c' place

end Echoes

namespace Mimics
variable {α β γ δ : Type} {closed : Prop} {more : List Token} {view : α → γ} {view' : β → δ}
  {x y : Parser α} {f g : α → Parser β}

theorem of_closed (h : Mimics True more view x y) : Mimics closed more view x y :=
  fun c a d result _ => h c a d result (.inl trivial)

theorem bind (h : Mimics False more view x y)
    (next : ∀ a b, view b = view a → Mimics closed more view' (f a) (g b)) :
    Mimics closed more view' (x >>= f) (y >>= g) := by
  intro c b e result left
  obtain ⟨a, d, first, second⟩ := ok_of_bind result
  -- Something is left for the second parser, which is why the first may look at what comes next.
  have some := (next a a rfl d b e second left).1
  obtain ⟨some', go⟩ := h c a d first (.inr some)
  refine ⟨some', fun c' place => ?_⟩
  obtain ⟨a', d', first', same, place'⟩ := go c' place
  obtain ⟨b', e', second', same', place''⟩ := (next a a' same d b e second left).2 d' place'
  exact ⟨b', e', by rw [bind_eq, first']; exact second', same', place''⟩

/-- What comes after a closed parser need not take a token. -/
theorem bindEchoes (h : Mimics True more view x y)
    (next : ∀ a b, view b = view a → Echoes more view' (f a) (g b)) :
    Mimics closed more view' (x >>= f) (y >>= g) := by
  intro c b e result _
  obtain ⟨a, d, first, second⟩ := ok_of_bind result
  obtain ⟨some, go⟩ := h c a d first (.inl trivial)
  refine ⟨some, fun c' place => ?_⟩
  obtain ⟨a', d', first', same, place'⟩ := go c' place
  obtain ⟨b', e', second', same', place''⟩ := next a a' same d b e second d' place'
  exact ⟨b', e', by rw [bind_eq, first']; exact second', same', place''⟩

theorem echoes (h : Mimics True more view x y) : Echoes more view x y :=
  fun c a d result => (h c a d result (.inl trivial)).2

theorem pure {a b : α} (same : view b = view a) :
    Mimics False more view (Pure.pure a) (Pure.pure b) := by
  rintro c _ _ ⟨⟩ left
  exact ⟨left.resolve_left id, fun c' place => ⟨b, c', rfl, same, place⟩⟩

theorem fails (h : ∀ c, ∃ e d, x c = .error e d) : Mimics closed more view x y := by
  intro c a d result
  obtain ⟨e, d', failed⟩ := h c
  rw [failed] at result
  cases result

/-! ## The pieces of the parser -/

theorem failHere (fault : ParseFault) : Mimics closed more view (Parser.failHere fault) y :=
  fails fun _ => ⟨_, _, rfl⟩

/-- The view in which all is the same. -/
def anyway (_ : α) : Unit := ()

theorem next_eq {c c' : Cursor} (some : c.rest ≠ []) (place : c'.tokens = c.tokens ++ more) :
    c'.next = c.next := by
  obtain ⟨x, rest, split⟩ := List.exists_cons_of_ne_nil some
  rw [c'.next_eq, place, c.next_eq, Cursor.tokens, split]
  rfl

theorem next : Mimics False more id Parser.next Parser.next := by
  rintro c _ _ ⟨⟩ left
  have some := left.resolve_left id
  exact ⟨some, fun c' place => ⟨c'.next, c', rfl, next_eq some place, place⟩⟩

theorem nextSpan : Mimics False more anyway Parser.nextSpan Parser.nextSpan := by
  rintro c _ _ ⟨⟩ left
  exact ⟨left.resolve_left id, fun c' place => ⟨c'.nextSpan, c', rfl, rfl, place⟩⟩

theorem lastSpan : Mimics False more anyway Parser.lastSpan Parser.lastSpan := by
  rintro c _ _ ⟨⟩ left
  exact ⟨left.resolve_left id, fun c' place => ⟨c'.lastSpan, c', rfl, rfl, place⟩⟩

end Mimics

/-- The token after both cursors is passed over. -/
theorem Cursor.tokens_advance {c c' : Cursor} {more : List Token} (some : c.rest ≠ [])
    (place : c'.tokens = c.tokens ++ more) : c'.advance.tokens = c.advance.tokens ++ more := by
  obtain ⟨x, rest, split⟩ := List.exists_cons_of_ne_nil some
  simp only [tokens, split, List.map_cons, List.cons_append] at place
  obtain ⟨x', rest', split', -, place'⟩ := List.map_eq_cons_iff.mp place
  simp only [advance, split, split', tokens]
  exact place'

namespace Mimics
variable {α β γ δ : Type} {closed : Prop} {more : List Token} {t : Token}

theorem advance : Mimics False more anyway Parser.advance Parser.advance := by
  rintro c _ _ ⟨⟩ left
  have some : c.rest ≠ [] := by
    intro none
    simp only [Cursor.advance, none, ne_eq, not_true_eq_false, or_self] at left
  exact ⟨some, fun c' place => ⟨(), c'.advance, rfl, rfl, Cursor.tokens_advance some place⟩⟩

/-- A parser that fails at the end of the text may look at the token that comes next. -/
theorem look {view : α → γ} {f g : Option Token → Parser α}
    (stuck : ∀ c, ∃ e d, f none c = .error e d)
    (go : ∀ t (c c' : Cursor), c.next = some t → c'.tokens = c.tokens ++ more →
      ∀ a d, f (some t) c = .ok a d →
        ∃ b d', g (some t) c' = .ok b d' ∧ view b = view a ∧ d'.tokens = d.tokens ++ more) :
    Mimics closed more view (Parser.next >>= f) (Parser.next >>= g) := by
  intro c a d result _
  change f c.next c = .ok a d at result
  cases first : c.next with
  | none =>
    obtain ⟨e, d', failed⟩ := stuck c
    rw [first, failed] at result
    cases result
  | some t =>
    have some := Cursor.rest_ne_nil_of_next first
    rw [first] at result
    refine ⟨some, fun c' place => ?_⟩
    obtain ⟨b, d', result', rest⟩ := go t c c' first place a d result
    refine ⟨b, d', ?_, rest⟩
    change g c'.next c' = .ok b d'
    rw [next_eq some place, first, result']

theorem expect : Mimics closed more anyway (Parser.expect t) (Parser.expect t) := by
  refine look (fun c => ⟨_, _, rfl⟩) fun u c c' first place s d result => ?_
  split at result
  · rename_i token
    cases result
    rw [if_pos token]
    have some := Cursor.rest_ne_nil_of_next first
    exact ⟨c'.nextSpan, c'.advance, rfl, rfl, Cursor.tokens_advance some place⟩
  · cases result

theorem identifier : Mimics closed more id Parser.identifier Parser.identifier := by
  refine look (fun c => ⟨_, _, rfl⟩) fun u c c' first place x d result => ?_
  cases u with
  | ident x =>
    cases result
    have some := Cursor.rest_ne_nil_of_next first
    exact ⟨x, c'.advance, rfl, rfl, Cursor.tokens_advance some place⟩
  | _ => cases result

theorem fieldName : Mimics closed more id Parser.fieldName Parser.fieldName := by
  refine look (fun c => ⟨_, _, rfl⟩) fun u c c' first place x d result => ?_
  cases u with
  | ident x | str x =>
    cases result
    exact ⟨x, c', rfl, rfl, place⟩
  | _ => cases result

theorem eat : Mimics False more id (Parser.eat t) (Parser.eat t) := by
  refine next.bind fun first first' same => ?_
  cases same
  split
  · exact advance.bind fun _ _ _ => .pure rfl
  · exact .pure rfl

theorem operator? {level : Nat} :
    Mimics False more (Option.map Prod.fst) (Parser.operator? level) (Parser.operator? level) := by
  refine next.bind fun first first' same => ?_
  cases same
  split
  · split
    · exact nextSpan.bind fun _ _ _ => advance.bind fun _ _ _ => .pure rfl
    · exact .pure rfl
  · exact .pure rfl

theorem tokens_passAll (passed passed' rest rest' : List Lexeme)
    (place : rest'.map (·.token) = rest.map (·.token) ++ more)
    (left : (Cursor.passAll t passed rest).rest ≠ []) :
    (Cursor.passAll t passed' rest').tokens = (Cursor.passAll t passed rest).tokens ++ more := by
  induction rest generalizing passed passed' rest' with
  | nil => exact absurd rfl left
  | cons x rest ih =>
    obtain ⟨x', rest', rfl, token, place⟩ := List.map_eq_cons_iff.mp place
    simp only [Cursor.passAll, token] at left ⊢
    split
    · rename_i same
      rw [if_pos same] at left
      exact ih _ _ _ place left
    · simp [Cursor.tokens, token, place]

theorem semicolons : Mimics False more anyway Parser.semicolons Parser.semicolons := by
  rintro c _ _ ⟨⟩ left
  have left : (Cursor.passAll .semi c.passed c.rest).rest ≠ [] := left.resolve_left id
  have some : c.rest ≠ [] := by
    intro none
    rw [none] at left
    exact left rfl
  exact ⟨some, fun c' place => ⟨(), _, rfl, rfl, tokens_passAll _ _ _ _ place left⟩⟩

end Mimics

/-! ## Trees that differ in their places alone -/

namespace Expr

theorem erased_inductive : Expr.Inductive (fun e => e.eraseSpans.eraseSpans = e.eraseSpans)
    (fun es => eraseSpansAll (eraseSpansAll es) = eraseSpansAll es)
    (fun fs => eraseSpansFields (eraseSpansFields fs) = eraseSpansFields fs) where
  literal _ _ := rfl
  var _ _ := rfl
  assign _ _ _ _ ih := by simp only [eraseSpans, ih]
  field _ _ _ ih := by simp only [eraseSpans, ih]
  setField _ _ _ _ ihr ihe := by simp only [eraseSpans, ihr, ihe]
  call _ _ _ ihf ihargs := by simp only [eraseSpans, ihf, ihargs]
  methodCall _ _ _ _ ihr ihargs := by simp only [eraseSpans, ihr, ihargs]
  function _ _ _ _ ih := by simp only [eraseSpans, ih]
  object _ _ ih := by simp only [eraseSpans, ih]
  cond _ _ _ _ ihc iht ihe := by simp only [eraseSpans, ihc, iht, ihe]
  ret _ _ ih := by simp only [eraseSpans, ih]
  block _ _ ih := by simp only [eraseSpans, ih]
  nil := rfl
  cons _ _ ihe ihes := by simp only [eraseSpansAll, ihe, ihes]
  noFields := rfl
  consField _ _ _ ihe ihfs := by simp only [eraseSpansFields, ihe, ihfs]

theorem eraseSpans_eraseSpans (e : Expr) : e.eraseSpans.eraseSpans = e.eraseSpans :=
  erased_inductive.expr e

theorem eraseSpans_binary (o : Operator) {s s' : Span} {l l' r r' : Expr}
    (left : l'.eraseSpans = l.eraseSpans) (right : r'.eraseSpans = r.eraseSpans) :
    (binary o s' l' r').eraseSpans = (binary o s l r).eraseSpans := by
  simp only [binary, eraseSpans, eraseSpansAll, left, right]

end Expr

namespace Parser
open TaggedScript.Expr

theorem eraseSpans_negate {s s' : Span} {e e' : Expr} (same : e'.eraseSpans = e.eraseSpans) :
    (negate s' e').eraseSpans = (negate s e).eraseSpans := by
  have erased (s : Span) (e : Expr) :
      (negate s e).eraseSpans = (negate .none e.eraseSpans).eraseSpans := by
    cases e with
    | literal place v =>
      cases v with
      | int n => rfl
      | _ => exact eraseSpans_binary .sub rfl rfl
    | _ => exact eraseSpans_binary .sub rfl (eraseSpans_eraseSpans _).symm
  rw [erased s', erased s, same]

theorem eraseSpans_assignment? {s s' : Span} {t t' v v' : Expr}
    (target : t'.eraseSpans = t.eraseSpans) (value : v'.eraseSpans = v.eraseSpans) :
    (assignment? t' v' s').map eraseSpans = (assignment? t v s).map eraseSpans := by
  have erased (s : Span) (t v : Expr) : (assignment? t v s).map eraseSpans =
      (assignment? t.eraseSpans v.eraseSpans .none).map eraseSpans := by
    cases t with
    | var place x =>
      simp only [assignment?, eraseSpans]
      split
      · rfl
      · simp only [Option.map_some, eraseSpans, eraseSpans_eraseSpans]
    | field place r x =>
      simp only [assignment?, eraseSpans, Option.map_some, eraseSpans_eraseSpans]
    | _ => rfl
  rw [erased s', erased s, target, value]

/-- The parts of the parser do alike with the same tokens elsewhere and before `more`. Those that end
with a token of their own are closed. -/
structure Alike (n : Nat) (more : List Token) : Prop where
  expr : Mimics False more eraseSpans (expr n) (expr n)
  binary : ∀ level, Mimics False more eraseSpans (binary n level) (binary n level)
  binaryTail : ∀ level left left', left'.eraseSpans = left.eraseSpans →
    Mimics False more eraseSpans (binaryTail n level left) (binaryTail n level left')
  unary : Mimics False more eraseSpans (unary n) (unary n)
  postfixes : ∀ e e', e'.eraseSpans = e.eraseSpans →
    Mimics False more eraseSpans (postfixes n e) (postfixes n e')
  arguments : Mimics True more eraseSpansAll (arguments n) (arguments n)
  argumentList : Mimics False more eraseSpansAll (argumentList n) (argumentList n)
  primary : Mimics True more eraseSpans (primary n) (primary n)
  function : Mimics True more eraseSpans (function n) (function n)
  parameters : ∀ seen, Mimics False more id (parameters n seen) (parameters n seen)
  object : ∀ start start', Mimics True more eraseSpans (object n start) (object n start')
  fieldList : ∀ seen, Mimics False more eraseSpansFields (fieldList n seen) (fieldList n seen)
  block : Mimics True more eraseSpansAll (block n) (block n)
  statements : Mimics False more eraseSpansAll (statements n) (statements n)
  statement : Mimics False more eraseSpans (statement n) (statement n)
  declaration : Mimics False more eraseSpans (declaration n) (declaration n)
  returning : Mimics False more eraseSpans (returning n) (returning n)
  conditional : Mimics False more eraseSpans (conditional n) (conditional n)

theorem alike_zero (more : List Token) : Alike 0 more := by
  constructor
  all_goals
    intros
    exact Mimics.failHere .nesting

section
variable {n : Nat} {more : List Token} (h : Alike n more)
include h

theorem alike_expr : Mimics False more eraseSpans (expr (n + 1)) (expr (n + 1)) := by
  rw [expr]
  refine (h.binary 0).bind fun target target' htarget => ?_
  refine Mimics.nextSpan.bind fun place place' _ => ?_
  refine Mimics.eat.bind fun eaten eaten' same => ?_
  cases same
  split
  · refine h.expr.bind fun value value' hvalue => ?_
    refine Mimics.lastSpan.bind fun last last' _ => ?_
    have assigned : (assignment? target' value' (target'.span.merge last')).map eraseSpans =
        (assignment? target value (target.span.merge last)).map eraseSpans :=
      eraseSpans_assignment? htarget hvalue
    simp only
    split
    · rename_i e made
      rw [made, Option.map_some] at assigned
      obtain ⟨e', made', same⟩ := Option.map_eq_some_iff.mp assigned
      simp only [made']
      exact .pure same
    · exact .fails fun c => ⟨_, _, rfl⟩
  · exact .pure htarget

theorem alike_binary (level : Nat) :
    Mimics False more eraseSpans (binary (n + 1) level) (binary (n + 1) level) := by
  rw [binary]
  split
  · exact h.unary
  · exact (h.binary _).bind fun left left' same => h.binaryTail level left left' same

theorem alike_binaryTail (level : Nat) {left left' : Expr}
    (same : left'.eraseSpans = left.eraseSpans) :
    Mimics False more eraseSpans (binaryTail (n + 1) level left)
      (binaryTail (n + 1) level left') := by
  rw [binaryTail, binaryTail]
  refine Mimics.operator?.bind fun op op' heq => ?_
  cases op with
  | none =>
    rw [Option.map_none, Option.map_eq_none_iff] at heq
    subst heq
    exact .pure same
  | some p =>
    obtain ⟨⟨o, s'⟩, rfl, rfl⟩ := Option.map_eq_some_iff.mp heq
    refine (h.binary _).bind fun right right' hright => ?_
    exact h.binaryTail level _ _ (eraseSpans_binary _ same hright)

theorem alike_unary : Mimics False more eraseSpans (unary (n + 1)) (unary (n + 1)) := by
  rw [unary]
  refine Mimics.nextSpan.bind fun place place' _ => ?_
  refine Mimics.eat.bind fun eaten eaten' same => ?_
  cases same
  split
  · exact h.unary.bind fun e e' same => .pure (eraseSpans_negate same)
  · exact (h.primary.of_closed).bind fun e e' same => h.postfixes e e' same

theorem alike_postfixes {e e' : Expr} (same : e'.eraseSpans = e.eraseSpans) :
    Mimics False more eraseSpans (postfixes (n + 1) e) (postfixes (n + 1) e') := by
  rw [postfixes, postfixes]
  refine Mimics.next.bind fun first first' heq => ?_
  cases heq
  split
  · refine h.arguments.of_closed.bind fun args args' hargs => ?_
    refine Mimics.lastSpan.bind fun last last' _ => h.postfixes _ _ ?_
    rw [eraseSpans, eraseSpans, same, hargs]
  · refine Mimics.advance.bind fun _ _ _ => Mimics.identifier.bind fun name name' heq => ?_
    cases heq
    refine Mimics.next.bind fun second second' heq => ?_
    cases heq
    split
    · refine h.arguments.of_closed.bind fun args args' hargs => ?_
      refine Mimics.lastSpan.bind fun last last' _ => h.postfixes _ _ ?_
      rw [eraseSpans, eraseSpans, same, hargs]
    · refine Mimics.lastSpan.bind fun last last' _ => h.postfixes _ _ ?_
      rw [eraseSpans, eraseSpans, same]
  · exact .pure same

theorem alike_arguments : Mimics True more eraseSpansAll (arguments (n + 1)) (arguments (n + 1)) := by
  rw [arguments]
  refine Mimics.expect.bind fun _ _ _ => h.argumentList.bind fun args args' same => ?_
  exact Mimics.expect.bindEchoes fun _ _ _ => .pure same

theorem alike_argumentList :
    Mimics False more eraseSpansAll (argumentList (n + 1)) (argumentList (n + 1)) := by
  rw [argumentList]
  refine Mimics.next.bind fun first first' heq => ?_
  cases heq
  split
  · exact .pure rfl
  · refine h.expr.bind fun e e' same => Mimics.eat.bind fun eaten eaten' heq => ?_
    cases heq
    split
    · refine h.argumentList.bind fun es es' sames => .pure ?_
      rw [eraseSpansAll, eraseSpansAll, same, sames]
    · exact .pure (by simp only [eraseSpansAll, same])

/-- The pieces of a parenthesised expression after the parenthesis. -/
theorem alike_parenthesised : Mimics True more eraseSpans
    (do let inner ← expr n; let _ ← expect .rparen; return inner)
    (do let inner ← expr n; let _ ← expect .rparen; return inner) :=
  h.expr.bind fun _ _ same => Mimics.expect.bindEchoes fun _ _ _ => .pure same

theorem alike_primary : Mimics True more eraseSpans (primary (n + 1)) (primary (n + 1)) := by
  refine Mimics.nextSpan.bind fun place place' _ => ?_
  refine Mimics.look (fun c => ⟨_, _, rfl⟩) fun t c c' first placed a d result => ?_
  have some := Cursor.rest_ne_nil_of_next first
  have onward := Cursor.tokens_advance some placed
  cases t with
  | int | str | trueKw | falseKw | undefinedKw | thisKw | ident =>
    cases result
    exact ⟨_, c'.advance, rfl, rfl, onward⟩
  | lparen => exact ((alike_parenthesised h) c.advance a d result (.inl trivial)).2 c'.advance onward
  | functionKw => exact (h.function c a d result (.inl trivial)).2 c' placed
  | newKw => exact (h.object place place' c.advance a d result (.inl trivial)).2 c'.advance onward
  | lbrace => exact (h.object place place' c a d result (.inl trivial)).2 c' placed
  | _ => cases result

theorem alike_function : Mimics True more eraseSpans (function (n + 1)) (function (n + 1)) := by
  rw [function]
  refine Mimics.expect.bind fun start start' _ => Mimics.next.bind fun first first' heq => ?_
  cases heq
  have named (name : Option String) : Mimics True more eraseSpans
      (do
        let _ ← expect .lparen
        let params ← parameters n []
        let _ ← expect .rparen
        let body ← block n
        return .function (start.merge (← lastSpan)) name params body)
      (do
        let _ ← expect .lparen
        let params ← parameters n []
        let _ ← expect .rparen
        let body ← block n
        return .function (start'.merge (← lastSpan)) name params body) := by
    refine Mimics.expect.bind fun _ _ _ => (h.parameters []).bind fun params params' heq => ?_
    cases heq
    refine Mimics.expect.bind fun _ _ _ => h.block.bindEchoes fun body body' same => ?_
    refine .lastSpan fun _ _ => .pure ?_
    rw [eraseSpans, eraseSpans, same]
  simp only [pure_bind]
  split
  · exact Mimics.advance.bind fun _ _ _ => named _
  · exact named _

theorem alike_parameters (seen : List String) :
    Mimics False more id (parameters (n + 1) seen) (parameters (n + 1) seen) := by
  rw [parameters]
  refine Mimics.next.bind fun first first' heq => ?_
  cases heq
  split
  · exact .pure rfl
  · refine Mimics.identifier.bind fun name name' heq => ?_
    cases heq
    simp only
    split
    · exact .fails fun c => ⟨_, _, rfl⟩
    · refine Mimics.eat.bind fun eaten eaten' heq => ?_
      cases heq
      split
      · refine (h.parameters _).bind fun params params' heq => ?_
        cases heq
        exact .pure rfl
      · exact .pure rfl

theorem alike_object (start start' : Span) :
    Mimics True more eraseSpans (object (n + 1) start) (object (n + 1) start') := by
  rw [object, object]
  refine Mimics.expect.bind fun _ _ _ => (h.fieldList []).bind fun fields fields' same => ?_
  refine Mimics.expect.bindEchoes fun _ _ _ => .lastSpan fun _ _ => .pure ?_
  rw [eraseSpans, eraseSpans, same]

theorem alike_fieldList (seen : List String) :
    Mimics False more eraseSpansFields (fieldList (n + 1) seen) (fieldList (n + 1) seen) := by
  rw [fieldList]
  refine Mimics.next.bind fun first first' heq => ?_
  cases heq
  split
  · exact .pure rfl
  · refine Mimics.fieldName.bind fun name name' heq => ?_
    cases heq
    simp only
    split
    · exact .fails fun c => ⟨_, _, rfl⟩
    · refine Mimics.advance.bind fun _ _ _ => Mimics.expect.bind fun _ _ _ => ?_
      refine h.expr.bind fun value value' same => Mimics.eat.bind fun eaten eaten' heq => ?_
      cases heq
      split
      · refine (h.fieldList _).bind fun fields fields' sames => .pure ?_
        rw [eraseSpansFields, eraseSpansFields, same, sames]
      · exact .pure (by simp only [eraseSpansFields, same])

theorem alike_block : Mimics True more eraseSpansAll (block (n + 1)) (block (n + 1)) := by
  rw [block]
  refine Mimics.expect.bind fun _ _ _ => h.statements.bind fun body body' same => ?_
  exact Mimics.expect.bindEchoes fun _ _ _ => .pure same

theorem alike_statements :
    Mimics False more eraseSpansAll (statements (n + 1)) (statements (n + 1)) := by
  rw [statements]
  refine Mimics.next.bind fun first first' heq => ?_
  cases heq
  split
  · exact .pure rfl
  · exact .pure rfl
  · refine h.statement.bind fun e e' same => h.statements.bind fun es es' sames => .pure ?_
    rw [eraseSpansAll, eraseSpansAll, same, sames]

theorem alike_statement : Mimics False more eraseSpans (statement (n + 1)) (statement (n + 1)) := by
  rw [statement]
  have ended (e e' : Expr) (same : e'.eraseSpans = e.eraseSpans) : Mimics False more eraseSpans
      (do semicolons; return e) (do semicolons; return e') :=
    Mimics.semicolons.bind fun _ _ _ => .pure same
  refine Mimics.next.bind fun first first' heq => ?_
  cases heq
  split
  · exact h.declaration.bind ended
  · exact h.returning.bind ended
  · exact h.conditional.bind ended
  · exact h.expr.bind ended

theorem alike_declaration :
    Mimics False more eraseSpans (declaration (n + 1)) (declaration (n + 1)) := by
  rw [declaration]
  refine Mimics.expect.bind fun start start' _ => Mimics.identifier.bind fun name name' heq => ?_
  cases heq
  refine Mimics.eat.bind fun eaten eaten' heq => ?_
  cases heq
  have declared (value value' : Expr) (same : value'.eraseSpans = value.eraseSpans) :
      Mimics False more eraseSpans
        (do return .assign (start.merge (← lastSpan)) name true value)
        (do return .assign (start'.merge (← lastSpan)) name true value') := by
    refine Mimics.lastSpan.bind fun _ _ _ => .pure ?_
    rw [eraseSpans, eraseSpans, same]
  simp only [pure_bind]
  split
  · exact h.expr.bind declared
  · exact Mimics.lastSpan.bind fun _ _ _ => declared _ _ rfl

theorem alike_returning : Mimics False more eraseSpans (returning (n + 1)) (returning (n + 1)) := by
  rw [returning]
  refine Mimics.expect.bind fun start start' _ => Mimics.next.bind fun first first' heq => ?_
  cases heq
  have returned (value value' : Expr) (same : value'.eraseSpans = value.eraseSpans) :
      Mimics False more eraseSpans
        (do return .ret (start.merge (← lastSpan)) value)
        (do return .ret (start'.merge (← lastSpan)) value') := by
    refine Mimics.lastSpan.bind fun _ _ _ => .pure ?_
    rw [eraseSpans, eraseSpans, same]
  simp only [pure_bind]
  split
  · exact returned _ _ rfl
  · exact returned _ _ rfl
  · exact returned _ _ rfl
  · exact h.expr.bind returned

theorem alike_conditional :
    Mimics False more eraseSpans (conditional (n + 1)) (conditional (n + 1)) := by
  rw [conditional]
  refine Mimics.expect.bind fun start start' _ => Mimics.expect.bind fun _ _ _ => ?_
  refine h.expr.bind fun test test' htest => Mimics.expect.bind fun _ _ _ => ?_
  refine h.block.of_closed.bind fun thenBlock thenBlock' hthen => ?_
  refine Mimics.eat.bind fun eaten eaten' heq => ?_
  cases heq
  have selected (elseBlock elseBlock' : List Expr)
      (same : eraseSpansAll elseBlock' = eraseSpansAll elseBlock) :
      Mimics False more eraseSpans
        (do return .cond (start.merge (← lastSpan)) test thenBlock elseBlock)
        (do return .cond (start'.merge (← lastSpan)) test' thenBlock' elseBlock') := by
    refine Mimics.lastSpan.bind fun _ _ _ => .pure ?_
    rw [eraseSpans, eraseSpans, htest, hthen, same]
  simp only [pure_bind]
  split
  · refine Mimics.next.bind fun first first' heq => ?_
    cases heq
    split
    · refine h.conditional.bind fun e e' same => selected [e] [e'] ?_
      simp only [eraseSpansAll, same]
    · exact h.block.of_closed.bind selected
  · exact selected [] [] rfl

end

theorem alike (n : Nat) (more : List Token) : Alike n more := by
  induction n with
  | zero => exact alike_zero more
  | succ n h =>
    exact {
      expr := alike_expr h
      binary := alike_binary h
      binaryTail := fun level _ _ => alike_binaryTail h level
      unary := alike_unary h
      postfixes := fun _ _ => alike_postfixes h
      arguments := alike_arguments h
      argumentList := alike_argumentList h
      primary := alike_primary h
      function := alike_function h
      parameters := alike_parameters h
      object := alike_object h
      fieldList := alike_fieldList h
      block := alike_block h
      statements := alike_statements h
      statement := alike_statement h
      declaration := alike_declaration h
      returning := alike_returning h
      conditional := alike_conditional h }

/-- The calls and field accesses up to the end of the text are also those up to `more`, if it begins
with neither. -/
theorem echoes_postfixes (n : Nat) {more : List Token} (call : more.head? ≠ some .lparen)
    (field : more.head? ≠ some .dot) {e e' : Expr} (same : e'.eraseSpans = e.eraseSpans) :
    Echoes more eraseSpans (postfixes n e) (postfixes n e') := by
  induction n generalizing e e' with
  | zero => exact (Mimics.failHere .nesting).echoes
  | succ n ih =>
    have h := alike n more
    have accessed (name : String) : Echoes more eraseSpans
        (do postfixes n (.field (e.span.merge (← lastSpan)) e name))
        (do postfixes n (.field (e'.span.merge (← lastSpan)) e' name)) :=
      .lastSpan fun s s' => ih (by rw [eraseSpans, eraseSpans, same])
    rw [postfixes, postfixes]
    refine .next (fun t => ?_) ?_
    · split
      · refine h.arguments.echoes.bind fun args args' hargs => .lastSpan fun s s' => ih ?_
        rw [eraseSpans, eraseSpans, same, hargs]
      · refine (Mimics.advance.bind fun _ _ _ =>
          Mimics.identifier.bindEchoes fun name name' heq => ?_).echoes
        cases heq
        refine .next (fun t => ?_) ?_
        · split
          · refine h.arguments.echoes.bind fun args args' hargs => .lastSpan fun s s' => ih ?_
            rw [eraseSpans, eraseSpans, same, hargs]
          · exact accessed _
        · split
          · contradiction
          · exact accessed _
      · exact .pure same
    · split
      · contradiction
      · contradiction
      · exact .pure same

/-- What `unary` takes at the end of the text it takes before `more`. -/
theorem mimics_unary (n : Nat) {more : List Token} (call : more.head? ≠ some .lparen)
    (field : more.head? ≠ some .dot) : Mimics True more eraseSpans (unary n) (unary n) := by
  induction n with
  | zero => exact Mimics.failHere .nesting
  | succ n ih =>
    rw [unary]
    refine Mimics.nextSpan.bind fun place place' _ => ?_
    refine Mimics.eat.bind fun eaten eaten' heq => ?_
    cases heq
    split
    · exact ih.bindEchoes fun e e' same => .pure (eraseSpans_negate same)
    · exact (alike n more).primary.bindEchoes fun e e' => echoes_postfixes n call field

end Parser
end TaggedScript
