import TaggedScript.Proofs.Effects
import TaggedScript.Syntax.Parser

/-!
The parser goes onward over the tokens, whatever they are. It comes to its end within its allowance,
and what it blames stands in the text.
-/
namespace TaggedScript

namespace Cursor

/-- The tokens on both sides of the cursor. -/
def lexemes (c : Cursor) : List Lexeme := c.passed.reverse ++ c.rest

/-- A cursor comes to another place by passing over tokens. -/
def Onward (c d : Cursor) : Prop := ∃ xs, d.passed = xs.reverse ++ c.passed ∧ c.rest = xs ++ d.rest

theorem Onward.refl (c : Cursor) : c.Onward c := ⟨[], rfl, rfl⟩

theorem Onward.trans {c d e : Cursor} (h : c.Onward d) (g : d.Onward e) : c.Onward e := by
  obtain ⟨xs, passed, rest⟩ := h
  obtain ⟨ys, passed', rest'⟩ := g
  exact ⟨xs ++ ys, by simp [passed', passed], by simp [rest, rest']⟩

theorem Onward.lexemes {c d : Cursor} (h : c.Onward d) : d.lexemes = c.lexemes := by
  obtain ⟨xs, passed, rest⟩ := h
  simp [Cursor.lexemes, passed, rest]

theorem Onward.position_add {c d : Cursor} (h : c.Onward d) :
    d.position + d.rest.length = c.position + c.rest.length := by
  obtain ⟨xs, passed, rest⟩ := h
  simp only [position, passed, rest, List.length_append, List.length_reverse]
  omega

theorem Onward.rest_le {c d : Cursor} (h : c.Onward d) : d.rest.length ≤ c.rest.length := by
  obtain ⟨xs, -, rest⟩ := h
  simp [rest]

theorem length_lexemes (c : Cursor) : c.lexemes.length = c.position + c.rest.length := by
  simp [lexemes, position]

theorem exists_rest_of_next {c : Cursor} {t : Token} (h : c.next = some t) :
    ∃ x rest, x.token = t ∧ c.rest = x :: rest := by
  obtain ⟨x, first, token⟩ := Option.map_eq_some_iff.mp h
  obtain ⟨rest, split⟩ := List.head?_eq_some_iff.mp first
  exact ⟨x, rest, token, split⟩

theorem rest_advance_lt {c : Cursor} {t : Token} (h : c.next = some t) :
    c.advance.rest.length < c.rest.length := by
  obtain ⟨x, rest, -, split⟩ := exists_rest_of_next h
  simp only [advance, split]
  exact Nat.lt_succ_self _

theorem passed_advance_ne_nil {c : Cursor} {t : Token} (h : c.next = some t) :
    c.advance.passed ≠ [] := by
  obtain ⟨x, rest, -, split⟩ := exists_rest_of_next h
  simp [advance, split]

theorem onward_advance (c : Cursor) : c.Onward c.advance := by
  unfold advance
  split
  · rename_i x rest split
    exact ⟨[x], rfl, by simp [split]⟩
  · exact .refl c

theorem onward_passAll (t : Token) (c : Cursor) : c.Onward (passAll t c.passed c.rest) := by
  obtain ⟨passed, rest⟩ := c
  induction rest generalizing passed with
  | nil => exact .refl _
  | cons x rest ih =>
    simp only [passAll]
    split
    · exact Onward.trans ⟨[x], rfl, rfl⟩ (ih (x :: passed))
    · exact .refl _

end Cursor

/-- The span of the token with a number. The end of the text stands right after the last token. -/
def spanAt (xs : List Lexeme) (i : Nat) : Span :=
  match xs[i]? with
  | some x => x.span
  | none => (xs.getLast?.map (·.span.after)).getD .none

theorem Cursor.getElem?_position (c : Cursor) : c.lexemes[c.position]? = c.rest.head? := by
  simp [lexemes, position, List.getElem?_append_right, List.head?_eq_getElem?]

theorem Cursor.spanAt_position (c : Cursor) : spanAt c.lexemes c.position = c.nextSpan := by
  rw [spanAt, c.getElem?_position]
  obtain ⟨passed, rest⟩ := c
  cases rest with
  | cons x rest => rfl
  | nil => cases passed <;> simp [lexemes, nextSpan]

theorem Cursor.spanAt_before (c : Cursor) (some : c.passed ≠ []) :
    spanAt c.lexemes (c.position - 1) = c.lastSpan := by
  obtain ⟨passed, rest⟩ := c
  cases passed with
  | nil => exact absurd rfl some
  | cons x passed => simp [spanAt, lexemes, position, lastSpan]

namespace ParseError

/-- Both places of an error name the same token, or the end of the text. -/
structure Located (xs : List Lexeme) (e : ParseError) : Prop where
  within : e.position ≤ xs.length
  span : e.span = spanAt xs e.position

/-- What an error blames. An invalid target is blamed on the `=` after it, but noticed only after the
value. -/
structure Blames (xs : List Lexeme) (e : ParseError) : Prop where
  allowed : e.fault ≠ .nesting
  within : e.position ≤ xs.length
  span : e.fault ≠ .invalidTarget → e.span = spanAt xs e.position
  target : e.fault = .invalidTarget →
    ∃ i x, xs[i]? = some x ∧ x.token = .assign ∧ e.span = x.span ∧ i + 1 < e.position

end ParseError

/-- From a cursor two parsers do the same. They go onward and leave fewer than `left` tokens, or
blame a place of the text. -/
def Advances {α : Type} (left : Nat) (c : Cursor) (x y : Parser α) : Prop :=
  x c = y c ∧ match x c with
    | .ok _ d => c.Onward d ∧ d.rest.length < left
    | .error e d => c.Onward d ∧ e.Blames c.lexemes

namespace Advances
variable {α β : Type} {left : Nat} {c : Cursor}

theorem bind {between : Nat} {x y : Parser α} {f g : α → Parser β} (h : Advances between c x y)
    (next : ∀ a d, c.Onward d → d.rest.length < between → Advances left d (f a) (g a)) :
    Advances left c (x >>= f) (y >>= g) := by
  obtain ⟨same, ends⟩ := h
  unfold Advances
  rw [bind_eq, bind_eq, ← same]
  generalize x c = r at ends
  cases r with
  | error e d => exact ⟨rfl, ends⟩
  | ok a d =>
    obtain ⟨same', ends'⟩ := next a d ends.1 ends.2
    refine ⟨same', ?_⟩
    simp only
    generalize f a d = s at ends'
    cases s with
    | ok b e => exact ⟨ends.1.trans ends'.1, ends'.2⟩
    | error b e => exact ⟨ends.1.trans ends'.1, ends.1.lexemes ▸ ends'.2⟩

theorem pure {a : α} (fewer : c.rest.length < left) : Advances left c (Pure.pure a) (Pure.pure a) :=
  ⟨rfl, .refl c, fewer⟩

theorem mono {more : Nat} {x y : Parser α} (h : Advances left c x y) (le : left ≤ more) :
    Advances more c x y := by
  refine ⟨h.1, ?_⟩
  have ends := h.2
  generalize x c = r at ends
  cases r with
  | ok a d => exact ⟨ends.1, Nat.lt_of_lt_of_le ends.2 le⟩
  | error e d => exact ends

/-- A parser may go on from a later place. -/
theorem of_onward {d : Cursor} {x y x' y' : Parser α} (onward : c.Onward d)
    (first : x c = x' d) (second : y c = y' d) (h : Advances left d x' y') :
    Advances left c x y := by
  unfold Advances
  rw [first, second]
  refine ⟨h.1, ?_⟩
  have ends := h.2
  generalize x' d = r at ends
  cases r with
  | ok a e => exact ⟨onward.trans ends.1, ends.2⟩
  | error a e => exact ⟨onward.trans ends.1, onward.lexemes ▸ ends.2⟩

/-! ## The pieces of the parser -/

variable {f g : α → Parser β} {t : Token}

theorem next {f g : Option Token → Parser β} (h : Advances left c (f c.next) (g c.next)) :
    Advances left c (Parser.next >>= f) (Parser.next >>= g) := h

theorem nextSpan {f g : Span → Parser β} (h : Advances left c (f c.nextSpan) (g c.nextSpan)) :
    Advances left c (Parser.nextSpan >>= f) (Parser.nextSpan >>= g) := h

theorem lastSpan {f g : Span → Parser β} (h : Advances left c (f c.lastSpan) (g c.lastSpan)) :
    Advances left c (Parser.lastSpan >>= f) (Parser.lastSpan >>= g) := h

/-- What comes after a failure does not matter. -/
theorem stop {x y : Parser α} {f g : α → Parser β} (h : Advances 0 c x y) :
    Advances left c (x >>= f) (y >>= g) :=
  h.bind fun _ _ _ fewer => absurd fewer (Nat.not_lt_zero _)

theorem advance {f g : Unit → Parser β} (h : Advances left c.advance (f ()) (g ())) :
    Advances left c (Parser.advance >>= f) (Parser.advance >>= g) :=
  .of_onward c.onward_advance rfl rfl h

theorem semicolons {f g : Unit → Parser β}
    (h : ∀ d, c.Onward d → Advances left d (f ()) (g ())) :
    Advances left c (Parser.semicolons >>= f) (Parser.semicolons >>= g) :=
  .of_onward (Cursor.onward_passAll .semi c) rfl rfl (h _ (Cursor.onward_passAll .semi c))

theorem failHere {fault : ParseFault} (allowed : fault ≠ .nesting) (other : fault ≠ .invalidTarget) :
    Advances left c (Parser.failHere fault : Parser α) (Parser.failHere fault) := by
  refine ⟨rfl, .refl c, allowed, ?_, fun _ => c.spanAt_position.symm, fun same => absurd same other⟩
  rw [c.length_lexemes]
  exact Nat.le_add_right _ _

theorem failExpected (what : Expected) :
    Advances left c (Parser.failExpected what : Parser α) (Parser.failExpected what) :=
  .next (.failHere nofun nofun)

theorem failBefore {fault : ParseFault} (allowed : fault ≠ .nesting)
    (other : fault ≠ .invalidTarget) (some : c.passed ≠ []) :
    Advances left c (Parser.failBefore fault : Parser α) (Parser.failBefore fault) := by
  refine ⟨rfl, .refl c, allowed, ?_, fun _ => (c.spanAt_before some).symm,
    fun same => absurd same other⟩
  rw [c.length_lexemes]
  exact Nat.le_trans (Nat.sub_le _ _) (Nat.le_add_right _ _)

theorem eat {f g : Bool → Parser β}
    (eaten : c.next = some t → c.advance.rest.length < c.rest.length →
      Advances left c.advance (f true) (g true))
    (other : Advances left c (f false) (g false)) :
    Advances left c (Parser.eat t >>= f) (Parser.eat t >>= g) := by
  rw [Parser.eat, bind_assoc, bind_assoc]
  apply Advances.next
  split
  · rename_i same
    exact advance (f := fun _ => f true) (g := fun _ => g true)
      (eaten same (Cursor.rest_advance_lt same))
  · exact other

theorem expect {f g : Span → Parser β}
    (h : c.advance.rest.length < c.rest.length →
      Advances left c.advance (f c.nextSpan) (g c.nextSpan)) :
    Advances left c (Parser.expect t >>= f) (Parser.expect t >>= g) := by
  rw [Parser.expect, bind_assoc, bind_assoc]
  apply Advances.next
  split
  · rename_i same
    exact advance (f := fun _ => f c.nextSpan) (g := fun _ => g c.nextSpan)
      (h (Cursor.rest_advance_lt same))
  · exact stop (failExpected _)

theorem identifier {f g : String → Parser β}
    (h : ∀ x, c.advance.passed ≠ [] → c.advance.rest.length < c.rest.length →
      Advances left c.advance (f x) (g x)) :
    Advances left c (Parser.identifier >>= f) (Parser.identifier >>= g) := by
  rw [Parser.identifier, bind_assoc, bind_assoc]
  apply Advances.next
  split
  · rename_i x same
    exact advance (f := fun _ => f x) (g := fun _ => g x)
      (h x (Cursor.passed_advance_ne_nil same) (Cursor.rest_advance_lt same))
  · exact stop (failExpected _)

theorem fieldName {f g : String → Parser β}
    (h : ∀ x, c.advance.rest.length < c.rest.length → Advances left c (f x) (g x)) :
    Advances left c (Parser.fieldName >>= f) (Parser.fieldName >>= g) := by
  rw [Parser.fieldName, bind_assoc, bind_assoc]
  apply Advances.next
  split
  · rename_i x same
    exact h x (Cursor.rest_advance_lt same)
  · rename_i x same
    exact h x (Cursor.rest_advance_lt same)
  · exact stop (failExpected _)

theorem operator? {level : Nat} {f g : Option (Operator × Span) → Parser β}
    (passed : ∀ o, c.advance.rest.length < c.rest.length →
      Advances left c.advance (f (some (o, c.nextSpan))) (g (some (o, c.nextSpan))))
    (other : Advances left c (f none) (g none)) :
    Advances left c (Parser.operator? level >>= f) (Parser.operator? level >>= g) := by
  rw [Parser.operator?, bind_assoc, bind_assoc]
  apply Advances.next
  split
  · rename_i o same
    split
    · exact advance (f := fun _ => f (some (o, c.nextSpan)))
        (g := fun _ => g (some (o, c.nextSpan))) (passed o (Cursor.rest_advance_lt same))
    · exact other
  · exact other

/-- An invalid target is noticed after the value, which is at least one token. -/
theorem invalidTarget {d : Cursor} (first : d.next = some .assign) (onward : d.Onward c)
    (value : c.rest.length + 1 < d.rest.length) :
    Advances left c
      (do throw ⟨.invalidTarget, (← get).position, d.nextSpan⟩ : Parser α)
      (do throw ⟨.invalidTarget, (← get).position, d.nextSpan⟩) := by
  refine ⟨rfl, .refl c, nofun, ?_, fun other => absurd rfl other, fun _ => ?_⟩
  · rw [c.length_lexemes]
    exact Nat.le_add_right _ _
  · obtain ⟨x, rest, token, split⟩ := Cursor.exists_rest_of_next first
    have passed := onward.position_add
    refine ⟨d.position, x, ?_, token, ?_, ?_⟩
    · rw [onward.lexemes, d.getElem?_position, split, List.head?_cons]
    · simp only [Cursor.nextSpan, split]
    · change d.position + 1 < c.position
      omega

end Advances

/-- With an allowance of 16 for each token that is left and `need` more, a part of the parser comes
to its end, and `k` more makes no difference. If `extra` is 0 it takes a token, if it is 1 perhaps
none. -/
def Settled {α : Type} (n k need extra : Nat) (p : Nat → Parser α) : Prop :=
  ∀ c : Cursor, 16 * c.rest.length + need ≤ n →
    Advances (c.rest.length + extra) c (p n) (p (k + n))

theorem Settled.succ {α : Type} {n k need extra : Nat} {p : Nat → Parser α}
    (h : ∀ c : Cursor, 16 * c.rest.length + need ≤ n + 1 →
      Advances (c.rest.length + extra) c (p (n + 1)) (p (k + n + 1))) :
    Settled (n + 1) k need extra p := h

namespace Parser

/-- All parts of the parser are settled. A part needs more allowance than those that it calls before
it takes a token. -/
structure Settles (n k : Nat) : Prop where
  expr : Settled n k 9 0 expr
  binary : ∀ level, level ≤ unaryLevel → Settled n k (8 - level) 0 (binary · level)
  binaryTail : ∀ level left, level < unaryLevel → Settled n k 1 1 (binaryTail · level left)
  unary : Settled n k 3 0 unary
  postfixes : ∀ e, Settled n k 2 1 (postfixes · e)
  arguments : Settled n k 1 0 arguments
  argumentList : Settled n k 10 1 argumentList
  primary : Settled n k 2 0 primary
  function : Settled n k 1 0 function
  parameters : ∀ seen, Settled n k 1 1 (parameters · seen)
  object : ∀ start, Settled n k 1 0 (object · start)
  fieldList : ∀ seen, Settled n k 1 1 (fieldList · seen)
  block : Settled n k 1 0 block
  statements : Settled n k 11 1 statements
  statement : Settled n k 10 0 statement
  declaration : Settled n k 1 0 declaration
  returning : Settled n k 1 0 returning
  conditional : Settled n k 1 0 conditional

theorem settles_zero (k : Nat) : Settles 0 k := by
  constructor
  case binary =>
    intro level tight c room
    have : level ≤ 4 := tight
    omega
  all_goals
    intros
    intro c room
    omega

variable {n k : Nat} (h : Settles n k)
include h

theorem settled_expr : Settled (n + 1) k 9 0 expr := by
  refine .succ fun c room => ?_
  rw [expr, expr]
  apply (h.binary 0 (Nat.zero_le _) c (by omega)).bind
  intro target d passed fewer
  apply Advances.nextSpan
  apply Advances.eat
  · intro first less
    apply (h.expr d.advance (by omega)).bind
    intro value e passed' fewer'
    apply Advances.lastSpan
    simp only
    split
    · exact .pure (by omega)
    · exact .invalidTarget first (d.onward_advance.trans passed') (by omega)
  · exact .pure (by omega)

theorem settled_binary (level : Nat) (tight : level ≤ unaryLevel) :
    Settled (n + 1) k (8 - level) 0 (binary · level) := by
  refine .succ fun c room => ?_
  have four : unaryLevel = 4 := rfl
  rw [binary, binary]
  split
  · exact h.unary c (by omega)
  · apply (h.binary (level + 1) (by omega) c (by omega)).bind
    intro left d passed fewer
    exact (h.binaryTail level left (by omega) d (by omega)).mono (by omega)

theorem settled_binaryTail (level : Nat) (left : Expr) (tight : level < unaryLevel) :
    Settled (n + 1) k 1 1 (binaryTail · level left) := by
  refine .succ fun c room => ?_
  rw [binaryTail, binaryTail]
  apply Advances.operator?
  · intro o less
    apply (h.binary (level + 1) tight c.advance (by omega)).bind
    intro right d passed fewer
    exact (h.binaryTail level _ tight d (by omega)).mono (by omega)
  · exact .pure (by omega)

theorem settled_unary : Settled (n + 1) k 3 0 unary := by
  refine .succ fun c room => ?_
  rw [unary, unary]
  apply Advances.nextSpan
  apply Advances.eat
  · intro first less
    apply (h.unary c.advance (by omega)).bind
    intro e d passed fewer
    exact .pure (by omega)
  · apply (h.primary c (by omega)).bind
    intro e d passed fewer
    exact (h.postfixes e d (by omega)).mono (by omega)

theorem settled_postfixes (e : Expr) : Settled (n + 1) k 2 1 (postfixes · e) := by
  refine .succ fun c room => ?_
  rw [postfixes, postfixes]
  apply Advances.next
  split
  · apply (h.arguments c (by omega)).bind
    intro args d passed fewer
    apply Advances.lastSpan
    exact (h.postfixes _ d (by omega)).mono (by omega)
  · rename_i first
    have less := Cursor.rest_advance_lt first
    apply Advances.advance
    apply Advances.identifier
    intro x passed less'
    apply Advances.next
    split
    · apply (h.arguments c.advance.advance (by omega)).bind
      intro args d passed fewer
      apply Advances.lastSpan
      exact (h.postfixes _ d (by omega)).mono (by omega)
    · apply Advances.lastSpan
      exact (h.postfixes _ c.advance.advance (by omega)).mono (by omega)
  · exact .pure (by omega)

theorem settled_arguments : Settled (n + 1) k 1 0 arguments := by
  refine .succ fun c room => ?_
  rw [arguments, arguments]
  apply Advances.expect
  intro less
  apply (h.argumentList c.advance (by omega)).bind
  intro args d passed fewer
  apply Advances.expect
  intro less'
  exact .pure (by omega)

theorem settled_argumentList : Settled (n + 1) k 10 1 argumentList := by
  refine .succ fun c room => ?_
  rw [argumentList, argumentList]
  apply Advances.next
  split
  · exact .pure (by omega)
  · apply (h.expr c (by omega)).bind
    intro e d passed fewer
    apply Advances.eat
    · intro _ less
      apply (h.argumentList d.advance (by omega)).bind
      intro es d' passed' fewer'
      exact .pure (by omega)
    · exact .pure (by omega)

theorem settled_primary : Settled (n + 1) k 2 0 primary := by
  intro c room
  -- As in `yields_primary`, the definition is opened by the pieces that it begins with.
  apply Advances.nextSpan
  apply Advances.next
  cases first : c.next with
  | none => exact .failExpected _
  | some t =>
    have less := Cursor.rest_advance_lt first
    have leaf (e : Expr) : Advances (c.rest.length + 0) c
        (do advance; return e) (do advance; return e) :=
      .advance (.pure (by omega))
    cases t with
    | int | str | trueKw | falseKw | undefinedKw | thisKw | ident => exact leaf _
    | lparen =>
      apply Advances.advance
      apply (h.expr c.advance (by omega)).bind
      intro e d passed fewer
      apply Advances.expect
      intro less'
      exact .pure (by omega)
    | functionKw => exact h.function c (by omega)
    | newKw =>
      apply Advances.advance
      exact (h.object c.nextSpan c.advance (by omega)).mono (by omega)
    | lbrace => exact h.object c.nextSpan c (by omega)
    | _ => exact .failExpected _

theorem settled_function : Settled (n + 1) k 1 0 function := by
  refine .succ fun c room => ?_
  rw [function, function]
  apply Advances.expect
  intro less
  have named (name : Option String) (d : Cursor) (passed : d.rest.length < c.rest.length) :
      Advances (c.rest.length + 0) d
        (do
          let _ ← expect .lparen
          let params ← parameters n []
          let _ ← expect .rparen
          let body ← block n
          return Expr.function (c.nextSpan.merge (← lastSpan)) name params body)
        (do
          let _ ← expect .lparen
          let params ← parameters (k + n) []
          let _ ← expect .rparen
          let body ← block (k + n)
          return Expr.function (c.nextSpan.merge (← lastSpan)) name params body) := by
    apply Advances.expect
    intro less
    apply (h.parameters [] d.advance (by omega)).bind
    intro params e passed fewer
    apply Advances.expect
    intro less'
    apply (h.block e.advance (by omega)).bind
    intro body e' passed' fewer'
    apply Advances.lastSpan
    exact .pure (by omega)
  apply Advances.next
  simp only [pure_bind]
  split
  · rename_i x name
    have less' := Cursor.rest_advance_lt name
    apply Advances.advance
    exact named (some x) c.advance.advance (by omega)
  · exact named none c.advance (by omega)

theorem settled_parameters (seen : List String) : Settled (n + 1) k 1 1 (parameters · seen) := by
  refine .succ fun c room => ?_
  rw [parameters, parameters]
  apply Advances.next
  split
  · exact .pure (by omega)
  · apply Advances.identifier
    intro x passed less
    simp only
    split
    · exact .stop (.failBefore nofun nofun passed)
    · apply Advances.eat
      · intro _ less'
        apply (h.parameters _ c.advance.advance (by omega)).bind
        intro xs d passed fewer
        exact .pure (by omega)
      · exact .pure (by omega)

theorem settled_object (start : Span) : Settled (n + 1) k 1 0 (object · start) := by
  refine .succ fun c room => ?_
  rw [object, object]
  apply Advances.expect
  intro less
  apply (h.fieldList [] c.advance (by omega)).bind
  intro fields d passed fewer
  apply Advances.expect
  intro less'
  apply Advances.lastSpan
  exact .pure (by omega)

theorem settled_fieldList (seen : List String) : Settled (n + 1) k 1 1 (fieldList · seen) := by
  refine .succ fun c room => ?_
  rw [fieldList, fieldList]
  apply Advances.next
  split
  · exact .pure (by omega)
  · apply Advances.fieldName
    intro x less
    simp only
    split
    · exact .stop (.failHere nofun nofun)
    · apply Advances.advance
      apply Advances.expect
      intro less'
      apply (h.expr c.advance.advance (by omega)).bind
      intro value d passed fewer
      apply Advances.eat
      · intro _ less''
        apply (h.fieldList _ d.advance (by omega)).bind
        intro fields d' passed' fewer'
        exact .pure (by omega)
      · exact .pure (by omega)

theorem settled_block : Settled (n + 1) k 1 0 block := by
  refine .succ fun c room => ?_
  rw [block, block]
  apply Advances.expect
  intro less
  apply (h.statements c.advance (by omega)).bind
  intro body d passed fewer
  apply Advances.expect
  intro less'
  exact .pure (by omega)

theorem settled_statements : Settled (n + 1) k 11 1 statements := by
  refine .succ fun c room => ?_
  rw [statements, statements]
  apply Advances.next
  split
  · exact .pure (by omega)
  · exact .pure (by omega)
  · apply (h.statement c (by omega)).bind
    intro e d passed fewer
    apply (h.statements d (by omega)).bind
    intro es d' passed' fewer'
    exact .pure (by omega)

theorem settled_statement : Settled (n + 1) k 10 0 statement := by
  refine .succ fun c room => ?_
  rw [statement, statement]
  have ended (e : Expr) (d : Cursor) (passed : c.Onward d)
      (fewer : d.rest.length < c.rest.length + 0) :
      Advances (c.rest.length + 0) d (do semicolons; return e) (do semicolons; return e) := by
    apply Advances.semicolons
    intro d' passed'
    have := passed'.rest_le
    exact .pure (by omega)
  apply Advances.next
  split
  · exact (h.declaration c (by omega)).bind ended
  · exact (h.returning c (by omega)).bind ended
  · exact (h.conditional c (by omega)).bind ended
  · exact (h.expr c (by omega)).bind ended

theorem settled_declaration : Settled (n + 1) k 1 0 declaration := by
  refine .succ fun c room => ?_
  rw [declaration, declaration]
  apply Advances.expect
  intro less
  apply Advances.identifier
  intro x passed less'
  simp only [pure_bind]
  apply Advances.eat
  · intro _ less''
    apply (h.expr c.advance.advance.advance (by omega)).bind
    intro value d passed fewer
    apply Advances.lastSpan
    exact .pure (by omega)
  · apply Advances.lastSpan
    apply Advances.lastSpan
    exact .pure (by omega)

theorem settled_returning : Settled (n + 1) k 1 0 returning := by
  refine .succ fun c room => ?_
  rw [returning, returning]
  apply Advances.expect
  intro less
  have returned (value : Expr) (d : Cursor) (passed : d.rest.length < c.rest.length) :
      Advances (c.rest.length + 0) d
        (do return Expr.ret (c.nextSpan.merge (← lastSpan)) value)
        (do return Expr.ret (c.nextSpan.merge (← lastSpan)) value) :=
    .lastSpan (.pure (by omega))
  apply Advances.next
  simp only [pure_bind]
  split
  · exact returned _ _ (by omega)
  · exact returned _ _ (by omega)
  · exact returned _ _ (by omega)
  · exact (h.expr c.advance (by omega)).bind fun value d passed fewer => returned _ _ (by omega)

theorem settled_conditional : Settled (n + 1) k 1 0 conditional := by
  refine .succ fun c room => ?_
  rw [conditional, conditional]
  apply Advances.expect
  intro less
  apply Advances.expect
  intro less'
  apply (h.expr c.advance.advance (by omega)).bind
  intro test d passed fewer
  apply Advances.expect
  intro less''
  apply (h.block d.advance (by omega)).bind
  intro thenBlock d' passed' fewer'
  have selected (elseBlock : List Expr) (e : Cursor) (passed : e.rest.length < c.rest.length) :
      Advances (c.rest.length + 0) e
        (do return Expr.cond (c.nextSpan.merge (← lastSpan)) test thenBlock elseBlock)
        (do return Expr.cond (c.nextSpan.merge (← lastSpan)) test thenBlock elseBlock) :=
    .lastSpan (.pure (by omega))
  simp only [pure_bind]
  apply Advances.eat
  · intro _ less'''
    apply Advances.next
    split
    · exact (h.conditional d'.advance (by omega)).bind fun e d passed fewer =>
        selected [e] _ (by omega)
    · exact (h.block d'.advance (by omega)).bind fun es d passed fewer => selected es _ (by omega)
  · exact selected [] _ (by omega)

omit h in
theorem settles (n k : Nat) : Settles n k := by
  induction n with
  | zero => exact settles_zero k
  | succ n h =>
    exact {
      expr := settled_expr h
      binary := settled_binary h
      binaryTail := settled_binaryTail h
      unary := settled_unary h
      postfixes := settled_postfixes h
      arguments := settled_arguments h
      argumentList := settled_argumentList h
      primary := settled_primary h
      function := settled_function h
      parameters := settled_parameters h
      object := settled_object h
      fieldList := settled_fieldList h
      block := settled_block h
      statements := settled_statements h
      statement := settled_statement h
      declaration := settled_declaration h
      returning := settled_returning h
      conditional := settled_conditional h }

omit h in
theorem settled_script (n k : Nat) : Settled n k 11 1 script := by
  induction n with
  | zero =>
    intro c room
    omega
  | succ n ih =>
    refine .succ fun c room => ?_
    rw [script, script]
    apply Advances.next
    split
    · exact .pure (by omega)
    · apply ((settles n k).statement c (by omega)).bind
      intro e d passed fewer
      apply (ih d (by omega)).bind
      intro es d' passed' fewer'
      exact .pure (by omega)

end Parser
end TaggedScript
