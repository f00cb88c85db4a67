import TaggedScript.Proofs.Agreement.Flat
import TaggedScript.Proofs.Syntax.Munching
import TaggedScript.Proofs.Syntax.Progress

/-!
Where the expressions of a text stand. Each begins and ends with a token and covers all that it
consists of, and statements stand one after the other.
-/
namespace TaggedScript

/-- One span is inside the other. -/
def Span.Covers (outer inner : Span) : Prop :=
  outer.start ≤ inner.start ∧ inner.stop ≤ outer.stop

/-- A span begins where one of the tokens does and ends where one of them does, and it is not
empty. -/
structure Span.Bounded (xs : List Lexeme) (s : Span) : Prop where
  first : ∃ x ∈ xs, s.start = x.span.start
  last : ∃ x ∈ xs, s.stop = x.span.stop
  nonempty : s.start < s.stop

namespace Expr

/-- What an expression consists of, without what is inside of that. -/
def children : Expr → List Expr
  | literal _ _ | var _ _ => []
  | assign _ _ _ e | ret _ e => [e]
  | field _ r _ => [r]
  | setField _ r _ e => [r, e]
  | call _ f args => f :: args
  | methodCall _ r _ args => r :: args
  | function _ _ _ body | block _ body => body
  | object _ fields => fields.map (·.2)
  | cond _ c t e => c :: (t ++ e)

/-- The lists of statements that an expression has. -/
def blocks : Expr → List (List Expr)
  | function _ _ _ body | block _ body => [body]
  | cond _ _ t e => [t, e]
  | _ => []

/-- Each ends before the next one begins. -/
def InOrder (es : List Expr) : Prop := es.Pairwise (·.span.stop ≤ ·.span.start)

/-- An expression stands as it should among the tokens of its text. -/
structure Nests (xs : List Lexeme) (e : Expr) : Prop where
  bounded : e.span.Bounded xs
  covers : ∀ child ∈ e.children, e.span.Covers child.span
  inOrder : ∀ es ∈ e.blocks, InOrder es

theorem mem_partsAll_iff {es : List Expr} {p : Expr} :
    p ∈ partsAll es ↔ ∃ e ∈ es, p ∈ e.parts := by
  induction es with
  | nil => simp [partsAll]
  | cons e es ih => simp [partsAll, ih]

theorem mem_partsFields_iff {fields : List (String × Expr)} {p : Expr} :
    p ∈ partsFields fields ↔ ∃ e ∈ fields.map (·.2), p ∈ e.parts := by
  induction fields with
  | nil => simp [partsFields]
  | cons field fields ih =>
    obtain ⟨x, e⟩ := field
    simp [partsFields, ih]

theorem mem_parts_iff {e p : Expr} : p ∈ e.parts ↔ p = e ∨ ∃ c ∈ e.children, p ∈ c.parts := by
  cases e with
  | setField s r x e =>
    have either : (∃ c ∈ [r, e], p ∈ c.parts) ↔ p ∈ e.parts ∨ p ∈ r.parts := by
      simp [or_comm]
    rw [parts, children, either, List.mem_cons, List.mem_append]
  | _ => simp [parts, children, mem_partsAll_iff, mem_partsFields_iff, or_and_right, exists_or]

end Expr

/-- Tokens that stand one after the other. -/
structure Ordered (xs : List Lexeme) : Prop where
  nonempty : ∀ x ∈ xs, x.span.start < x.span.stop
  apart : xs.Pairwise (·.span.stop ≤ ·.span.start)

variable {xs : List Lexeme} {c d : Cursor} {s : Span} {lo mid hi : Nat} {e : Expr}

/-- The span of what stands on both sides of a place. -/
theorem Span.Bounded.merge {t : Span} (h : s.Bounded xs) (g : t.Bounded xs)
    (apart : s.stop ≤ t.start) :
    s.merge t = ⟨s.start, t.stop⟩ ∧ Span.Bounded xs ⟨s.start, t.stop⟩ := by
  have first := h.nonempty
  have last := g.nonempty
  constructor
  · rw [Span.merge, Nat.min_eq_left (by omega), Nat.max_eq_right (by omega)]
  · exact ⟨h.first, g.last, first.trans_le (apart.trans last.le)⟩

namespace Ordered

theorem bounded (h : Ordered xs) {x : Lexeme} (mem : x ∈ xs) : x.span.Bounded xs :=
  ⟨⟨x, mem, rfl⟩, ⟨x, mem, rfl⟩, h.nonempty x mem⟩

/-- Of two tokens the one that ends later begins later. -/
theorem start_le (h : Ordered xs) {x y : Lexeme} (hx : x ∈ xs) (hy : y ∈ xs)
    (before : x.span.start < y.span.stop) : x.span.start ≤ y.span.start := by
  obtain ⟨i, inside, rfl⟩ := List.getElem_of_mem hx
  obtain ⟨j, inside', rfl⟩ := List.getElem_of_mem hy
  obtain less | rfl | more := Nat.lt_trichotomy i j
  · have apart := List.pairwise_iff_getElem.mp h.apart i j inside inside' less
    have nonempty := h.nonempty _ hx
    omega
  · exact Nat.le_refl _
  · have apart := List.pairwise_iff_getElem.mp h.apart j i inside' inside more
    omega

end Ordered

/-! ## The tokens around the cursor -/

namespace Cursor

/-- The end of the tokens before the cursor. -/
def reached (c : Cursor) : Nat := c.lastSpan.stop

/-- The cursor is somewhere in these tokens, which are in order. -/
structure On (xs : List Lexeme) (c : Cursor) : Prop where
  ordered : Ordered xs
  lexemes : c.lexemes = xs

theorem On.mem_of_rest (on : c.On xs) {x : Lexeme} (mem : x ∈ c.rest) : x ∈ xs := by
  rw [← on.lexemes]
  exact List.mem_append_right _ mem

theorem On.reached_le_start (on : c.On xs) {x : Lexeme} (mem : x ∈ c.rest) :
    c.reached ≤ x.span.start := by
  have apart := on.ordered.apart
  rw [← on.lexemes, Cursor.lexemes, List.pairwise_append] at apart
  obtain ⟨passed, rest⟩ := c
  cases passed with
  | nil => exact Nat.zero_le _
  | cons y passed => exact apart.2.2 y (by simp) x mem

theorem On.onward (on : c.On xs) (h : c.Onward d) : d.On xs ∧ c.reached ≤ d.reached := by
  refine ⟨⟨on.ordered, h.lexemes.trans on.lexemes⟩, ?_⟩
  obtain ⟨ys, passed, rest⟩ := h
  obtain rfl | ⟨zs, y, rfl⟩ := List.eq_nil_or_concat ys
  · rw [reached, lastSpan, ← show d.passed = c.passed from passed]
    exact Nat.le_refl _
  · have mem : y ∈ c.rest := by simp [rest]
    have before := on.reached_le_start mem
    have nonempty := on.ordered.nonempty y (on.mem_of_rest mem)
    have last : d.reached = y.span.stop := by simp [reached, lastSpan, passed]
    omega

/-- What the cursor passes over next. -/
structure Steps (xs : List Lexeme) (c : Cursor) : Prop where
  on : c.advance.On xs
  bounded : c.nextSpan.Bounded xs
  before : c.reached ≤ c.nextSpan.start
  last : c.advance.lastSpan = c.nextSpan

theorem On.steps (on : c.On xs) {t : Token} (first : c.next = some t) : c.Steps xs := by
  obtain ⟨x, rest, -, split⟩ := exists_rest_of_next first
  have span : c.nextSpan = x.span := by simp only [nextSpan, split]
  constructor
  case on => exact (on.onward c.onward_advance).1
  case bounded =>
    rw [span]
    exact on.ordered.bounded (on.mem_of_rest (by simp [split]))
  case before =>
    rw [span]
    exact on.reached_le_start (by simp [split])
  case last => rw [span, advance, split, lastSpan]

theorem Steps.reached_eq (h : c.Steps xs) : c.advance.reached = c.nextSpan.stop :=
  congrArg Span.stop h.last

theorem Steps.reached_le (h : c.Steps xs) : c.reached ≤ c.advance.reached := by
  have before := h.before
  have nonempty := h.bounded.nonempty
  have same := h.reached_eq
  omega

theorem Steps.start_le (h : c.Steps xs) : c.nextSpan.start ≤ c.advance.reached := by
  rw [h.reached_eq]
  exact Nat.le_of_lt h.bounded.nonempty

/-- What began before goes on up to the cursor. -/
theorem On.merge_lastSpan (on : c.On xs) (bounded : s.Bounded xs) (le : s.stop ≤ c.reached) :
    s.merge c.lastSpan = ⟨s.start, c.reached⟩ ∧ Span.Bounded xs ⟨s.start, c.reached⟩ := by
  obtain ⟨x, hx, start⟩ := bounded.first
  have nonempty := bounded.nonempty
  obtain ⟨y, hy, last⟩ : ∃ y ∈ xs, y.span = c.lastSpan := by
    rw [← on.lexemes]
    obtain ⟨passed, rest⟩ := c
    cases passed with
    | nil => exact absurd (Nat.lt_of_lt_of_le nonempty le) (Nat.not_lt_zero _)
    | cons y passed => exact ⟨y, by simp [Cursor.lexemes], rfl⟩
  have stop : y.span.stop = c.reached := congrArg Span.stop last
  have order := on.ordered.start_le hx hy (by omega)
  constructor
  · rw [← last, Span.merge, Nat.min_eq_left (by omega), Nat.max_eq_right (by omega), stop]
  · exact ⟨⟨x, hx, start⟩, ⟨y, hy, stop.symm⟩, Nat.lt_of_lt_of_le nonempty le⟩

end Cursor

/-! ## Expressions between two places -/

/-- An expression stands between two places, and all in it as it should. -/
structure Fits (xs : List Lexeme) (lo hi : Nat) (e : Expr) : Prop where
  start : lo ≤ e.span.start
  stop : e.span.stop ≤ hi
  nests : ∀ p ∈ e.parts, p.Nests xs

/-- Statements stand between two places, one after the other. -/
structure Listed (xs : List Lexeme) (lo hi : Nat) (es : List Expr) : Prop where
  fits : ∀ e ∈ es, Fits xs lo hi e
  inOrder : Expr.InOrder es

namespace Fits

theorem bounded (h : Fits xs lo hi e) : e.span.Bounded xs :=
  (h.nests e (Expr.mem_parts_iff.mpr (.inl rfl))).bounded

theorem mono (h : Fits xs lo hi e) {lo' hi' : Nat} (start : lo' ≤ lo) (stop : hi ≤ hi') :
    Fits xs lo' hi' e :=
  ⟨Nat.le_trans start h.start, Nat.le_trans h.stop stop, h.nests⟩

/-- An expression begins where it begins. -/
theorem own (h : Fits xs lo hi e) {hi' : Nat} (stop : hi ≤ hi') : Fits xs e.span.start hi' e :=
  ⟨Nat.le_refl _, Nat.le_trans h.stop stop, h.nests⟩

theorem start_lt (h : Fits xs lo hi e) : e.span.start < hi :=
  Nat.lt_of_lt_of_le h.bounded.nonempty h.stop

theorem lt (h : Fits xs lo hi e) : lo < hi := Nat.lt_of_le_of_lt h.start h.start_lt

theorem child (h : Fits xs lo hi e) {c : Expr} (mem : c ∈ e.children) :
    Fits xs e.span.start hi c := by
  obtain ⟨start, stop⟩ := (h.nests e (Expr.mem_parts_iff.mpr (.inl rfl))).covers c mem
  exact ⟨start, Nat.le_trans stop h.stop,
    fun p part => h.nests p (Expr.mem_parts_iff.mpr (.inr ⟨c, mem, part⟩))⟩

/-- An expression fits if all that it consists of fits into it. -/
theorem node (span : e.span = s) (bounded : s.Bounded xs) (start : lo ≤ s.start)
    (stop : s.stop ≤ hi) (children : ∀ c ∈ e.children, Fits xs s.start s.stop c)
    (blocks : ∀ es ∈ e.blocks, Expr.InOrder es) : Fits xs lo hi e := by
  subst span
  refine ⟨start, stop, fun p part => ?_⟩
  obtain rfl | ⟨c, mem, part⟩ := Expr.mem_parts_iff.mp part
  · exact ⟨bounded, fun c mem => ⟨(children c mem).start, (children c mem).stop⟩, blocks⟩
  · exact (children c mem).nests p part

/-- An expression with nothing in it. -/
theorem leaf (span : e.span = s) (bounded : s.Bounded xs) (start : lo ≤ s.start)
    (stop : s.stop ≤ hi) (children : e.children = []) (blocks : e.blocks = []) : Fits xs lo hi e :=
  node span bounded start stop (by simp [children]) (by simp [blocks])

/-- An expression that goes on up to the cursor. -/
theorem upTo (on : c.On xs) (bounded : s.Bounded xs) (start : lo ≤ s.start)
    (stop : s.stop ≤ c.reached) (span : e.span = s.merge c.lastSpan)
    (children : ∀ child ∈ e.children, Fits xs s.start c.reached child)
    (blocks : ∀ es ∈ e.blocks, Expr.InOrder es) : Fits xs lo c.reached e := by
  obtain ⟨merged, whole⟩ := on.merge_lastSpan bounded stop
  exact node (span.trans merged) whole start (Nat.le_refl _) children blocks

/-- An operation on what stands on both sides of a place. -/
theorem binary {left right : Expr} (l : Fits xs lo mid left) (r : Fits xs mid hi right)
    (op : Operator) (bounded : s.Bounded xs) (start : left.span.start ≤ s.start)
    (stop : s.stop ≤ right.span.stop) : Fits xs lo hi (Expr.binary op s left right) := by
  obtain ⟨merged, whole⟩ := l.bounded.merge r.bounded (Nat.le_trans l.stop r.start)
  have last : Fits xs mid right.span.stop right := ⟨r.start, Nat.le_refl _, r.nests⟩
  have span : (Expr.binary op s left right).span = ⟨left.span.start, right.span.stop⟩ := merged
  apply node span whole l.start r.stop
  case children =>
    simp only [Expr.binary, Expr.children, List.forall_mem_cons]
    exact ⟨leaf rfl bounded start stop rfl rfl, l.own (Nat.le_of_lt last.lt),
      last.mono (Nat.le_of_lt l.start_lt) (Nat.le_refl _), List.forall_mem_nil _⟩
  case blocks => exact List.forall_mem_nil _

/-- A minus sign, and what it negates after it. -/
theorem negate {operand : Expr} (bounded : s.Bounded xs) (h : Fits xs s.stop hi operand)
    (start : lo ≤ s.start) : Fits xs lo hi (Parser.negate s operand) := by
  unfold Parser.negate
  split
  · rename_i s' n
    obtain ⟨merged, whole⟩ := bounded.merge h.bounded h.start
    exact leaf merged whole start h.stop rfl rfl
  · have zero : Fits xs lo s.stop (.literal s (.int 0)) :=
      leaf rfl bounded start (Nat.le_refl _) rfl rfl
    have after := Nat.le_trans h.start (Nat.le_of_lt h.bounded.nonempty)
    exact zero.binary h .sub bounded (Nat.le_refl _) after

/-- What is assigned to stands before the value. -/
theorem assignment {target value : Expr} (on : c.On xs) (t : Fits xs lo mid target)
    (v : Fits xs mid c.reached value)
    (assigns : Parser.assignment? target value (target.span.merge c.lastSpan) = some e) :
    Fits xs lo c.reached e := by
  have stop : target.span.stop ≤ c.reached := Nat.le_trans t.stop (Nat.le_of_lt v.lt)
  have first := Nat.le_of_lt t.start_lt
  have within := v.mono first (Nat.le_refl _)
  unfold Parser.assignment? at assigns
  split at assigns
  · split at assigns
    · cases assigns
    · cases assigns
      exact upTo on t.bounded t.start stop rfl (List.forall_mem_singleton.mpr within)
        (List.forall_mem_nil _)
  · cases assigns
    have receiver := (t.child List.mem_cons_self).mono (Nat.le_refl _) (Nat.le_of_lt v.lt)
    exact upTo on t.bounded t.start stop rfl
      (List.forall_mem_cons.mpr ⟨receiver, List.forall_mem_singleton.mpr within⟩)
      (List.forall_mem_nil _)
  · cases assigns

end Fits

namespace Listed

theorem mono {es : List Expr} (h : Listed xs lo hi es) {lo' hi' : Nat} (start : lo' ≤ lo)
    (stop : hi ≤ hi') : Listed xs lo' hi' es :=
  ⟨fun e mem => (h.fits e mem).mono start stop, h.inOrder⟩

theorem nil : Listed xs lo hi [] := ⟨List.forall_mem_nil _, .nil⟩

theorem single (h : Fits xs lo hi e) : Listed xs lo hi [e] :=
  ⟨List.forall_mem_singleton.mpr h, List.pairwise_singleton _ _⟩

theorem cons {es : List Expr} (h : Fits xs lo mid e) (later : Listed xs mid hi es)
    (first : lo ≤ mid) (last : mid ≤ hi) : Listed xs lo hi (e :: es) where
  fits := List.forall_mem_cons.mpr
    ⟨h.mono (Nat.le_refl lo) last, fun e' mem => (later.fits e' mem).mono first (Nat.le_refl hi)⟩
  inOrder := List.pairwise_cons.mpr
    ⟨fun e' mem => Nat.le_trans h.stop (later.fits e' mem).start, later.inOrder⟩

end Listed

/-- What a token opens goes on up to the cursor. -/
theorem Cursor.Steps.opens (steps : c.Steps xs) (on : d.On xs)
    (passed : c.advance.reached ≤ d.reached) (span : e.span = c.nextSpan.merge d.lastSpan)
    (children : ∀ child ∈ e.children, Fits xs c.nextSpan.start d.reached child)
    (blocks : ∀ es ∈ e.blocks, Expr.InOrder es) : Fits xs c.reached d.reached e :=
  .upTo on steps.bounded steps.before (steps.reached_eq ▸ passed) span children blocks

/-! ## What parsers yield -/

/-- From a cursor a parser goes onward, and what it yields is as it should be, given how far the
parser came. -/
def Locates {α : Type} (xs : List Lexeme) (c : Cursor) (x : Parser α) (P : Nat → α → Prop) : Prop :=
  match x c with
  | .ok a d => d.On xs ∧ c.reached ≤ d.reached ∧ P d.reached a
  | .error _ _ => True

namespace Locates
variable {α β : Type} {x : Parser α} {P : Nat → α → Prop} {Q : Nat → β → Prop} {t : Token}

theorem bind {f : α → Parser β} (h : Locates xs c x P)
    (next : ∀ a d, d.On xs → c.reached ≤ d.reached → P d.reached a → Locates xs d (f a) Q) :
    Locates xs c (x >>= f) Q := by
  unfold Locates at h ⊢
  rw [bind_eq]
  generalize x c = r at h
  cases r with
  | error e d => trivial
  | ok a d =>
    obtain ⟨on, passed, good⟩ := h
    have later := next a d on passed good
    unfold Locates at later
    simp only
    generalize f a d = r at later
    cases r with
    | error e d' => trivial
    | ok b d' => exact ⟨later.1, Nat.le_trans passed later.2.1, later.2.2⟩

theorem pure (on : c.On xs) {a : α} (h : P c.reached a) : Locates xs c (Pure.pure a) P :=
  ⟨on, Nat.le_refl _, h⟩

/-- A parser may go on from a later place. -/
theorem of_reached {y : Parser α} (passed : c.reached ≤ d.reached) (same : x c = y d)
    (h : Locates xs d y P) : Locates xs c x P := by
  unfold Locates at h ⊢
  rw [same]
  generalize y d = r at h
  cases r with
  | error e d' => trivial
  | ok a d' => exact ⟨h.1, Nat.le_trans passed h.2.1, h.2.2⟩

theorem failExpected (what : Expected) : Locates xs c (Parser.failExpected what : Parser α) P :=
  trivial

/-- What comes after a failure does not matter. -/
theorem stop {f : α → Parser β} (h : Locates xs c x fun _ _ => False) : Locates xs c (x >>= f) Q :=
  h.bind fun _ _ _ _ never => never.elim

/-! ### The pieces of the parser -/

theorem next {f : Option Token → Parser β} (h : Locates xs c (f c.next) Q) :
    Locates xs c (Parser.next >>= f) Q := h

theorem nextSpan {f : Span → Parser β} (h : Locates xs c (f c.nextSpan) Q) :
    Locates xs c (Parser.nextSpan >>= f) Q := h

theorem lastSpan {f : Span → Parser β} (h : Locates xs c (f c.lastSpan) Q) :
    Locates xs c (Parser.lastSpan >>= f) Q := h

theorem advance {f : Unit → Parser β} (on : c.On xs) (h : Locates xs c.advance (f ()) Q) :
    Locates xs c (Parser.advance >>= f) Q :=
  .of_reached (on.onward c.onward_advance).2 rfl h

theorem eat {f : Bool → Parser β} (on : c.On xs)
    (passed : c.Steps xs → Locates xs c.advance (f true) Q)
    (other : Locates xs c (f false) Q) : Locates xs c (Parser.eat t >>= f) Q := by
  rw [Parser.eat, bind_assoc]
  apply next
  split
  · rename_i first
    exact advance (f := fun _ => f true) on (passed (on.steps first))
  · exact other

theorem expect {f : Span → Parser β} (on : c.On xs)
    (h : c.Steps xs → Locates xs c.advance (f c.nextSpan) Q) :
    Locates xs c (Parser.expect t >>= f) Q := by
  rw [Parser.expect, bind_assoc]
  apply next
  split
  · rename_i first
    exact advance (f := fun _ => f c.nextSpan) on (h (on.steps first))
  · exact stop (failExpected _)

theorem identifier {f : String → Parser β} (on : c.On xs)
    (h : ∀ x, c.Steps xs → Locates xs c.advance (f x) Q) :
    Locates xs c (Parser.identifier >>= f) Q := by
  rw [Parser.identifier, bind_assoc]
  apply next
  split
  · rename_i x first
    exact advance (f := fun _ => f x) on (h x (on.steps first))
  · exact stop (failExpected _)

theorem fieldName {f : String → Parser β} (on : c.On xs)
    (h : ∀ x, c.Steps xs → Locates xs c (f x) Q) : Locates xs c (Parser.fieldName >>= f) Q := by
  rw [Parser.fieldName, bind_assoc]
  apply next
  split
  · rename_i x first
    exact h x (on.steps first)
  · rename_i x first
    exact h x (on.steps first)
  · exact stop (failExpected _)

theorem operator? {level : Nat} {f : Option (Operator × Span) → Parser β} (on : c.On xs)
    (passed : ∀ op, c.Steps xs → Locates xs c.advance (f (some (op, c.nextSpan))) Q)
    (other : Locates xs c (f none) Q) : Locates xs c (Parser.operator? level >>= f) Q := by
  rw [Parser.operator?, bind_assoc]
  apply next
  split
  · rename_i op first
    split
    · exact advance (f := fun _ => f (some (op, c.nextSpan))) on (passed op (on.steps first))
    · exact other
  · exact other

end Locates

namespace Parser

/-- All parts of the parser yield what stands between where they began and where they came to. What
continues an expression yields something that begins no earlier than that expression has to. -/
structure Nested (xs : List Lexeme) (n : Nat) : Prop where
  expr : ∀ c : Cursor, c.On xs → Locates xs c (expr n) (Fits xs c.reached)
  binary : ∀ level, ∀ c : Cursor, c.On xs → Locates xs c (binary n level) (Fits xs c.reached)
  binaryTail : ∀ level lo left, ∀ c : Cursor, c.On xs → Fits xs lo c.reached left →
    Locates xs c (binaryTail n level left) (Fits xs lo)
  unary : ∀ c : Cursor, c.On xs → Locates xs c (unary n) (Fits xs c.reached)
  postfixes : ∀ lo e, ∀ c : Cursor, c.On xs → Fits xs lo c.reached e →
    Locates xs c (postfixes n e) (Fits xs lo)
  arguments : ∀ c : Cursor, c.On xs →
    Locates xs c (arguments n) fun hi es => ∀ e ∈ es, Fits xs c.reached hi e
  argumentList : ∀ c : Cursor, c.On xs →
    Locates xs c (argumentList n) fun hi es => ∀ e ∈ es, Fits xs c.reached hi e
  primary : ∀ c : Cursor, c.On xs → Locates xs c (primary n) (Fits xs c.reached)
  function : ∀ c : Cursor, c.On xs → Locates xs c (function n) (Fits xs c.reached)
  parameters : ∀ seen, ∀ c : Cursor, c.On xs → Locates xs c (parameters n seen) fun _ _ => True
  object : ∀ lo start, ∀ c : Cursor, c.On xs → start.Bounded xs → lo ≤ start.start →
    start.stop ≤ c.advance.reached → Locates xs c (object n start) (Fits xs lo)
  fieldList : ∀ seen, ∀ c : Cursor, c.On xs →
    Locates xs c (fieldList n seen) fun hi fields => ∀ e ∈ fields.map (·.2), Fits xs c.reached hi e
  block : ∀ c : Cursor, c.On xs → Locates xs c (block n) (Listed xs c.reached)
  statements : ∀ c : Cursor, c.On xs → Locates xs c (statements n) (Listed xs c.reached)
  statement : ∀ c : Cursor, c.On xs → Locates xs c (statement n) (Fits xs c.reached)
  declaration : ∀ c : Cursor, c.On xs → Locates xs c (declaration n) (Fits xs c.reached)
  returning : ∀ c : Cursor, c.On xs → Locates xs c (returning n) (Fits xs c.reached)
  conditional : ∀ c : Cursor, c.On xs → Locates xs c (conditional n) (Fits xs c.reached)

theorem nested_zero (xs : List Lexeme) : Nested xs 0 := by
  constructor <;> intros <;> trivial

variable {n : Nat} (h : Nested xs n) (on : c.On xs)
include h on

theorem nested_expr : Locates xs c (expr (n + 1)) (Fits xs c.reached) := by
  rw [expr]
  apply (h.binary 0 c on).bind
  intro target d on' passed fits
  apply Locates.nextSpan
  apply Locates.eat on'
  · intro steps
    apply (h.expr d.advance steps.on).bind
    intro value e on'' passed' fits'
    apply Locates.lastSpan
    simp only
    split
    · rename_i r assigns
      have before := steps.reached_le
      exact .pure on'' (fits.assignment on'' (fits'.mono before (Nat.le_refl _)) assigns)
    · trivial
  · exact .pure on' fits

theorem nested_binary (level : Nat) :
    Locates xs c (binary (n + 1) level) (Fits xs c.reached) := by
  rw [binary]
  split
  · exact h.unary c on
  · apply (h.binary (level + 1) c on).bind
    intro left d on' passed fits
    exact h.binaryTail level c.reached left d on' fits

theorem nested_binaryTail (level : Nat) {left : Expr} (fits : Fits xs lo c.reached left) :
    Locates xs c (binaryTail (n + 1) level left) (Fits xs lo) := by
  rw [binaryTail]
  apply Locates.operator? on
  · intro op steps
    apply (h.binary (level + 1) c.advance steps.on).bind
    intro right d on' passed fits'
    apply h.binaryTail level lo _ d on'
    have inner := fits.start_lt
    have before := steps.before
    have after := fits'.start
    have solid := fits'.bounded.nonempty
    rw [steps.reached_eq] at after
    exact fits.binary (fits'.mono steps.reached_le (Nat.le_refl _)) op steps.bounded
      (by omega) (by omega)
  · exact .pure on fits

theorem nested_unary : Locates xs c (unary (n + 1)) (Fits xs c.reached) := by
  rw [unary]
  apply Locates.nextSpan
  apply Locates.eat on
  · intro steps
    apply (h.unary c.advance steps.on).bind
    intro e d on' passed fits
    rw [steps.reached_eq] at fits
    exact .pure on' (fits.negate steps.bounded steps.before)
  · apply (h.primary c on).bind
    intro e d on' passed fits
    exact h.postfixes c.reached e d on' fits

theorem nested_postfixes (fits : Fits xs lo c.reached e) :
    Locates xs c (postfixes (n + 1) e) (Fits xs lo) := by
  have solid := fits.start_lt
  rw [postfixes]
  apply Locates.next
  split
  · apply (h.arguments c on).bind
    intro args d on' passed fits'
    apply Locates.lastSpan
    apply h.postfixes lo _ d on'
    refine .upTo on' fits.bounded fits.start (Nat.le_trans fits.stop passed) rfl ?_
      (List.forall_mem_nil _)
    refine List.forall_mem_cons.mpr ⟨fits.own passed, fun a mem => ?_⟩
    exact (fits' a mem).mono (Nat.le_of_lt solid) (Nat.le_refl _)
  · rename_i first
    have steps := on.steps first
    apply Locates.advance on
    apply Locates.identifier steps.on
    intro x steps'
    have before := Nat.le_trans steps.reached_le steps'.reached_le
    apply Locates.next
    split
    · apply (h.arguments c.advance.advance steps'.on).bind
      intro args d on' passed fits'
      apply Locates.lastSpan
      apply h.postfixes lo _ d on'
      have reached := Nat.le_trans before passed
      refine .upTo on' fits.bounded fits.start (Nat.le_trans fits.stop reached) rfl ?_
        (List.forall_mem_nil _)
      refine List.forall_mem_cons.mpr ⟨fits.own reached, fun a mem => ?_⟩
      exact (fits' a mem).mono (Nat.le_trans (Nat.le_of_lt solid) before) (Nat.le_refl _)
    · apply Locates.lastSpan
      apply h.postfixes lo _ c.advance.advance steps'.on
      exact .upTo steps'.on fits.bounded fits.start (Nat.le_trans fits.stop before) rfl
        (List.forall_mem_singleton.mpr (fits.own before)) (List.forall_mem_nil _)
  · exact .pure on fits

theorem nested_arguments :
    Locates xs c (arguments (n + 1)) fun hi es => ∀ e ∈ es, Fits xs c.reached hi e := by
  rw [arguments]
  apply Locates.expect on
  intro steps
  apply (h.argumentList c.advance steps.on).bind
  intro args d on' passed fits
  apply Locates.expect on'
  intro steps'
  exact .pure steps'.on fun a mem => (fits a mem).mono steps.reached_le steps'.reached_le

theorem nested_argumentList :
    Locates xs c (argumentList (n + 1)) fun hi es => ∀ e ∈ es, Fits xs c.reached hi e := by
  rw [argumentList]
  apply Locates.next
  split
  · exact .pure on (List.forall_mem_nil _)
  · apply (h.expr c on).bind
    intro e d on' passed fits
    apply Locates.eat on'
    · intro steps
      apply (h.argumentList d.advance steps.on).bind
      intro es d' on'' passed' fits'
      have before := Nat.le_trans steps.reached_le passed'
      refine .pure on'' (List.forall_mem_cons.mpr ⟨fits.mono (Nat.le_refl _) before, ?_⟩)
      exact fun a mem => (fits' a mem).mono (Nat.le_trans passed steps.reached_le) (Nat.le_refl _)
    · exact .pure on' (List.forall_mem_singleton.mpr fits)

theorem nested_primary : Locates xs c (primary (n + 1)) (Fits xs c.reached) := by
  -- As in `yields_primary`, the definition is opened by the pieces that it begins with.
  apply Locates.nextSpan
  apply Locates.next
  cases first : c.next with
  | none => exact .failExpected _
  | some t =>
    have steps := on.steps first
    have leaf (e : Expr) (span : e.span = c.nextSpan) (children : e.children = [])
        (blocks : e.blocks = []) :
        Locates xs c (do advance; return e) (Fits xs c.reached) := by
      apply Locates.advance on
      have stop := Nat.le_of_eq steps.reached_eq.symm
      exact .pure steps.on (.leaf span steps.bounded steps.before stop children blocks)
    cases t with
    | int | str | trueKw | falseKw | undefinedKw | thisKw | ident => exact leaf _ rfl rfl rfl
    | lparen =>
      apply Locates.advance on
      apply (h.expr c.advance steps.on).bind
      intro e d on' passed fits
      apply Locates.expect on'
      intro steps'
      exact .pure steps'.on (fits.mono steps.reached_le steps'.reached_le)
    | functionKw => exact h.function c on
    | newKw =>
      apply Locates.advance on
      apply h.object c.reached c.nextSpan c.advance steps.on steps.bounded steps.before
      rw [← steps.reached_eq]
      exact (steps.on.onward c.advance.onward_advance).2
    | lbrace =>
      apply h.object c.reached c.nextSpan c on steps.bounded steps.before
      rw [steps.reached_eq]
    | _ => exact .failExpected _

theorem nested_function : Locates xs c (function (n + 1)) (Fits xs c.reached) := by
  rw [function]
  apply Locates.expect on
  intro steps
  have named (name : Option String) (d : Cursor) (on : d.On xs)
      (passed : c.advance.reached ≤ d.reached) :
      Locates xs d
        (do
          let _ ← expect .lparen
          let params ← parameters n []
          let _ ← expect .rparen
          let body ← block n
          return Expr.function (c.nextSpan.merge (← lastSpan)) name params body)
        (Fits xs c.reached) := by
    apply Locates.expect on
    intro steps'
    apply (h.parameters [] d.advance steps'.on).bind
    intro params e on passed' _
    apply Locates.expect on
    intro steps''
    apply (h.block e.advance steps''.on).bind
    intro body e' on' passed'' listed
    apply Locates.lastSpan
    have before : c.advance.reached ≤ e.advance.reached :=
      passed.trans (steps'.reached_le.trans (passed'.trans steps''.reached_le))
    apply Locates.pure on'
    exact steps.opens on' (before.trans passed'') rfl
      (listed.mono (steps.start_le.trans before) (Nat.le_refl _)).fits
      (List.forall_mem_singleton.mpr listed.inOrder)
  apply Locates.next
  simp only [pure_bind]
  split
  · rename_i x name
    have steps' := steps.on.steps name
    apply Locates.advance steps.on
    exact named (some x) c.advance.advance steps'.on steps'.reached_le
  · exact named none c.advance steps.on (Nat.le_refl _)

theorem nested_parameters (seen : List String) :
    Locates xs c (parameters (n + 1) seen) fun _ _ => True := by
  rw [parameters]
  apply Locates.next
  split
  · exact .pure on trivial
  · apply Locates.identifier on
    intro x steps
    simp only
    split
    · exact .stop trivial
    · apply Locates.eat steps.on
      · intro steps'
        apply (h.parameters _ c.advance.advance steps'.on).bind
        intro params d on' _ _
        exact .pure on' trivial
      · exact .pure steps.on trivial

theorem nested_object {start : Span} (bounded : start.Bounded xs) (first : lo ≤ start.start)
    (last : start.stop ≤ c.advance.reached) :
    Locates xs c (object (n + 1) start) (Fits xs lo) := by
  rw [object]
  apply Locates.expect on
  intro steps
  apply (h.fieldList [] c.advance steps.on).bind
  intro fields d on' passed fits
  apply Locates.expect on'
  intro steps'
  apply Locates.lastSpan
  have before := Nat.le_trans last (Nat.le_trans passed steps'.reached_le)
  apply Locates.pure steps'.on
  refine .upTo steps'.on bounded first before rfl (fun e mem => ?_) (List.forall_mem_nil _)
  exact (fits e mem).mono (Nat.le_trans (Nat.le_of_lt bounded.nonempty) last) steps'.reached_le

theorem nested_fieldList (seen : List String) :
    Locates xs c (fieldList (n + 1) seen)
      fun hi fields => ∀ e ∈ fields.map (·.2), Fits xs c.reached hi e := by
  rw [fieldList]
  apply Locates.next
  split
  · exact .pure on (List.forall_mem_nil _)
  · apply Locates.fieldName on
    intro x steps
    simp only
    split
    · exact .stop trivial
    · apply Locates.advance on
      apply Locates.expect steps.on
      intro steps'
      have before := Nat.le_trans steps.reached_le steps'.reached_le
      apply (h.expr c.advance.advance steps'.on).bind
      intro e d on' passed fits
      apply Locates.eat on'
      · intro steps''
        apply (h.fieldList _ d.advance steps''.on).bind
        intro fields d' on'' passed' fits'
        have after := Nat.le_trans steps''.reached_le passed'
        refine .pure on'' (List.forall_mem_cons.mpr ⟨fits.mono before after, fun e mem => ?_⟩)
        refine (fits' e mem).mono ?_ (Nat.le_refl _)
        exact Nat.le_trans before (Nat.le_trans passed steps''.reached_le)
      · exact .pure on' (List.forall_mem_singleton.mpr (fits.mono before (Nat.le_refl _)))

theorem nested_block : Locates xs c (block (n + 1)) (Listed xs c.reached) := by
  rw [block]
  apply Locates.expect on
  intro steps
  apply (h.statements c.advance steps.on).bind
  intro body d on' passed listed
  apply Locates.expect on'
  intro steps'
  exact .pure steps'.on (listed.mono steps.reached_le steps'.reached_le)

theorem nested_statements : Locates xs c (statements (n + 1)) (Listed xs c.reached) := by
  rw [statements]
  apply Locates.next
  split
  · exact .pure on .nil
  · exact .pure on .nil
  · apply (h.statement c on).bind
    intro e d on' passed fits
    apply (h.statements d on').bind
    intro es d' on'' passed' listed
    exact .pure on'' (.cons fits listed passed passed')

theorem nested_statement : Locates xs c (statement (n + 1)) (Fits xs c.reached) := by
  rw [statement]
  have ended (e : Expr) (d : Cursor) (on : d.On xs) (_ : c.reached ≤ d.reached)
      (fits : Fits xs c.reached d.reached e) :
      Locates xs d (do semicolons; return e) (Fits xs c.reached) := by
    have onward := on.onward (Cursor.onward_passAll .semi d)
    exact .of_reached onward.2 rfl (.pure onward.1 (fits.mono (Nat.le_refl _) onward.2))
  apply Locates.next
  split
  · exact (h.declaration c on).bind ended
  · exact (h.returning c on).bind ended
  · exact (h.conditional c on).bind ended
  · exact (h.expr c on).bind ended

theorem nested_declaration : Locates xs c (declaration (n + 1)) (Fits xs c.reached) := by
  rw [declaration]
  apply Locates.expect on
  intro steps
  apply Locates.identifier steps.on
  intro x steps'
  have before := steps'.reached_le
  have declared (value : Expr) (d : Cursor) (on : d.On xs)
      (passed : c.advance.advance.reached ≤ d.reached)
      (fits : Fits xs c.advance.reached d.reached value) :
      Locates xs d (do return Expr.assign (c.nextSpan.merge (← lastSpan)) x true value)
        (Fits xs c.reached) := by
    apply Locates.lastSpan
    apply Locates.pure on
    exact steps.opens on (before.trans passed) rfl
      (List.forall_mem_singleton.mpr (fits.mono steps.start_le (Nat.le_refl _)))
      (List.forall_mem_nil _)
  simp only [pure_bind]
  apply Locates.eat steps'.on
  · intro steps''
    apply (h.expr c.advance.advance.advance steps''.on).bind
    intro value d on' passed fits
    have reached := steps''.reached_le
    exact declared value d on' (reached.trans passed)
      (fits.mono (before.trans reached) (Nat.le_refl _))
  · apply Locates.lastSpan
    refine declared _ _ steps'.on (Nat.le_refl _) ?_
    rw [steps'.last, steps'.reached_eq]
    exact .leaf rfl steps'.bounded steps'.before (Nat.le_refl _) rfl rfl

theorem nested_returning : Locates xs c (returning (n + 1)) (Fits xs c.reached) := by
  rw [returning]
  apply Locates.expect on
  intro steps
  have returned (value : Expr) (d : Cursor) (on : d.On xs) (passed : c.advance.reached ≤ d.reached)
      (fits : Fits xs c.nextSpan.start d.reached value) :
      Locates xs d (do return Expr.ret (c.nextSpan.merge (← lastSpan)) value)
        (Fits xs c.reached) := by
    apply Locates.lastSpan
    apply Locates.pure on
    exact steps.opens on passed rfl (List.forall_mem_singleton.mpr fits) (List.forall_mem_nil _)
  have nothing : Fits xs c.nextSpan.start c.advance.reached (.literal c.nextSpan .undefined) :=
    .leaf rfl steps.bounded (Nat.le_refl _) (Nat.le_of_eq steps.reached_eq.symm) rfl rfl
  apply Locates.next
  simp only [pure_bind]
  split
  · exact returned _ _ steps.on (Nat.le_refl _) nothing
  · exact returned _ _ steps.on (Nat.le_refl _) nothing
  · exact returned _ _ steps.on (Nat.le_refl _) nothing
  · apply (h.expr c.advance steps.on).bind
    intro value d on' passed fits
    exact returned value d on' passed (fits.mono steps.start_le (Nat.le_refl _))

theorem nested_conditional : Locates xs c (conditional (n + 1)) (Fits xs c.reached) := by
  rw [conditional]
  apply Locates.expect on
  intro steps
  apply Locates.expect steps.on
  intro steps'
  apply (h.expr c.advance.advance steps'.on).bind
  intro test d on' passed fits
  apply Locates.expect on'
  intro steps''
  apply (h.block d.advance steps''.on).bind
  intro thenBlock d' on'' passed' listed
  have before := steps'.reached_le
  have between := passed.trans steps''.reached_le
  have selected (elseBlock : List Expr) (e : Cursor) (on : e.On xs)
      (passed'' : d'.reached ≤ e.reached) (listed' : Listed xs d'.reached e.reached elseBlock) :
      Locates xs e
        (do return Expr.cond (c.nextSpan.merge (← lastSpan)) test thenBlock elseBlock)
        (Fits xs c.reached) := by
    have start := steps.start_le
    have after := passed'.trans passed''
    have first := fits.mono (start.trans before) (steps''.reached_le.trans after)
    have second := listed.mono (start.trans (before.trans between)) passed''
    have third := listed'.mono (start.trans (before.trans (between.trans passed'))) (Nat.le_refl _)
    apply Locates.lastSpan
    apply Locates.pure on
    exact steps.opens on (before.trans (between.trans after)) rfl
      (List.forall_mem_cons.mpr ⟨first, List.forall_mem_append.mpr ⟨second.fits, third.fits⟩⟩)
      (List.forall_mem_cons.mpr ⟨second.inOrder, List.forall_mem_singleton.mpr third.inOrder⟩)
  simp only [pure_bind]
  apply Locates.eat on''
  · intro others
    have later := others.reached_le
    apply Locates.next
    split
    · apply (h.conditional d'.advance others.on).bind
      intro e d'' on passed'' fits'
      exact selected [e] d'' on (later.trans passed'') (.single (fits'.mono later (Nat.le_refl _)))
    · apply (h.block d'.advance others.on).bind
      intro es d'' on passed'' listed'
      exact selected es d'' on (later.trans passed'') (listed'.mono later (Nat.le_refl _))
  · exact selected [] d' on'' (Nat.le_refl _) .nil

omit h on in
theorem nested (xs : List Lexeme) (n : Nat) : Nested xs n := by
  induction n with
  | zero => exact nested_zero xs
  | succ n h =>
    exact {
      expr := fun _ on => nested_expr h on
      binary := fun level _ on => nested_binary h on level
      binaryTail := fun level _ _ _ on fits => nested_binaryTail h on level fits
      unary := fun _ on => nested_unary h on
      postfixes := fun _ _ _ on fits => nested_postfixes h on fits
      arguments := fun _ on => nested_arguments h on
      argumentList := fun _ on => nested_argumentList h on
      primary := fun _ on => nested_primary h on
      function := fun _ on => nested_function h on
      parameters := fun seen _ on => nested_parameters h on seen
      object := fun _ _ _ on bounded first last => nested_object h on bounded first last
      fieldList := fun seen _ on => nested_fieldList h on seen
      block := fun _ on => nested_block h on
      statements := fun _ on => nested_statements h on
      statement := fun _ on => nested_statement h on
      declaration := fun _ on => nested_declaration h on
      returning := fun _ on => nested_returning h on
      conditional := fun _ on => nested_conditional h on }

omit h in
theorem nested_script : Locates xs c (script n) (Listed xs c.reached) := by
  induction n generalizing c with
  | zero => trivial
  | succ n ih =>
    rw [script]
    apply Locates.next
    split
    · exact .pure on .nil
    · apply ((nested xs n).statement c on).bind
      intro e d on' passed fits
      apply (ih on').bind
      intro es d' on'' passed' listed
      exact .pure on'' (.cons fits listed passed passed')

end Parser

open TaggedScript.Expr

/-- In a text that can be read every expression stands from the beginning of a token to the end of
one. What it consists of stands inside of it, and in all lists of statements each statement ends
before the next one begins. -/
theorem parseSource_nests {source : String} {s : Script} (parsed : parseSource source = .ok s) :
    ∃ xs, lex source = .ok xs ∧
      (∀ e ∈ partsAll s.body, e.Nests xs ∧ e.span.stop ≤ source.utf8ByteSize) ∧
      InOrder s.body := by
  unfold parseSource at parsed
  split at parsed
  · cases parsed
  rename_i xs lexed
  split at parsed
  · cases parsed
  rename_i body d read
  cases parsed
  have placed := (Lexer.munches_lexFrom 0 source.toList).placed xs lexed
  have on : (Cursor.ofLexemes xs).On xs := ⟨⟨placed.nonempty, placed.apart⟩, rfl⟩
  have listed : Listed xs 0 d.reached body := by
    have located := Parser.nested_script on (n := Parser.allowance (.ofLexemes xs))
    rw [Locates, show Parser.script _ _ = .ok body d from read] at located
    exact located.2.2
  refine ⟨xs, lexed, fun e part => ?_, listed.inOrder⟩
  obtain ⟨statement, mem, part⟩ := mem_partsAll_iff.mp part
  have nests := (listed.fits statement mem).nests e part
  obtain ⟨x, token, stop⟩ := nests.bounded.last
  obtain ⟨w, stands, -⟩ := placed.slices x token
  have inside := stands.stop_le
  rw [Nat.zero_add, byteLength_toList, ← stop] at inside
  exact ⟨nests, inside⟩

/-- A call with an operand that is negated, and a declaration without a value. -/
theorem parseSource_nests_negated :
    let xs : List Lexeme := [⟨.ident "f", ⟨0, 1⟩⟩, ⟨.lparen, ⟨1, 2⟩⟩, ⟨.op .sub, ⟨2, 3⟩⟩,
      ⟨.ident "x", ⟨3, 4⟩⟩, ⟨.rparen, ⟨4, 5⟩⟩, ⟨.semi, ⟨5, 6⟩⟩, ⟨.varKw, ⟨7, 10⟩⟩,
      ⟨.ident "y", ⟨11, 12⟩⟩]
    let negated := Expr.binary .sub ⟨2, 3⟩ (literal ⟨2, 3⟩ (.int 0)) (var ⟨3, 4⟩ "x")
    let body := [call ⟨0, 5⟩ (var ⟨0, 1⟩ "f") [negated],
      assign ⟨7, 12⟩ "y" true (literal ⟨11, 12⟩ .undefined)]
    parseSource "f(-x);\nvar y" = .ok ⟨body, some "f(-x);\nvar y"⟩ ∧
    lex "f(-x);\nvar y" = .ok xs ∧ negated.span = ⟨2, 4⟩ ∧ negated.Nests xs ∧ InOrder body := by
  intro xs negated body
  have lexed : lex "f(-x);\nvar y" = .ok xs := by decide +kernel
  have parsed : parseSource "f(-x);\nvar y" = .ok ⟨body, some "f(-x);\nvar y"⟩ := by
    rw [parseSource, lexed]
    rfl
  obtain ⟨ys, lexed', nests, inOrder⟩ := parseSource_nests parsed
  obtain rfl : xs = ys := Except.ok.inj (lexed.symm.trans lexed')
  have part : negated ∈ partsAll body := by simp [body, partsAll, parts, negated, Expr.binary]
  exact ⟨parsed, lexed, rfl, (nests negated part).1, inOrder⟩

end TaggedScript
