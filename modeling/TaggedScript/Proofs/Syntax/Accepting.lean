import TaggedScript.Proofs.Effects
import TaggedScript.Syntax.Parser

/-!
What the parser makes of given tokens. A parser accepts tokens before others if it passes over
just these.
-/
namespace TaggedScript

/-- The tokens after the cursor. -/
def Cursor.tokens (c : Cursor) : List Token := c.rest.map (·.token)

theorem Cursor.next_eq (c : Cursor) : c.next = c.tokens.head? := by
  rw [Cursor.next, Cursor.tokens, List.head?_map]

/-- From a cursor before `ts` and then `after`, a parser goes on to `after` and yields what it
should. -/
def Accepts {α : Type} (p : Parser α) (ts after : List Token) (P : α → Prop) : Prop :=
  ∀ c : Cursor, c.tokens = ts ++ after → ∃ a d, p c = .ok a d ∧ P a ∧ d.tokens = after

/-- With enough allowance a part of the parser accepts the tokens. -/
def Takes {α : Type} (need : Nat) (p : Nat → Parser α) (ts after : List Token) (P : α → Prop) :
    Prop :=
  ∀ n, need ≤ n → Accepts (p n) ts after P

namespace Accepts
variable {α β : Type} {P : α → Prop} {Q : β → Prop} {ts us after : List Token}

theorem bind {x : Parser α} {f : α → Parser β} (h : Accepts x ts (us ++ after) P)
    (next : ∀ a, P a → Accepts (f a) us after Q) : Accepts (x >>= f) (ts ++ us) after Q := by
  intro c place
  rw [List.append_assoc] at place
  obtain ⟨a, d, first, ha, place'⟩ := h c place
  obtain ⟨b, e, second, hb, place''⟩ := next a ha d place'
  exact ⟨b, e, by rw [bind_eq, first]; exact second, hb, place''⟩

/-- The last part of a sequence takes no tokens. -/
theorem bindLast {x : Parser α} {f : α → Parser β} (h : Accepts x ts after P)
    (next : ∀ a, P a → Accepts (f a) [] after Q) : Accepts (x >>= f) ts after Q :=
  ts.append_nil ▸ h.bind next

theorem pure {a : α} (h : P a) : Accepts (Pure.pure a) [] after P :=
  fun c place => ⟨a, c, rfl, h, place⟩

theorem mono {P' : α → Prop} {x : Parser α} (h : Accepts x ts after P)
    (weaker : ∀ a, P a → P' a) : Accepts x ts after P' := by
  intro c place
  obtain ⟨a, d, result, ha, place'⟩ := h c place
  exact ⟨a, d, result, weaker a ha, place'⟩

variable {t : Token}

theorem next {f : Option Token → Parser β} (h : Accepts (f (ts ++ after).head?) ts after Q) :
    Accepts (Parser.next >>= f) ts after Q := by
  intro c place
  have first : c.next = (ts ++ after).head? := by rw [c.next_eq, place]
  obtain ⟨b, d, result, rest⟩ := h c place
  exact ⟨b, d, by rw [← result, ← first]; rfl, rest⟩

theorem nextSpan {f : Span → Parser β} (h : ∀ s, Accepts (f s) ts after Q) :
    Accepts (Parser.nextSpan >>= f) ts after Q :=
  fun c place => h c.nextSpan c place

theorem lastSpan {f : Span → Parser β} (h : ∀ s, Accepts (f s) ts after Q) :
    Accepts (Parser.lastSpan >>= f) ts after Q :=
  fun c place => h c.lastSpan c place

theorem advance {f : Unit → Parser β} (h : Accepts (f ()) ts after Q) :
    Accepts (Parser.advance >>= f) (t :: ts) after Q := by
  intro c place
  refine h c.advance ?_
  unfold Cursor.tokens at place
  unfold Cursor.advance Cursor.tokens
  split
  · rename_i x rest first
    rw [first] at place
    exact (List.cons_eq_cons.mp place).2
  · rename_i first
    rw [first] at place
    cases place

theorem eat {f : Bool → Parser β} (h : Accepts (f true) ts after Q) :
    Accepts (Parser.eat t >>= f) (t :: ts) after Q := by
  rw [Parser.eat, bind_assoc]
  apply Accepts.next
  rw [List.cons_append, List.head?_cons, if_pos rfl, bind_assoc]
  exact advance h

/-- Another token comes next. -/
theorem skip {f : Bool → Parser β} (other : (ts ++ after).head? ≠ some t)
    (h : Accepts (f false) ts after Q) : Accepts (Parser.eat t >>= f) ts after Q := by
  rw [Parser.eat, bind_assoc]
  apply Accepts.next
  rw [if_neg other]
  exact h

theorem expect {f : Span → Parser β} (h : ∀ s, Accepts (f s) ts after Q) :
    Accepts (Parser.expect t >>= f) (t :: ts) after Q := by
  rw [Parser.expect, bind_assoc]
  apply Accepts.next
  rw [List.cons_append, List.head?_cons, if_pos rfl, bind_assoc]
  apply Accepts.nextSpan
  intro s
  rw [bind_assoc]
  exact advance (h s)

theorem identifier {x : String} {f : String → Parser β} (h : Accepts (f x) ts after Q) :
    Accepts (Parser.identifier >>= f) (.ident x :: ts) after Q := by
  rw [Parser.identifier, bind_assoc]
  apply Accepts.next
  exact advance (f := fun _ => f x) h

theorem fieldName {x : String} {f : String → Parser β}
    (h : Accepts (f x) (.str x :: ts) after Q) :
    Accepts (Parser.fieldName >>= f) (.str x :: ts) after Q := by
  rw [Parser.fieldName, bind_assoc]
  apply Accepts.next
  exact h

theorem operator {o : Operator} {f : Option (Operator × Span) → Parser β}
    (h : ∀ s, Accepts (f (some (o, s))) ts after Q) :
    Accepts (Parser.operator? o.precedence >>= f) (.op o :: ts) after Q := by
  rw [Parser.operator?, bind_assoc]
  apply Accepts.next
  simp only [List.cons_append, List.head?_cons, if_true, bind_assoc]
  apply Accepts.nextSpan
  intro s
  exact advance (h s)

/-- No operator of the level comes next. -/
theorem noOperator {level : Nat} {f : Option (Operator × Span) → Parser β}
    (other : ∀ o, (ts ++ after).head? = some (.op o) → o.precedence ≠ level)
    (h : Accepts (f none) ts after Q) : Accepts (Parser.operator? level >>= f) ts after Q := by
  rw [Parser.operator?, bind_assoc]
  apply Accepts.next
  split
  · rename_i o first
    rw [if_neg (other o first)]
    exact h
  · exact h

theorem semicolon {f : Unit → Parser β} (other : after.head? ≠ some .semi)
    (h : Accepts (f ()) [] after Q) : Accepts (Parser.semicolons >>= f) [.semi] after Q := by
  intro c place
  refine h (Cursor.passAll .semi c.passed c.rest) ?_
  unfold Cursor.tokens at place
  obtain ⟨x, rest, split, token, place⟩ := List.map_eq_cons_iff.mp place
  rw [split, Cursor.passAll, if_pos token]
  cases rest with
  | nil => exact place
  | cons y rest =>
    have stop : y.token ≠ .semi := by
      intro same
      have place : (y :: rest).map (·.token) = after := place
      rw [← place] at other
      exact other (by simp [same])
    rw [Cursor.passAll, if_neg stop]
    exact place

end Accepts

namespace Takes
variable {α : Type} {P : α → Prop} {ts after : List Token} {need more : Nat} {p : Nat → Parser α}

theorem le (h : Takes need p ts after P) (enough : need ≤ more) : Takes more p ts after P :=
  fun n room => h n (Nat.le_trans enough room)

theorem mono {P' : α → Prop} (h : Takes need p ts after P) (weaker : ∀ a, P a → P' a) :
    Takes need p ts after P' :=
  fun n room => (h n room).mono weaker

theorem succ (h : ∀ n, need ≤ n → Accepts (p (n + 1)) ts after P) :
    Takes (need + 1) p ts after P := by
  intro n room
  obtain ⟨m, rfl⟩ : ∃ m, n = m + 1 := ⟨n - 1, by omega⟩
  exact h m (by omega)

end Takes
end TaggedScript
