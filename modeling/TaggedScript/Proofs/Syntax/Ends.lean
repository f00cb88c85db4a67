import TaggedScript.Proofs.Syntax.Munching
import TaggedScript.Proofs.Syntax.Progress

/-!
How parsing ends: after enough allowance, onward, and with an error that stands in the text.
-/
namespace TaggedScript

namespace Parser

/-- From a cursor a part of the parser comes to an end that more allowance does not change. It goes
nowhere back and not past the end, and over at least so many tokens when it succeeds. -/
structure Ends {α : Type} (p : Nat → Parser α) (least : Nat) (c : Cursor) : Prop where
  settled : ∀ n, allowance c ≤ n → p n c = p (allowance c) c
  finished : ∀ e d, p (allowance c) c = .error e d → e.fault ≠ .nesting
  lexemes : (stateOf (p (allowance c) c)).lexemes = c.lexemes
  forward : c.position ≤ (stateOf (p (allowance c) c)).position
  within : (stateOf (p (allowance c) c)).position ≤ c.lexemes.length
  progress : ∀ a d, p (allowance c) c = .ok a d → c.position + least ≤ d.position

theorem ends_of_settled {α : Type} {p : Nat → Parser α} {need extra least : Nat}
    (h : ∀ n k, Settled n k need extra p) (enough : need ≤ 16) (one : least + extra = 1)
    (c : Cursor) : Ends p least c := by
  have room : 16 * c.rest.length + need ≤ allowance c := by
    simp only [allowance]
    omega
  have ends := (h (allowance c) 0 c room).2
  have onward : c.Onward (stateOf (p (allowance c) c)) := by
    generalize p (allowance c) c = r at ends
    cases r with
    | ok a d => exact ends.1
    | error e d => exact ends.1
  have passed := onward.position_add
  have fewer := onward.rest_le
  constructor
  case settled =>
    intro n more
    obtain ⟨k, rfl⟩ := Nat.exists_eq_add_of_le' more
    exact (h _ k c room).1.symm
  case finished =>
    intro e d failed
    rw [failed] at ends
    exact ends.2.allowed
  case lexemes => exact onward.lexemes
  case forward => omega
  case within =>
    rw [c.length_lexemes]
    omega
  case progress =>
    intro a d result
    rw [result] at ends passed
    have less : d.rest.length < c.rest.length + extra := ends.2
    simp only [stateOf] at passed
    omega

/-- All tokens are passed over when a script is read. -/
theorem rest_of_script {n : Nat} {c d : Cursor} {es : List Expr} (h : script n c = .ok es d) :
    d.rest = [] := by
  induction n generalizing c es with
  | zero => cases h
  | succ n ih =>
    rw [script] at h
    obtain ⟨first, c', looked, h⟩ := ok_of_bind h
    obtain ⟨same, rfl⟩ : c.next = first ∧ c = c' := ok_of_pure looked
    split at h
    · obtain ⟨-, rfl⟩ := ok_of_pure h
      exact List.head?_eq_none_iff.mp (Option.map_eq_none_iff.mp same)
    · obtain ⟨e, c', -, h⟩ := ok_of_bind h
      obtain ⟨es, d', later, h⟩ := ok_of_bind h
      obtain ⟨-, rfl⟩ := ok_of_pure h
      exact ih later

/-- On all tokens and from all places a script, a block, a statement and an expression come to their
end. -/
theorem parts_end (c : Cursor) :
    Ends script 0 c ∧ Ends block 1 c ∧ Ends statement 1 c ∧ Ends expr 1 c ∧
    ∀ es d, parseScript c = .ok es d → d.rest = [] :=
  ⟨ends_of_settled settled_script (by decide) (by decide) c,
    ends_of_settled (fun n k => (settles n k).block) (by decide) (by decide) c,
    ends_of_settled (fun n k => (settles n k).statement) (by decide) (by decide) c,
    ends_of_settled (fun n k => (settles n k).expr) (by decide) (by decide) c,
    fun _ _ read => rest_of_script read⟩

theorem parts_end_number :
    let c := Cursor.ofLexemes [⟨.int 1, ⟨0, 1⟩⟩]
    (∃ d, parseScript c = .ok [.literal ⟨0, 1⟩ (.int 1)] d ∧ d.rest = []) ∧ Ends block 1 c := by
  intro c
  obtain ⟨-, block, -, -, all⟩ := parts_end c
  exact ⟨⟨⟨[⟨.int 1, ⟨0, 1⟩⟩], []⟩, rfl, all _ _ rfl⟩, block⟩

/-- An error of reading a script, or of reading an expression after some others were read. -/
def Raises (xs : List Lexeme) (e : ParseError) : Prop :=
  (∃ d, parseScript (.ofLexemes xs) = .error e d) ∨
    ∃ n d, parseExpr (afterSteps parseExpr n (.ofLexemes xs)) = .error e d

theorem blames_of_settled {α : Type} {p : Nat → Parser α} {need extra : Nat}
    (h : ∀ n k, Settled n k need extra p) (enough : need ≤ 16) {c d : Cursor} {e : ParseError}
    (failed : p (allowance c) c = .error e d) : e.Blames c.lexemes := by
  have ends := (h (allowance c) 0 c (by simp only [allowance]; omega)).2
  rw [failed] at ends
  exact ends.2

theorem lexemes_afterSteps (n : Nat) (c : Cursor) :
    (afterSteps parseExpr n c).lexemes = c.lexemes := by
  induction n with
  | zero => rfl
  | succ n ih => exact (parts_end (afterSteps parseExpr n c)).2.2.2.1.lexemes.trans ih

theorem Raises.blames {xs : List Lexeme} {e : ParseError} (h : Raises xs e) : e.Blames xs := by
  have whole : (Cursor.ofLexemes xs).lexemes = xs := rfl
  obtain ⟨d, failed⟩ | ⟨n, d, failed⟩ := h
  · exact whole ▸ blames_of_settled settled_script (by decide) failed
  · have blames := blames_of_settled (fun n k => (settles n k).expr) (by decide) failed
    rwa [lexemes_afterSteps] at blames

/-- In a text the `=` and a later place do not have the same span. -/
theorem spanAt_ne {offset : Nat} {cs : List Char} {xs : List Lexeme}
    (placed : Lexer.Placed offset cs xs) {i j : Nat} {x : Lexeme} (first : xs[i]? = some x)
    (later : i < j) : x.span ≠ spanAt xs j := by
  intro same
  obtain ⟨inside, rfl⟩ := List.getElem?_eq_some_iff.mp first
  have solid := placed.nonempty _ (List.getElem_mem inside)
  unfold spanAt at same
  split at same
  · rename_i y second
    obtain ⟨inside', rfl⟩ := List.getElem?_eq_some_iff.mp second
    have apart := List.pairwise_iff_getElem.mp placed.apart i j inside inside' later
    have solid' := placed.nonempty _ (List.getElem_mem inside')
    rw [same] at apart
    omega
  · cases last : xs.getLast? with
    | none =>
      simp only [List.getLast?_eq_none_iff.mp last, List.length_nil] at inside
      omega
    | some y =>
      simp only [last, Option.map_some, Option.getD_some, Span.after] at same
      rw [same] at solid
      exact absurd solid (Nat.lt_irrefl _)

end Parser

open TaggedScript.Parser

/-- Both places of an error name the same token, except for an invalid target. That is blamed on an
`=`, by the number of a later place: the one after the value. -/
theorem ParseError.located_iff {source : String} {xs : List Lexeme} {e : ParseError}
    (lexed : lex source = .ok xs) (raised : Raises xs e) :
    e.position ≤ xs.length ∧ (e.Located xs ↔ e.fault ≠ .invalidTarget) ∧
    (e.fault = .invalidTarget →
      ∃ i x, xs[i]? = some x ∧ x.token = .assign ∧ e.span = x.span ∧ i + 1 < e.position) := by
  have blames := raised.blames
  have placed := (Lexer.munches_lexFrom 0 source.toList).placed xs lexed
  refine ⟨blames.within, ⟨fun located invalid => ?_, fun other => ?_⟩, blames.target⟩
  · obtain ⟨i, x, first, -, span, later⟩ := blames.target invalid
    exact spanAt_ne placed first (Nat.lt_of_succ_lt later) (span ▸ located.span)
  · exact ⟨blames.within, blames.span other⟩

theorem ParseError.located_iff_noName :
    let xs : List Lexeme := [⟨.varKw, ⟨0, 3⟩⟩, ⟨.int 2, ⟨4, 5⟩⟩]
    let e : ParseError := ⟨.expected .identifier (some (.int 2)), 1, ⟨4, 5⟩⟩
    lex "var 2" = .ok xs ∧ Raises xs e ∧ e.Located xs := by
  intro xs e
  have lexed : lex "var 2" = .ok xs := by decide +kernel
  have raised : Raises xs e := .inl ⟨⟨[⟨.varKw, ⟨0, 3⟩⟩], [⟨.int 2, ⟨4, 5⟩⟩]⟩, rfl⟩
  exact ⟨lexed, raised, (ParseError.located_iff lexed raised).2.1.mpr nofun⟩

/-- The number three stands for the end of this text, but its `=` is shown. -/
theorem ParseError.exists_not_located :
    let xs : List Lexeme := [⟨.int 1, ⟨0, 1⟩⟩, ⟨.assign, ⟨2, 3⟩⟩, ⟨.int 2, ⟨4, 5⟩⟩]
    let e : ParseError := ⟨.invalidTarget, 3, ⟨2, 3⟩⟩
    lex "1 = 2" = .ok xs ∧ (∃ d, parseScript (.ofLexemes xs) = .error e d) ∧
    spanAt xs e.position = ⟨5, 5⟩ ∧ ¬ e.Located xs := by
  intro xs e
  exact ⟨by decide +kernel, ⟨⟨xs.reverse, []⟩, rfl⟩, rfl, fun located => nomatch located.span⟩

end TaggedScript
