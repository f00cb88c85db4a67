import TaggedScript.Proofs.Syntax.Patterns
import TaggedScript.Proofs.Source.Lines

/-!
The tokens of a text by its patterns. The longest lexeme at the front is taken again and again, until
the text ends or there is none.
-/
namespace TaggedScript
namespace Lexer

/-- What a text that begins at `offset` is read as. -/
inductive Munches : Nat → List Char → Except LexError (List Lexeme) → Prop
  | nil {offset} : Munches offset [] (.ok [])
  | blank {offset w rest r} : Longest w (w ++ rest) → Reads w .blank →
      Munches (offset + byteLength w) rest r → Munches offset (w ++ rest) r
  | token {offset w rest t r} : Longest w (w ++ rest) → Reads w (.token t) →
      Munches (offset + byteLength w) rest r →
      Munches offset (w ++ rest) (r.map (⟨t, ⟨offset, offset + byteLength w⟩⟩ :: ·))
  | wide {offset w rest f} : Longest w (w ++ rest) → Reads w (.fault f) →
      Munches offset (w ++ rest) (.error ⟨f, offset, String.ofList w⟩)
  | unread {offset cs} : cs ≠ [] → Unreadable cs →
      Munches offset cs (.error ⟨whyUnread cs, offset, String.ofList (unread cs)⟩)

section
variable {w rest : List Char}

theorem lexFrom_of_blank (h : Longest w (w ++ rest)) (reads : Reads w .blank) (offset : Nat) :
    lexFrom offset (w ++ rest) = lexFrom (offset + byteLength w) rest := by
  obtain ⟨c, cs, rfl⟩ := List.exists_cons_of_ne_nil h.ne_nil
  rw [List.cons_append, lexFrom]
  simp only [split_of_longest h reads]

theorem lexFrom_of_token {t : Token} (h : Longest w (w ++ rest)) (reads : Reads w (.token t))
    (offset : Nat) :
    lexFrom offset (w ++ rest) = (lexFrom (offset + byteLength w) rest).map
      (⟨t, ⟨offset, offset + byteLength w⟩⟩ :: ·) := by
  obtain ⟨c, cs, rfl⟩ := List.exists_cons_of_ne_nil h.ne_nil
  rw [List.cons_append, lexFrom]
  simp only [split_of_longest h reads]

theorem lexFrom_of_fault {f : LexFault} (h : Longest w (w ++ rest)) (reads : Reads w (.fault f))
    (offset : Nat) : lexFrom offset (w ++ rest) = .error ⟨f, offset, String.ofList w⟩ := by
  obtain ⟨c, cs, rfl⟩ := List.exists_cons_of_ne_nil h.ne_nil
  rw [List.cons_append, lexFrom]
  simp only [split_of_longest h reads]

theorem lexFrom_of_unreadable {cs : List Char} (some : cs ≠ []) (h : Unreadable cs)
    (offset : Nat) :
    lexFrom offset cs = .error ⟨whyUnread cs, offset, String.ofList (unread cs)⟩ := by
  obtain ⟨c, cs, rfl⟩ := List.exists_cons_of_ne_nil some
  obtain ⟨rest, split⟩ := split_of_unreadable h
  rw [lexFrom]
  simp only [split]

end

theorem lexFrom_of_munches {offset : Nat} {cs : List Char} {r : Except LexError (List Lexeme)}
    (h : Munches offset cs r) : lexFrom offset cs = r := by
  induction h with
  | nil => rw [lexFrom]
  | blank longest reads _ ih => rw [lexFrom_of_blank longest reads, ih]
  | token longest reads _ ih => rw [lexFrom_of_token longest reads, ih]
  | wide longest reads => exact lexFrom_of_fault longest reads _
  | unread some unreadable => exact lexFrom_of_unreadable some unreadable _

theorem munches_lexFrom (offset : Nat) (cs : List Char) : Munches offset cs (lexFrom offset cs) := by
  by_cases readable : ∃ v, v <+: cs ∧ IsLexeme v
  · obtain ⟨v, front, lexeme⟩ := readable
    obtain ⟨w, longest⟩ := exists_longest front lexeme
    obtain ⟨rest, rfl⟩ := longest.front
    obtain ⟨k, reads⟩ := longest.lexeme.reads
    have shorter : rest.length < (w ++ rest).length := by
      have := List.length_pos_of_ne_nil longest.ne_nil
      rw [List.length_append]
      omega
    have later := munches_lexFrom (offset + byteLength w) rest
    cases k with
    | blank =>
      rw [lexFrom_of_blank longest reads]
      exact .blank longest reads later
    | token t =>
      rw [lexFrom_of_token longest reads]
      exact .token longest reads later
    | fault f =>
      rw [lexFrom_of_fault longest reads]
      exact .wide longest reads
  · have unreadable : Unreadable cs := fun v front lexeme => readable ⟨v, front, lexeme⟩
    by_cases none : cs = []
    · subst none
      rw [lexFrom]
      exact .nil
    · rw [lexFrom_of_unreadable none unreadable]
      exact .unread none unreadable
termination_by cs.length

/-! ## Where tokens stand -/

/-- The text `w` stands at a span of the text `cs`, which itself begins at `offset`. -/
def Stands (offset : Nat) (cs w : List Char) (s : Span) : Prop :=
  ∃ before after, cs = before ++ w ++ after ∧ s.start = offset + byteLength before ∧
    s.stop = s.start + byteLength w

/-- The spans before, between and after the tokens of a text. -/
def gaps (start : Nat) (xs : List Lexeme) (stop : Nat) : List Span :=
  match xs with
  | [] => [⟨start, stop⟩]
  | x :: xs => ⟨start, x.span.start⟩ :: gaps x.span.stop xs stop

/-- The tokens of a text stand apart from each other in the order of the text, each is what its own
text stands for, and nothing but blanks and comments stands outside of them. -/
structure Placed (offset : Nat) (cs : List Char) (xs : List Lexeme) : Prop where
  nonempty : ∀ x ∈ xs, x.span.start < x.span.stop
  apart : xs.Pairwise fun x y => x.span.stop ≤ y.span.start
  slices : ∀ x ∈ xs, ∃ w, Stands offset cs w x.span ∧ ∀ k, Reads w k ↔ k = .token x.token
  outside : ∀ g ∈ gaps offset xs (offset + byteLength cs),
    ∃ ws : List (List Char), Stands offset cs ws.flatten g ∧ ∀ w ∈ ws, Reads w .blank

/-- What is wrong at the front of a text that cannot be read on. -/
inductive Fails : List Char → LexError → Prop
  | unread {rest e} : rest ≠ [] → Unreadable rest → e.snippet = String.ofList (unread rest) →
      Fails rest e
  | wide {w rest e} : Longest w rest → Pattern.integer.Matches w → maxInteger < decimalValue w →
      e.snippet = String.ofList w → Fails rest e

/-- An error stands where the text cannot be read on. The text before it can be read on its own. -/
structure Stuck (offset : Nat) (before rest : List Char) (e : LexError) : Prop where
  position : e.position = offset + byteLength before
  before : ∃ xs, lexFrom offset before = .ok xs
  here : Fails rest e

section
variable {offset : Nat} {w rest : List Char}

theorem Stands.after {v : List Char} {s : Span} (h : Stands (offset + byteLength w) rest v s) :
    Stands offset (w ++ rest) v s := by
  obtain ⟨before, after, rfl, start, stop⟩ := h
  refine ⟨w ++ before, after, by simp, ?_, stop⟩
  rw [start, byteLength_append, Nat.add_assoc]

theorem Stands.le_start {v : List Char} {s : Span} (h : Stands offset rest v s) :
    offset ≤ s.start := by
  obtain ⟨_, _, -, start, -⟩ := h
  omega

theorem Stands.stop_le {v : List Char} {s : Span} (h : Stands offset rest v s) :
    s.stop ≤ offset + byteLength rest := by
  obtain ⟨_, _, rfl, start, stop⟩ := h
  simp only [byteLength_append]
  omega

/-- What stands at the beginning goes on with what comes before it. -/
theorem Stands.extend {v : List Char} {stop : Nat}
    (h : Stands (offset + byteLength w) rest v ⟨offset + byteLength w, stop⟩) :
    Stands offset (w ++ rest) (w ++ v) ⟨offset, stop⟩ := by
  obtain ⟨before, after, rfl, start, stop⟩ := h
  have none : before = [] := by
    by_contra some
    have := byteLength_pos some
    simp only at start
    omega
  subst none
  refine ⟨[], after, by simp, by simp [byteLength], ?_⟩
  simp only [byteLength_append] at stop ⊢
  omega

/-- All gaps but the first are the same wherever the text begins. -/
theorem exists_gaps (xs : List Lexeme) (stop : Nat) :
    ∃ first later, ∀ start, gaps start xs stop = ⟨start, first⟩ :: later := by
  cases xs with
  | nil => exact ⟨stop, [], fun _ => rfl⟩
  | cons x xs => exact ⟨x.span.start, gaps x.span.stop xs stop, fun _ => rfl⟩

theorem Placed.afterBlank {xs : List Lexeme} (reads : Reads w .blank)
    (h : Placed (offset + byteLength w) rest xs) : Placed offset (w ++ rest) xs where
  nonempty := h.nonempty
  apart := h.apart
  slices x mem := by
    obtain ⟨v, stands, reads⟩ := h.slices x mem
    exact ⟨v, stands.after, reads⟩
  outside := by
    have outside := h.outside
    obtain ⟨first, later, split⟩ := exists_gaps xs (offset + byteLength (w ++ rest))
    rw [byteLength_append, ← Nat.add_assoc] at split
    rw [split, List.forall_mem_cons] at outside
    rw [byteLength_append, ← Nat.add_assoc, split, List.forall_mem_cons]
    obtain ⟨⟨ws, stands, blank⟩, others⟩ := outside
    refine ⟨⟨w :: ws, stands.extend, List.forall_mem_cons.mpr ⟨reads, blank⟩⟩, fun g mem => ?_⟩
    obtain ⟨ws, stands, blank⟩ := others g mem
    exact ⟨ws, stands.after, blank⟩

theorem Placed.afterToken {xs : List Lexeme} {t : Token} (reads : Reads w (.token t))
    (h : Placed (offset + byteLength w) rest xs) :
    Placed offset (w ++ rest) (⟨t, ⟨offset, offset + byteLength w⟩⟩ :: xs) where
  nonempty := by
    have some : w ≠ [] := reads.isLexeme.elim fun _ matched => matched.ne_nil
    have := byteLength_pos some
    exact List.forall_mem_cons.mpr ⟨by simp only; omega, h.nonempty⟩
  apart := by
    refine List.pairwise_cons.mpr ⟨fun y mem => ?_, h.apart⟩
    obtain ⟨_, stands, -⟩ := h.slices y mem
    exact stands.le_start
  slices := by
    refine List.forall_mem_cons.mpr ⟨⟨w, ?_, fun k => ?_⟩, fun y mem => ?_⟩
    · exact ⟨[], rest, by simp, by simp [byteLength], rfl⟩
    · exact ⟨fun other => other.unique reads, fun same => same ▸ reads⟩
    · obtain ⟨v, stands, reads⟩ := h.slices y mem
      exact ⟨v, stands.after, reads⟩
  outside := by
    rw [gaps, List.forall_mem_cons, byteLength_append, ← Nat.add_assoc]
    refine ⟨⟨[], ⟨[], w ++ rest, by simp, by simp [byteLength], by simp [byteLength]⟩, by simp⟩,
      fun g mem => ?_⟩
    obtain ⟨ws, stands, blank⟩ := h.outside g mem
    exact ⟨ws, stands.after, blank⟩

end

theorem Munches.placed {offset : Nat} {cs : List Char} {r : Except LexError (List Lexeme)}
    (h : Munches offset cs r) : ∀ xs, r = .ok xs → Placed offset cs xs := by
  induction h with
  | nil =>
    rintro xs ⟨rfl⟩
    refine ⟨by simp, by simp, by simp, ?_⟩
    simp only [gaps, List.mem_singleton, forall_eq]
    exact ⟨[], ⟨[], [], rfl, by simp [byteLength], by simp [byteLength]⟩, by simp⟩
  | blank _ reads _ ih => exact fun xs same => (ih xs same).afterBlank reads
  | @token _ _ _ _ r _ reads _ ih =>
    intro xs same
    cases r with
    | error e => cases same
    | ok ys =>
      cases same
      exact (ih ys rfl).afterToken reads
  | wide | unread => exact fun xs same => nomatch same

/-- The text before an error can be read on its own: the lexemes in it are the longest ones there
too. -/
theorem Munches.stuck {offset : Nat} {cs : List Char} {r : Except LexError (List Lexeme)}
    (h : Munches offset cs r) :
    ∀ e, r = .error e → ∃ before rest, cs = before ++ rest ∧ Stuck offset before rest e := by
  have nothing (offset : Nat) : ∃ xs, lexFrom offset [] = .ok xs := ⟨[], by rw [lexFrom]⟩
  induction h with
  | nil =>
    intro e same
    cases same
  | @blank _ w _ _ longest reads _ ih =>
    intro e same
    obtain ⟨before, rest, rfl, stuck⟩ := ih e same
    refine ⟨w ++ before, rest, by simp, ?_, ?_, stuck.here⟩
    · rw [stuck.position, byteLength_append, Nat.add_assoc]
    · rw [lexFrom_of_blank longest.shorten reads]
      exact stuck.before
  | @token _ w _ _ r longest reads _ ih =>
    intro e same
    cases r with
    | ok ys => cases same
    | error e' =>
      cases same
      obtain ⟨before, rest, rfl, stuck⟩ := ih e rfl
      refine ⟨w ++ before, rest, by simp, ?_, ?_, stuck.here⟩
      · rw [stuck.position, byteLength_append, Nat.add_assoc]
      · obtain ⟨xs, lexed⟩ := stuck.before
        rw [lexFrom_of_token longest.shorten reads, lexed]
        exact ⟨_, rfl⟩
  | wide longest reads =>
    rintro e ⟨rfl⟩
    refine ⟨[], _, rfl, by simp [byteLength], nothing _, ?_⟩
    cases reads with
    | wide matched large => exact .wide longest matched large rfl
  | unread some unreadable =>
    rintro e ⟨rfl⟩
    exact ⟨[], _, rfl, by simp [byteLength], nothing _, .unread some unreadable rfl⟩

end Lexer

open TaggedScript.Lexer

/-- A text is read by taking the longest lexeme again and again. Its tokens stand apart, with nothing
but blanks and comments around them, and an error stands at the first place where the text cannot be
read on. -/
theorem lex_munches (source : String) :
    (∀ r, lex source = r ↔ Munches 0 source.toList r) ∧
    (∀ xs, lex source = .ok xs → Placed 0 source.toList xs) ∧
    ∀ e, lex source = .error e → ∃ before rest, source = String.ofList (before ++ rest) ∧
      (∃ xs, lex (String.ofList before) = .ok xs) ∧ e.position = byteLength before ∧
      Fails rest e := by
  have reads := munches_lexFrom 0 source.toList
  refine ⟨fun r => ⟨fun same => same ▸ reads, lexFrom_of_munches⟩, reads.placed, fun e same => ?_⟩
  obtain ⟨before, rest, text, stuck⟩ := reads.stuck e same
  refine ⟨before, rest, by rw [← text, String.ofList_toList], ?_, ?_, stuck.here⟩
  · rw [lex, String.toList_ofList]
    exact stuck.before
  · rw [stuck.position, Nat.zero_add]

theorem lex_munches_comparison :
    let xs : List Lexeme := [⟨.ident "a", ⟨0, 1⟩⟩, ⟨.op .le, ⟨1, 3⟩⟩, ⟨.int 1, ⟨3, 4⟩⟩]
    let e : LexError := ⟨.unclosedString, 2, "\"c d"⟩
    lex "a<=1 // less\n" = .ok xs ∧ Munches 0 "a<=1 // less\n".toList (.ok xs) ∧
    Placed 0 "a<=1 // less\n".toList xs ∧
    lex "b \"c d\n2" = .error e ∧
    ∃ before rest, "b \"c d\n2" = String.ofList (before ++ rest) ∧
      (∃ xs, lex (String.ofList before) = .ok xs) ∧ 2 = byteLength before ∧ Fails rest e := by
  intro xs e
  have lexed : lex "a<=1 // less\n" = .ok xs := by decide +kernel
  have failed : lex "b \"c d\n2" = .error e := by decide +kernel
  obtain ⟨munched, placed, -⟩ := lex_munches "a<=1 // less\n"
  exact ⟨lexed, (munched _).mp lexed, placed xs lexed, failed, (lex_munches _).2.2 e failed⟩

end TaggedScript
