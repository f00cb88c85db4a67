import Mathlib.Data.List.Infix
import TaggedScript.Proofs.Syntax.Lexemes

/-!
The patterns of lexemes. The lexer splits off the longest front of a text that matches one of them.
-/
namespace TaggedScript

/-- Whether a token has just one text. -/
def Token.isFixed : Token → Bool
  | int _ | str _ | ident _ => false
  | _ => true

theorem Token.spelling_ofWord {x : String} (h : x ∈ keywords) :
    (ofWord x).isFixed = true ∧ (ofWord x).spelling = x := by
  simp only [keywords, List.mem_cons, List.not_mem_nil, or_false] at h
  obtain rfl | rfl | rfl | rfl | rfl | rfl | rfl | rfl | rfl | rfl := h <;> exact ⟨rfl, rfl⟩

namespace Lexer

/-- What a lexeme can look like. -/
inductive Pattern where
  | blanks
  | comment
  | fixed (t : Token)
  | integer
  | string
  | name

/-- A pattern matches a text as a whole. -/
def Pattern.Matches : Pattern → List Char → Prop
  | blanks, w => w ≠ [] ∧ ∀ c ∈ w, isBlank c = true
  | comment, w => ∃ body, w = '/' :: '/' :: body ∧ '\n' ∉ body
  | fixed t, w => t.isFixed = true ∧ w = t.spelling.toList
  | integer, w => w ≠ [] ∧ ∀ c ∈ w, c.isDigit = true
  | string, w => ∃ body, w = '"' :: (body ++ ['"']) ∧ ∀ c ∈ body, c ≠ '"' ∧ c ≠ '\n'
  | name, w => ∃ c cs, w = c :: cs ∧ isNameStart c = true ∧ ∀ d ∈ cs, isNamePart d = true

/-- What a text that a pattern matches stands for. A name is no keyword. -/
inductive Reads : List Char → Class → Prop
  | blanks {w} : Pattern.blanks.Matches w → Reads w .blank
  | comment {w} : Pattern.comment.Matches w → Reads w .blank
  | fixed {t w} : (Pattern.fixed t).Matches w → Reads w (.token t)
  | integer {w} : Pattern.integer.Matches w → decimalValue w ≤ maxInteger →
      Reads w (.token (.int (Int32.ofNat (decimalValue w))))
  | wide {w} : Pattern.integer.Matches w → maxInteger < decimalValue w →
      Reads w (.fault .wideInteger)
  | string {body} : Pattern.string.Matches ('"' :: (body ++ ['"'])) →
      Reads ('"' :: (body ++ ['"'])) (.token (.str (String.ofList body)))
  | name {w} : Pattern.name.Matches w → (∀ t, ¬ (Pattern.fixed t).Matches w) →
      Reads w (.token (.ident (String.ofList w)))

/-- Some pattern matches the text. -/
def IsLexeme (w : List Char) : Prop := ∃ p : Pattern, p.Matches w

/-- The longest lexeme at the front of a text. -/
structure Longest (w cs : List Char) : Prop where
  front : w <+: cs
  lexeme : IsLexeme w
  longest : ∀ v, v <+: cs → IsLexeme v → v.length ≤ w.length

/-- No lexeme stands at the front of a text. -/
def Unreadable (cs : List Char) : Prop := ∀ v, v <+: cs → ¬ IsLexeme v

/-- The text to show where no lexeme stands: the rest of the line after a quote, else one
character. -/
def unread : List Char → List Char
  | '"' :: cs => '"' :: cs.takeWhile (· != '\n')
  | c :: _ => [c]
  | [] => []

/-- Why no lexeme stands at the front of a text. -/
def whyUnread : List Char → LexFault
  | '"' :: _ => .unclosedString
  | '!' :: _ => .loneBang
  | _ => .strayCharacter

theorem Pattern.Matches.ne_nil {p : Pattern} {w : List Char} (h : p.Matches w) : w ≠ [] := by
  cases p with
  | blanks | integer => exact h.1
  | comment =>
    obtain ⟨body, rfl, -⟩ := h
    simp
  | string =>
    obtain ⟨body, rfl, -⟩ := h
    simp
  | name =>
    obtain ⟨c, cs, rfl, -⟩ := h
    simp
  | fixed t =>
    obtain ⟨fixed, rfl⟩ := h
    cases t with
    | op o => cases o <;> decide
    | int _ | str _ | ident _ => cases fixed
    | _ => decide

theorem Reads.isLexeme {w : List Char} {k : Class} (h : Reads w k) : IsLexeme w := by
  cases h with
  | blanks h | comment h | fixed h | integer h | wide h | string h | name h => exact ⟨_, h⟩

/-- Whatever a pattern matches stands for something. -/
theorem IsLexeme.reads {w : List Char} (h : IsLexeme w) : ∃ k, Reads w k := by
  obtain ⟨p, matched⟩ := h
  cases p with
  | blanks => exact ⟨_, .blanks matched⟩
  | comment => exact ⟨_, .comment matched⟩
  | fixed t => exact ⟨_, .fixed matched⟩
  | string =>
    have text := matched
    obtain ⟨body, rfl, -⟩ := text
    exact ⟨_, .string matched⟩
  | integer =>
    by_cases small : decimalValue w ≤ maxInteger
    · exact ⟨_, .integer matched small⟩
    · exact ⟨_, .wide matched (Nat.lt_of_not_le small)⟩
  | name =>
    by_cases keyword : ∃ t, (Pattern.fixed t).Matches w
    · obtain ⟨t, fixed⟩ := keyword
      exact ⟨_, .fixed fixed⟩
    · exact ⟨_, .name matched (not_exists.mp keyword)⟩

namespace Longest
variable {w v rest : List Char} {d : Char}

theorem ne_nil {cs : List Char} (h : Longest w cs) : w ≠ [] := by
  obtain ⟨p, matched⟩ := h.lexeme
  exact matched.ne_nil

/-- One more character makes no lexeme. -/
theorem not_concat (h : Longest w (w ++ d :: rest)) : ¬ IsLexeme (w ++ [d]) := by
  intro longer
  have bound := h.longest (w ++ [d]) ⟨rest, by simp⟩ longer
  rw [List.length_append, List.length_singleton] at bound
  omega

/-- The longest lexeme is so in any shorter text that it is the front of. -/
theorem shorten (h : Longest w (w ++ (v ++ rest))) : Longest w (w ++ v) where
  front := List.prefix_append w v
  lexeme := h.lexeme
  longest u front := h.longest u (front.trans ⟨rest, by simp⟩)

theorem unique {cs : List Char} (h : Longest w cs) (g : Longest v cs) : w = v :=
  List.IsPrefix.eq_of_length
    (List.prefix_of_prefix_length_le h.front g.front (g.longest w h.front h.lexeme))
    (Nat.le_antisymm (g.longest w h.front h.lexeme) (h.longest v g.front g.lexeme))

end Longest

/-- Where some lexeme stands, there is a longest one. -/
theorem exists_longest {v cs : List Char} (front : v <+: cs) (lexeme : IsLexeme v) :
    ∃ w, Longest w cs := by
  -- A longer one is looked for until none is left; there is room for a few only.
  by_cases longest : ∀ u, u <+: cs → IsLexeme u → u.length ≤ v.length
  · exact ⟨v, front, lexeme, longest⟩
  · push Not at longest
    obtain ⟨u, front', lexeme', longer⟩ := longest
    have bound := front'.length_le
    exact exists_longest front' lexeme'
termination_by cs.length - v.length

/-- What follows the longest lexeme does not go on with it. -/
theorem Longest.stops {w rest : List Char} {p : Char → Bool} (h : Longest w (w ++ rest))
    (more : ∀ d, p d = true → IsLexeme (w ++ [d])) : ∀ d ∈ rest.head?, p d = false := by
  rintro d next
  cases rest with
  | nil => cases next
  | cons e rest =>
    cases next
    by_contra inside
    exact h.not_concat (more d (Bool.not_eq_false _ ▸ inside))

/-! ## What is split off -/

theorem split_blanks {c : Char} (first : isBlank c = true) (cs : List Char) :
    split c cs = run (fun _ => .blank) isBlank c cs := by
  simp only [isBlank, Bool.or_eq_true, beq_iff_eq] at first
  obtain ((rfl | rfl) | rfl) | rfl := first <;> rfl

section
variable {c : Char} {cs rest : List Char}

theorem split_of_blanks (matched : Pattern.blanks.Matches (c :: cs))
    (h : Longest (c :: cs) (c :: cs ++ rest)) :
    split c (cs ++ rest) = ⟨.blank, c :: cs, rest⟩ := by
  have blank := List.forall_mem_cons.mp matched.2
  rw [split_blanks blank.1, run_append blank.2]
  refine h.stops fun d inside => ⟨.blanks, by simp, ?_⟩
  simpa [or_imp, forall_and, inside] using matched.2

theorem split_of_comment {body : List Char} (inside : '\n' ∉ body)
    (h : Longest ('/' :: '/' :: body) ('/' :: '/' :: body ++ rest)) :
    split '/' ('/' :: body ++ rest) = ⟨.blank, '/' :: '/' :: body, rest⟩ := by
  have comment : split '/' ('/' :: body ++ rest) =
      run (fun _ => .blank) (· != '\n') '/' ('/' :: body ++ rest) := rfl
  rw [comment, run_append]
  · intro d mem
    obtain rfl | mem := List.mem_cons.mp mem
    · rfl
    · exact bne_iff_ne.mpr fun same => inside (same ▸ mem)
  · refine h.stops fun d other => ⟨.comment, body ++ [d], rfl, ?_⟩
    have other : d ≠ '\n' := bne_iff_ne.mp other
    simp [inside, other.symm]

theorem split_of_integer (matched : Pattern.integer.Matches (c :: cs))
    (h : Longest (c :: cs) (c :: cs ++ rest)) :
    split c (cs ++ rest) = ⟨integer (c :: cs), c :: cs, rest⟩ := by
  have digits := List.forall_mem_cons.mp matched.2
  rw [split_digits digits.1, run_append digits.2]
  refine h.stops fun d inside => ⟨.integer, by simp, ?_⟩
  simpa [or_imp, forall_and, inside] using matched.2

theorem split_of_name (first : isNameStart c = true) (parts : ∀ d ∈ cs, isNamePart d = true)
    (h : Longest (c :: cs) (c :: cs ++ rest)) :
    split c (cs ++ rest) =
      ⟨.token (Token.ofWord (String.ofList (c :: cs))), c :: cs, rest⟩ := by
  rw [split_word first, run_append parts]
  refine h.stops fun d inside => ⟨.name, c, cs ++ [d], rfl, first, ?_⟩
  simpa [or_imp, forall_and, inside] using parts

theorem split_of_string {body : List Char} (inside : ∀ c ∈ body, c ≠ '"' ∧ c ≠ '\n') :
    split '"' (body ++ ['"'] ++ rest) =
      ⟨.token (.str (String.ofList body)), '"' :: (body ++ ['"']), rest⟩ := by
  have quoted : split '"' (body ++ ['"'] ++ rest) = string (body ++ '"' :: rest) := by
    rw [List.append_assoc]
    rfl
  have all : ∀ c ∈ body, (c != '"' && c != '\n') = true := by
    simpa [Bool.and_eq_true] using inside
  rw [quoted]
  simp only [string, List.takeWhile_append_of_pos all, List.dropWhile_append_of_pos all,
    List.takeWhile_cons, List.dropWhile_cons]
  simp

theorem isLexeme_fixed {t : Token} (fixed : t.isFixed = true) : IsLexeme t.spelling.toList :=
  ⟨.fixed t, fixed, rfl⟩

theorem orEqual_of_longest {alone withEqual : Class} (longer : IsLexeme [c, '='])
    (h : Longest [c] ([c] ++ rest)) : orEqual alone withEqual c rest = ⟨alone, [c], rest⟩ := by
  unfold orEqual
  split
  · exact absurd longer h.not_concat
  · rfl

theorem split_of_slash (h : Longest ['/'] (['/'] ++ rest)) :
    split '/' rest = ⟨.token (.op .div), ['/'], rest⟩ := by
  cases rest with
  | nil => rfl
  | cons d rest =>
    by_cases comment : d = '/'
    · subst comment
      exact absurd ⟨.comment, [], rfl, by simp⟩ h.not_concat
    · unfold split
      simp [comment, single]

/-- A keyword is read as a word, any other fixed text by itself. -/
theorem split_of_fixed {t : Token} (fixed : t.isFixed = true) (text : t.spelling.toList = c :: cs)
    (h : Longest (c :: cs) (c :: cs ++ rest)) :
    split c (cs ++ rest) = ⟨.token t, c :: cs, rest⟩ := by
  have word (token : Token.ofWord t.spelling = t) (first : isNameStart c = true)
      (parts : ∀ d ∈ cs, isNamePart d = true) :
      split c (cs ++ rest) = ⟨.token t, c :: cs, rest⟩ := by
    rw [split_of_name first parts h, ← text, String.ofList_toList, token]
  cases t with
  | varKw | functionKw | returnKw | ifKw | elseKw | newKw | thisKw | trueKw | falseKw
  | undefinedKw =>
    obtain ⟨rfl, rfl⟩ := List.cons_eq_cons.mp text
    exact word rfl rfl (List.all_eq_true.mp rfl)
  | lparen | rparen | lbrace | rbrace | comma | semi | dot | colon =>
    obtain ⟨rfl, rfl⟩ := List.cons_eq_cons.mp text
    rfl
  | assign =>
    obtain ⟨rfl, rfl⟩ := List.cons_eq_cons.mp text
    exact orEqual_of_longest (isLexeme_fixed (t := .op .eq) rfl) h
  | op o =>
    cases o with
    | add | sub | mul | rem | eq | ne | le | ge =>
      obtain ⟨rfl, rfl⟩ := List.cons_eq_cons.mp text
      rfl
    | lt =>
      obtain ⟨rfl, rfl⟩ := List.cons_eq_cons.mp text
      exact orEqual_of_longest (isLexeme_fixed (t := .op .le) rfl) h
    | gt =>
      obtain ⟨rfl, rfl⟩ := List.cons_eq_cons.mp text
      exact orEqual_of_longest (isLexeme_fixed (t := .op .ge) rfl) h
    | div =>
      obtain ⟨rfl, rfl⟩ := List.cons_eq_cons.mp text
      exact split_of_slash h
  | int _ | str _ | ident _ => cases fixed

/-- Of a text, the longest lexeme at its front is split off, as what it stands for. -/
theorem split_of_longest {k : Class} (h : Longest (c :: cs) (c :: cs ++ rest))
    (reads : Reads (c :: cs) k) : split c (cs ++ rest) = ⟨k, c :: cs, rest⟩ := by
  cases reads with
  | blanks matched => exact split_of_blanks matched h
  | comment matched =>
    obtain ⟨body, text, inside⟩ := matched
    obtain ⟨rfl, rfl⟩ := List.cons_eq_cons.mp text
    exact split_of_comment inside h
  | fixed matched => exact split_of_fixed matched.1 matched.2.symm h
  | integer matched small => rw [split_of_integer matched h, integer, if_pos small]
  | wide matched large => rw [split_of_integer matched h, integer, if_neg (Nat.not_le_of_lt large)]
  | string matched =>
    obtain ⟨body, text, inside⟩ := matched
    obtain rfl := List.append_cancel_right (List.cons_eq_cons.mp text).2
    exact split_of_string inside
  | name matched other =>
    obtain ⟨d, ds, text, first, parts⟩ := matched
    obtain ⟨rfl, rfl⟩ := List.cons_eq_cons.mp text
    rw [split_of_name first parts h, Token.ofWord_of_notMem]
    intro keyword
    obtain ⟨fixed, same⟩ := Token.spelling_ofWord keyword
    exact other _ ⟨fixed, by rw [same, String.toList_ofList]⟩

end

/-- A lexeme stands for one thing. -/
theorem Reads.unique {w : List Char} {k l : Class} (h : Reads w k) (g : Reads w l) : k = l := by
  obtain ⟨c, cs, rfl⟩ := List.exists_cons_of_ne_nil (h.isLexeme.elim fun _ matched => matched.ne_nil)
  have whole : Longest (c :: cs) (c :: cs ++ []) :=
    ⟨by simp, h.isLexeme, fun v front _ => by simpa using front.length_le⟩
  have same := (split_of_longest whole h).symm.trans (split_of_longest whole g)
  exact (Split.mk.inj same).1

/-- Where no quote comes before the end of the line, the text up to a quote is the rest of the
line. -/
theorem takeWhile_line {cs : List Char}
    (open_ : ∀ rest, cs.dropWhile (fun c => c != '"' && c != '\n') ≠ '"' :: rest) :
    cs.takeWhile (fun c => c != '"' && c != '\n') = cs.takeWhile (· != '\n') := by
  induction cs with
  | nil => rfl
  | cons c cs ih =>
    by_cases quote : c = '"'
    · subst quote
      exact absurd rfl (open_ cs)
    · by_cases line : c = '\n'
      · subst line
        rfl
      · simp only [List.dropWhile_cons, List.takeWhile_cons, bne_iff_ne.mpr quote,
          bne_iff_ne.mpr line, Bool.and_self, ↓reduceIte] at open_ ⊢
        rw [ih open_]

/-- Without a quote that closes the string, the rest of the line is split off. -/
theorem string_of_unreadable {cs : List Char} (h : Unreadable ('"' :: cs)) :
    ∃ rest, string cs = ⟨.fault .unclosedString, unread ('"' :: cs), rest⟩ := by
  have open_ (rest : List Char) :
      cs.dropWhile (fun c => c != '"' && c != '\n') ≠ '"' :: rest := by
    intro closed
    have whole := List.takeWhile_append_dropWhile (p := fun c => c != '"' && c != '\n') (l := cs)
    rw [closed] at whole
    refine h ('"' :: (cs.takeWhile (fun c => c != '"' && c != '\n') ++ ['"'])) ⟨rest, ?_⟩
      ⟨.string, _, rfl, fun c mem => ?_⟩
    · simpa using whole
    · simpa using List.all_eq_true.mp List.all_takeWhile c mem
  refine ⟨cs.dropWhile (fun c => c != '"' && c != '\n'), ?_⟩
  unfold string
  simp only [unread, takeWhile_line open_]

/-- Where no lexeme stands, the text to show is split off. -/
theorem split_of_unreadable {c : Char} {cs : List Char} (h : Unreadable (c :: cs)) :
    ∃ rest, split c cs = ⟨.fault (whyUnread (c :: cs)), unread (c :: cs), rest⟩ := by
  have alone (p : Pattern) : ¬ p.Matches [c] := fun matched => h [c] ⟨cs, rfl⟩ ⟨p, matched⟩
  unfold split
  split
  · exact (alone (.fixed .lparen) ⟨rfl, rfl⟩).elim
  · exact (alone (.fixed .rparen) ⟨rfl, rfl⟩).elim
  · exact (alone (.fixed .lbrace) ⟨rfl, rfl⟩).elim
  · exact (alone (.fixed .rbrace) ⟨rfl, rfl⟩).elim
  · exact (alone (.fixed .comma) ⟨rfl, rfl⟩).elim
  · exact (alone (.fixed .semi) ⟨rfl, rfl⟩).elim
  · exact (alone (.fixed .dot) ⟨rfl, rfl⟩).elim
  · exact (alone (.fixed .colon) ⟨rfl, rfl⟩).elim
  · exact (alone (.fixed (.op .add)) ⟨rfl, rfl⟩).elim
  · exact (alone (.fixed (.op .sub)) ⟨rfl, rfl⟩).elim
  · exact (alone (.fixed (.op .mul)) ⟨rfl, rfl⟩).elim
  · exact (alone (.fixed (.op .rem)) ⟨rfl, rfl⟩).elim
  · exact (alone (.fixed .assign) ⟨rfl, rfl⟩).elim
  · -- A lone `!` is the only operator text that is no token.
    unfold orEqual
    split
    · rename_i rest
      exact (h ['!', '='] ⟨rest, rfl⟩ (isLexeme_fixed (t := .op .ne) rfl)).elim
    · exact ⟨cs, rfl⟩
  · exact (alone (.fixed (.op .lt)) ⟨rfl, rfl⟩).elim
  · exact (alone (.fixed (.op .gt)) ⟨rfl, rfl⟩).elim
  · exact string_of_unreadable h
  · exact (alone (.fixed (.op .div)) ⟨rfl, rfl⟩).elim
  · have solid : isBlank c = false := by
      by_contra blank
      exact alone .blanks (by simpa [Pattern.Matches] using blank)
    have noDigit : c.isDigit = false := by
      by_contra digit
      exact alone .integer (by simpa [Pattern.Matches] using digit)
    have noName : isNameStart c = false := by
      by_contra start
      exact alone .name ⟨c, [], rfl, by simpa using start, by simp⟩
    have stray : whyUnread (c :: cs) = .strayCharacter := by
      unfold whyUnread
      split <;> simp_all
    refine ⟨cs, ?_⟩
    simp only [solid, noDigit, noName, Bool.false_eq_true, ↓reduceIte, single, stray, unread]

end Lexer
end TaggedScript
