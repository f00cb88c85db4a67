import Mathlib.Data.List.TakeWhile
import TaggedScript.Diagnostic
import TaggedScript.Proofs.Source.Lines

/-!
The carets below a line of source. They count bytes, as offsets and columns do: a caret stands at
each place that is the number of a byte in the span. So they stand under the characters in the span
exactly if each character before its end takes one byte.
-/
namespace TaggedScript

/-- What is covered is marked, and where nothing is, the start. -/
def Marked (covered : Nat → Prop) (start i : Nat) : Prop :=
  covered i ∨ i = start ∧ ∀ j, ¬ covered j

theorem marked_of_some {covered : Nat → Prop} {j : Nat} (some : covered j) (start i : Nat) :
    Marked covered start i ↔ covered i :=
  or_iff_left fun none => none.2 j some

theorem marked_of_none {covered : Nat → Prop} (none : ∀ j, ¬ covered j) (start i : Nat) :
    Marked covered start i ↔ i = start := by
  rw [Marked, or_iff_right (none i), and_iff_left none]

namespace SourceLine
variable {source : String}

/-- The offset in the source at which a character of the line begins. -/
def offset (l : SourceLine source) (i : Nat) : Nat :=
  byteLength l.before + byteLength (l.chars.take i)

/-- A character of the printed line lies in the span. -/
def Covers (l : SourceLine source) (span : Span) (i : Nat) : Prop :=
  i < l.printed.length ∧ span.start ≤ l.offset i ∧ l.offset i < span.stop

/-- A byte of the printed line lies in the span. -/
def CoversByte (l : SourceLine source) (span : Span) (i : Nat) : Prop :=
  i < byteLength l.printed ∧ span.start ≤ byteLength l.before + i ∧
  byteLength l.before + i < span.stop

/-- Up to the end of the span each printed character takes one byte. -/
def Narrow (l : SourceLine source) (span : Span) : Prop :=
  ∀ i c, l.printed[i]? = some c → l.offset i < max span.start span.stop → c.utf8Size = 1

/-- The span does not end inside a printed character. -/
def EndsBetween (l : SourceLine source) (span : Span) : Prop :=
  ∀ i, i < l.printed.length → ¬ (l.offset i < span.stop ∧ span.stop < l.offset (i + 1))

/-- The line ends in carriage returns that are not printed. -/
theorem chars_eq (l : SourceLine source) :
    ∃ returns, l.chars = l.printed ++ returns ∧ ∀ c ∈ returns, c = '\r' := by
  refine ⟨(l.chars.reverse.takeWhile (· == '\r')).reverse, ?_, fun c mem => ?_⟩
  · rw [printed, Text.dropRight, ← List.reverse_append, List.takeWhile_append_dropWhile,
      List.reverse_reverse]
  · exact eq_of_beq (List.mem_takeWhile_imp (p := (· == '\r')) (List.mem_reverse.mp mem))

variable (l : SourceLine source)

theorem offset_succ {i : Nat} {c : Char} (there : l.chars[i]? = some c) :
    l.offset (i + 1) = l.offset i + c.utf8Size := by
  obtain ⟨inside, rfl⟩ := List.getElem?_eq_some_iff.mp there
  rw [offset, offset, List.take_succ_eq_append_getElem inside, byteLength_append,
    byteLength_cons, byteLength_nil]
  omega

/-- Each character takes a byte at least. -/
theorem offset_grows {i j : Nat} (le : i ≤ j) (inside : j ≤ l.chars.length) :
    l.offset i + (j - i) ≤ l.offset j := by
  obtain ⟨n, rfl⟩ := Nat.exists_eq_add_of_le le
  induction n with
  | zero => simp
  | succ n ih =>
    have next := l.offset_succ (List.getElem?_eq_getElem (i := i + n) (by omega))
    have width := l.chars[i + n].utf8Size_pos
    have before := ih (by omega) (by omega)
    rw [← Nat.add_assoc]
    omega

theorem offset_zero : l.offset 0 = byteLength l.before := by
  rw [offset, List.take_zero, byteLength_nil, Nat.add_zero]

theorem le_offset {i : Nat} (inside : i ≤ l.chars.length) :
    byteLength l.before + i ≤ l.offset i := by
  have grows := l.offset_grows (Nat.zero_le i) inside
  rwa [l.offset_zero] at grows

theorem offset_of_append {x y : List Char} (split : l.chars = x ++ y) :
    l.offset x.length = byteLength l.before + byteLength x ∧ x.length ≤ l.chars.length := by
  constructor
  · rw [offset, split, List.take_left]
  · rw [split, List.length_append]
    omega

theorem offset_printed :
    l.offset l.printed.length = byteLength l.before + byteLength l.printed ∧
      l.printed.length ≤ l.chars.length := by
  obtain ⟨returns, split, -⟩ := l.chars_eq
  exact l.offset_of_append split

/-- As far as characters take one byte each, offsets count characters. -/
theorem Narrow.offset_eq {span : Span} (narrow : l.Narrow span) {i : Nat}
    (inside : i ≤ l.chars.length)
    (before : byteLength l.before + i ≤ max span.start span.stop) :
    l.offset i = byteLength l.before + i := by
  induction i with
  | zero => exact l.offset_zero
  | succ i ih =>
    have here := ih (by omega) (by omega)
    obtain ⟨returns, split, only⟩ := l.chars_eq
    obtain ⟨c, there⟩ : ∃ c, l.chars[i]? = some c :=
      ⟨_, List.getElem?_eq_getElem (by omega)⟩
    have single : c.utf8Size = 1 := by
      by_cases printed : i < l.printed.length
      · refine narrow i c ?_ (by omega)
        rw [← there, split, List.getElem?_append_left printed]
      · rw [split, List.getElem?_append_right (by omega)] at there
        rw [only c (List.mem_of_getElem? there)]
        rfl
    rw [l.offset_succ there, here, single, Nat.add_assoc]

/-- On a narrow line characters and bytes in the span are the same places. -/
theorem Narrow.covers_iff {span : Span} (narrow : l.Narrow span) (i : Nat) :
    l.Covers span i ↔ l.CoversByte span i := by
  obtain ⟨whole, inside⟩ := l.offset_printed
  constructor
  · rintro ⟨printed, from_start, to_stop⟩
    have first := l.le_offset (i := i) (by omega)
    have rest := l.offset_grows (Nat.le_of_lt printed) inside
    have here := narrow.offset_eq l (i := i) (by omega) (by omega)
    exact ⟨by omega, by omega, by omega⟩
  · rintro ⟨printed, from_start, to_stop⟩
    have short : i < l.printed.length := by
      -- Otherwise each printed character takes one byte, and there is no `i`th byte.
      by_contra past
      have last := narrow.offset_eq l inside (by omega)
      omega
    have here := narrow.offset_eq l (i := i) (by omega) (by omega)
    exact ⟨short, by omega, by omega⟩

theorem Narrow.marked_iff {span : Span} (narrow : l.Narrow span) {x y : List Char}
    (split : l.chars = x ++ y) (begins : span.start = byteLength l.before + byteLength x) (i : Nat) :
    Marked (l.CoversByte span) (byteLength x) i ↔ Marked (l.Covers span) x.length i := by
  obtain ⟨here, inside⟩ := l.offset_of_append split
  have first := l.le_offset inside
  have column := narrow.offset_eq l inside (by omega)
  rw [show byteLength x = x.length by omega]
  simp only [Marked, narrow.covers_iff]

/-- Carets for the bytes in the span are the ones that are written. -/
theorem marked_byte_iff {span : Span} {start : Nat}
    (begins : span.start = byteLength l.before + start) (i : Nat) :
    Marked (l.CoversByte span) start i ↔
      start ≤ i ∧ i < start + Diagnostic.caretCount span (start + 1) (byteLength l.printed) := by
  rw [Diagnostic.caretCount, Span.length]
  by_cases some : l.CoversByte span start
  · rw [marked_of_some some]
    simp only [CoversByte] at some ⊢
    omega
  · have none : ∀ j, ¬ l.CoversByte span j := by
      rintro j ⟨room, from_start, to_stop⟩
      exact some ⟨by omega, by omega, by omega⟩
    rw [marked_of_none none]
    simp only [CoversByte] at some
    omega

/-- A span has a mark at its start, whatever it covers. -/
theorem marked_start {span : Span} {i : Nat} (inside : i ≤ l.chars.length)
    (begins : span.start = l.offset i) : Marked (l.Covers span) i i := by
  by_cases some : l.Covers span i
  · exact .inl some
  · refine .inr ⟨rfl, fun j covered => some ?_⟩
    obtain ⟨printed, from_start, to_stop⟩ := covered
    have whole := l.offset_printed.2
    have le : i ≤ j := by
      by_contra before
      have := l.offset_grows (by omega : j ≤ i) inside
      omega
    have := l.offset_grows le (by omega)
    exact ⟨by omega, by omega, by omega⟩

/-- It is enough to know the offset of one character, the first at or after the end of the span. -/
theorem narrow_of_even {span : Span} {k : Nat} (inside : k ≤ l.chars.length)
    (even : l.offset k = byteLength l.before + k)
    (far : l.printed.length ≤ k ∨ max span.start span.stop ≤ l.offset k) : l.Narrow span := by
  intro i c there before
  have printed := (List.getElem?_eq_some_iff.mp there).1
  have whole := l.offset_printed.2
  have soon : i < k := by
    by_contra past
    have := l.offset_grows (by omega : k ≤ i) (by omega)
    omega
  obtain ⟨returns, split, -⟩ := l.chars_eq
  have next := l.offset_succ (i := i) (c := c) (by
    rw [split, List.getElem?_append_left printed, there])
  have first := l.le_offset (i := i) (by omega)
  have rest := l.offset_grows (by omega : i + 1 ≤ k) inside
  have width := c.utf8Size_pos
  omega

/-- If the span covers a character, the one to look at is right after the last caret. -/
theorem narrow_of_covers {span : Span} {start : Nat} (some : l.Covers span start)
    (begins : l.offset start = span.start) (column : span.start = byteLength l.before + start)
    (ends : l.EndsBetween span) (same : ∀ i, l.CoversByte span i ↔ l.Covers span i) :
    l.Narrow span := by
  obtain ⟨last, whole⟩ := l.offset_printed
  obtain ⟨room, -, long⟩ := (same start).mpr some
  obtain ⟨k, stop⟩ : ∃ k, k = min (span.stop - byteLength l.before) (byteLength l.printed) :=
    ⟨_, rfl⟩
  obtain ⟨printed, -, to_stop⟩ : l.Covers span (k - 1) := by
    rw [← same]
    exact ⟨by omega, by omega, by omega⟩
  have outside : ¬ l.Covers span k := by
    rw [← same, CoversByte]
    omega
  have edge := ends (k - 1) printed
  rw [Nat.sub_add_cancel (by omega)] at edge
  have far : l.printed.length ≤ k ∨ span.stop ≤ l.offset k := by
    by_contra near
    have grows := l.offset_grows (by omega : start ≤ k) (by omega)
    exact outside ⟨by omega, by omega, by omega⟩
  have even : l.offset k = byteLength l.before + k := by
    have first := l.le_offset (i := k) (by omega)
    have rest := l.offset_grows (by omega : k ≤ l.printed.length) whole
    obtain full | early := Nat.eq_or_lt_of_le (by omega : k ≤ l.printed.length)
    · rw [← full] at last
      omega
    · omega
  exact l.narrow_of_even (by omega) even (by omega)

/-- Where marks for bytes and for characters agree, the characters take one byte each. -/
theorem narrow_of_marked {span : Span} {x y : List Char} (split : l.chars = x ++ y)
    (begins : span.start = byteLength l.before + byteLength x) (ends : l.EndsBetween span)
    (same : ∀ i, Marked (l.CoversByte span) (byteLength x) i ↔ Marked (l.Covers span) x.length i) :
    l.Narrow span := by
  obtain ⟨here, inside⟩ := l.offset_of_append split
  have column : byteLength x = x.length := by
    have first := l.le_offset inside
    obtain ⟨-, from_start, -⟩ | ⟨at_start, -⟩ :=
      (same x.length).mpr (l.marked_start inside (by omega))
    all_goals omega
  by_cases some : l.Covers span x.length
  · have bytes : l.CoversByte span x.length := by
      obtain ⟨printed, -, to_stop⟩ := some
      obtain ⟨last, whole⟩ := l.offset_printed
      have rest := l.offset_grows (Nat.le_of_lt printed) whole
      exact ⟨by omega, by omega, by omega⟩
    refine l.narrow_of_covers some (by omega) (by omega) ends fun i => ?_
    rw [← marked_of_some bytes (byteLength x), ← marked_of_some some x.length, same]
  · refine l.narrow_of_even inside (by omega) ?_
    simp only [Covers] at some
    omega

end SourceLine

/-- What stands after the carets. -/
def Label.remark (label : Label) : String := if label.text.isEmpty then "" else " " ++ label.text

/-- The carets of a line of characters are the marks that it should have. -/
def CaretsAt (cs : List Char) (covered : Nat → Prop) (start : Nat) : Prop :=
  ∀ i, cs[i]? = some '^' ↔ Marked covered start i

namespace Diagnostic

/-- The blanks below the number of a line. -/
def margin (number : Nat) : String := Text.blanks (toString number).length

@[simp] theorem Style.paint_false (style : Style) (text : String) : style.paint false text = text :=
  rfl

/-- The characters below a line of source. -/
def marks (start n : Nat) : List Char := List.replicate start ' ' ++ List.replicate n '^'

theorem caret_iff (start n i : Nat) :
    (marks start n)[i]? = some '^' ↔ start ≤ i ∧ i < start + n := by
  by_cases before : i < start
  · rw [marks, List.getElem?_append_left (by simpa using before)]
    simp only [List.getElem?_replicate, if_pos before, Option.some.injEq, Char.reduceEq, false_iff]
    omega
  · rw [marks, List.getElem?_append_right (by simpa using before)]
    simp [List.getElem?_replicate]
    omega

theorem excerpt_eq {label : Label} {source : String} (l : SourceLine source) {x y : List Char}
    (split : l.chars = x ++ y) (begins : label.span.start = byteLength (l.before ++ x)) :
    excerpt false label source =
      s!"  --> {l.number}:{byteLength x + 1}\n{margin l.number} |\n" ++
      s!"{l.number} | {String.ofList l.printed}\n{margin l.number} | " ++
      String.ofList (marks (byteLength x)
        (caretCount label.span (byteLength x + 1) (byteLength l.printed))) ++
      s!"{label.remark}\n{margin l.number} |\n" := by
  simp only [excerpt, begins, l.position_eq split, l.line_eq, ← byteLength_toList,
    String.toList_ofList, Style.paint_false, margin]
  generalize toString l.number = number, toString (byteLength x + 1) = column
  apply String.toList_injective
  simp [toString, marks, Text.blanks, Label.remark]

theorem exists_render_eq {d : Diagnostic} {label : Label} {source : String}
    (labelled : d.label = some label) (sourced : d.source = some source) :
    ∃ later, d.render false = s!"error: {d.message}\n" ++ excerpt false label source ++ later := by
  rw [render, labelled, sourced]
  simp only [String.append_assoc]
  exact ⟨_, rfl⟩

/-- The carets below a line stand at the bytes of the span, and so at its characters if those up to
its end take one byte each, and only then unless the span ends inside a character. -/
theorem carets_iff {d : Diagnostic} {label : Label} {source : String} (l : SourceLine source)
    {x y : List Char} (labelled : d.label = some label) (sourced : d.source = some source)
    (split : l.chars = x ++ y) (begins : label.span.start = byteLength (l.before ++ x)) :
    ∃ (cs : List Char) (later : String),
      d.render false =
        s!"error: {d.message}\n  --> {l.number}:{byteLength x + 1}\n{margin l.number} |\n" ++
        s!"{l.number} | {String.ofList l.printed}\n" ++
        s!"{margin l.number} | {String.ofList cs}{label.remark}\n{margin l.number} |\n" ++
        later ∧
      (∀ c ∈ cs, c = ' ' ∨ c = '^') ∧
      CaretsAt cs (l.CoversByte label.span) (byteLength x) ∧
      (l.Narrow label.span → CaretsAt cs (l.Covers label.span) x.length) ∧
      (l.EndsBetween label.span → CaretsAt cs (l.Covers label.span) x.length →
        l.Narrow label.span) := by
  let n := caretCount label.span (byteLength x + 1) (byteLength l.printed)
  have from_line : label.span.start = byteLength l.before + byteLength x := by
    rw [begins, byteLength_append]
  have bytes : CaretsAt (marks (byteLength x) n) (l.CoversByte label.span) (byteLength x) :=
    fun i => (caret_iff (byteLength x) n i).trans (l.marked_byte_iff from_line i).symm
  obtain ⟨later, text⟩ := exists_render_eq labelled sourced
  refine ⟨marks (byteLength x) n, later, ?text, ?drawn, bytes, ?narrow, ?only⟩
  case text =>
    rw [text, excerpt_eq l split begins]
    apply String.toList_injective
    simp [toString, n]
  case drawn =>
    intro c mem
    obtain mem | mem := List.mem_append.mp mem
    · exact .inl (List.eq_of_mem_replicate mem)
    · exact .inr (List.eq_of_mem_replicate mem)
  case narrow =>
    intro narrow i
    rw [bytes i, narrow.marked_iff l split from_line]
  case only =>
    intro ends carets
    exact l.narrow_of_marked split from_line ends fun i => by rw [← bytes i, carets i]

/-- A span that goes on after its line, the second one, which ends in a carriage return. -/
theorem carets_iff_clipped :
    ∃ (l : SourceLine "é;\r\nf(a,\r\n b)") (d : Diagnostic),
      d.label = some ⟨⟨6, 14⟩, "here"⟩ ∧ d.source = some "é;\r\nf(a,\r\n b)" ∧
      d.render false = "error: m\n  --> 2:2\n  |\n2 | f(a,\n  |  ^^^ here\n  |\n" ∧
      l.Narrow ⟨6, 14⟩ ∧ CaretsAt " ^^^".toList (l.Covers ⟨6, 14⟩) 1 := by
  let l : SourceLine "é;\r\nf(a,\r\n b)" :=
    ⟨['é', ';', '\r', '\n'], ['f', '(', 'a', ',', '\r'], ['\n', ' ', 'b', ')'],
      by decide, .inr ⟨['é', ';', '\r'], rfl⟩, by decide, .inr ⟨_, rfl⟩⟩
  let d : Diagnostic :=
    ⟨"m", some ⟨⟨6, 14⟩, "here"⟩, [], none, [], some "é;\r\nf(a,\r\n b)"⟩
  have shown : d.render false =
      "error: m\n  --> 2:2\n  |\n2 | f(a,\n  |  ^^^ here\n  |\n" := by decide +kernel
  have narrow : l.Narrow ⟨6, 14⟩ := by
    intro i c there _
    have ascii : l.printed.all (·.utf8Size == 1) := by decide
    exact eq_of_beq (List.all_eq_true.mp ascii c (List.mem_of_getElem? there))
  obtain ⟨cs, later, text, drawn, -, right, -⟩ :=
    carets_iff (d := d) l (x := ['f']) (y := ['(', 'a', ',', '\r']) rfl rfl rfl (by decide)
  rw [shown, show l.number = 2 by decide, show l.printed = ['f', '(', 'a', ','] by decide,
    show byteLength ['f'] = 1 by decide, show margin 2 = " " by decide] at text
  have text := congrArg String.toList text
  simp [toString, d, Label.remark, show Nat.toDigits 10 2 = ['2'] by decide] at text
  have same := congrArg (List.takeWhile fun c => c = ' ' ∨ c = '^') text
  rw [List.takeWhile_append_of_pos fun c mem => decide_eq_true (drawn c mem)] at same
  have same : [' ', '^', '^', '^'] ++ [' '] = cs ++ [' '] := by simpa using same
  obtain rfl := List.append_cancel_right same
  exact ⟨l, d, rfl, rfl, shown, narrow, right narrow⟩

/-- A caret that is not below the one character in the span, as the line has a wider one before. -/
theorem exists_misplaced :
    ∃ (l : SourceLine "é #") (d : Diagnostic), l.chars = ['é', ' '] ++ ['#'] ∧
      byteLength (l.before ++ ['é', ' ']) = 3 ∧
      d.label = some ⟨⟨3, 4⟩, ""⟩ ∧ d.source = some "é #" ∧
      d.render false = "error: m\n  --> 1:4\n  |\n1 | é #\n  |    ^\n  |\n" ∧
      ¬ CaretsAt "   ^".toList (l.Covers ⟨3, 4⟩) 2 := by
  let l : SourceLine "é #" := ⟨[], ['é', ' ', '#'], [], by decide, .inl rfl, by decide, .inl rfl⟩
  refine ⟨l, ⟨"m", some ⟨⟨3, 4⟩, ""⟩, [], none, [], some "é #"⟩, rfl, by decide, rfl, rfl,
    by decide +kernel, fun carets => ?_⟩
  have covered : l.Covers ⟨3, 4⟩ 2 := ⟨by decide, by decide, by decide⟩
  exact absurd ((carets 2).mpr (.inl covered)) (by decide)

end Diagnostic
end TaggedScript
