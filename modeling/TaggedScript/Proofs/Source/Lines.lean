import TaggedScript.Source.LineMap

/-!
The lines of a source and what a line map says of a place in one: its number, its column and its
text.
-/
namespace TaggedScript

/-- A line of a source, with what stands before and after it. Newlines are no part of a line. -/
structure SourceLine (source : String) where
  before : List Char
  chars : List Char
  after : List Char
  whole : source.toList = before ++ (chars ++ after)
  starts : before = [] ∨ ∃ passed, before = passed ++ ['\n']
  single : '\n' ∉ chars
  stops : after = [] ∨ ∃ later, after = '\n' :: later

theorem byteLength_nil : byteLength [] = 0 := rfl

theorem byteLength_cons (c : Char) (cs : List Char) :
    byteLength (c :: cs) = c.utf8Size + byteLength cs := rfl

@[simp] theorem byteLength_append (cs ds : List Char) :
    byteLength (cs ++ ds) = byteLength cs + byteLength ds := by
  induction cs with
  | nil => rw [byteLength_nil, List.nil_append, Nat.zero_add]
  | cons c cs ih => rw [List.cons_append, byteLength_cons, byteLength_cons, ih, Nat.add_assoc]

theorem byteLength_toList (text : String) : byteLength text.toList = text.utf8ByteSize := by
  rw [← text.ofList_toList, String.toList_ofList]
  generalize text.toList = cs
  induction cs with
  | nil => rfl
  | cons c cs ih =>
    rw [← List.singleton_append, String.ofList_append, String.utf8ByteSize_append, ← ih,
      byteLength_append, show String.ofList [c] = String.singleton c from rfl,
      String.utf8ByteSize_singleton]
    rfl

theorem byteLength_pos {cs : List Char} (some : cs ≠ []) : 0 < byteLength cs := by
  obtain ⟨c, cs, rfl⟩ := List.exists_cons_of_ne_nil some
  have width := c.utf8Size_pos
  rw [byteLength_cons]
  omega

namespace LineMap

/-! ## Where lines begin -/

theorem startsAfter_append (offset : Nat) (cs ds : List Char) :
    startsAfter offset (cs ++ ds) =
      startsAfter offset cs ++ startsAfter (offset + byteLength cs) ds := by
  induction cs generalizing offset with
  | nil => rfl
  | cons c cs ih =>
    simp only [List.cons_append, startsAfter, ih, byteLength_cons, Nat.add_assoc]
    split <;> rfl

theorem startsAfter_eq_nil {cs : List Char} (single : '\n' ∉ cs) (offset : Nat) :
    startsAfter offset cs = [] := by
  induction cs generalizing offset with
  | nil => rfl
  | cons c cs ih =>
    rw [List.mem_cons, not_or] at single
    simp only [startsAfter, if_neg (Ne.symm single.1), ih single.2]

theorem length_startsAfter (offset : Nat) (cs : List Char) :
    (startsAfter offset cs).length = cs.count '\n' := by
  induction cs generalizing offset with
  | nil => rfl
  | cons c cs ih =>
    by_cases newline : c = '\n'
    · simp [startsAfter, newline, ih]
    · simp [startsAfter, newline, ih]

theorem bounds_of_mem_startsAfter {offset s : Nat} {cs : List Char}
    (mem : s ∈ startsAfter offset cs) : offset < s ∧ s ≤ offset + byteLength cs := by
  induction cs generalizing offset with
  | nil => cases mem
  | cons c cs ih =>
    have width := c.utf8Size_pos
    have here := byteLength_cons c cs
    have later (mem : s ∈ startsAfter (offset + c.utf8Size) cs) := ih mem
    simp only [startsAfter] at mem
    split at mem
    · obtain rfl | mem := List.mem_cons.mp mem
      · omega
      · have := later mem
        omega
    · have := later mem
      omega

/-! ## The text of lines -/

theorem split_eq (cs : List Char) : split cs = cs.splitOnP (· == '\n') := by
  induction cs with
  | nil => simp [split]
  | cons c cs ih =>
    obtain ⟨first, rest, eq⟩ := List.exists_cons_of_ne_nil (List.splitOnP_ne_nil (· == '\n') cs)
    rw [List.splitOnP_cons_eq_if_modifyHead, split, ih, eq]
    simp

theorem length_split (cs : List Char) : (split cs).length = cs.count '\n' + 1 := by
  rw [split_eq]
  induction cs with
  | nil => simp
  | cons c cs ih =>
    rw [List.splitOnP_cons_eq_if_modifyHead, List.count_cons]
    split <;> simp [ih]

theorem split_append (cs ds : List Char) : split (cs ++ '\n' :: ds) = split cs ++ split ds := by
  simp [split_eq, List.splitOnP_append_cons]

/-- A text without newlines is one line. -/
theorem split_single {cs : List Char} (single : '\n' ∉ cs) : split cs = [cs] := by
  rw [split_eq, List.splitOnP_eq_singleton]
  intro c mem
  exact beq_eq_false_iff_ne.mpr fun newline => single (newline ▸ mem)

end LineMap

namespace SourceLine
variable {source : String}

/-- Lines count from one. -/
def number (l : SourceLine source) : Nat := l.before.count '\n' + 1

/-- The characters of a line that are printed: those before its carriage returns. -/
def printed (l : SourceLine source) : List Char := Text.dropRight (· == '\r') l.chars

theorem split_whole (l : SourceLine source) :
    ∃ rest, LineMap.split (l.chars ++ l.after) = l.chars :: rest := by
  obtain none | ⟨later, newline⟩ := l.stops
  · exact ⟨[], by rw [none, List.append_nil, LineMap.split_single l.single]⟩
  · exact ⟨_, by rw [newline, LineMap.split_append, LineMap.split_single l.single]; rfl⟩

theorem line_eq (l : SourceLine source) :
    LineMap.line source l.number = String.ofList l.printed := by
  obtain ⟨rest, here⟩ := l.split_whole
  have found : (LineMap.split source.toList).getD (l.before.count '\n') [] = l.chars := by
    rw [l.whole]
    obtain none | ⟨passed, newline⟩ := l.starts
    · simp [none, here]
    · have count : l.before.count '\n' = (LineMap.split passed).length := by
        rw [newline, LineMap.length_split, List.count_append]
        rfl
      rw [count, newline, List.append_assoc, List.singleton_append, LineMap.split_append, here]
      simp
  rw [number, LineMap.line, found, printed]

/-- Where the line begins. -/
theorem last_start (l : SourceLine source) :
    (0 :: LineMap.startsAfter 0 l.before).getLastD 0 = byteLength l.before := by
  obtain none | ⟨passed, newline⟩ := l.starts
  · rw [none]
    rfl
  · rw [newline, LineMap.startsAfter_append, ← List.cons_append, byteLength_append]
    simp [LineMap.startsAfter, byteLength_cons, byteLength_nil, List.getLast?_cons]

theorem position_eq (l : SourceLine source) {x y : List Char} (inside : l.chars = x ++ y) :
    LineMap.position source (byteLength (l.before ++ x)) = ⟨l.number, byteLength x + 1⟩ := by
  have begun : (LineMap.starts source).filter (· ≤ byteLength (l.before ++ x)) =
      0 :: LineMap.startsAfter 0 l.before := by
    have first : (LineMap.startsAfter 0 l.before).filter (· ≤ byteLength (l.before ++ x)) =
        LineMap.startsAfter 0 l.before := by
      refine List.filter_eq_self.mpr fun s mem => decide_eq_true ?_
      have bounds := LineMap.bounds_of_mem_startsAfter mem
      rw [byteLength_append]
      omega
    have later : (LineMap.startsAfter (0 + byteLength l.before + byteLength l.chars) l.after).filter
        (· ≤ byteLength (l.before ++ x)) = [] := by
      refine List.filter_eq_nil_iff.mpr fun s mem => ?_
      have bounds := LineMap.bounds_of_mem_startsAfter mem
      rw [inside, byteLength_append] at bounds
      rw [decide_eq_true_eq, byteLength_append]
      omega
    rw [LineMap.starts, l.whole, List.filter_cons, if_pos (by simp),
      LineMap.startsAfter_append, LineMap.startsAfter_append,
      LineMap.startsAfter_eq_nil l.single, List.nil_append, List.filter_append, first, later,
      List.append_nil]
  rw [LineMap.position, begun, l.last_start, List.length_cons, LineMap.length_startsAfter,
    byteLength_append, Nat.add_sub_cancel_left]
  rfl

end SourceLine
end TaggedScript
