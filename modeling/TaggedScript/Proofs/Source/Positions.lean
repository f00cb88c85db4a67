import Mathlib.Algebra.GroupWithZero.Nat
import Mathlib.Data.List.DropRight
import Mathlib.Data.List.GetD
import Mathlib.Data.String.Basic
import Mathlib.Tactic.ByContra
import TaggedScript.Proofs.Source.Lines

/-!
Positions in a source, told from its bytes, and its lines, told from its pieces between newlines. A
position names one offset and no other, also past the end and inside a character.
-/
namespace TaggedScript

/-- An editor meets that position first. -/
def Position.Before (p q : Position) : Prop :=
  p.line < q.line ∨ p.line = q.line ∧ p.column < q.column

namespace LineMap

/-- The byte that ends a line. -/
def newline : UInt8 := 10

/-- The bytes of a text. -/
def bytes (source : String) : List UInt8 := source.toUTF8.data.toList

/-- Where what follows the last newline of some bytes begins, which is at zero if there is none. -/
def afterNewlines (bs : List UInt8) : Nat := bs.length - (bs.rtakeWhile (· != newline)).length

/-- The pieces of a text between its newlines. -/
def pieces (source : String) : List (List Char) := source.toList.splitOn '\n'

/-- The number of bytes before a line: those of the lines before it, each with its newline. -/
def offsetOf (source : String) (number : Nat) : Nat :=
  (((pieces source).take (number - 1)).map (byteLength · + 1)).sum

/-- The entry of that number, counted from one. -/
def nth? {α : Type} (xs : List α) : Nat → Option α
  | 0 => none
  | n + 1 => xs[n]?

/-- The text from one offset to another without the newlines and carriage returns at its end. -/
def trimmed (source : String) (start stop : Nat) : String :=
  String.ofList <|
    (String.Pos.Raw.extract source ⟨start⟩ ⟨stop⟩).toList.rdropWhile fun c => c == '\n' || c == '\r'

/-- The offsets right after the newlines of bytes that themselves begin at `offset`. -/
def newlineEnds (offset : Nat) : List UInt8 → List Nat
  | [] => []
  | b :: bs =>
    if b = newline then (offset + 1) :: newlineEnds (offset + 1) bs else newlineEnds (offset + 1) bs

/-- How many entries come before the first that is above `o`. That number is between `low` and
`high`, and the range is halved until there is one left. -/
def bisect (xs : List Nat) (o low high : Nat) : Nat :=
  if low < high then
    let middle := (low + high) / 2
    if xs.getD middle 0 ≤ o then bisect xs o (middle + 1) high else bisect xs o low middle
  else low
termination_by high - low

/-- The number of the line of an offset, from a search among the starts of lines. -/
def lineOf (source : String) (o : Nat) : Nat :=
  max (bisect (starts source) o 0 (starts source).length) 1

/-! ## Newlines among bytes -/

theorem utf8EncodeChar_newline : String.utf8EncodeChar '\n' = [newline] := by decide

/-- No other character has a byte that is a newline. -/
theorem newline_notMem {c : Char} (other : c ≠ '\n') : newline ∉ String.utf8EncodeChar c := by
  have byte (n : Nat) : newline = UInt8.ofNat n ↔ n % 256 = 10 := by
    rw [← UInt8.toNat_inj, UInt8.toNat_ofNat']
    exact eq_comm
  have value : c.val.toNat ≠ 10 := fun same => other (Char.toNat_inj.mp same)
  simp only [String.utf8EncodeChar]
  split
  · simp only [List.mem_cons, byte, List.not_mem_nil, or_false]
    omega
  split
  · simp only [List.mem_cons, byte, List.not_mem_nil, or_false]
    omega
  split
  · simp only [List.mem_cons, byte, List.not_mem_nil, or_false]
    omega
  · simp only [List.mem_cons, byte, List.not_mem_nil, or_false]
    omega

theorem bytes_eq (source : String) :
    bytes source = source.toList.flatMap String.utf8EncodeChar := by
  rw [bytes, String.toUTF8, ← String.utf8Encode_toList, List.utf8Encode]
  simp

theorem newlineEnds_append (offset : Nat) (bs bs' : List UInt8) :
    newlineEnds offset (bs ++ bs') =
      newlineEnds offset bs ++ newlineEnds (offset + bs.length) bs' := by
  induction bs generalizing offset with
  | nil => rfl
  | cons b bs ih =>
    have later : offset + 1 + bs.length = offset + (b :: bs).length := by
      rw [List.length_cons]
      omega
    simp only [List.cons_append, newlineEnds, ih, later]
    split <;> rfl

theorem newlineEnds_eq_nil {bs : List UInt8} (single : newline ∉ bs) (offset : Nat) :
    newlineEnds offset bs = [] := by
  induction bs generalizing offset with
  | nil => rfl
  | cons b bs ih =>
    rw [List.mem_cons, not_or] at single
    rw [newlineEnds, if_neg (Ne.symm single.1), ih single.2]

theorem length_newlineEnds (offset : Nat) (bs : List UInt8) :
    (newlineEnds offset bs).length = bs.count newline := by
  induction bs generalizing offset with
  | nil => rfl
  | cons b bs ih =>
    by_cases ends : b = newline
    · rw [newlineEnds, if_pos ends, List.length_cons, ih, ends, List.count_cons_self]
    · rw [newlineEnds, if_neg ends, ih, List.count_cons_of_ne ends]

theorem lt_of_mem_newlineEnds {offset s : Nat} {bs : List UInt8} (mem : s ∈ newlineEnds offset bs) :
    offset < s := by
  induction bs generalizing offset with
  | nil => cases mem
  | cons b bs ih =>
    have later (mem : s ∈ newlineEnds (offset + 1) bs) : offset < s := Nat.lt_of_succ_lt (ih mem)
    rw [newlineEnds] at mem
    split at mem
    · obtain rfl | mem := List.mem_cons.mp mem
      · exact Nat.lt_succ_self offset
      · exact later mem
    · exact later mem

/-- The newlines that end at or before an offset are those of the bytes before it. -/
theorem filter_newlineEnds (offset n : Nat) (bs : List UInt8) :
    (newlineEnds offset bs).filter (· ≤ offset + n) = newlineEnds offset (bs.take n) := by
  induction bs generalizing offset n with
  | nil => rw [List.take_nil, newlineEnds, List.filter_nil]
  | cons b bs ih =>
    cases n with
    | zero =>
      rw [List.take_zero, newlineEnds]
      refine List.filter_eq_nil_iff.mpr fun s mem => ?_
      simpa using lt_of_mem_newlineEnds mem
    | succ n =>
      have here : offset + (n + 1) = offset + 1 + n := by omega
      rw [List.take_succ_cons, newlineEnds, newlineEnds, ← ih, here]
      split
      · rw [List.filter_cons_of_pos (by simp)]
      · rfl

/-- Lines begin after newlines, and at zero. -/
theorem starts_eq (source : String) : starts source = 0 :: newlineEnds 0 (bytes source) := by
  have each (offset : Nat) (cs : List Char) :
      startsAfter offset cs = newlineEnds offset (cs.flatMap String.utf8EncodeChar) := by
    induction cs generalizing offset with
    | nil => rfl
    | cons c cs ih =>
      rw [List.flatMap_cons, newlineEnds_append, String.length_utf8EncodeChar, startsAfter, ← ih]
      by_cases ends : c = '\n'
      · rw [if_pos ends, ends, utf8EncodeChar_newline]
        rfl
      · rw [if_neg ends, newlineEnds_eq_nil (newline_notMem ends), List.nil_append]
  rw [starts, each, bytes_eq]

theorem getLast?_newlineEnds (bs : List UInt8) :
    (0 :: newlineEnds 0 bs).getLast? = some (afterNewlines bs) := by
  induction bs using List.reverseRecOn with
  | nil => rfl
  | append_singleton bs b ih =>
    rw [newlineEnds_append, afterNewlines, List.length_append]
    by_cases ends : b = newline
    · rw [List.rtakeWhile_concat_neg (· != newline) bs b (by simp [ends])]
      simp [newlineEnds, ends, List.getLast?_cons]
    · rw [List.rtakeWhile_concat_pos (· != newline) bs b (by simp [ends]), List.length_append]
      simp [newlineEnds, ends, ih, afterNewlines]

/-! ## Positions -/

theorem afterNewlines_le (bs : List UInt8) : afterNewlines bs ≤ bs.length := Nat.sub_le _ _

/-- The lines that begin at or before an offset. -/
theorem filter_starts (source : String) (o : Nat) :
    (starts source).filter (· ≤ o) = 0 :: newlineEnds 0 ((bytes source).take o) := by
  have later := filter_newlineEnds 0 o (bytes source)
  rw [Nat.zero_add] at later
  rw [starts_eq, List.filter_cons_of_pos (by simp), later]

theorem position_eq_count (source : String) (o : Nat) :
    position source o =
      ⟨1 + ((bytes source).take o).count newline,
        1 + (o - afterNewlines ((bytes source).take o))⟩ := by
  rw [position, filter_starts, List.length_cons, length_newlineEnds, List.getLastD_eq_getLast?,
    getLast?_newlineEnds, Option.getD_some, Nat.add_comm 1, Nat.add_comm 1]

/-- Where the line of an offset begins, as the line map has it. -/
theorem getElem?_starts (source : String) (o : Nat) :
    (starts source)[((bytes source).take o).count newline]? =
      some (afterNewlines ((bytes source).take o)) := by
  have whole : starts source = 0 :: newlineEnds 0 ((bytes source).take o) ++
      newlineEnds (0 + ((bytes source).take o).length) ((bytes source).drop o) := by
    rw [List.cons_append, ← newlineEnds_append, List.take_append_drop, starts_eq]
  have last := getLast?_newlineEnds ((bytes source).take o)
  rw [List.getLast?_eq_getElem?, List.length_cons, length_newlineEnds, Nat.add_sub_cancel] at last
  rw [whole, List.getElem?_append_left (by simp [length_newlineEnds]), last]

/-! ## Searching for positions -/

theorem pairwise_newlineEnds (offset : Nat) (bs : List UInt8) :
    (newlineEnds offset bs).Pairwise (· < ·) := by
  induction bs generalizing offset with
  | nil => exact .nil
  | cons b bs ih =>
    rw [newlineEnds]
    split
    · exact .cons (fun s mem => lt_of_mem_newlineEnds mem) (ih _)
    · exact ih _

theorem pairwise_starts (source : String) : (starts source).Pairwise (· < ·) := by
  rw [starts_eq]
  exact .cons (fun s mem => lt_of_mem_newlineEnds mem) (pairwise_newlineEnds 0 _)

/-- The entries of an increasing list that are not above `o` come first. -/
theorem getD_le_iff {xs : List Nat} (increasing : xs.Pairwise (· < ·)) (o : Nat) {i : Nat}
    (inside : i < xs.length) : xs.getD i 0 ≤ o ↔ i < (xs.filter (· ≤ o)).length := by
  induction xs generalizing i with
  | nil => cases inside
  | cons x xs ih =>
    obtain ⟨first, increasing⟩ := List.pairwise_cons.mp increasing
    by_cases low : x ≤ o
    · rw [List.filter_cons_of_pos (by simpa using low), List.length_cons]
      cases i with
      | zero => simpa using low
      | succ i =>
        rw [List.getD_cons_succ, ih increasing (Nat.lt_of_succ_lt_succ inside),
          Nat.succ_lt_succ_iff]
    · have none : (x :: xs).filter (· ≤ o) = [] := by
        refine List.filter_eq_nil_iff.mpr fun y mem => ?_
        obtain rfl | mem := List.mem_cons.mp mem
        · simpa using low
        · have above := first y mem
          simp
          omega
      have above : ¬ (x :: xs).getD i 0 ≤ o := by
        cases i with
        | zero => exact low
        | succ i =>
          have inside := Nat.lt_of_succ_lt_succ inside
          have above := first _ (List.getElem_mem inside)
          rw [List.getD_cons_succ, List.getD_eq_getElem _ _ inside]
          omega
      rw [none]
      exact iff_of_false above (Nat.not_lt_zero i)

/-- Halving keeps the number that is searched for in the range. -/
theorem bisect_eq {xs : List Nat} (increasing : xs.Pairwise (· < ·)) (o low high : Nat)
    (least : low ≤ (xs.filter (· ≤ o)).length) (most : (xs.filter (· ≤ o)).length ≤ high)
    (inside : high ≤ xs.length) : bisect xs o low high = (xs.filter (· ≤ o)).length := by
  fun_induction bisect xs o low high with
  | case1 low high open_ middle found ih =>
    have before := (getD_le_iff increasing o (i := middle) (by omega)).mp found
    exact ih before most inside
  | case2 low high open_ middle beyond ih =>
    have after := mt (getD_le_iff increasing o (i := middle) (by omega)).mpr beyond
    exact ih least (Nat.le_of_not_lt after) (by omega)
  | case3 low high closed => omega

theorem lineOf_eq (source : String) (o : Nat) :
    lineOf source o = 1 + ((bytes source).take o).count newline := by
  have found := bisect_eq (pairwise_starts source) o 0 _ (Nat.zero_le _)
    (List.length_filter_le _ _) (Nat.le_refl _)
  rw [lineOf, found, filter_starts, List.length_cons, length_newlineEnds]
  omega

/-- The search finds the line of an offset, and it is one of the lines. -/
theorem exists_lineOf (source : String) (o : Nat) :
    ∃ start, nth? (starts source) (lineOf source o) = some start ∧
      position source o = ⟨lineOf source o, o - start + 1⟩ := by
  refine ⟨afterNewlines ((bytes source).take o), ?_, ?_⟩
  · rw [lineOf_eq, Nat.add_comm, nth?, getElem?_starts]
  · rw [position_eq_count, lineOf_eq, Nat.add_comm 1 (o - _)]

/-! ## Offsets of lines -/

theorem pieces_eq (source : String) : pieces source = split source.toList := by
  rw [split_eq]
  rfl

theorem length_starts (source : String) : (starts source).length = (pieces source).length := by
  rw [starts, pieces_eq, List.length_cons, length_startsAfter, length_split]

theorem split_newline (cs : List Char) : split ('\n' :: cs) = [] :: split cs := by
  rw [split, if_pos rfl]

theorem exists_split_cons {c : Char} (other : c ≠ '\n') (cs : List Char) :
    ∃ first rest, split cs = first :: rest ∧ split (c :: cs) = (c :: first) :: rest := by
  have some : split cs ≠ [] := by
    rw [split_eq]
    exact List.splitOnP_ne_nil _ _
  obtain ⟨first, rest, here⟩ := List.exists_cons_of_ne_nil some
  refine ⟨first, rest, here, ?_⟩
  rw [split, if_neg other, here]

/-- Where lines begin, told from the lines before them. -/
theorem getElem?_startsAfter (offset : Nat) (cs : List Char) {k : Nat}
    (inside : k + 1 < (split cs).length) :
    (startsAfter offset cs)[k]? =
      some (offset + (((split cs).take (k + 1)).map (byteLength · + 1)).sum) := by
  induction cs generalizing offset k with
  | nil => simp [split] at inside
  | cons c cs ih =>
    by_cases ends : c = '\n'
    · subst ends
      have width : '\n'.utf8Size = 1 := by decide
      rw [split_newline, List.length_cons] at inside
      rw [split_newline, startsAfter, if_pos rfl, width]
      cases k with
      | zero => simp [byteLength_nil]
      | succ k =>
        rw [List.getElem?_cons_succ, ih (offset + 1) (by omega), List.take_succ_cons,
          List.map_cons, List.sum_cons, byteLength_nil, Nat.zero_add, Nat.add_assoc]
    · obtain ⟨first, rest, here, whole⟩ := exists_split_cons ends cs
      rw [whole, List.length_cons] at inside
      rw [startsAfter, if_neg ends, ih (offset + c.utf8Size) (by rwa [here, List.length_cons]),
        here, whole, List.take_succ_cons, List.take_succ_cons, List.map_cons, List.map_cons,
        List.sum_cons, List.sum_cons, byteLength_cons]
      congr 1
      omega

theorem offsetOf_eq (source : String) {k : Nat} (inside : k < (pieces source).length) :
    (starts source)[k]? = some (offsetOf source (k + 1)) := by
  rw [pieces_eq] at inside
  rw [starts, offsetOf, pieces_eq, Nat.add_sub_cancel]
  cases k with
  | zero => simp
  | succ k => rw [List.getElem?_cons_succ, getElem?_startsAfter 0 _ inside, Nat.zero_add]

/-- The line of an offset is where the position says. -/
theorem offsetOf_position (source : String) (o : Nat) :
    offsetOf source (position source o).line = afterNewlines ((bytes source).take o) := by
  have found := getElem?_starts source o
  have inside := (List.getElem?_eq_some_iff.mp found).1
  rw [length_starts] at inside
  rw [offsetOf_eq source inside] at found
  rw [position_eq_count, Nat.add_comm 1]
  exact Option.some.inj found

/-- The offset of a position: where its line begins, and its column on. -/
theorem offset_of_position (source : String) (o : Nat) :
    offsetOf source (position source o).line + (position source o).column - 1 = o := by
  have below := afterNewlines_le ((bytes source).take o)
  rw [List.length_take] at below
  rw [offsetOf_position, position_eq_count]
  simp only
  omega

theorem line_mono (source : String) {o o' : Nat} (le : o ≤ o') :
    (position source o).line ≤ (position source o').line := by
  have sub := List.take_sublist_take_left (l := bytes source) le
  rw [position_eq_count, position_eq_count]
  exact Nat.add_le_add_left (sub.count_le newline) 1

theorem position_before (source : String) {o o' : Nat} (lt : o < o') :
    (position source o).Before (position source o') := by
  have here := offset_of_position source o
  have there := offset_of_position source o'
  obtain earlier | same := Nat.lt_or_eq_of_le (line_mono source (Nat.le_of_lt lt))
  · exact .inl earlier
  · refine .inr ⟨same, ?_⟩
    rw [same] at here
    omega

/-- Positions are in the order of their offsets. -/
theorem position_before_iff (source : String) (o o' : Nat) :
    (position source o).Before (position source o') ↔ o < o' := by
  constructor
  · intro before
    by_contra later
    obtain after | rfl := Nat.lt_or_eq_of_le (Nat.le_of_not_lt later)
    · have back := position_before source after
      unfold Position.Before at before back
      omega
    · unfold Position.Before at before
      omega
  · exact position_before source

/-! ## Lines -/

/-- What stands before and after a piece. -/
theorem exists_around {cs : List Char} {n : Nat} {piece : List Char}
    (found : (split cs)[n]? = some piece) :
    ∃ before after, cs = before ++ (piece ++ after) ∧
      (before = [] ∨ ∃ passed, before = passed ++ ['\n']) ∧ before.count '\n' = n ∧
      '\n' ∉ piece ∧ (after = [] ∨ ∃ later, after = '\n' :: later) := by
  induction cs generalizing n piece with
  | nil =>
    cases n with
    | zero =>
      cases found
      exact ⟨[], [], rfl, .inl rfl, rfl, List.not_mem_nil, .inl rfl⟩
    | succ n => cases found
  | cons c cs ih =>
    by_cases ends : c = '\n'
    · subst ends
      rw [split_newline] at found
      cases n with
      | zero =>
        cases found
        exact ⟨[], '\n' :: cs, rfl, .inl rfl, rfl, List.not_mem_nil, .inr ⟨cs, rfl⟩⟩
      | succ n =>
        obtain ⟨before, after, rfl, starts, number, single, stops⟩ := ih found
        refine ⟨'\n' :: before, after, rfl, .inr ?_, by rw [List.count_cons_self, number], single,
          stops⟩
        obtain rfl | ⟨passed, rfl⟩ := starts
        · exact ⟨[], rfl⟩
        · exact ⟨'\n' :: passed, rfl⟩
    · obtain ⟨first, rest, here, whole⟩ := exists_split_cons ends cs
      rw [whole] at found
      cases n with
      | zero =>
        cases found
        have found : (split cs)[0]? = some first := by
          rw [here]
          rfl
        obtain ⟨before, after, rfl, starts, number, single, stops⟩ := ih found
        obtain rfl | ⟨passed, rfl⟩ := starts
        · exact ⟨[], after, rfl, .inl rfl, rfl, by simpa [Ne.symm ends] using single, stops⟩
        · simp at number
      | succ n =>
        have found : (split cs)[n + 1]? = some piece := by rwa [here]
        obtain ⟨before, after, rfl, starts, number, single, stops⟩ := ih found
        obtain rfl | ⟨passed, rfl⟩ := starts
        · cases number
        · exact ⟨c :: (passed ++ ['\n']), after, rfl, .inr ⟨c :: passed, rfl⟩,
            by rw [List.count_cons_of_ne ends, number], single, stops⟩

/-- Every piece is a line. -/
theorem exists_sourceLine {source : String} {n : Nat} {piece : List Char}
    (found : (pieces source)[n]? = some piece) :
    ∃ l : SourceLine source, l.number = n + 1 ∧ l.chars = piece := by
  rw [pieces_eq] at found
  obtain ⟨before, after, whole, starts, number, single, stops⟩ := exists_around found
  exact ⟨⟨before, piece, after, whole, starts, single, stops⟩, by rw [SourceLine.number, number],
    rfl⟩

theorem line_eq_piece (source : String) (n : Nat) :
    line source n =
      match nth? (pieces source) n with
      | some piece => String.ofList (piece.rdropWhile (· == '\r'))
      | none => "" := by
  cases n with
  | zero => rfl
  | succ n =>
    simp only [nth?]
    cases found : (pieces source)[n]? with
    | some piece =>
      obtain ⟨l, number, rfl⟩ := exists_sourceLine found
      rw [← number, l.line_eq]
      rfl
    | none =>
      rw [pieces_eq] at found
      rw [line, List.getD_eq_getElem?_getD, found]
      rfl

end LineMap

namespace SourceLine
variable {source : String}

theorem starts_split (l : SourceLine source) :
    LineMap.starts source = 0 :: LineMap.startsAfter 0 l.before ++
      LineMap.startsAfter (byteLength l.before + byteLength l.chars) l.after := by
  rw [LineMap.starts, l.whole, LineMap.startsAfter_append, LineMap.startsAfter_append,
    LineMap.startsAfter_eq_nil l.single, List.nil_append, Nat.zero_add, List.cons_append]

theorem length_earlier (l : SourceLine source) :
    (0 :: LineMap.startsAfter 0 l.before).length = l.number := by
  rw [List.length_cons, LineMap.length_startsAfter, number]

theorem getElem?_own_start (l : SourceLine source) :
    LineMap.nth? (LineMap.starts source) l.number = some (byteLength l.before) := by
  have length := l.length_earlier
  have last := l.last_start
  rw [List.getLastD_eq_getLast?, List.getLast?_eq_getElem?, length, number, Nat.add_sub_cancel,
    List.getElem?_eq_getElem (by rw [length, number]; omega), Option.getD_some] at last
  rw [number, LineMap.nth?, l.starts_split,
    List.getElem?_append_left (by rw [length, number]; omega),
    List.getElem?_eq_getElem (by rw [length, number]; omega), last]

theorem getElem?_next_start (l : SourceLine source) :
    (LineMap.starts source)[l.number]? =
      (LineMap.startsAfter (byteLength l.before + byteLength l.chars) l.after)[0]? := by
  rw [l.starts_split, ← l.length_earlier, List.getElem?_append_right (Nat.le_refl _), Nat.sub_self]

/-- What stands between the start of a line and that of the next one, or the end. -/
theorem extract_eq (l : SourceLine source) :
    (String.Pos.Raw.extract source ⟨byteLength l.before⟩
      ⟨((LineMap.starts source)[l.number]?).getD source.utf8ByteSize⟩).toList =
      l.chars ++ l.after.take 1 := by
  have length (cs : List Char) : String.utf8Len cs = byteLength cs := by
    rw [← String.utf8ByteSize_ofList, ← byteLength_toList, String.toList_ofList]
  have valid (m r : List Char) (split : l.chars ++ l.after = m ++ r) :
      (String.Pos.Raw.extract source ⟨byteLength l.before⟩
        ⟨byteLength l.before + byteLength m⟩).toList = m := by
    have text : source = String.ofList (l.before ++ m ++ r) := by
      rw [List.append_assoc, ← split, ← l.whole, String.ofList_toList]
    have taken := String.extract_of_valid l.before m r
    rw [← text, length, length] at taken
    rw [taken, String.toList_ofList]
  rw [l.getElem?_next_start]
  obtain none | ⟨later, next⟩ := l.stops
  · have size : source.utf8ByteSize = byteLength l.before + byteLength l.chars := by
      rw [← byteLength_toList, l.whole, none, List.append_nil, byteLength_append]
    rw [none, LineMap.startsAfter, List.getElem?_nil, Option.getD_none, size,
      valid l.chars [] (by rw [none]), List.take_nil, List.append_nil]
  · have stop : byteLength l.before + byteLength l.chars + 1 =
        byteLength l.before + byteLength (l.chars ++ ['\n']) := by
      rw [byteLength_append, Nat.add_assoc]
      rfl
    rw [next, LineMap.startsAfter, if_pos rfl, List.getElem?_cons_zero, Option.getD_some,
      show '\n'.utf8Size = 1 by decide, stop, valid (l.chars ++ ['\n']) later (by simp [next]),
      List.take_succ_cons, List.take_zero]

end SourceLine

namespace LineMap

theorem rdropWhile_break {cs : List Char} (single : '\n' ∉ cs) :
    cs.rdropWhile (fun c => c == '\n' || c == '\r') = cs.rdropWhile (· == '\r') := by
  induction cs using List.reverseRecOn with
  | nil => rfl
  | append_singleton cs c ih =>
    rw [List.mem_append, List.mem_singleton, not_or] at single
    have other : (c == '\n') = false := beq_eq_false_iff_ne.mpr (Ne.symm single.2)
    rw [List.rdropWhile_concat, List.rdropWhile_concat, ih single.1, other, Bool.false_or]

theorem line_eq_trimmed (source : String) (n : Nat) :
    line source n =
      match nth? (starts source) n with
      | some start => trimmed source start (((starts source)[n]?).getD source.utf8ByteSize)
      | none => "" := by
  cases n with
  | zero => rfl
  | succ n =>
    cases found : (pieces source)[n]? with
    | some piece =>
      obtain ⟨l, number, rfl⟩ := exists_sourceLine found
      rw [← number, l.line_eq, l.getElem?_own_start]
      simp only [trimmed, l.extract_eq, SourceLine.printed]
      have printed := rdropWhile_break l.single
      obtain none | ⟨later, next⟩ := l.stops
      · rw [none, List.take_nil, List.append_nil, printed]
        rfl
      · rw [next, List.take_succ_cons, List.take_zero, List.rdropWhile_concat_pos _ _ _ rfl,
          printed]
        rfl
    | none =>
      have beyond := List.getElem?_eq_none_iff.mp found
      rw [line_eq_piece]
      simp only [nth?, found]
      rw [List.getElem?_eq_none (by rwa [length_starts])]

/-- The position of an offset counts the newlines of the bytes before it and the bytes after the
last of these, which is what a search by halving finds; positions are in the order of their offsets,
and an offset can be told from its position. A line is the piece of that number between newlines
without the carriage returns at its end, and that is what the source has from where the line begins
to where the next one does. -/
theorem positions_exact (source : String) :
    (∀ o, position source o =
      ⟨1 + ((bytes source).take o).count newline,
        1 + (o - afterNewlines ((bytes source).take o))⟩) ∧
    (∀ o, ∃ start, nth? (starts source) (lineOf source o) = some start ∧
      position source o = ⟨lineOf source o, o - start + 1⟩) ∧
    (∀ o o', (position source o).Before (position source o') ↔ o < o') ∧
    (∀ o, offsetOf source (position source o).line + (position source o).column - 1 = o) ∧
    (∀ n, line source n =
      match nth? (pieces source) n with
      | some piece => String.ofList (piece.rdropWhile (· == '\r'))
      | none => "") ∧
    ∀ n, line source n =
      match nth? (starts source) n with
      | some start => trimmed source start (((starts source)[n]?).getD source.utf8ByteSize)
      | none => "" :=
  ⟨position_eq_count source, exists_lineOf source, position_before_iff source,
    offset_of_position source, line_eq_piece source, line_eq_trimmed source⟩

end LineMap
end TaggedScript
