import Std.Data.String.ToInt
import TaggedScript.Json

/-!
JSON as text. How a value is written and read is left to a library; what it does is stated here as
the laws of a format: it reads back what it wrote, unless that is nested more deeply than the reader
allows. The compact form, which has no blanks between values, is one that keeps them.
-/
namespace TaggedScript
namespace Json

/-- What holds of a value if it holds of all that lies in it holds of every value. -/
theorem inductionOn {motive : Json → Prop} (null : motive null) (bool : ∀ b, motive (bool b))
    (int : ∀ n, motive (int n)) (decimal : ∀ text, motive (decimal text))
    (str : ∀ s, motive (str s)) (arr : ∀ items, (∀ v ∈ items, motive v) → motive (arr items))
    (obj : ∀ members, (∀ m ∈ members, motive m.2) → motive (obj members)) (j : Json) :
    motive j := by
  refine @Json.rec motive (fun items => ∀ v ∈ items, motive v)
    (fun members => ∀ m ∈ members, motive m.2) (fun m => motive m.2)
    null bool int decimal str arr obj ?_ ?_ ?_ ?_ ?_ j
  · simp
  · exact fun v vs head tail => List.forall_mem_cons.mpr ⟨head, tail⟩
  · simp
  · exact fun m ms head tail => List.forall_mem_cons.mpr ⟨head, tail⟩
  · exact fun k v h => h

mutual

/-- How many arrays and objects lie inside one another. -/
def nesting : Json → Nat
  | arr items => nestingItems items + 1
  | obj members => nestingMembers members + 1
  | null | bool _ | int _ | decimal _ | str _ => 0

def nestingItems : List Json → Nat
  | [] => 0
  | v :: vs => max v.nesting (nestingItems vs)

def nestingMembers : List (String × Json) → Nat
  | [] => 0
  | (_, v) :: members => max v.nesting (nestingMembers members)

end

mutual

/-- Values that every reader of JSON agrees about: integers fit into 64 bits, with or without a
sign, and no object has two members of one name. -/
def Standard : Json → Prop
  | int n => -0x8000000000000000 ≤ n ∧ n < 0x10000000000000000
  | decimal _ => False
  | arr items => StandardItems items
  | obj members => (members.map (·.1)).Nodup ∧ StandardMembers members
  | null | bool _ | str _ => True

def StandardItems : List Json → Prop
  | [] => True
  | v :: vs => v.Standard ∧ StandardItems vs

def StandardMembers : List (String × Json) → Prop
  | [] => True
  | (_, v) :: members => v.Standard ∧ StandardMembers members

end

/-- A writer of JSON and a reader that is told how deep arrays and objects may be nested, if there
is a limit at all. -/
structure Format where
  write : Json → String
  read : Option Nat → String → Option Json

namespace Format

/-- The limit of a reader that is not told any other. -/
def usualLimit : Nat := 127

/-- What is relied on of the library that writes and reads the text. -/
structure Lawful (f : Format) : Prop where
  reads_back : ∀ {limit : Option Nat} {j : Json}, j.Standard →
    (∀ n ∈ limit, j.nesting ≤ n) → f.read limit (f.write j) = some j
  refuses : ∀ {limit : Nat} {j : Json}, j.Standard → limit < j.nesting →
    f.read (some limit) (f.write j) = none

/-- Values of one text are one value. -/
theorem Lawful.write_inj {f : Format} (lawful : f.Lawful) {i j : Json} (hi : i.Standard)
    (hj : j.Standard) : f.write i = f.write j ↔ i = j := by
  refine ⟨fun same => ?_, congrArg f.write⟩
  have back : f.read none (f.write i) = some i := lawful.reads_back hi (by simp)
  rw [same, lawful.reads_back hj (by simp)] at back
  exact (Option.some_inj.mp back).symm

end Format

namespace Compact

/-- The texts of elements with commas between them, and the closing character. -/
def joined (close : Char) : List (List Char) → List Char
  | [] => [close]
  | [text] => text ++ [close]
  | text :: texts => text ++ ',' :: joined close texts

mutual

/-- The characters of a value. -/
def chars : Json → List Char
  | null => ['n', 'u', 'l', 'l']
  | bool true => ['t', 'r', 'u', 'e']
  | bool false => ['f', 'a', 'l', 's', 'e']
  | int n => n.repr.toList
  | decimal text => text.toList
  | str s => (quote s).toList
  | arr items => '[' :: joined ']' (charsOfItems items)
  | obj members => '\x7b' :: joined '\x7d' (charsOfMembers members)

def charsOfItems : List Json → List (List Char)
  | [] => []
  | v :: vs => chars v :: charsOfItems vs

def charsOfMembers : List (String × Json) → List (List Char)
  | [] => []
  | (k, v) :: members => ((quote k).toList ++ ':' :: chars v) :: charsOfMembers members

end

/-- A reader takes what it wants from the front and leaves the rest. -/
abbrev Reader (α : Type) := List Char → Option (α × List Char)

/-- The number of one hexadecimal digit. -/
def digit? (c : Char) : Option Nat :=
  if '0' ≤ c ∧ c ≤ '9' then some (c.toNat - '0'.toNat)
  else if 'a' ≤ c ∧ c ≤ 'f' then some (c.toNat - 'a'.toNat + 10)
  else none

/-- The character of an escape that is a single letter. -/
def unescape? : Char → Option Char
  | '"' => some '"'
  | '\\' => some '\\'
  | 'b' => some '\x08'
  | 'f' => some '\x0c'
  | 'n' => some '\n'
  | 'r' => some '\r'
  | 't' => some '\t'
  | _ => none

/-- Puts a character before those that are read next. -/
def before (c : Char) : List Char × List Char → List Char × List Char
  | (cs, rest) => (c :: cs, rest)

/-- The characters of a string after its opening quote. -/
def stringBody : Reader (List Char)
  | '"' :: rest => some ([], rest)
  | '\\' :: 'u' :: a :: b :: c :: d :: rest => do
    let code := (((← digit? a) * 16 + (← digit? b)) * 16 + (← digit? c)) * 16 + (← digit? d)
    (stringBody rest).map (before (.ofNat code))
  | '\\' :: e :: rest => do (stringBody rest).map (before (← unescape? e))
  | c :: rest => (stringBody rest).map (before c)
  | [] => none

def string : Reader String
  | '"' :: rest => (stringBody rest).map fun (cs, rest) => (String.ofList cs, rest)
  | _ => none

/-- A character that an integer may have in it. -/
def isNumeric (c : Char) : Bool := c == '-' || c.isDigit

def integer : Reader Int := fun cs =>
  ((String.ofList (cs.takeWhile isNumeric)).toInt?).map fun n => (n, cs.dropWhile isNumeric)

/-- Elements with commas between them, up to the closing character. Each takes a character at
least, so there are no more of them than steps if these are as many as the characters. -/
def elements {α : Type} (close : Char) (element : Reader α) : Nat → Reader (List α)
  | 0, _ => none
  | steps + 1, cs => do
    match ← element cs with
    | (v, ',' :: rest) =>
      let (vs, rest) ← elements close element steps rest
      return (v :: vs, rest)
    | (v, c :: rest) => if c = close then some ([v], rest) else none
    | (_, []) => none

/-- The elements that follow the opening character. -/
def enclosed {α : Type} (close : Char) (element : Reader α) : Reader (List α)
  | [] => none
  | c :: rest =>
    if c = close then some ([], rest)
    else elements close element (rest.length + 1) (c :: rest)

/-- A name, a colon and a value. -/
def member {α : Type} (value : Reader α) : Reader (String × α) := fun cs => do
  match ← string cs with
  | (k, ':' :: rest) =>
    let (v, rest) ← value rest
    return ((k, v), rest)
  | _ => none

/-- A value that is neither an array nor an object. -/
def scalar : Reader Json
  | 'n' :: 'u' :: 'l' :: 'l' :: rest => some (null, rest)
  | 't' :: 'r' :: 'u' :: 'e' :: rest => some (bool true, rest)
  | 'f' :: 'a' :: 'l' :: 's' :: 'e' :: rest => some (bool false, rest)
  | '"' :: rest => (string ('"' :: rest)).map fun (s, rest) => (str s, rest)
  | cs => (integer cs).map fun (n, rest) => (int n, rest)

/-- A value in which arrays and objects are not nested more deeply than the limit. -/
def value : Nat → Reader Json
  | limit + 1, '[' :: rest => (enclosed ']' (value limit) rest).map fun (vs, rest) => (arr vs, rest)
  | limit + 1, '\x7b' :: rest =>
    (enclosed '\x7d' (member (value limit)) rest).map fun (ms, rest) => (obj ms, rest)
  | _, cs => scalar cs

/-- Where an integer ends. -/
def Ends (rest : List Char) : Prop := ∀ c ∈ rest.head?, isNumeric c = false

theorem isNumeric_of_mem_repr {n : Int} {c : Char} (mem : c ∈ n.repr.toList) :
    isNumeric c = true := by
  have digit {k : Nat} (mem : c ∈ Nat.toDigits 10 k) : isNumeric c = true := by
    simp [isNumeric, Nat.isDigit_of_mem_toDigits (by decide) (by decide) mem]
  rw [Int.repr_eq_if] at mem
  split at mem
  · exact digit (Nat.toList_repr ▸ mem)
  · rw [String.toList_append, Nat.toList_repr, List.mem_append] at mem
    rcases mem with minus | mem
    · have : c = '-' := by simpa using minus
      simp [isNumeric, this]
    · exact digit mem

theorem integer_repr (n : Int) {rest : List Char} (ends : Ends rest) :
    integer (n.repr.toList ++ rest) = some (n, rest) := by
  have numeric : ∀ c ∈ n.repr.toList, isNumeric c = true := fun _ => isNumeric_of_mem_repr
  have none_left : rest.takeWhile isNumeric = [] ∧ rest.dropWhile isNumeric = rest := by
    cases rest with
    | nil => exact ⟨rfl, rfl⟩
    | cons c rest => simp [ends c rfl]
  rw [integer, List.takeWhile_append_of_pos numeric, List.dropWhile_append_of_pos numeric,
    none_left.1, none_left.2, List.append_nil, String.ofList_toList, Int.toInt?_repr,
    Option.map_some]

theorem digit?_digitChar : ∀ d < 16, digit? (Nat.digitChar d) = some d := by decide

theorem hexadecimal_of_lt {n : Nat} (low : n < 16) :
    (Text.hexadecimal n).toList = [Nat.digitChar n] := by
  rw [Text.hexadecimal, String.toList_ofList, Nat.toDigits_of_lt_base low]

theorem hexadecimal_of_le {n : Nat} (high : 16 ≤ n) (low : n < 32) :
    (Text.hexadecimal n).toList = ['1', Nat.digitChar (n - 16)] := by
  rw [Text.hexadecimal, String.toList_ofList, Nat.toDigits_of_base_le (by decide) high,
    show n / 16 = 1 by omega, show n % 16 = n - 16 by omega]
  rfl

theorem stringBody_number {a b c d : Char} {i j k l : Nat} (ha : digit? a = some i)
    (hb : digit? b = some j) (hc : digit? c = some k) (hd : digit? d = some l) (rest : List Char) :
    stringBody ('\\' :: 'u' :: a :: b :: c :: d :: rest) =
      (stringBody rest).map (before (.ofNat (((i * 16 + j) * 16 + k) * 16 + l))) := by
  simp [stringBody, ha, hb, hc, hd]

theorem stringBody_plain {c : Char} (quote : c ≠ '"') (escape : c ≠ '\\') (rest : List Char) :
    stringBody (c :: rest) = (stringBody rest).map (before c) := by
  rw [stringBody]
  · exact quote
  · rintro _ _ _ _ _ rfl
    exact absurd rfl escape
  · rintro _ _ rfl
    exact absurd rfl escape

/-- What is written for a character of a string is read as that character. -/
theorem stringBody_escape (c : Char) (rest : List Char) :
    stringBody ((escape c).toList ++ rest) = (stringBody rest).map (before c) := by
  have zero : digit? '0' = some 0 := rfl
  have one : digit? '1' = some 1 := rfl
  unfold escape
  split
  case h_8 _ noQuote noEscape _ _ _ _ _ =>
    split
    · rename_i low
      have read := stringBody_number zero zero zero (digit?_digitChar _ low) rest
      simpa [hexadecimal_of_lt low] using read
    split
    · rename_i high low
      have read := stringBody_number zero zero one
        (digit?_digitChar (c.toNat - 16) (by omega)) rest
      have code : ((0 * 16 + 0) * 16 + 1) * 16 + (c.toNat - 16) = c.toNat := by omega
      rw [code, Char.ofNat_toNat] at read
      simpa [hexadecimal_of_le (Nat.not_lt.mp high) low] using read
    · simpa using stringBody_plain noQuote noEscape rest
  all_goals rfl

theorem string_quote (s : String) (rest : List Char) :
    string ((quote s).toList ++ rest) = some (s, rest) := by
  have body (cs : List Char) :
      stringBody (cs.flatMap (fun c => (escape c).toList) ++ '"' :: rest) = some (cs, rest) := by
    induction cs with
    | nil => rfl
    | cons c cs ih =>
      rw [List.flatMap_cons, List.append_assoc, stringBody_escape, ih]
      rfl
  have text : (quote s).toList =
      '"' :: (s.toList.flatMap (fun c => (escape c).toList) ++ ['"']) := by
    simp [quote, List.flatMap_map]
  rw [text, List.cons_append, List.append_assoc, string, List.singleton_append, body]
  simp

section Elements
variable {α : Type} {close : Char} {element : Reader α} {good : α → Prop} [DecidablePred good]
  {entries : List (List Char × α)}

/-- A reader takes the texts of the elements that are good, and refuses the others. -/
def Takes (element : Reader α) (good : α → Prop) [DecidablePred good]
    (entries : List (List Char × α)) : Prop :=
  ∀ entry ∈ entries, ∀ rest, Ends rest →
    element (entry.1 ++ rest) = if good entry.2 then some (entry.2, rest) else none

theorem ends_cons {c : Char} (h : isNumeric c = false) (rest : List Char) : Ends (c :: rest) := by
  rintro _ ⟨⟩
  exact h

theorem elements_joined (comma : close ≠ ',') (ends : isNumeric close = false)
    (takes : Takes element good entries) (some_entry : entries ≠ []) {steps : Nat}
    (enough : entries.length ≤ steps) (rest : List Char) :
    elements close element steps (joined close (entries.map (·.1)) ++ rest) =
      if ∀ entry ∈ entries, good entry.2 then some (entries.map (·.2), rest) else none := by
  induction entries generalizing steps with
  | nil => exact absurd rfl some_entry
  | cons first others ih =>
    obtain ⟨steps, rfl⟩ : ∃ n, steps = n + 1 := ⟨steps - 1, by simp at enough; omega⟩
    have takes_others : Takes element good others := fun e mem => takes e (by simp [mem])
    cases others with
    | nil =>
      have last := takes first (by simp) (close :: rest) (ends_cons ends rest)
      by_cases h : good first.2
      · simp [joined, elements, last, h]
      · simp [joined, elements, last, h]
    | cons second others =>
      have next := takes first (by simp)
        (',' :: (joined close ((second :: others).map (·.1)) ++ rest)) (ends_cons rfl _)
      have enough : (second :: others).length ≤ steps := by simpa using enough
      have later := ih takes_others (by simp) enough
      rw [List.map_cons, joined, List.append_assoc, List.cons_append, elements, next]
      · by_cases h : good first.2
        · rw [if_pos h]
          simp only [Option.bind_eq_bind, Option.bind_some, later,
            List.forall_mem_cons (l := second :: others), h, true_and]
          split <;> rfl
        · simp [h]
      · simp

/-- Each element takes a character, so there are enough steps for all. -/
theorem length_le_joined (close : Char) (texts : List (List Char)) :
    texts.length ≤ (joined close texts).length := by
  induction texts with
  | nil => simp
  | cons text texts ih =>
    cases texts with
    | nil => simp [joined]
    | cons next texts =>
      simp only [joined, List.length_append, List.length_cons] at ih ⊢
      omega

theorem enclosed_joined (comma : close ≠ ',') (ends : isNumeric close = false)
    (takes : Takes element good entries)
    (opens : ∀ entry ∈ entries, ∃ c cs, entry.1 = c :: cs ∧ c ≠ close) (rest : List Char) :
    enclosed close element (joined close (entries.map (·.1)) ++ rest) =
      if ∀ entry ∈ entries, good entry.2 then some (entries.map (·.2), rest) else none := by
  cases entries with
  | nil => simp [joined, enclosed]
  | cons first others =>
    obtain ⟨c, cs, text, other⟩ := opens first (by simp)
    obtain ⟨tail, whole⟩ :
        ∃ tail, joined close ((first :: others).map (·.1)) ++ rest = c :: tail := by
      cases others <;> exact ⟨_, by simp [joined, text]; rfl⟩
    have enough : (first :: others).length ≤ tail.length + 1 := by
      have := length_le_joined close ((first :: others).map (·.1))
      have := congrArg List.length whole
      simp only [List.length_append, List.length_cons, List.length_map] at *
      omega
    rw [whole, enclosed, if_neg other, ← whole]
    exact elements_joined comma ends takes (by simp) enough rest

end Elements

theorem charsOfItems_eq (items : List Json) : charsOfItems items = items.map chars := by
  induction items with
  | nil => rfl
  | cons v vs ih => rw [charsOfItems, ih, List.map_cons]

/-- The characters of a name, a colon and a value. -/
def memberChars (m : String × Json) : List Char := (quote m.1).toList ++ ':' :: chars m.2

theorem charsOfMembers_eq (members : List (String × Json)) :
    charsOfMembers members = members.map memberChars := by
  induction members with
  | nil => rfl
  | cons m ms ih => rw [charsOfMembers, ih, List.map_cons, memberChars]

theorem quote_eq (s : String) : ∃ cs, (quote s).toList = '"' :: cs := by
  simp [quote]

theorem toInt?_empty : "".toInt? = none := by
  simp [← Bool.not_eq_true, String.isInt_iff, String.isNat_iff]

theorem repr_eq (n : Int) : ∃ c cs, n.repr.toList = c :: cs ∧ isNumeric c = true := by
  cases text : n.repr.toList with
  | nil =>
    have empty : n.repr = "" := by simpa using text
    have back := Int.toInt?_repr n
    rw [empty] at back
    exact absurd back (by simp [toInt?_empty])
  | cons c cs => exact ⟨c, cs, rfl, isNumeric_of_mem_repr (text ▸ List.mem_cons_self)⟩

/-- No value begins as an array ends. -/
theorem opens_chars {j : Json} (standard : j.Standard) : ∃ c cs, chars j = c :: cs ∧ c ≠ ']' := by
  cases j with
  | int n =>
    obtain ⟨c, cs, text, numeric⟩ := repr_eq n
    refine ⟨c, cs, text, ?_⟩
    rintro rfl
    exact absurd numeric (by decide)
  | bool b => cases b <;> exact ⟨_, _, rfl, by decide⟩
  | decimal text => exact standard.elim
  | str s =>
    obtain ⟨cs, text⟩ := quote_eq s
    exact ⟨'"', cs, text, by decide⟩
  | null | arr _ | obj _ => exact ⟨_, _, rfl, by decide⟩

theorem value_of_scalar {c : Char} (array : c ≠ '[') (object : c ≠ '\x7b') (limit : Nat)
    (cs : List Char) : value limit (c :: cs) = scalar (c :: cs) := by
  cases limit <;> simp [value, array, object]

theorem scalar_of_integer {c : Char} (numeric : isNumeric c = true) (cs : List Char) :
    scalar (c :: cs) = (integer (c :: cs)).map fun (n, rest) => (int n, rest) := by
  rw [scalar]
  all_goals
    rintro _ ⟨⟩
    exact absurd numeric (by decide)

theorem integer_of_not_numeric {c : Char} (other : isNumeric c = false) (cs : List Char) :
    integer (c :: cs) = none := by
  simp [integer, other, toInt?_empty]

theorem standardItems_iff {items : List Json} :
    StandardItems items ↔ ∀ v ∈ items, v.Standard := by
  induction items with
  | nil => simp [StandardItems]
  | cons v vs ih => rw [StandardItems, ih, List.forall_mem_cons]

theorem standardMembers_iff {members : List (String × Json)} :
    StandardMembers members ↔ ∀ m ∈ members, m.2.Standard := by
  induction members with
  | nil => simp [StandardMembers]
  | cons m ms ih => rw [StandardMembers, ih, List.forall_mem_cons]

theorem nestingItems_le {items : List Json} {n : Nat} :
    nestingItems items ≤ n ↔ ∀ v ∈ items, v.nesting ≤ n := by
  induction items with
  | nil => simp [nestingItems]
  | cons v vs ih => rw [nestingItems, Nat.max_le, ih, List.forall_mem_cons]

theorem nestingMembers_le {members : List (String × Json)} {n : Nat} :
    nestingMembers members ≤ n ↔ ∀ m ∈ members, m.2.nesting ≤ n := by
  induction members with
  | nil => simp [nestingMembers]
  | cons m ms ih => rw [nestingMembers, Nat.max_le, ih, List.forall_mem_cons]

theorem member_memberChars {m : String × Json} {limit : Nat} {rest : List Char}
    (read : value limit (chars m.2 ++ rest) =
      if m.2.nesting ≤ limit then some (m.2, rest) else none) :
    member (value limit) (memberChars m ++ rest) =
      if m.2.nesting ≤ limit then some (m, rest) else none := by
  rw [member, memberChars, List.append_assoc, List.cons_append, string_quote]
  by_cases h : m.2.nesting ≤ limit <;> simp [read, h]

/-- A value is read back from its characters exactly if it is not nested too deeply. -/
theorem value_chars {j : Json} (standard : j.Standard) (limit : Nat) (rest : List Char)
    (ends : Ends rest) :
    value limit (chars j ++ rest) = if j.nesting ≤ limit then some (j, rest) else none := by
  induction j using inductionOn generalizing limit rest with
  | null =>
    rw [nesting, if_pos (Nat.zero_le limit)]
    cases limit <;> rfl
  | bool b =>
    rw [nesting, if_pos (Nat.zero_le limit)]
    cases b <;> cases limit <;> rfl
  | decimal _ => exact standard.elim
  | int n =>
    obtain ⟨c, cs, text, numeric⟩ := repr_eq n
    have read := integer_repr n ends
    rw [text, List.cons_append] at read
    rw [chars, text, List.cons_append, value_of_scalar, scalar_of_integer numeric, read, nesting,
      if_pos (Nat.zero_le limit)]
    · rfl
    all_goals
      rintro rfl
      exact absurd numeric (by decide)
  | str s =>
    obtain ⟨cs, text⟩ := quote_eq s
    have read := string_quote s rest
    rw [text, List.cons_append] at read
    rw [chars, text, List.cons_append, value_of_scalar (by decide) (by decide), scalar, read,
      nesting, if_pos (Nat.zero_le limit)]
    rfl
  | arr items ih =>
    have standard := standardItems_iff.mp standard
    cases limit with
    | zero => simp [nesting, chars, value, scalar, integer_of_not_numeric (c := '[') rfl]
    | succ limit =>
      have takes : Takes (value limit) (fun v => v.nesting ≤ limit)
          (items.map fun v => (chars v, v)) := by
        simp only [Takes, List.forall_mem_map]
        exact fun v mem => ih v mem (standard v mem) limit
      have opens : ∀ entry ∈ items.map fun v => (chars v, v),
          ∃ c cs, entry.1 = c :: cs ∧ c ≠ ']' := by
        simp only [List.forall_mem_map]
        exact fun v mem => opens_chars (standard v mem)
      have read := enclosed_joined (by decide) (by decide) takes opens rest
      simp only [List.map_map, Function.comp_def, List.map_id', List.forall_mem_map] at read
      rw [chars, charsOfItems_eq, List.cons_append, value, read]
      simp only [nesting, Nat.succ_le_succ_iff, nestingItems_le]
      split <;> rfl
  | obj members ih =>
    have standard := standardMembers_iff.mp standard.2
    cases limit with
    | zero => simp [nesting, chars, value, scalar, integer_of_not_numeric (c := '\x7b') rfl]
    | succ limit =>
      have takes : Takes (member (value limit)) (fun m => m.2.nesting ≤ limit)
          (members.map fun m => (memberChars m, m)) := by
        simp only [Takes, List.forall_mem_map]
        exact fun m mem rest ends =>
          member_memberChars (ih m mem (standard m mem) limit rest ends)
      have opens : ∀ entry ∈ members.map fun m => (memberChars m, m),
          ∃ c cs, entry.1 = c :: cs ∧ c ≠ '\x7d' := by
        simp only [List.forall_mem_map]
        intro m mem
        obtain ⟨cs, text⟩ := quote_eq m.1
        exact ⟨'"', cs ++ ':' :: chars m.2, by rw [memberChars, text, List.cons_append], by decide⟩
      have read := enclosed_joined (by decide) (by decide) takes opens rest
      simp only [List.map_map, Function.comp_def, List.map_id', List.forall_mem_map] at read
      rw [chars, charsOfMembers_eq, List.cons_append, value, read]
      simp only [nesting, Nat.succ_le_succ_iff, nestingMembers_le]
      split <;> rfl

theorem length_le_of_mem {close : Char} {text : List Char} {texts : List (List Char)}
    (mem : text ∈ texts) : text.length ≤ (joined close texts).length := by
  induction texts with
  | nil => cases mem
  | cons first texts ih =>
    cases texts with
    | nil =>
      cases List.mem_singleton.mp mem
      simp [joined]
    | cons second texts =>
      simp only [joined, List.length_append, List.length_cons] at ih ⊢
      rcases List.mem_cons.mp mem with rfl | mem
      · omega
      · have := ih mem
        omega

/-- Each level of nesting has a character that opens it. -/
theorem nesting_le_length (j : Json) : j.nesting ≤ (chars j).length := by
  induction j using inductionOn with
  | null | bool _ | int _ | decimal _ | str _ => exact Nat.zero_le _
  | arr items ih =>
    rw [nesting, chars, charsOfItems_eq, List.length_cons, Nat.succ_le_succ_iff, nestingItems_le]
    exact fun v mem => Nat.le_trans (ih v mem) (length_le_of_mem (List.mem_map_of_mem mem))
  | obj members ih =>
    rw [nesting, chars, charsOfMembers_eq, List.length_cons, Nat.succ_le_succ_iff,
      nestingMembers_le]
    intro m mem
    have inside : (chars m.2).length ≤ (memberChars m).length := by simp [memberChars]; omega
    exact Nat.le_trans (ih m mem) (Nat.le_trans inside (length_le_of_mem (List.mem_map_of_mem mem)))

end Compact

/-- JSON without a blank between values. A text of so many characters is not nested more deeply
than that, so this is the limit where there is none. -/
def compact : Format where
  write j := String.ofList (Compact.chars j)
  read limit text :=
    match Compact.value (limit.getD text.length) text.toList with
    | some (j, []) => some j
    | _ => none

theorem compact_read {limit : Option Nat} {j : Json} (standard : j.Standard) :
    compact.read limit (compact.write j) =
      if j.nesting ≤ limit.getD (Compact.chars j).length then some j else none := by
  have read := Compact.value_chars standard (limit.getD (Compact.chars j).length) []
    (by rintro _ ⟨⟩)
  rw [List.append_nil] at read
  simp only [compact, String.toList_ofList, String.length_ofList, read]
  by_cases fits : j.nesting ≤ limit.getD (Compact.chars j).length
  · simp only [if_pos fits]
  · simp only [if_neg fits]

theorem compact_lawful : compact.Lawful where
  reads_back := by
    intro limit j standard fits
    rw [compact_read standard, if_pos]
    cases limit with
    | none => exact Compact.nesting_le_length j
    | some limit => exact fits limit rfl
  refuses := by
    intro limit j standard deep
    exact (compact_read standard).trans (if_neg (Nat.not_le.mpr deep))

end Json
end TaggedScript
