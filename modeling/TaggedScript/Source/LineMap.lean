import TaggedScript.Text.Column
/-!
Lines of a source text. Offsets and columns count bytes; lines and columns start at one.
-/
namespace TaggedScript

/-- A place in a text as an editor shows it. -/
structure Position where
  line : Nat
  column : Nat
deriving DecidableEq, Repr

/-- The number of bytes that a run of characters takes. -/
def byteLength (cs : List Char) : Nat := cs.foldr (fun c n => c.utf8Size + n) 0

namespace LineMap

/-- The offsets right after the newlines of a text that itself begins at `offset`. -/
def startsAfter (offset : Nat) : List Char → List Nat
  | [] => []
  | c :: cs =>
    let next := offset + c.utf8Size
    if c = '\n' then next :: startsAfter next cs else startsAfter next cs

/-- The offset at which each line begins. The first line begins at zero. -/
def starts (source : String) : List Nat := 0 :: startsAfter 0 source.toList

/-- The line of an offset is the last one that begins at or before it. An offset
past the end belongs to the last line. -/
def position (source : String) (offset : Nat) : Position :=
  let before := (starts source).filter (· ≤ offset)
  ⟨before.length, offset - before.getLastD 0 + 1⟩

/-- The lines of a text without the newlines between them. -/
def split : List Char → List (List Char)
  | [] => [[]]
  | c :: cs =>
    if c = '\n' then [] :: split cs
    else match split cs with
      | [] => [[c]]
      | first :: rest => (c :: first) :: rest

/-- The text of the `n`th line without carriage returns at its end, empty when there is no such
line. -/
def line (source : String) (n : Nat) : String :=
  match n with
  | 0 => ""
  | n + 1 => String.ofList (Text.dropRight (· == '\r') ((split source.toList).getD n []))

end LineMap
end TaggedScript
