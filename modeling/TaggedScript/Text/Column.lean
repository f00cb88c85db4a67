/-!
Text in columns of a fixed width.
-/
namespace TaggedScript.Text

def blanks (n : Nat) : String := String.ofList (List.replicate n ' ')

/-- Blanks in front of a text that is shorter than the column. -/
def padLeft (width : Nat) (s : String) : String := blanks (width - s.length) ++ s

/-- Blanks after a text that is shorter than the column. -/
def padRight (width : Nat) (s : String) : String := s ++ blanks (width - s.length)

/-- Every character that Unicode counts as white space. -/
def isBlank (c : Char) : Bool :=
  let n := c.toNat
  (0x9 ≤ n && n ≤ 0xd) || n == 0x20 || n == 0x85 || n == 0xa0 || n == 0x1680 ||
  (0x2000 ≤ n && n ≤ 0x200a) || n == 0x2028 || n == 0x2029 || n == 0x202f || n == 0x205f ||
  n == 0x3000

/-- Drops the characters at the end that satisfy `p`. -/
def dropRight (p : Char → Bool) (cs : List Char) : List Char := (cs.reverse.dropWhile p).reverse

/-- Drops the blanks at the end. -/
def trimRight (s : String) : String := String.ofList (dropRight isBlank s.toList)

end TaggedScript.Text
