import TaggedScript.Text.Quoted
/-!
JSON values as data, and their text with two blanks for each level of nesting.
-/
namespace TaggedScript

inductive Json where
  | null
  | bool (b : Bool)
  | int (n : Int)
  /-- A number with a fraction or an exponent, as it was written. -/
  | decimal (text : String)
  | str (s : String)
  | arr (items : List Json)
  | obj (members : List (String × Json))
deriving Inhabited

namespace Json

/-- A character inside a JSON string. Only controls, quotes and backslashes are escaped. -/
def escape (c : Char) : String :=
  match c with
  | '"' => "\\\""
  | '\\' => "\\\\"
  | '\x08' => "\\b"
  | '\x0c' => "\\f"
  | '\n' => "\\n"
  | '\r' => "\\r"
  | '\t' => "\\t"
  | c =>
    if c.toNat < 0x10 then "\\u000" ++ Text.hexadecimal c.toNat
    else if c.toNat < 0x20 then "\\u00" ++ Text.hexadecimal c.toNat
    else c.toString

def quote (s : String) : String := "\"" ++ String.join (s.toList.map escape) ++ "\""

/-- A new line at a level of nesting. -/
def newline (level : Nat) : String := "\n" ++ String.ofList (List.replicate (2 * level) ' ')

mutual

/-- The text of a value that stands at a level of nesting. -/
def render (level : Nat) : Json → String
  | null => "null"
  | bool b => if b then "true" else "false"
  | int n => toString n
  | decimal text => text
  | str s => quote s
  | arr [] => "[]"
  | arr (v :: vs) =>
    "[" ++ newline (level + 1) ++ render (level + 1) v ++ renderItems (level + 1) vs ++
      newline level ++ "]"
  | obj [] => "\x7b\x7d"
  | obj ((k, v) :: members) =>
    "\x7b" ++ newline (level + 1) ++ quote k ++ ": " ++ render (level + 1) v ++
      renderMembers (level + 1) members ++ newline level ++ "\x7d"

def renderItems (level : Nat) : List Json → String
  | [] => ""
  | v :: vs => "," ++ newline level ++ render level v ++ renderItems level vs

def renderMembers (level : Nat) : List (String × Json) → String
  | [] => ""
  | (k, v) :: members =>
    "," ++ newline level ++ quote k ++ ": " ++ render level v ++ renderMembers level members

end

def pretty (j : Json) : String := render 0 j

end Json
end TaggedScript
