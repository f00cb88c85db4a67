import TaggedScript.Diagnostic
import TaggedScript.Token
/-!
Splits a source text into tokens. Each step takes the longest lexeme at the front; a lexeme that
is blank is dropped. The text before an error lexes on its own.
-/
namespace TaggedScript

/-- Why no token could be read. -/
inductive LexFault where
  | unclosedString
  | wideInteger
  | loneBang
  | strayCharacter
deriving DecidableEq, Repr

/-- The text that could not be read, and where it begins. -/
structure LexError where
  fault : LexFault
  position : Nat
  snippet : String
deriving DecidableEq, Repr

namespace LexError

def message (e : LexError) : String :=
  s!"Lex error at position {e.position}: '{e.snippet}'"

/-- Advice on how to mend the text, empty when there is none. -/
def suggestion (e : LexError) : String :=
  match e.fault with
  | .unclosedString => "String literals must be closed on the same line"
  | .wideInteger => s!"Integer literal '{e.snippet}' does not fit in 32 bits"
  | .loneBang => "Use '!=' for inequality; there is no negation operator"
  | .strayCharacter => ""

def diagnostic (e : LexError) (source : String) : Diagnostic :=
  let advice := e.suggestion
  { message := s!"unexpected token '{e.snippet}'"
    label := some ⟨⟨e.position, e.position + max e.snippet.utf8ByteSize 1⟩, "here"⟩
    suggestion := if advice.isEmpty then none else some advice
    source := some source }

end LexError

namespace Lexer

/-- The largest value of an integer literal. -/
def maxInteger : Nat := 2147483647

def isBlank (c : Char) : Bool := c == ' ' || c == '\t' || c == '\r' || c == '\n'

def isNameStart (c : Char) : Bool := c.isAlpha || c == '_' || c == '$'

def isNamePart (c : Char) : Bool := isNameStart c || c.isDigit

/-- The value of a run of decimal digits. -/
def decimalValue (digits : List Char) : Nat :=
  digits.foldl (fun n c => 10 * n + (c.toNat - '0'.toNat)) 0

/-- What the longest lexeme at the front of a text is. -/
inductive Class where
  | blank
  | token (t : Token)
  | fault (f : LexFault)

/-- A text split after its first lexeme. -/
structure Split where
  kind : Class
  lexeme : List Char
  rest : List Char

/-- A lexeme of one character. -/
def single (kind : Class) (c : Char) (cs : List Char) : Split := ⟨kind, [c], cs⟩

/-- A lexeme that takes in the characters which satisfy `p`. -/
def run (kind : List Char → Class) (p : Char → Bool) (c : Char) (cs : List Char) : Split :=
  let lexeme := c :: cs.takeWhile p
  ⟨kind lexeme, lexeme, cs.dropWhile p⟩

/-- An operator that a following `=` turns into another token. -/
def orEqual (alone withEqual : Class) (c : Char) (cs : List Char) : Split :=
  match cs with
  | '=' :: rest => ⟨withEqual, [c, '='], rest⟩
  | _ => ⟨alone, [c], cs⟩

/-- A string runs to the next quote, which must come before the end of the line. -/
def string (cs : List Char) : Split :=
  let inside := fun c => c != '"' && c != '\n'
  let body := cs.takeWhile inside
  match cs.dropWhile inside with
  | '"' :: rest => ⟨.token (.str (String.ofList body)), '"' :: body ++ ['"'], rest⟩
  | rest => ⟨.fault .unclosedString, '"' :: body, rest⟩

def integer (digits : List Char) : Class :=
  let n := decimalValue digits
  if n ≤ maxInteger then .token (.int (Int32.ofNat n)) else .fault .wideInteger

/-- Splits off the longest lexeme of the text `c :: cs`. -/
def split (c : Char) (cs : List Char) : Split :=
  match c with
  | '(' => single (.token .lparen) c cs
  | ')' => single (.token .rparen) c cs
  | '\x7b' => single (.token .lbrace) c cs
  | '\x7d' => single (.token .rbrace) c cs
  | ',' => single (.token .comma) c cs
  | ';' => single (.token .semi) c cs
  | '.' => single (.token .dot) c cs
  | ':' => single (.token .colon) c cs
  | '+' => single (.token (.op .add)) c cs
  | '-' => single (.token (.op .sub)) c cs
  | '*' => single (.token (.op .mul)) c cs
  | '%' => single (.token (.op .rem)) c cs
  | '=' => orEqual (.token .assign) (.token (.op .eq)) c cs
  | '!' => orEqual (.fault .loneBang) (.token (.op .ne)) c cs
  | '<' => orEqual (.token (.op .lt)) (.token (.op .le)) c cs
  | '>' => orEqual (.token (.op .gt)) (.token (.op .ge)) c cs
  | '"' => string cs
  | '/' =>
    match cs with
    | '/' :: _ => run (fun _ => .blank) (· != '\n') c cs
    | _ => single (.token (.op .div)) c cs
  | _ =>
    if isBlank c then run (fun _ => .blank) isBlank c cs
    else if c.isDigit then run integer Char.isDigit c cs
    else if isNameStart c then
      run (fun word => .token (Token.ofWord (String.ofList word))) isNamePart c cs
    else single (.fault .strayCharacter) c cs

theorem length_run (kind : List Char → Class) (p : Char → Bool) (c : Char) (cs : List Char) :
    (run kind p c cs).rest.length ≤ cs.length :=
  (List.dropWhile_sublist p).length_le

theorem length_orEqual (alone withEqual : Class) (c : Char) (cs : List Char) :
    (orEqual alone withEqual c cs).rest.length ≤ cs.length := by
  unfold orEqual
  split <;> simp

theorem length_string (cs : List Char) : (string cs).rest.length ≤ cs.length := by
  have h := (List.dropWhile_sublist (l := cs) (fun c => c != '"' && c != '\n')).length_le
  unfold string
  simp only
  split
  · next rest eq => rw [eq] at h; simp at h ⊢; omega
  · exact h

/-- Every lexeme takes in at least one character. -/
theorem length_split (c : Char) (cs : List Char) : (split c cs).rest.length ≤ cs.length := by
  unfold split
  split <;> try exact Nat.le_refl _
  all_goals first
    | exact length_orEqual ..
    | exact length_string cs
    | skip
  · split
    · exact length_run ..
    · exact Nat.le_refl _
  · split
    · exact length_run ..
    · split
      · exact length_run ..
      · split
        · exact length_run ..
        · exact Nat.le_refl _

/-- The tokens of a text that begins at the byte `offset`. -/
def lexFrom (offset : Nat) : List Char → Except LexError (List Lexeme)
  | [] => .ok []
  | c :: cs =>
    let s := split c cs
    let stop := offset + byteLength s.lexeme
    match s.kind with
    | .blank => lexFrom stop s.rest
    | .token t => (lexFrom stop s.rest).map (⟨t, ⟨offset, stop⟩⟩ :: ·)
    | .fault f => .error ⟨f, offset, String.ofList s.lexeme⟩
termination_by cs => cs.length
decreasing_by all_goals exact Nat.lt_succ_of_le (length_split c cs)

end Lexer

/-- The tokens of a source text, or the first place where there is none. -/
def lex (source : String) : Except LexError (List Lexeme) :=
  Lexer.lexFrom 0 source.toList

end TaggedScript
