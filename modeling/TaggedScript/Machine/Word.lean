import TaggedScript.Text.Quoted
/-!
Tagged words. Every stack slot, heap field and constant operand is one word of 64 bits, whose low
bits say what the rest means:

* `…0` an integer, twice its value in two's complement;
* `…01` an entry of the dictionary, four times its index;
* `…011` a record of the heap, eight times its offset;
* `…111` one of `undefined`, `false` and `true`.

Integers have 32 bits and so do indices and offsets; any other word is invalid.
-/
namespace TaggedScript

structure Word where
  raw : UInt64
deriving DecidableEq, Inhabited

/-- What a valid word means. -/
inductive Tagged where
  | int (n : Int32)
  | bool (b : Bool)
  | undefined
  | interned (index : UInt32)
  | heap (offset : UInt32)
deriving DecidableEq

namespace Word

def ofNat (n : Nat) : Word := ⟨UInt64.ofNat n⟩

def toNat (w : Word) : Nat := w.raw.toNat

def undefined : Word := ofNat 7

def ofBool (b : Bool) : Word := if b then ofNat 23 else ofNat 15

def ofInt (n : Int32) : Word := ⟨UInt64.ofInt (2 * n.toInt)⟩

/-- A position of the stack or the code, kept in an activation record. -/
def ofIndex (n : Nat) : Word := ofNat (2 * n)

def interned (index : UInt32) : Word := ofNat (4 * index.toNat + 1)

def heap (offset : UInt32) : Word := ofNat (8 * offset.toNat + 3)

def ofTagged : Tagged → Word
  | .int n => ofInt n
  | .bool b => ofBool b
  | .undefined => undefined
  | .interned index => interned index
  | .heap offset => heap offset

def isInt (w : Word) : Bool := w.toNat % 2 = 0

/-- Half of the word as a signed number, if that is an integer of 32 bits. -/
def asInt (w : Word) : Option Int32 :=
  if ¬ w.isInt then none
  else if w.toNat < 4294967296 then some (Int32.ofInt (w.toNat / 2))
  else if 18446744069414584320 ≤ w.toNat then
    some (Int32.ofInt (((w.toNat : Int) - 18446744073709551616) / 2))
  else none

/-- Half of the word as a signed number, if that is a position. -/
def asIndex (w : Word) : Option Nat :=
  if w.isInt ∧ w.toNat < 9223372036854775808 then some (w.toNat / 2) else none

/-- The meaning of a word, if it has one. -/
def tag (w : Word) : Option Tagged :=
  if w.toNat % 2 = 0 then w.asInt.map .int
  else if w.toNat % 4 = 1 then
    if w.toNat / 4 < 4294967296 then some (.interned (UInt32.ofNat (w.toNat / 4))) else none
  else if w.toNat % 8 = 3 then
    if w.toNat / 8 < 4294967296 then some (.heap (UInt32.ofNat (w.toNat / 8))) else none
  else if w = undefined then some .undefined
  else if w = ofBool false then some (.bool false)
  else if w = ofBool true then some (.bool true)
  else none

/-- How messages show a word. -/
def label (w : Word) : String :=
  match w.tag with
  | some (.int n) => s!"Word({n.toInt})"
  | some (.bool b) => s!"Word({b})"
  | some .undefined => "Word(undefined)"
  | some (.interned index) => s!"Word(dict#{index.toNat})"
  | some (.heap offset) => s!"Word(heap@{offset.toNat})"
  | none => "Word(0x" ++ Text.hexadecimal w.toNat ++ "?)"

end Word

/-- A word that means nothing, or names what is not there. -/
structure InvalidWord where
  word : Word
deriving DecidableEq

def InvalidWord.message (e : InvalidWord) : String :=
  "invalid tagged word 0x" ++ Text.hexadecimal e.word.toNat

end TaggedScript
