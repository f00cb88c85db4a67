import TaggedScript.Machine.Dictionary
import TaggedScript.World
/-!
The heap of the stack machine. Records are laid out one after the other, each with the word of
its class, a mark and its fields; none is moved or taken back.
-/
namespace TaggedScript

structure Heap where
  capacity : Nat
  /-- The words in use. The next record begins after them. -/
  words : Array Word
deriving Inhabited

inductive HeapFault where
  | exhausted (requested available : Nat)
  | unknownField (field : String)
  /-- There is no record at the offset. -/
  | dangling (offset : Nat)
  /-- The class of the record is no class. -/
  | noClass (offset : Nat)
  | invalid (e : InvalidWord)
deriving DecidableEq

def HeapFault.message : HeapFault → String
  | exhausted requested available =>
    s!"heap exhausted: {requested} words requested, {available} available"
  | unknownField field => s!"invalid field {field}"
  | dangling offset => s!"dangling object reference @{offset}"
  | noClass offset => s!"record @{offset} has no class descriptor"
  | invalid e => e.message

/-- What is done on the heap. An operation that fails leaves it as it was. -/
abbrev OnHeap := EStateM HeapFault Heap

namespace Heap

/-- The words of a record before its fields. -/
def headerSize : Nat := 2

/-- What every mark is. -/
def mark : Word := .ofInt (-2)

def empty (capacity : Nat) : Heap := ⟨capacity, #[]⟩

def pointer (h : Heap) : Nat := h.words.size

def available (h : Heap) : Nat := h.capacity - h.pointer

/-- Makes a record, which is named by its offset. -/
def allocate (shape : Word) (fields : List Word) : OnHeap UInt32 := fun h =>
  let requested := headerSize + fields.length
  if h.available < requested then .error (.exhausted requested h.available) h
  else if 4294967296 ≤ h.pointer then .error (.exhausted requested h.available) h
  else
    .ok (UInt32.ofNat h.pointer) { h with words := h.words ++ (shape :: mark :: fields) }

/-- Whether the header of a record at the offset would be in use. -/
def contains (h : Heap) (offset : UInt32) : Bool := offset.toNat + headerSize ≤ h.pointer

/-- A word of the header of a record. -/
def headerWord (h : Heap) (offset : UInt32) (i : Nat) : Except HeapFault Word :=
  if h.contains offset then .ok (h.words.getD (offset.toNat + i) .undefined)
  else .error (.dangling offset.toNat)

def classWord (h : Heap) (offset : UInt32) : Except HeapFault Word := h.headerWord offset 0

def markWord (h : Heap) (offset : UInt32) : Except HeapFault Word := h.headerWord offset 1

/-- The class of a record. -/
def shapeOf (h : Heap) (w : World) (d : Dictionary) (offset : UInt32) : Except HeapFault Shape := do
  let word ← h.classWord offset
  match word.tag with
  | none => .error (.invalid ⟨word⟩)
  | some (.interned index) =>
    match d.get? index with
    | some (.shape id) => .ok (w.shape id)
    | _ => .error (.noClass offset.toNat)
  | some _ => .error (.noClass offset.toNat)

/-- The place of a slot, which has to be in use. -/
def place (h : Heap) (offset : UInt32) (slot : Nat) : Except HeapFault Nat :=
  let i := offset.toNat + headerSize + slot
  if i < h.pointer then .ok i else .error (.dangling offset.toNat)

/-- The value of a field; one that the class does not declare is `undefined`. -/
def getField (h : Heap) (w : World) (d : Dictionary) (offset : UInt32) (field : String) :
    Except HeapFault Word := do
  match (← h.shapeOf w d offset).slotOf? field with
  | some slot => return h.words.getD (← h.place offset slot) .undefined
  | none => return .undefined

/-- The place of a field that is to be written. The class has to declare it. -/
def fieldPlace (h : Heap) (w : World) (d : Dictionary) (offset : UInt32) (field : String) :
    Except HeapFault Nat := do
  match (← h.shapeOf w d offset).slotOf? field with
  | some slot => h.place offset slot
  | none => .error (.unknownField field)

def setField (w : World) (d : Dictionary) (offset : UInt32) (field : String) (value : Word) :
    OnHeap Unit := fun h =>
  match h.fieldPlace w d offset field with
  | .ok i => .ok () { h with words := h.words.setIfInBounds i value }
  | .error e => .error e h

end Heap
end TaggedScript
