import TaggedScript.Machine.Word
/-!
The stack that all frames share. A frame lies on its callee and has the receiver in slot zero,
then the arguments and the other variables, then an activation record that says how to go on in
the caller, and last the operands.
-/
namespace TaggedScript

/-- Where the slots of a frame begin and how many there are. -/
structure Frame where
  base : Nat
  slotCount : Nat
deriving DecidableEq, Inhabited

namespace Frame

/-- The words of an activation record. -/
def recordSize : Nat := 3

def activation (f : Frame) : Nat := f.base + f.slotCount

def operands (f : Frame) : Nat := f.activation + recordSize

/-- No frame at all: before the first one and after the last. -/
def outside : Frame := ⟨0, 0⟩

end Frame

/-- How to go on when a frame is left. There is no position to go on from in the outermost. -/
structure Activation where
  savedBase : Nat
  savedPc : Option Nat
  caller : Word
deriving DecidableEq

structure Stack where
  capacity : Nat
  pointer : Nat
  /-- The words up to the highest that was ever written. Above them all are `undefined`. -/
  words : Array Word
  frame : Frame
deriving Inhabited

inductive StackFault where
  | overflow (capacity : Nat)
  | underflow (pointer : Nat)
  | slot (index slotCount : Nat)
  | activation (place : Nat)
deriving DecidableEq

def StackFault.message : StackFault → String
  | overflow capacity => s!"stack overflow: capacity of {capacity} words exceeded"
  | underflow pointer => s!"stack underflow at {pointer}"
  | slot index slotCount => s!"slot {index} is outside a frame of {slotCount} slots"
  | activation place => s!"corrupt activation record at {place}"

/-- What is done on the stack. An operation that fails leaves it as it was. -/
abbrev OnStack := EStateM StackFault Stack

namespace Stack

def empty (capacity : Nat) : Stack := ⟨capacity, 0, #[], .outside⟩

def read (s : Stack) (i : Nat) : Word := s.words.getD i Word.undefined

/-- The words with one of them changed. -/
def writeWord (words : Array Word) (i : Nat) (w : Word) : Array Word :=
  if i < words.size then words.setIfInBounds i w
  else (words ++ Array.replicate (i - words.size) Word.undefined).push w

/-- The words with those from `i` up to `stop` changed to `undefined`. -/
def clearWords (words : Array Word) (i stop : Nat) : Array Word :=
  (List.range' i (stop - i)).foldl (fun words i => writeWord words i .undefined) words

/-- The lowest place that operands may take. Outside of frames all words are operands. -/
def floor (s : Stack) : Nat :=
  if s.frame = .outside then 0 else s.frame.operands

/-- The words of the stack between two places. -/
def between (s : Stack) (start stop : Nat) : List Word :=
  (List.range' start (stop - start)).map s.read

/-- The operands of the frame, the top one last. -/
def operands (s : Stack) : List Word := s.between s.floor s.pointer

/-- The operand that lies `depth` below the top. Here, in `top` and in `dropTop` the count is added to
the floor without a bound. A machine adds the two as words, so counts whose sum with the floor is
past the largest word are left out. -/
def peekAt (s : Stack) (depth : Nat) : Except StackFault Word :=
  if s.pointer < s.floor + depth + 1 then .error (.underflow s.pointer)
  else .ok (s.read (s.pointer - 1 - depth))

def peek (s : Stack) : Except StackFault Word := s.peekAt 0

/-- The top operands, the top one last. -/
def top (s : Stack) (n : Nat) : Except StackFault (List Word) :=
  if s.pointer < s.floor + n then .error (.underflow s.pointer)
  else .ok (s.between (s.pointer - n) s.pointer)

def slot (s : Stack) (i : Nat) : Except StackFault Word :=
  if i < s.frame.slotCount then .ok (s.read (s.frame.base + i))
  else .error (.slot i s.frame.slotCount)

def push (w : Word) : OnStack Unit := fun s =>
  if s.capacity ≤ s.pointer then .error (.overflow s.capacity) s
  else .ok () { s with words := writeWord s.words s.pointer w, pointer := s.pointer + 1 }

def pop : OnStack Word := fun s =>
  if s.pointer ≤ s.floor then .error (.underflow s.pointer) s
  else .ok (s.read (s.pointer - 1)) { s with pointer := s.pointer - 1 }

/-- Exchanges the two top operands. -/
def swap : OnStack Unit := fun s =>
  if s.pointer < s.floor + 2 then .error (.underflow s.pointer) s
  else
    let upper := s.read (s.pointer - 1)
    let lower := s.read (s.pointer - 2)
    .ok () { s with
      words := writeWord (writeWord s.words (s.pointer - 2) upper) (s.pointer - 1) lower }

/-- Takes off the top operands. -/
def dropTop (n : Nat) : OnStack Unit := fun s =>
  if s.pointer < s.floor + n then .error (.underflow s.pointer) s
  else .ok () { s with pointer := s.pointer - n }

def setSlot (i : Nat) (w : Word) : OnStack Unit := fun s =>
  if i < s.frame.slotCount then
    .ok () { s with words := writeWord s.words (s.frame.base + i) w }
  else .error (.slot i s.frame.slotCount) s

/-- The words with an activation record in them. -/
def writeRecord (words : Array Word) (place : Nat) (record : Activation) : Array Word :=
  let words := writeWord words place (.ofIndex record.savedBase)
  let words := writeWord words (place + 1) (record.savedPc.elim .undefined .ofIndex)
  writeWord words (place + 2) record.caller

/-- Enters a frame whose callee, receiver and arguments are on the stack already. Its other
slots are `undefined`. -/
def pushFrame (frame : Frame) (record : Activation) : OnStack Unit := fun s =>
  if s.capacity < frame.operands then .error (.overflow s.capacity) s
  else
    .ok () { s with
      words := writeRecord (clearWords s.words s.pointer frame.activation) frame.activation record
      pointer := frame.operands
      frame }

/-- Leaves the frame together with its callee and resumes another one. -/
def popFrame (s : Stack) (caller : Frame) : Stack :=
  { s with pointer := s.frame.base - 1, frame := caller }

/-- The activation record of a frame. -/
def activationOf (s : Stack) (frame : Frame) : Except StackFault Activation :=
  let place := frame.activation
  let corrupt := .error (.activation place)
  if s.capacity < place + Frame.recordSize then corrupt
  else match (s.read place).asIndex with
    | none => corrupt
    | some savedBase =>
      let pc := s.read (place + 1)
      let caller := s.read (place + 2)
      if pc = .undefined then .ok ⟨savedBase, none, caller⟩
      else match pc.asIndex with
        | some savedPc => .ok ⟨savedBase, some savedPc, caller⟩
        | none => corrupt

def activation (s : Stack) : Except StackFault Activation := s.activationOf s.frame

end Stack
end TaggedScript
