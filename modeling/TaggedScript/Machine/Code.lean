import TaggedScript.Machine.Instr
/-!
The code of a function: a stream of instructions and the size of the frame that it runs in.
-/
namespace TaggedScript

/-- The parameters include the receiver in slot zero, the slots include the parameters. -/
structure Code where
  parameterCount : Nat
  slotCount : Nat
  stream : Array Nat
deriving DecidableEq, Inhabited

namespace Code

/-- A frame has room for all parameters, however few slots are asked for. -/
def make (parameterCount slotCount : Nat) (stream : Array Nat) : Code :=
  ⟨parameterCount, max slotCount parameterCount, stream⟩

/-- Lays out instructions one after the other. -/
def ofInstrs (parameterCount slotCount : Nat) (instrs : List Instr) : Code :=
  make parameterCount slotCount (instrs.flatMap Instr.encode).toArray

/-- The instruction at a position of the stream. -/
def fetch (code : Code) (pc : Nat) : Except DecodeFault Instr :=
  match code.stream[pc]? with
  | none => .error (.outOfBounds pc)
  | some opcode => Instr.decode pc opcode code.stream[pc + 1]?

/-- The instructions that decode one after the other from a position, each at its own, and
the fault that stopped them before the end. -/
def decodeFrom (pc : Nat) (stream : List Nat) : List (Nat × Instr) × Option DecodeFault :=
  match stream with
  | [] => ([], none)
  | opcode :: rest =>
    match Instr.decode pc opcode rest.head? with
    | .error e => ([], some e)
    | .ok i =>
      let (instrs, fault) := decodeFrom (pc + i.width) (rest.drop i.operand?.toList.length)
      ((pc, i) :: instrs, fault)
termination_by stream.length
decreasing_by simp only [List.length_drop, List.length_cons]; omega

/-- The instructions up to the first that does not decode. -/
def decoded (code : Code) : List (Nat × Instr) × Option DecodeFault :=
  decodeFrom 0 code.stream.toList

/-- All instructions of a stream that decodes to its end. -/
def decodeAll (code : Code) : Except DecodeFault (List (Nat × Instr)) :=
  match code.decoded with
  | (instrs, none) => .ok instrs
  | (_, some fault) => .error fault

end Code

/-- Code in the making. Jumps forward are emitted before their target is known and patched
when it is. -/
structure CodeBuilder where
  parameterCount : Nat
  slotCount : Nat
  stream : Array Nat

namespace CodeBuilder

def empty (parameterCount slotCount : Nat) : CodeBuilder := ⟨parameterCount, slotCount, #[]⟩

/-- The position of the next instruction. -/
def position (b : CodeBuilder) : Nat := b.stream.size

def emit (b : CodeBuilder) (i : Instr) : CodeBuilder :=
  { b with stream := b.stream ++ i.encode }

/-- Points the jump at a position to a target. -/
def patch (b : CodeBuilder) (jump target : Nat) : CodeBuilder :=
  { b with stream := b.stream.setIfInBounds (jump + 1) target }

/-- Points the jump at a position to the next instruction. -/
def patchHere (b : CodeBuilder) (jump : Nat) : CodeBuilder := b.patch jump b.position

def finish (b : CodeBuilder) : Code := .make b.parameterCount b.slotCount b.stream

end CodeBuilder
end TaggedScript
