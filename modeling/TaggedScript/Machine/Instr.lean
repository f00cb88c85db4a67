import TaggedScript.Machine.Word
/-!
Instructions and their encoding. A stream is a sequence of numbers: an opcode, then the operand
if the instruction has one. An operand is a position, a count, or the bits of a word.
-/
namespace TaggedScript

inductive Instr where
  /-- Pushes the word. -/
  | const (w : Word)
  /-- Pushes the global of that name. -/
  | lookup (name : Word)
  /-- Pops a value and binds the global of that name. -/
  | register (name : Word)
  | load (slot : Nat)
  | store (slot : Nat)
  | dup
  | pop
  | swap
  /-- Calls the function that lies below its receiver and its arguments. -/
  | funcall (argc : Nat)
  | ret
  | goto (target : Nat)
  /-- Pops a word and jumps if it is `false`. -/
  | jumpIfFalse (target : Nat)
  /-- Replaces the field values on the stack by a new record of that class. -/
  | new (shape : Word)
  | get (name : Word)
  | put (name : Word)
  /-- Pops a value and hands it to the global `print`. -/
  | print
deriving DecidableEq

/-- Why no instruction could be read. -/
inductive DecodeFault where
  | unknownOpcode (opcode pc : Nat)
  | missingOperand (mnemonic : String) (pc : Nat)
  /-- The operand has to be a word and does not fit into one. -/
  | wideOperand (mnemonic : String) (pc operand : Nat)
  | outOfBounds (pc : Nat)
deriving DecidableEq

def DecodeFault.message : DecodeFault → String
  | unknownOpcode opcode pc => s!"unknown opcode {opcode} at {pc}"
  | missingOperand mnemonic pc => s!"{mnemonic} at {pc} is missing its operand"
  | wideOperand mnemonic pc operand =>
    s!"{mnemonic} at {pc} has operand 0x{Text.hexadecimal operand} out of range"
  | outOfBounds pc => s!"pc {pc} is past the end of the instruction stream"

namespace Instr

def mnemonic : Instr → String
  | const _ => "CONST"
  | lookup _ => "LOOKUP"
  | register _ => "REGISTER"
  | load _ => "LOAD"
  | store _ => "STORE"
  | dup => "DUP"
  | pop => "POP"
  | swap => "SWAP"
  | funcall _ => "FUNCALL"
  | ret => "RET"
  | goto _ => "GOTO"
  | jumpIfFalse _ => "JUMP_IF_FALSE"
  | new _ => "NEW"
  | get _ => "GET"
  | put _ => "PUT"
  | print => "PRINT"

/-- Opcodes begin at one, so that a stream of zeros never decodes. -/
def opcode : Instr → Nat
  | const _ => 1
  | lookup _ => 2
  | register _ => 3
  | load _ => 4
  | store _ => 5
  | dup => 6
  | pop => 7
  | swap => 8
  | funcall _ => 9
  | ret => 10
  | goto _ => 11
  | jumpIfFalse _ => 12
  | new _ => 13
  | get _ => 14
  | put _ => 15
  | print => 16

def operand? : Instr → Option Nat
  | const w | lookup w | register w | new w | get w | put w => some w.toNat
  | load n | store n | funcall n | goto n | jumpIfFalse n => some n
  | dup | pop | swap | ret | print => none

def jumpTarget? : Instr → Option Nat
  | goto target | jumpIfFalse target => some target
  | _ => none

/-- The numbers that an instruction takes up. -/
def encode (i : Instr) : List Nat := i.opcode :: i.operand?.toList

def width (i : Instr) : Nat := i.encode.length

/-- How messages show an instruction. -/
def label : Instr → String
  | const w => s!"Const({w.label})"
  | lookup w => s!"Lookup({w.label})"
  | register w => s!"Register({w.label})"
  | load n => s!"Load({n})"
  | store n => s!"Store({n})"
  | dup => "Dup"
  | pop => "Pop"
  | swap => "Swap"
  | funcall n => s!"Funcall({n})"
  | ret => "Ret"
  | goto n => s!"Goto({n})"
  | jumpIfFalse n => s!"JumpIfFalse({n})"
  | new w => s!"New({w.label})"
  | get w => s!"Get({w.label})"
  | put w => s!"Put({w.label})"
  | print => "Print"

/-- The instructions of one kind, by their operand. -/
inductive Form where
  | plain (i : Instr)
  | word (make : Word → Instr)
  | index (make : Nat → Instr)

def form? : Nat → Option Form
  | 1 => some (.word const)
  | 2 => some (.word lookup)
  | 3 => some (.word register)
  | 4 => some (.index load)
  | 5 => some (.index store)
  | 6 => some (.plain dup)
  | 7 => some (.plain pop)
  | 8 => some (.plain swap)
  | 9 => some (.index funcall)
  | 10 => some (.plain ret)
  | 11 => some (.index goto)
  | 12 => some (.index jumpIfFalse)
  | 13 => some (.word new)
  | 14 => some (.word get)
  | 15 => some (.word put)
  | 16 => some (.plain print)
  | _ => none

/-- The instruction of an opcode and the number after it, which is not looked at unless the
instruction has an operand. -/
def decode (pc opcode : Nat) (next? : Option Nat) : Except DecodeFault Instr :=
  match form? opcode, next? with
  | none, _ => .error (.unknownOpcode opcode pc)
  | some (.plain i), _ => .ok i
  | some (.index make), some n => .ok (make n)
  | some (.word make), some n =>
    if n < 18446744073709551616 then .ok (make (.ofNat n))
    else .error (.wideOperand (make .undefined).mnemonic pc n)
  | some (.index make), none => .error (.missingOperand (make 0).mnemonic pc)
  | some (.word make), none => .error (.missingOperand (make .undefined).mnemonic pc)

end Instr
end TaggedScript
