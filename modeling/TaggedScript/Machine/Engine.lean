import TaggedScript.Diagnostic
import TaggedScript.Evaluation
import TaggedScript.Machine.Codec
import TaggedScript.Machine.Stack
/-!
The stack machine. One step executes one instruction. A step that fails stops the machine, with
what it popped before gone from the stack; the machine can be started again with an empty stack,
and keeps its heap then.
-/
namespace TaggedScript

/-- The words that the stack and the heap may take. -/
structure EngineConfig where
  stackCapacity : Nat := 4096
  heapCapacity : Nat := 4096
deriving DecidableEq, Repr

/-- What code may do that compiled code does not. -/
inductive Corruption where
  | notStarted
  /-- The operand has to be a name. -/
  | notAName (w : Word)
  /-- The operand of `NEW` shows as `text` and is no class. -/
  | notAClass (text : String)
  /-- The caller of a frame shows as `text` and has no code. -/
  | notACaller (text : String)
  | stack (fault : StackFault)
  | heap (fault : HeapFault)
  | decode (fault : DecodeFault)
deriving DecidableEq

def Corruption.message : Corruption → String
  | notStarted => "engine has not been started"
  | notAName w => s!"expected an interned name, found {w.label}"
  | notAClass text => s!"NEW with non-class operand {text}"
  | notACaller text => s!"activation record names {text} as caller"
  | stack fault => fault.message
  | heap fault => fault.message
  | decode fault => fault.message

/-- What stops the machine itself. -/
inductive FatalKind where
  | heapExhausted (requested available : Nat)
  | stackOverflow (capacity : Nat)
  | invalidWord (e : InvalidWord)
  | unknownOpcode (opcode pc : Nat)
  | corruptOperand (c : Corruption)
deriving DecidableEq

def FatalKind.message : FatalKind → String
  | heapExhausted requested available => (HeapFault.exhausted requested available).message
  | stackOverflow capacity => (StackFault.overflow capacity).message
  | invalidWord e => e.message
  | unknownOpcode opcode pc => (DecodeFault.unknownOpcode opcode pc).message
  | corruptOperand c => s!"corrupt instruction stream: {c.message}"

/-- Why an instruction was not carried out. -/
inductive Fault where
  | failure (e : Failure)
  | fatal (kind : FatalKind)
deriving DecidableEq

namespace Fault

def corrupt (c : Corruption) : Fault := fatal (.corruptOperand c)

def ofInvalidWord (e : InvalidWord) : Fault := fatal (.invalidWord e)

def ofStack : StackFault → Fault
  | .overflow capacity => fatal (.stackOverflow capacity)
  | fault => corrupt (.stack fault)

def ofHeap : HeapFault → Fault
  | .exhausted requested available => fatal (.heapExhausted requested available)
  | .unknownField field => failure (.invalidField field)
  | .invalid e => ofInvalidWord e
  | fault => corrupt (.heap fault)

def ofDecode : DecodeFault → Fault
  | .unknownOpcode opcode pc => fatal (.unknownOpcode opcode pc)
  | fault => corrupt (.decode fault)

end Fault

/-- Why a run ended without a result. -/
inductive RunError where
  | failure (e : Failure)
  /-- The functions that were active come with it, innermost first. -/
  | fatal (kind : FatalKind) (trace : List String)
  /-- The code makes more steps than code can whose jumps go forward. -/
  | endless
deriving DecidableEq

namespace RunError

def message : RunError → String
  | failure e => e.message
  | fatal kind _ => kind.message
  | endless => "the code does not end"

def diagnostic (e : RunError) (source : Option String) : Diagnostic :=
  match e with
  | fatal kind trace => { message := s!"fatal: {kind.message}", trace, source }
  | e => { message := e.message, source }

end RunError

/-- The active functions as a text of one line for each. -/
def traceText (trace : List String) : String :=
  String.intercalate "\n" (trace.map ("\tat " ++ ·))

inductive Status where
  | idle
  | running
  | done (result : Value)
deriving DecidableEq

structure Engine where
  config : EngineConfig
  world : World
  dictionary : Dictionary
  stack : Stack
  heap : Heap
  /-- The function whose code is executed, once there was one. -/
  function : Option ObjectId
  pc : Nat
  status : Status

namespace Engine

/-- A machine that has not been started. -/
def make (config : EngineConfig) (world : World) (dictionary : Dictionary) : Engine :=
  { config, world, dictionary
    stack := .empty config.stackCapacity
    heap := .empty config.heapCapacity
    function := none
    pc := 0
    status := .idle }

def code (m : Engine) : Code :=
  match m.function with
  | some id => (m.world.object id).code?.getD default
  | none => default

/-- The name of the function that is executed. -/
def functionName (m : Engine) : String :=
  match m.function with
  | some id => (m.world.object id).name
  | none => "<idle>"

/-- The function with code that a word names, or the fault that there is none. -/
def callerOf (m : Engine) (w : Word) : Except Fault ObjectId :=
  match decode m.dictionary m.heap w with
  | .error e => .error (.ofInvalidWord e)
  | .ok v =>
    match v with
    | .object id =>
      if (m.world.object id).code?.isSome then .ok id
      else .error (.corrupt (.notACaller (m.world.text v)))
    | v => .error (.corrupt (.notACaller (m.world.text v)))

/-- The frame of a function that begins at `base`. -/
def frameOf (m : Engine) (base : Nat) (id : ObjectId) : Frame :=
  ⟨base, ((m.world.object id).code?.getD default).slotCount⟩

/-- The names of the functions that wait for a frame to be left, innermost first. A frame lies
above that of its caller. -/
def callers (m : Engine) (frame : Frame) : List String :=
  match m.stack.activationOf frame with
  | .error _ => []
  | .ok record =>
    match record.savedPc with
    | none => []
    | some _ =>
      match m.callerOf record.caller with
      | .error _ => ["<corrupt frame>"]
      | .ok id =>
        let name := (m.world.object id).name
        if record.savedBase < frame.base then
          name :: m.callers (m.frameOf record.savedBase id)
        else [name]
termination_by frame.base
decreasing_by assumption

/-- The names of the active functions, innermost first. -/
def stackTrace (m : Engine) : List String := m.functionName :: m.callers m.stack.frame

def raise (m : Engine) : Fault → RunError
  | .failure e => .failure e
  | .fatal kind => .fatal kind m.stackTrace

end Engine

/-- The execution of an instruction. -/
abbrev Exec := EStateM Fault Engine

/-- What is done with a machine from outside. -/
abbrev Drive := EStateM RunError Engine

namespace Exec

def fail {α : Type} (e : Failure) : Exec α := throw (.failure e)

def corrupt {α : Type} (c : Corruption) : Exec α := throw (.corrupt c)

/-- Reads the stack. -/
def inspect {α : Type} (f : Stack → Except StackFault α) : Exec α := fun m =>
  match f m.stack with
  | .ok a => .ok a m
  | .error e => .error (.ofStack e) m

/-- Acts on the stack. -/
def onStack {α : Type} (f : OnStack α) : Exec α := fun m =>
  let stack := m.stack
  let m := { m with stack := default }
  match f stack with
  | .ok a stack => .ok a { m with stack }
  | .error e stack => .error (.ofStack e) { m with stack }

def push (w : Word) : Exec Unit := onStack (Stack.push w)

def pop : Exec Word := onStack Stack.pop

/-- Acts on the heap. -/
def onHeap {α : Type} (f : OnHeap α) : Exec α := fun m =>
  let heap := m.heap
  let m := { m with heap := default }
  match f heap with
  | .ok a heap => .ok a { m with heap }
  | .error e heap => .error (.ofHeap e) { m with heap }

/-- Acts on the world. -/
def onWorld {α : Type} (f : Action α) : Exec α := fun m =>
  let world := m.world
  let m := { m with world := default }
  match f world with
  | .ok a world => .ok a { m with world }
  | .error e world => .error (.failure e) { m with world }

def jump (target : Nat) : Exec Unit := modify fun m => { m with pc := target }

def encodeValue (v : Value) : Exec Word := modifyGet fun m =>
  let (w, dictionary) := encode v m.dictionary
  (w, { m with dictionary })

def decodeWord (w : Word) : Exec Value := do
  let m ← get
  match decode m.dictionary m.heap w with
  | .ok v => return v
  | .error e => throw (.ofInvalidWord e)

/-- The name that an operand stands for. -/
def nameOf (w : Word) : Exec String := do
  match (← get).dictionary.lookup? w with
  | some (.str name) => return name
  | _ => corrupt (.notAName w)

/-- What has fields: a record, or an object of the world. -/
inductive Target where
  | record (offset : UInt32)
  | host (id : ObjectId)

/-- The owner of a field, which the word has to be. -/
def targetOf (w : Word) (field : String) : Exec Target := do
  match ← decodeWord w with
  | .ref offset => return .record offset
  | .object id => return .host id
  | v => fail ((← get).world.noFields field v)

/-- Reads the heap. -/
def readHeap {α : Type} (f : Heap → World → Dictionary → Except HeapFault α) : Exec α := fun m =>
  match f m.heap m.world m.dictionary with
  | .ok a => .ok a m
  | .error e => .error (.ofHeap e) m

/-- Makes a record of the operands on top. -/
def newRecord (shape : Word) : Exec Unit := do
  let width ← match ← decodeWord shape with
    | .shape id => pure ((← get).world.shape id).fields.length
    | v => corrupt (.notAClass ((← get).world.text v))
  let fields ← inspect (·.top width)
  let offset ← onHeap (Heap.allocate shape fields)
  onStack (Stack.dropTop width)
  push (.heap offset)

def getField (name : Word) : Exec Unit := do
  let field ← nameOf name
  let receiver ← pop
  let w ← match ← targetOf receiver field with
    | .record offset => readHeap fun h w d => h.getField w d offset field
    | .host id => encodeValue ((← get).world.field id field)
  push w

def putField (name : Word) : Exec Unit := do
  let field ← nameOf name
  let value ← pop
  let receiver ← pop
  match ← targetOf receiver field with
  | .record offset =>
    let m ← get
    onHeap (Heap.setField m.world m.dictionary offset field value)
  | .host id =>
    let v ← decodeWord value
    modify fun m => { m with world := m.world.setField id field v }

/-- Hands a value to the global `print`, which has to be a function. -/
def printTop : Exec Unit := do
  let v ← decodeWord (← pop)
  let world := (← get).world
  let print := world.global printName
  match print with
  | .object id =>
    if (world.object id).isCallable then
      let _ ← onWorld (invoke id .undefined [v])
    else
      fail (world.notAFunction print)
  | _ => fail (world.notAFunction print)
  push .undefined

/-- Calls a function without code. The call is replaced by its result. -/
def callNative (id : ObjectId) (argc : Nat) : Exec Unit := do
  let values ← (← inspect (·.top (argc + 1))).mapM decodeWord
  let result ← onWorld (invoke id (values.headD .undefined) values.tail)
  onStack (Stack.dropTop (argc + 2))
  push (← encodeValue result)

/-- Enters the frame of a function with code. -/
def enter (id : ObjectId) (code : Code) (argc : Nat) : Exec Unit := do
  let m ← get
  if code.parameterCount ≠ argc + 1 then
    fail (.wrongArity (m.world.object id).name (code.parameterCount - 1) argc)
  let caller ← match m.function with
    | some f => encodeValue (.object f)
    | none => pure .undefined
  let record : Activation := ⟨m.stack.frame.base, some m.pc, caller⟩
  onStack (Stack.pushFrame ⟨m.stack.pointer - (argc + 1), code.slotCount⟩ record)
  modify fun m => { m with function := some id, pc := 0 }

/-- Calls the function below the receiver and the arguments. -/
def call (argc : Nat) : Exec Unit := do
  let callee ← decodeWord (← inspect (·.peekAt (argc + 1)))
  let world := (← get).world
  match callee with
  | .object id =>
    match (world.object id).body with
    | .native _ => callNative id argc
    | .compiled code => enter id code argc
    | .plain => fail (world.notAFunction callee)
  | _ => fail (world.notAFunction callee)

/-- Leaves the frame. The result is that of the run if no caller waits for it. -/
def leave : Exec (Option Value) := do
  let result ← pop
  let record ← inspect (·.activation)
  match record.savedPc with
  | none =>
    let v ← decodeWord result
    modify fun m => { m with stack := m.stack.popFrame .outside }
    return some v
  | some pc =>
    let m ← get
    let caller ← MonadExcept.ofExcept (m.callerOf record.caller)
    set { m with stack := m.stack.popFrame (m.frameOf record.savedBase caller) }
    push result
    modify fun m => { m with function := some caller, pc }
    return none

/-- Carries out an instruction. Only `RET` in the outermost frame has a result. -/
def execute : Instr → Exec (Option Value)
  | .const w => do
    push w
    return none
  | .lookup name => do
    let x ← nameOf name
    push (← encodeValue ((← get).world.global x))
    return none
  | .register name => do
    let x ← nameOf name
    let v ← decodeWord (← pop)
    modify fun m => { m with world := m.world.setGlobal x v }
    return none
  | .load slot => do
    push (← inspect (·.slot slot))
    return none
  | .store slot => do
    let w ← pop
    onStack (Stack.setSlot slot w)
    return none
  | .dup => do
    push (← inspect (·.peek))
    return none
  | .pop => do
    let _ ← pop
    return none
  | .swap => do
    onStack Stack.swap
    return none
  | .funcall argc => do
    call argc
    return none
  | .ret => leave
  | .goto target => do
    jump target
    return none
  | .jumpIfFalse target => do
    if (← pop) = .ofBool false then jump target
    return none
  | .new shape => do
    newRecord shape
    return none
  | .get name => do
    getField name
    return none
  | .put name => do
    putField name
    return none
  | .print => do
    printTop
    return none

/-- Fetches the next instruction and carries it out. -/
def next : Exec (Option Value) := do
  let m ← get
  match m.code.fetch m.pc with
  | .error e => throw (.ofDecode e)
  | .ok i =>
    jump (m.pc + i.width)
    execute i

end Exec

/-- What a step came to. -/
inductive Step where
  | continue
  | done (result : Value)
deriving DecidableEq

namespace Engine

/-- Makes one step. A machine that is done has its result again. -/
def step : Drive Step := fun m =>
  match m.status with
  | .done v => .ok (.done v) m
  | .idle => .error (m.raise (.corrupt .notStarted)) m
  | .running =>
    match Exec.next m with
    | .ok none m => .ok .continue m
    | .ok (some v) m => .ok (.done v) { m with status := .done v }
    | .error fault m => .error (m.raise fault) { m with status := .idle }

/-- The frame of the function that a run begins with, on an empty stack. -/
def enterMain (id : ObjectId) (code : Code) : Exec Unit := do
  Exec.push (← Exec.encodeValue (.object id))
  Exec.onStack (Stack.pushFrame ⟨1, code.slotCount⟩ ⟨0, none, .undefined⟩)

/-- Makes a machine ready to run a function with code. -/
def start (main : ObjectId) : Drive Unit := fun m =>
  let m := { m with status := .idle }
  let o := m.world.object main
  match o.code? with
  | none => .error (.failure (.notCompiled o.name)) m
  | some code =>
    let m := { m with stack := .empty m.config.stackCapacity, function := some main, pc := 0 }
    match enterMain main code m with
    | .ok () m => .ok () { m with status := .running }
    | .error fault m => .error (m.raise fault) m

/-- Makes up to `n` steps, for a result. -/
def runFor : Nat → Drive (Option Value)
  | 0 => return none
  | n + 1 => do
    match ← step with
    | .done v => return some v
    | .continue => runFor n

/-- The steps of a round. -/
def roundSize : Nat := 65536

/-- Makes up to `n` rounds of steps. -/
def rounds : Nat → Drive Value
  | 0 => throw .endless
  | n + 1 => do
    match ← runFor roundSize with
    | some v => return v
    | none => rounds n

/-- The size of the longest code in the world. -/
def longestCode (w : World) : Nat :=
  w.objects.foldl (fun n o => max n ((o.code?.getD default).stream.size)) 0

/-- More rounds than code takes whose jumps go forward. Each frame takes up some of the stack,
and one of them makes no more steps itself than the longest code has instructions. -/
def roundBound (m : Engine) : Nat :=
  Nat.pow 2 ((m.config.stackCapacity + 1) * (Nat.log2 (longestCode m.world) + 2))

/-- Runs a function with code to its end. -/
def run (main : ObjectId) : Drive Value := do
  start main
  rounds (roundBound (← get))

end Engine
end TaggedScript
