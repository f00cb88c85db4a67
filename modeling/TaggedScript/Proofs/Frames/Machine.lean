import Mathlib.Algebra.GroupWithZero.Nat
import TaggedScript.Machine.Engine

/-!
A machine whose frames are apart from each other. A frame has its own slots and operands, and no
word of it says where it lies or which frame called it. The words of all frames together may be no
more than the stack of an `Engine` has room for.
-/
namespace TaggedScript

/-- The machine has no room left for what it should do. -/
def FatalKind.IsExhaustion : FatalKind → Prop
  | .heapExhausted .. => True
  | .stackOverflow _ => True
  | _ => False

def RunError.IsExhaustion : RunError → Prop
  | .fatal kind _ => kind.IsExhaustion
  | _ => False

/-- A function that is being executed: where it goes on, its slots, and its operands with the top
one first. -/
structure CallFrame where
  function : ObjectId
  pc : Nat
  slots : List Word
  operands : List Word

namespace CallFrame

/-- The words of a frame: its callee, its slots, a record of its caller and its operands. -/
def size (f : CallFrame) : Nat := 1 + f.slots.length + Frame.recordSize + f.operands.length

/-- A frame at the beginning of a function, whose slots begin with the receiver and the
arguments. -/
def enter (id : ObjectId) (slotCount : Nat) (args : List Word) : CallFrame :=
  ⟨id, 0, args ++ List.replicate (slotCount - args.length) .undefined, []⟩

end CallFrame

structure FrameMachine where
  config : EngineConfig
  world : World
  dictionary : Dictionary
  heap : Heap
  /-- The frame that is executed. -/
  current : CallFrame
  /-- The frames that wait, innermost first. -/
  callers : List CallFrame
  status : Status

namespace FrameMachine

def frames (m : FrameMachine) : List CallFrame := m.current :: m.callers

def size (m : FrameMachine) : Nat := (m.frames.map CallFrame.size).sum

def code (m : FrameMachine) : Code := (m.world.object m.current.function).code?.getD default

/-- The names of the active functions, innermost first. -/
def stackTrace (m : FrameMachine) : List String :=
  m.frames.map fun f => (m.world.object f.function).name

def raise (m : FrameMachine) : Fault → RunError
  | .failure e => .failure e
  | .fatal kind => .fatal kind m.stackTrace

def setOperands (m : FrameMachine) (operands : List Word) : FrameMachine :=
  { m with current := { m.current with operands } }

/-- What a frame keeps when it calls. The callee, the receiver and the arguments leave it. -/
def waiting (m : FrameMachine) (argc : Nat) : CallFrame :=
  { m.current with operands := m.current.operands.drop (argc + 2) }

/-- A call begins a frame with the receiver and the arguments in its first slots. -/
def enter (m : FrameMachine) (id : ObjectId) (slotCount argc : Nat) : FrameMachine :=
  { m with
    current := .enter id slotCount (m.current.operands.take (argc + 1)).reverse
    callers := m.waiting argc :: m.callers }

end FrameMachine

/-- The execution of an instruction. -/
abbrev FrameExec := EStateM Fault FrameMachine

namespace FrameExec

def fail {α : Type} (e : Failure) : FrameExec α := throw (.failure e)

def corrupt {α : Type} (c : Corruption) : FrameExec α := throw (.corrupt c)

def push (w : Word) : FrameExec Unit := fun m =>
  if m.config.stackCapacity < m.size + 1 then
    .error (.ofStack (.overflow m.config.stackCapacity)) m
  else .ok () (m.setOperands (w :: m.current.operands))

def pop : FrameExec Word := fun m =>
  match m.current.operands with
  | w :: rest => .ok w (m.setOperands rest)
  | [] => .error (.ofStack (.underflow m.size)) m

/-- The operand that lies `depth` below the top. -/
def peekAt (depth : Nat) : FrameExec Word := fun m =>
  match m.current.operands[depth]? with
  | some w => .ok w m
  | none => .error (.ofStack (.underflow m.size)) m

def swap : FrameExec Unit := fun m =>
  match m.current.operands with
  | upper :: lower :: rest => .ok () (m.setOperands (lower :: upper :: rest))
  | _ => .error (.ofStack (.underflow m.size)) m

/-- The top operands, the top one last. -/
def top (n : Nat) : FrameExec (List Word) := fun m =>
  if m.current.operands.length < n then .error (.ofStack (.underflow m.size)) m
  else .ok (m.current.operands.take n).reverse m

def dropTop (n : Nat) : FrameExec Unit := fun m =>
  if m.current.operands.length < n then .error (.ofStack (.underflow m.size)) m
  else .ok () (m.setOperands (m.current.operands.drop n))

def slot (i : Nat) : FrameExec Word := fun m =>
  match m.current.slots[i]? with
  | some w => .ok w m
  | none => .error (.ofStack (.slot i m.current.slots.length)) m

def setSlot (i : Nat) (w : Word) : FrameExec Unit := fun m =>
  if i < m.current.slots.length then
    .ok () { m with current := { m.current with slots := m.current.slots.set i w } }
  else .error (.ofStack (.slot i m.current.slots.length)) m

def onHeap {α : Type} (f : OnHeap α) : FrameExec α := fun m =>
  match f m.heap with
  | .ok a heap => .ok a { m with heap }
  | .error e heap => .error (.ofHeap e) { m with heap }

def readHeap {α : Type} (f : Heap → World → Dictionary → Except HeapFault α) : FrameExec α :=
  fun m =>
    match f m.heap m.world m.dictionary with
    | .ok a => .ok a m
    | .error e => .error (.ofHeap e) m

def onWorld {α : Type} (f : Action α) : FrameExec α := fun m =>
  match f m.world with
  | .ok a world => .ok a { m with world }
  | .error e world => .error (.failure e) { m with world }

def jump (target : Nat) : FrameExec Unit :=
  modify fun m => { m with current := { m.current with pc := target } }

def encodeValue (v : Value) : FrameExec Word := modifyGet fun m =>
  let (w, dictionary) := encode v m.dictionary
  (w, { m with dictionary })

def decodeWord (w : Word) : FrameExec Value := do
  let m ← get
  match decode m.dictionary m.heap w with
  | .ok v => return v
  | .error e => throw (.ofInvalidWord e)

/-- The name that an operand stands for. -/
def nameOf (w : Word) : FrameExec String := do
  match (← get).dictionary.lookup? w with
  | some (.str name) => return name
  | _ => corrupt (.notAName w)

/-- The owner of a field, which the word has to be. -/
def targetOf (w : Word) (field : String) : FrameExec Exec.Target := do
  match ← decodeWord w with
  | .ref offset => return .record offset
  | .object id => return .host id
  | v => fail ((← get).world.noFields field v)

/-- Makes a record of the operands on top. -/
def newRecord (shape : Word) : FrameExec Unit := do
  let width ← match ← decodeWord shape with
    | .shape id => pure ((← get).world.shape id).fields.length
    | v => corrupt (.notAClass ((← get).world.text v))
  let fields ← top width
  let offset ← onHeap (Heap.allocate shape fields)
  dropTop width
  push (.heap offset)

def getField (name : Word) : FrameExec Unit := do
  let field ← nameOf name
  let receiver ← pop
  let w ← match ← targetOf receiver field with
    | .record offset => readHeap fun h w d => h.getField w d offset field
    | .host id => encodeValue ((← get).world.field id field)
  push w

def putField (name : Word) : FrameExec Unit := do
  let field ← nameOf name
  let value ← pop
  let receiver ← pop
  match ← targetOf receiver field with
  | .record offset =>
    let m ← get
    onHeap (Heap.setField m.world m.dictionary offset field value)
  | .host id =>
    let v ← decodeWord value
    modify fun m => { m with world := m.world.setField id field v }

/-- Hands a value to the global `print`, which has to be a function. -/
def printTop : FrameExec Unit := do
  let v ← decodeWord (← pop)
  let world := (← get).world
  let print := world.global printName
  match print with
  | .object id =>
    if (world.object id).isCallable then
      let _ ← onWorld (invoke id .undefined [v])
    else
      fail (world.notAFunction print)
  | _ => fail (world.notAFunction print)
  push .undefined

/-- Calls a function without code. The call is replaced by its result. -/
def callNative (id : ObjectId) (argc : Nat) : FrameExec Unit := do
  let values ← (← top (argc + 1)).mapM decodeWord
  let result ← onWorld (invoke id (values.headD .undefined) values.tail)
  dropTop (argc + 2)
  push (← encodeValue result)

/-- Begins a frame for a function, if there is room for it. -/
def begin (id : ObjectId) (slotCount argc : Nat) : FrameExec Unit := fun m =>
  let entered := m.enter id slotCount argc
  if m.config.stackCapacity < entered.size then
    .error (.ofStack (.overflow m.config.stackCapacity)) m
  else .ok () entered

/-- Enters a function with code. -/
def enter (id : ObjectId) (code : Code) (argc : Nat) : FrameExec Unit := do
  let m ← get
  if code.parameterCount ≠ argc + 1 then
    fail (.wrongArity (m.world.object id).name (code.parameterCount - 1) argc)
  let _ ← encodeValue (.object m.current.function)
  begin id code.slotCount argc

/-- Calls the function below the receiver and the arguments. -/
def call (argc : Nat) : FrameExec Unit := do
  let callee ← decodeWord (← peekAt (argc + 1))
  let world := (← get).world
  match callee with
  | .object id =>
    match (world.object id).body with
    | .native _ => callNative id argc
    | .compiled code => enter id code argc
    | .plain => fail (world.notAFunction callee)
  | _ => fail (world.notAFunction callee)

/-- Drops the frame. Its result goes to the operands of its caller, or is that of the run. -/
def leave : FrameExec (Option Value) := do
  let result ← pop
  let m ← get
  match m.callers with
  | [] => return some (← decodeWord result)
  | caller :: rest =>
    set { m with current := caller, callers := rest }
    push result
    return none

/-- Carries out an instruction. Only `RET` in the outermost frame has a result. -/
def execute : Instr → FrameExec (Option Value)
  | .const w => do
    push w
    return none
  | .lookup name => do
    let x ← nameOf name
    push (← encodeValue ((← get).world.global x))
    return none
  | .register name => do
    let x ← nameOf name
    let v ← decodeWord (← pop)
    modify fun m => { m with world := m.world.setGlobal x v }
    return none
  | .load i => do
    push (← slot i)
    return none
  | .store i => do
    let w ← pop
    setSlot i w
    return none
  | .dup => do
    push (← peekAt 0)
    return none
  | .pop => do
    let _ ← pop
    return none
  | .swap => do
    swap
    return none
  | .funcall argc => do
    call argc
    return none
  | .ret => leave
  | .goto target => do
    jump target
    return none
  | .jumpIfFalse target => do
    if (← pop) = .ofBool false then jump target
    return none
  | .new shape => do
    newRecord shape
    return none
  | .get name => do
    getField name
    return none
  | .put name => do
    putField name
    return none
  | .print => do
    printTop
    return none

/-- Fetches the next instruction and carries it out. -/
def next : FrameExec (Option Value) := do
  let m ← get
  match m.code.fetch m.current.pc with
  | .error e => throw (.ofDecode e)
  | .ok i =>
    jump (m.current.pc + i.width)
    execute i

end FrameExec

namespace FrameMachine

/-- Makes one step. A machine that is done has its result again. -/
def step : EStateM RunError FrameMachine Step := fun m =>
  match m.status with
  | .done v => .ok (.done v) m
  | .idle => .error (m.raise (.corrupt .notStarted)) m
  | .running =>
    match FrameExec.next m with
    | .ok none m => .ok .continue m
    | .ok (some v) m => .ok (.done v) { m with status := .done v }
    | .error fault m => .error (m.raise fault) { m with status := .idle }

/-- A machine about to execute a function, with the world, the dictionary and the heap that an
`Engine` has. -/
def begin (main : ObjectId) (m : Engine) : FrameMachine :=
  { config := m.config
    world := m.world
    dictionary := m.dictionary
    heap := m.heap
    current := .enter main m.code.slotCount []
    callers := []
    status := .running }

end FrameMachine
end TaggedScript
