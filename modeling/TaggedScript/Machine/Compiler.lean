import TaggedScript.Machine.Codec
/-!
Compilation of syntax trees. A function keeps its receiver in slot zero, then its parameters, then
every variable that its body declares; all other names are global, and so are the variables of a
script. The code of an expression leaves one word on top of the operands and those below it alone. It
is emitted into a builder, where the jumps of a condition are patched as soon as their targets are
known.
-/
namespace TaggedScript

/-- Why a function has no code. -/
inductive CompileFault where
  | duplicateParameter (function name : String)
  | thisParameter (function : String)
deriving DecidableEq

structure CompileError where
  fault : CompileFault
  span : Span
deriving DecidableEq

namespace CompileError

def message (e : CompileError) : String :=
  match e.fault with
  | .duplicateParameter function name => s!"duplicate parameter {name} in {function}"
  | .thisParameter function => s!"`this` cannot be used as a parameter of {function}"

end CompileError

/-- What compiling adds to: functions and classes to the world, constants to the dictionary. -/
structure Compiling where
  world : World
  dictionary : Dictionary

abbrev Compile := EStateM CompileError Compiling

namespace Compile

/-- The word of a constant. -/
def constant (v : Value) : Compile Word := modifyGet fun c =>
  let (w, d) := encode v c.dictionary
  (w, { c with dictionary := d })

def name (x : String) : Compile Word := constant (.str x)

/-- A new function with that code. -/
def newFunction (name : String) (code : Code) : Compile ObjectId := modifyGet fun c =>
  let (id, w) := c.world.addObject (.ofCode name code)
  (id, { c with world := w })

/-- The word of a new class for records with those fields. -/
def newClass (fields : List String) : Compile Word := do
  let id ← modifyGet fun c =>
    let (id, w) := c.world.addShape ⟨"object", fields⟩
    (id, { c with world := w })
  constant (.shape id)

/-- The parameters after the receiver, which differ from it and from each other. -/
def checkParameters (function : String) (span : Span) : List String → List String → Compile Unit
  | _, [] => return ()
  | slots, x :: params => do
    if x = thisName then throw ⟨.thisParameter function, span⟩
    if x ∈ slots then throw ⟨.duplicateParameter function x, span⟩
    checkParameters function span (slots ++ [x]) params

end Compile

namespace Expr

mutual

/-- The names that an expression declares, functions inside it left out. -/
def declared : Expr → List String
  | literal .. => []
  | var .. => []
  | assign _ x declare e => if declare then x :: e.declared else e.declared
  | field _ r _ => r.declared
  | setField _ r _ e => r.declared ++ e.declared
  | call _ f args => f.declared ++ declaredAll args
  | methodCall _ r _ args => r.declared ++ declaredAll args
  | function .. => []
  | object _ fields => declaredFields fields
  | cond _ c t e => c.declared ++ declaredAll t ++ declaredAll e
  | ret _ e => e.declared
  | block _ body => declaredAll body

def declaredAll : List Expr → List String
  | [] => []
  | e :: es => e.declared ++ declaredAll es

def declaredFields : List (String × Expr) → List String
  | [] => []
  | (_, e) :: fields => e.declared ++ declaredFields fields

end

end Expr

/-- Slots for more names, each of which gets one if it has none yet. -/
def extendSlots (slots names : List String) : List String :=
  names.foldl (fun slots x => if x ∈ slots then slots else slots ++ [x]) slots

/-- The slot of a name. -/
def slotOf? (slots : List String) (x : String) : Option Nat := slots.findIdx? (· = x)

namespace Compile

/-- The argument of a call that `PRINT` can do: a call of the global `print` with one argument. -/
def printed? (slots : List String) (callee : Expr) (args : List Expr) : Bool :=
  match callee, args with
  | .var _ x, [_] => x = printName && (slotOf? slots x).isNone
  | _, _ => false

def literal : Literal → Compile Word
  | .undefined => return .undefined
  | .bool b => return .ofBool b
  | .int n => return .ofInt n
  | .str s => constant (.str s)

end Compile

/-- Compiles into code in the making. -/
abbrev Emitter := StateT CodeBuilder Compile

namespace Emitter

open Compile (constant name)

def instr (i : Instr) : Emitter Unit := modify (·.emit i)

/-- Emits a jump that has no target yet, and tells where it is. -/
def jump (make : Nat → Instr) : Emitter Nat := modifyGet fun b => (b.position, b.emit (make 0))

def patchHere (jump : Nat) : Emitter Unit := modify (·.patchHere jump)

/-- Pushes a variable. -/
def read (slots : List String) (x : String) : Emitter Unit := do
  match slotOf? slots x with
  | some slot => instr (.load slot)
  | none => instr (.lookup (← name x))

/-- Pops a value into a variable. -/
def write (slots : List String) (x : String) : Emitter Unit := do
  match slotOf? slots x with
  | some slot => instr (.store slot)
  | none => instr (.register (← name x))

/-- The code of a function, given how to emit that of its body. -/
def code (parameterCount slotCount : Nat) (body : Emitter Unit) : Compile Code := do
  let whole : Emitter Unit := do
    body
    instr .ret
  let (_, b) ← whole.run (.empty parameterCount slotCount)
  return b.finish

/-- Compiles a function and those inside it, given how to emit its body with its slots. -/
def functionWith (emitBody : List String → Emitter Unit) (span : Span) (name? : Option String)
    (params : List String) (body : List Expr) : Compile ObjectId := do
  let name := name?.getD lambdaName
  Compile.checkParameters name span [thisName] params
  let slots := extendSlots (thisName :: params) (Expr.declaredAll body)
  Compile.newFunction name (← code (params.length + 1) slots.length (emitBody slots))

mutual

def expr (slots : List String) : Expr → Emitter Unit
  | .literal _ v => do instr (.const (← Compile.literal v))
  | .var _ x => read slots x
  | .assign _ x _ e => do
    expr slots e
    instr .dup
    write slots x
  | .field _ r x => do
    expr slots r
    instr (.get (← name x))
  | .setField _ r x e => do
    expr slots e
    instr .dup
    expr slots r
    instr .swap
    instr (.put (← name x))
  | .call _ f args => do
    if Compile.printed? slots f args then
      all slots args
      instr .print
    else
      expr slots f
      instr (.const .undefined)
      all slots args
      instr (.funcall args.length)
  | .methodCall _ r x args => do
    expr slots r
    instr .dup
    instr (.get (← name x))
    instr .swap
    all slots args
    instr (.funcall args.length)
  | .function span name? params body => do
    let id ← functionWith (fun slots => block slots body) span name? params body
    instr (.const (← constant (.object id)))
    match name? with
    | some x =>
      instr .dup
      instr (.register (← name x))
    | none => return
  | .object _ entries => do
    let shape ← Compile.newClass (entries.map (·.1))
    fields slots entries
    instr (.new shape)
  | .cond _ test thenBlock elseBlock => do
    expr slots test
    let toElse ← jump .jumpIfFalse
    block slots thenBlock
    let toEnd ← jump .goto
    patchHere toElse
    block slots elseBlock
    patchHere toEnd
  | .ret _ e => do
    expr slots e
    instr .ret
  | .block _ body => block slots body

/-- Expressions whose values stay on the stack. -/
def all (slots : List String) : List Expr → Emitter Unit
  | [] => return
  | e :: es => do
    expr slots e
    all slots es

def fields (slots : List String) : List (String × Expr) → Emitter Unit
  | [] => return
  | (_, e) :: es => do
    expr slots e
    fields slots es

/-- Statements whose values are dropped. They leave `undefined`. -/
def block (slots : List String) : List Expr → Emitter Unit
  | [] => instr (.const .undefined)
  | e :: es => do
    expr slots e
    instr .pop
    block slots es

end

end Emitter

/-- Compiles a script into a function `main`. -/
def compileScript (s : Script) : Compile ObjectId := do
  Compile.newFunction "main" (← Emitter.code 1 1 (Emitter.block [thisName] s.body))

/-- Compiles a function definition that stands at a place of the source. -/
def compileFunction (f : FunDef) (span : Span) : Compile ObjectId :=
  Emitter.functionWith (fun slots => Emitter.block slots f.body) span f.name f.params f.body

end TaggedScript
