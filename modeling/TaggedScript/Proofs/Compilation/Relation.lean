import TaggedScript.Proofs.Compilation.Building
import TaggedScript.Proofs.Compilation.CodeAt
import TaggedScript.Proofs.Frames.Machine

/-!
When a machine is at a point of the meaning of a script: its words stand for the values of the
function, and its heap for the records.
-/
namespace TaggedScript

/-- Compiled functions with all that their code relies on. The values that are allowed are those
that may be met in a run; what has code among them is a function of the program. -/
structure Image where
  program : Program
  compiled : Compiling
  allows : Value → Prop
  fits : compiled.dictionary.size ≤ 2 ^ 32
  built : ∀ id p, program id = some p → p.Compiled compiled (compiled.world.object id)
  plain : ∀ v, v.isInterned = false → allows v
  constants : ∀ v ∈ compiled.dictionary.entries, allows v
  complete : ∀ id, allows (.object id) → (compiled.world.object id).code?.isSome →
    (program id).isSome

/-- The names that the code of the functions has: those of the globals and the fields that it
reads. -/
def Image.Reads (I : Image) (x : String) : Prop := .str x ∈ I.compiled.dictionary.entries

/-- What a function of the host can come by: what it is given, what it finds under the names that
the code has, and what is allowed and no reference. -/
inductive Native.Gets (I : Image) (view : View) (receiver : Value) (args : List Value) :
    Value → Prop
  | receiver : Gets I view receiver args receiver
  | arg {v : Value} : v ∈ args → Gets I view receiver args v
  | global {x : String} : I.Reads x → Gets I view receiver args (view.global x)
  | field {id : ObjectId} {x : String} : I.allows (.object id) → I.Reads x →
      Gets I view receiver args (view.field id x)
  | own {v : Value} : I.allows v → (∀ offset, v ≠ .ref offset) → Gets I view receiver args v

/-- The value that a change puts into the world. -/
def Effect.stored? : Effect → Option Value
  | setGlobal _ v | setField _ _ v => some v
  | write _ => none

/-- A function that stores and hands back only what it can come by. -/
def Native.Tame (I : Image) : Native → Prop
  | .print | .operator _ => True
  | .closure .. => False
  | .foreign respond => ∀ view receiver args,
      (∀ e ∈ (respond view receiver args).1, ∀ v ∈ e.stored?, Gets I view receiver args v) ∧
      ∀ v, (respond view receiver args).2 = .ok v → Gets I view receiver args v

/-- A world in which the functions can run. All others in it are tame. -/
structure World.Hosts (w : World) (I : Image) : Prop where
  code : I.compiled.world.SameCode w
  names : ∀ id, (w.object id).name = (I.compiled.world.object id).name
  natives : ∀ id n, (w.object id).body = .native n → n.Tame I
  shapes : w.shapes = I.compiled.world.shapes

/-- A value may be met, and if it is a reference it is that of a record. -/
structure Memory.Knows (I : Image) (σ : Memory) (v : Value) : Prop where
  allowed : I.allows v
  recorded : ∀ offset, v = .ref offset → (recordAt? σ.records offset.toNat).isSome

/-- What a dictionary may have entries for: values that may be met, and functions with code. -/
def Image.Names (I : Image) (v : Value) : Prop :=
  I.allows v ∨ ∃ id, v = .object id ∧ (I.compiled.world.object id).code?.isSome

/-- A word stands for a value, as long as all indices fit into words. -/
structure Denotes (I : Image) (σ : Memory) (a : FrameMachine) (w : Word) (v : Value) : Prop where
  known : σ.Knows I v
  decodes : a.dictionary.size ≤ 2 ^ 32 → decode a.dictionary a.heap w = .ok v

/-- The words of records that lie one after the other. -/
inductive HeapHolds (I : Image) (σ : Memory) (a : FrameMachine) : List Word → List Table → Prop
  | nil : HeapHolds I σ a [] []
  | cons {t : Table} {rest : List Table} {fields more : List Word} {shape : Word} {id : ShapeId} :
      (a.dictionary.size ≤ 2 ^ 32 → a.dictionary.lookup? shape = some (.shape id)) →
      (a.world.shape id).fields = t.map (·.1) →
      List.Forall₂ (Denotes I σ a) fields (t.map (·.2)) →
      HeapHolds I σ a more rest →
      HeapHolds I σ a (shape :: Heap.mark :: (fields ++ more)) (t :: rest)

/-- A machine holds what a script acts on. -/
structure Holds (I : Image) (σ : Memory) (a : FrameMachine) : Prop where
  world : a.world = σ.world
  hosts : σ.world.Hosts I
  dictionary : I.compiled.dictionary.Extends a.dictionary
  interned : a.dictionary.Interned
  entries : ∀ v ∈ a.dictionary.entries, I.Names v
  globals : ∀ x, I.Reads x → σ.Knows I (σ.world.global x)
  fields : ∀ id x, I.allows (.object id) → I.Reads x → σ.Knows I (σ.world.field id x)
  heap : HeapHolds I σ a a.heap.words.toList σ.records
  capacity : a.heap.capacity = σ.capacity
  addressed : ∀ offset, (recordAt? σ.records offset).isSome = true → offset < 2 ^ 32

/-- Where a function is executed: its code and its variables, the frames below it, and what words
of those have to stand for when it is left. -/
structure Context where
  config : EngineConfig
  function : ObjectId
  code : Code
  locals : List String
  callers : List CallFrame
  kept : List (Word × Value)

/-- A machine is about to execute the code at a position, with these values as operands, the top
one first. -/
structure At (I : Image) (ctx : Context) (σ : Memory) (pc : Nat) (vals : List Value)
    (a : FrameMachine) : Prop where
  holds : Holds I σ a
  status : a.status = .running
  config : a.config = ctx.config
  function : a.current.function = ctx.function
  code : (σ.world.object ctx.function).code? = some ctx.code
  pc : a.current.pc = pc
  callers : a.callers = ctx.callers
  locals : σ.slots.length = ctx.locals.length
  slots : List.Forall₂ (Denotes I σ a) a.current.slots σ.slots
  operands : List.Forall₂ (Denotes I σ a) a.current.operands vals
  kept : ∀ p ∈ ctx.kept, Denotes I σ a p.1 p.2
  room : a.size ≤ a.config.stackCapacity

/-- What was there before is there still. -/
structure Later (σ : Memory) (a : FrameMachine) (τ : Memory) (b : FrameMachine) : Prop where
  records : ∀ offset, (recordAt? σ.records offset).isSome → (recordAt? τ.records offset).isSome
  dictionary : a.dictionary.Extends b.dictionary
  heap : a.heap.pointer ≤ b.heap.pointer

namespace Later
variable {I : Image} {σ τ : Memory} {a b : FrameMachine}

theorem knows (h : Later σ a τ b) {v : Value} (known : σ.Knows I v) : τ.Knows I v :=
  ⟨known.allowed, fun offset same => h.records _ (known.recorded offset same)⟩

theorem denotes (h : Later σ a τ b) {w : Word} {v : Value} (means : Denotes I σ a w v) :
    Denotes I τ b w v where
  known := h.knows means.known
  decodes fits :=
    decode_mono h.dictionary h.heap (means.decodes (Nat.le_trans h.dictionary.size_le fits))

theorem all (h : Later σ a τ b) {ws : List Word} {vs : List Value}
    (means : List.Forall₂ (Denotes I σ a) ws vs) : List.Forall₂ (Denotes I τ b) ws vs :=
  means.imp fun _ _ => h.denotes

theorem heapHolds (h : Later σ a τ b) (shapes : b.world.shapes = a.world.shapes) {ws : List Word}
    {ts : List Table} (holds : HeapHolds I σ a ws ts) : HeapHolds I τ b ws ts := by
  induction holds with
  | nil => exact .nil
  | @cons t rest fields more shape id names declares means _ ih =>
    have names' : b.dictionary.size ≤ 2 ^ 32 → b.dictionary.lookup? shape = some (.shape id) :=
      fun fits => h.dictionary.lookup? (names (Nat.le_trans h.dictionary.size_le fits))
    have declares' : (b.world.shape id).fields = t.map (·.1) := by
      rw [World.shape, shapes]
      exact declares
    exact .cons names' declares' (h.all means) ih

end Later

theorem Memory.knows_of_ne {I : Image} {σ : Memory} {v : Value} (allowed : I.allows v)
    (h : ∀ offset, v ≠ .ref offset) : σ.Knows I v :=
  ⟨allowed, fun offset same => absurd same (h offset)⟩

/-- A value that needs neither an entry nor a record is known everywhere. -/
theorem Memory.knows_plain (I : Image) (σ : Memory) {v : Value} (plain : v.isInterned = false)
    (h : ∀ offset, v ≠ .ref offset) : σ.Knows I v :=
  knows_of_ne (I.plain v plain) h

end TaggedScript
