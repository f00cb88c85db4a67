import TaggedScript.Machine.Codec
import TaggedScript.Text.Column
/-!
Listings of code for people. Jumps show the label of their target, words what they mean. The
functions that a listing mentions as constants are listed after it, each once, in the order of
their first mention.
-/
namespace TaggedScript
namespace Listing

/-- What a word operand means. -/
def describe (w : World) (d : Dictionary) (word : Word) : String :=
  match word.tag with
  | some (.int n) => toString n.toInt
  | some (.bool b) => toString b
  | some .undefined => "undefined"
  | some (.heap offset) => s!"@{offset.toNat}"
  | some (.interned index) =>
    match d.get? index with
    | some (.str s) => Text.quote s
    | some (.shape id) =>
      let shape := w.shape id
      shape.name ++ " \x7b" ++ String.intercalate ", " shape.fields ++ "\x7d"
    | some v => w.text v
    | none => word.label
  | none => word.label

/-- The distinct targets of the jumps of a listing. -/
def targets (instrs : List (Nat × Instr)) : List Nat :=
  (instrs.filterMap fun (_, i) => i.jumpTarget?).eraseDups

/-- The label of a target. Labels are numbered in the order of their addresses. -/
def label? (targets : List Nat) (pc : Nat) : Option String :=
  if pc ∈ targets then some s!"L{targets.countP (· < pc)}" else none

/-- How an instruction shows its operand. -/
def operand (w : World) (d : Dictionary) (targets : List Nat) : Instr → String
  | .const word | .lookup word | .register word | .new word | .get word | .put word =>
    describe w d word
  | .load n | .store n | .funcall n => toString n
  | .goto target | .jumpIfFalse target => (label? targets target).getD s!"@{target}"
  | .dup | .pop | .swap | .ret | .print => ""

/-- The line of an instruction. -/
def line (w : World) (d : Dictionary) (targets : List Nat) (pc : Nat) (i : Instr) : String :=
  let label := match label? targets pc with
    | some label => label ++ ":"
    | none => ""
  let address := Text.padLeft 4 (toString pc)
  let body := Text.padRight 14 i.mnemonic ++ operand w d targets i
  Text.trimRight ("  " ++ address ++ " " ++ Text.padLeft 4 label ++ "  " ++ body) ++ "\n"

/-- The listing of one function without those that it mentions. -/
def functionText (w : World) (d : Dictionary) (name : String) (code : Code) : String :=
  let head := s!"{name} (params: {code.parameterCount}, slots: {code.slotCount})\n"
  match code.decodeAll with
  | .error fault => head ++ s!"  <{fault.message}>\n"
  | .ok instrs =>
    let jumps := targets instrs
    head ++ String.join (instrs.map fun (pc, i) => line w d jumps pc i)

/-- The compiled function that a constant names. -/
def compiled? (w : World) (d : Dictionary) : Instr → Option ObjectId
  | .const word =>
    match d.lookup? word with
    | some (.object id) => if (w.object id).code?.isSome then some id else none
    | _ => none
  | _ => none

/-- The functions that code mentions, in order and with repetitions. Code that does not decode
mentions none. -/
def mentions (w : World) (d : Dictionary) (code : Code) : List ObjectId :=
  match code.decodeAll with
  | .error _ => []
  | .ok instrs => instrs.filterMap fun (_, i) => compiled? w d i

/-- Adds what is not there yet, each once. -/
def addNew (found new : List ObjectId) : List ObjectId :=
  new.foldl (fun found id => if id ∈ found then found else found ++ [id]) found

/-- Follows the mentions of the functions in `found` from the `next`th on. -/
def follow (w : World) (d : Dictionary) : Nat → Nat → List ObjectId → List ObjectId
  | 0, _, found => found
  | n + 1, next, found =>
    match found[next]? with
    | none => found
    | some id =>
      let code := (w.object id).code?.getD default
      follow w d n (next + 1) (addNew found (mentions w d code))

/-- The functions that code leads to, in the order of their first mention. All are in the
dictionary, so there are no more than it has entries. -/
def reached (w : World) (d : Dictionary) (code : Code) : List ObjectId :=
  follow w d d.size 0 (addNew [] (mentions w d code))

/-- The listing of a function and of all that it leads to. -/
def render (w : World) (d : Dictionary) (name : String) (code : Code) : String :=
  let rest := (reached w d code).map fun id =>
    let o := w.object id
    "\n" ++ functionText w d o.name (o.code?.getD default)
  functionText w d name code ++ String.join rest

end Listing

/-- The instructions of code as they are encoded, up to the first that does not decode. -/
def Code.dump (code : Code) : String :=
  let (instrs, fault) := code.decoded
  let stop := instrs.foldr (fun (_, i) n => i.width + n) 0
  let row := fun (pc : Nat) (text : String) =>
    "    " ++ Text.padLeft 4 (toString pc) ++ "  " ++ text ++ "\n"
  let rows := instrs.map fun (pc, i) => row pc i.label
  let last := match fault with
    | some fault => row stop s!"<{fault.message}>"
    | none => ""
  "Code \x7b\n" ++
  s!"  parameter_count: {code.parameterCount}\n" ++
  s!"  slot_count: {code.slotCount}\n" ++
  "  instructions:\n" ++ String.join rows ++ last ++ "\x7d"

end TaggedScript
