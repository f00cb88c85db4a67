import TaggedScript.Machine.Listing
import TaggedScript.Machine.Run
import TaggedScript.Syntax.Json
/-!
The command line: what is asked for, and what comes out of it.
-/
namespace TaggedScript
namespace CommandLine

/-- A form of the script that can be printed in place of running it. -/
inductive Emit where
  | tree
  | code
deriving DecidableEq, Repr

structure Options where
  /-- Without a file the script comes from the standard input. -/
  file : Option String := none
  mode : Mode := .machine
  config : EngineConfig := {}
  emit : Option Emit := none

/-- What a command writes and the status that it ends with. -/
structure Response where
  status : UInt8 := 0
  stdout : String := ""
  stderr : String := ""

def modeOf : String → Except String Mode
  | "ast" => .ok .tree
  | "stack" => .ok .machine
  | s => .error s!"invalid value '{s}' for '--mode'"

def emitOf : String → Except String Emit
  | "ast" => .ok .tree
  | "code" => .ok .code
  | s => .error s!"invalid value '{s}' for '--emit'"

/-- A number of words: decimal digits, which a plus sign may precede, for 64 bits at most. -/
def capacityOf (option s : String) : Except String Nat :=
  let digits := match s.toList with
    | '+' :: digits => digits
    | digits => digits
  let n := Lexer.decimalValue digits
  if digits.isEmpty || !digits.all Char.isDigit || 18446744073709551616 ≤ n then
    .error s!"invalid value '{s}' for '{option}'"
  else .ok n

/-- Sets one option. -/
def Options.set (o : Options) (option value : String) : Except String Options :=
  match option with
  | "--mode" => do return { o with mode := ← modeOf value }
  | "--emit" => do return { o with emit := some (← emitOf value) }
  | "--stack-size" => do
    return { o with config := { o.config with stackCapacity := ← capacityOf option value } }
  | "--heap-size" => do
    return { o with config := { o.config with heapCapacity := ← capacityOf option value } }
  | _ => .error s!"unexpected argument '{option}'"

/-- Splits `--option=value` at the first equals sign. -/
def splitOption (arg : String) : Option (String × String) :=
  let cs := arg.toList
  match cs.dropWhile (· != '=') with
  | '=' :: value => some (String.ofList (cs.takeWhile (· != '=')), String.ofList value)
  | _ => none

/-- Reads the arguments. An option has its value after an equals sign or in the next argument. -/
def Options.parse (o : Options) : List String → Except String Options
  | [] => .ok o
  | arg :: args =>
    if arg.startsWith "--" then
      match splitOption arg, args with
      | some (option, value), args => do (← o.set option value).parse args
      | none, value :: args => do (← o.set arg value).parse args
      | none, [] => .error s!"a value is required for '{arg}'"
    else
      { o with file := some arg }.parse args

/-- How messages name the place that the script comes from. -/
def Options.sourceName (o : Options) : String := o.file.getD "<stdin>"

/-- The script cannot be read. -/
def unreadable (o : Options) (reason : String) : Response :=
  { status := 1, stderr := s!"Error reading {o.sourceName}: {reason}\n" }

/-- The text of a source, which has to be UTF-8. -/
def textOf (bytes : ByteArray) : Except String String :=
  match String.fromUTF8? bytes with
  | some s => .ok s
  | none => .error "stream did not contain valid UTF-8"

def failed (color : Bool) (d : Diagnostic) (stdout : String) : Response :=
  { status := 1, stdout, stderr := d.render color }

/-- Prints the code of a script and of the functions in it. -/
def emitCode (color : Bool) (s : Script) : Response :=
  match compileScript s ⟨.initial false, .empty⟩ with
  | .ok main c =>
    let o := c.world.object main
    { stdout := Listing.render c.world c.dictionary o.name (o.code?.getD default) }
  | .error e _ => failed color ((ScriptError.compile e).diagnostic s.source) ""

/-- Runs a script for its output. -/
def execute (color : Bool) (o : Options) (s : Script) : Response :=
  match s.run o.mode o.config (.initial false) with
  | .ok _ w => { stdout := w.output }
  | .error e w => failed color (e.diagnostic s.source) w.output

/-- Does what the options ask for with the text of a script. -/
def respond (color : Bool) (o : Options) (source : String) : Response :=
  match parseSource source with
  | .error e => failed color (e.diagnostic source) ""
  | .ok s =>
    match o.emit with
    | some .tree => { stdout := s.toJson.pretty ++ "\n" }
    | some .code => emitCode color s
    | none => execute color o s

/-- Does what the options ask for with the bytes of a script, or says why there are none. -/
def respondBytes (color : Bool) (o : Options) (source : Except String ByteArray) : Response :=
  match source.bind textOf with
  | .ok text => respond color o text
  | .error reason => unreadable o reason

end CommandLine
end TaggedScript
