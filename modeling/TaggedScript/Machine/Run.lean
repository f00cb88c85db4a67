import TaggedScript.Machine.Compiler
import TaggedScript.Machine.Engine
import TaggedScript.Syntax.Parser
/-!
Scripts from source to result, on either evaluator.
-/
namespace TaggedScript

/-- Why a script has no result. -/
inductive ScriptError where
  | compile (e : CompileError)
  | run (e : RunError)

namespace ScriptError

def message : ScriptError → String
  | compile e => e.message
  | run e => e.message

def diagnostic (source : Option String) : ScriptError → Diagnostic
  | compile e => { message := e.message, label := some ⟨e.span, "in this function"⟩, source }
  | run e => e.diagnostic source

end ScriptError

/-- How to run a script. -/
inductive Mode where
  /-- By evaluation of its tree. -/
  | tree
  /-- On the stack machine. -/
  | machine
deriving DecidableEq, Repr

/-- Compiles a script with a dictionary of its own and runs it on a machine of its own. -/
def Script.execute (s : Script) (config : EngineConfig) : EStateM ScriptError World Value := fun w =>
  match compileScript s ⟨w, .empty⟩ with
  | .error e c => .error (.compile e) c.world
  | .ok main c =>
    match Engine.run main (.make config c.world c.dictionary) with
    | .ok v m => .ok v m.world
    | .error e m => .error (.run e) m.world

/-- Runs a script in a world, which keeps what the script did. -/
def Script.run (s : Script) (mode : Mode) (config : EngineConfig) :
    EStateM ScriptError World Value := fun w =>
  match mode with
  | .machine => s.execute config w
  | .tree =>
    match s.evaluate w with
    | .ok v w => .ok v w
    | .error e w => .error (.run (.failure e)) w

end TaggedScript
