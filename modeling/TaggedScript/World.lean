import TaggedScript.Failure
import TaggedScript.Machine.Code
import TaggedScript.Syntax
import TaggedScript.Value
/-!
The world that programs act on: objects, shapes, scopes and the output. Both evaluators share it,
and it outlives their runs.
-/
namespace TaggedScript

/-- Where names are bound. -/
structure ScopeId where
  index : Nat
deriving DecidableEq, Repr, Inhabited

/-- One run of the tree evaluator. -/
structure RunId where
  index : Nat
deriving DecidableEq, Repr, Inhabited

/-- What a function of the host can see of the world. -/
structure View where
  text : Value → String
  global : String → Value
  field : ObjectId → String → Value
  closed : Bool

/-- A change that a function of the host makes to the world. -/
inductive Effect where
  | setGlobal (name : String) (value : Value)
  | setField (object : ObjectId) (field : String) (value : Value)
  | write (text : String)

/-- What calling a function does outside the stack machine. -/
inductive Native where
  | print
  | operator (op : Operator)
  /-- A function of the tree evaluator, with the scope and the run that made it. -/
  | closure (scope : ScopeId) (run : RunId) (definition : FunDef)
  /-- A function of the host. What it sees, its receiver and its arguments decide what it changes and
  what it answers. It makes no objects, and what it has to remember it keeps in fields. -/
  | foreign (respond : View → Value → List Value → List Effect × Except String Value)

/-- A function of the host that changes nothing. -/
def Native.host (respond : (Value → String) → Value → List Value → Except String Value) : Native :=
  .foreign fun view receiver args => ([], respond view.text receiver args)

inductive Body where
  | plain
  | native (native : Native)
  | compiled (code : Code)

/-- A named bag of fields, which may also be a function. -/
structure HostObject where
  name : String
  body : Body
  fields : Table

namespace HostObject

def plain (fields : Table) : HostObject := ⟨"object", .plain, fields⟩

def ofNative (name : String) (native : Native) : HostObject := ⟨name, .native native, []⟩

def ofCode (name : String) (code : Code) : HostObject := ⟨name, .compiled code, []⟩

instance : Inhabited HostObject := ⟨plain []⟩

def isCallable (o : HostObject) : Bool :=
  match o.body with
  | .plain => false
  | _ => true

def code? (o : HostObject) : Option Code :=
  match o.body with
  | .compiled code => some code
  | _ => none

/-- How messages name the kind of an object. -/
def kind (o : HostObject) : String :=
  match o.body with
  | .plain => "object"
  | .native _ => "native"
  | .compiled _ => "compiled"

/-- A short description of an object for people who debug the host. -/
def label (o : HostObject) : String :=
  "JsObject \x7b name: " ++ Text.quote o.name ++ ", kind: " ++ Text.quote o.kind ++ " \x7d"

end HostObject

/-- The fields of the records of a class, in the order of their slots. -/
structure Shape where
  name : String
  fields : List String
deriving DecidableEq, Inhabited

namespace Shape

/-- The slot of the first field of that name. -/
def slotOf? (s : Shape) (field : String) : Option Nat := s.fields.findIdx? (· = field)

end Shape

/-- Names bound in one place, and where to look for others. -/
structure Scope where
  parent : Option ScopeId
  bindings : Table
deriving Inhabited

structure World where
  objects : Array HostObject
  shapes : Array Shape
  scopes : Array Scope
  /-- For each run of the tree evaluator, how many of its functions are active. -/
  activeCalls : Array Nat
  output : String
  /-- The output takes no text. -/
  closed : Bool
deriving Inhabited

namespace World

def object (w : World) (id : ObjectId) : HostObject := w.objects.getD id.index default

def shape (w : World) (id : ShapeId) : Shape := w.shapes.getD id.index default

def scope (w : World) (id : ScopeId) : Scope := w.scopes.getD id.index default

def addObject (w : World) (o : HostObject) : ObjectId × World :=
  (⟨w.objects.size⟩, { w with objects := w.objects.push o })

def addShape (w : World) (s : Shape) : ShapeId × World :=
  (⟨w.shapes.size⟩, { w with shapes := w.shapes.push s })

def addScope (w : World) (s : Scope) : ScopeId × World :=
  (⟨w.scopes.size⟩, { w with scopes := w.scopes.push s })

/-- The value of a field of an object; a field that it lacks is `undefined`. -/
def field (w : World) (id : ObjectId) (name : String) : Value :=
  ((w.object id).fields.get? name).getD .undefined

/-- Writes a field of an object, which gets it if it lacks it. -/
def setField (w : World) (id : ObjectId) (name : String) (value : Value) : World :=
  { w with objects := w.objects.modify id.index fun o =>
      { o with fields := o.fields.set name value } }

/-- The name of the type of a value. -/
def typeOf (w : World) : Value → String
  | .undefined => "undefined"
  | .bool _ => "boolean"
  | .int _ => "integer"
  | .str _ => "string"
  | .object id => if (w.object id).isCallable then "function" else "object"
  | .shape _ => "class"
  | .ref _ => "object"

/-- How a value shows, with objects inside objects up to a depth. -/
def textWithin (w : World) : Nat → Value → String
  | _, .undefined => "undefined"
  | _, .bool b => if b then "true" else "false"
  | _, .int n => toString n.toInt
  | _, .str s => s
  | _, .shape id => s!"class {(w.shape id).name}"
  | _, .ref offset => s!"object@{offset.toNat}"
  | 0, .object _ => "…"
  | depth + 1, .object id =>
    let o := w.object id
    if o.isCallable then s!"function {o.name}"
    else match o.fields with
      | [] => "\x7b\x7d"
      | fields =>
        let entries := fields.map fun (k, v) => s!"{k}: {textWithin w depth v}"
        "\x7b " ++ String.intercalate ", " entries ++ " \x7d"

/-- How a value shows. Objects nest no deeper than there are objects, unless one is inside
itself. -/
def text (w : World) (v : Value) : String := w.textWithin (w.objects.size + 1) v

/-- The failure of a call of that value. -/
def notAFunction (w : World) : Value → Failure
  | .undefined => .callUndefined
  | v => .notAFunction (w.text v)

/-- The failure of an access to a field of that value. -/
def noFields (w : World) (field : String) (v : Value) : Failure := .noFields field (w.text v)

end World

/-- What acts on the world and may fail. What was done before a failure stays done. -/
abbrev Action := EStateM Failure World

end TaggedScript
