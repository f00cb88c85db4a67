import TaggedScript.World
/-!
Name resolution. Scopes form trees; a name belongs to the nearest scope that binds it, or to the
root of the tree if none does. Reading and assigning go to the same place.
-/
namespace TaggedScript
namespace World

/-- The scope that a name belongs to. A scope is younger than the one around it. -/
def resolve (w : World) (id : ScopeId) (name : String) : ScopeId :=
  let s := w.scope id
  match s.bindings.get? name, s.parent with
  | none, some parent => if parent.index < id.index then w.resolve parent name else id
  | _, _ => id
termination_by id.index

/-- The value that a scope itself binds to a name. -/
def lookupLocal? (w : World) (id : ScopeId) (name : String) : Option Value :=
  (w.scope id).bindings.get? name

/-- The value of a name; a name that no scope binds is `undefined`. -/
def lookup (w : World) (id : ScopeId) (name : String) : Value :=
  (w.lookupLocal? (w.resolve id name) name).getD .undefined

/-- Binds a name in a scope itself. -/
def register (w : World) (id : ScopeId) (name : String) (value : Value) : World :=
  { w with scopes := w.scopes.modify id.index fun s =>
      { s with bindings := s.bindings.set name value } }

/-- Changes a name where it belongs. -/
def assign (w : World) (id : ScopeId) (name : String) (value : Value) : World :=
  w.register (w.resolve id name) name value

/-- The scope of all programs. -/
def globalScope : ScopeId := ⟨0⟩

def global (w : World) (name : String) : Value := w.lookup globalScope name

def setGlobal (w : World) (name : String) (value : Value) : World :=
  w.register globalScope name value

end World
end TaggedScript
