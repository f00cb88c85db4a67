import TaggedScript.Machine.Heap
/-!
Values as words and back. Words hold small values themselves and name all others by their place
in the dictionary or the heap.
-/
namespace TaggedScript

/-- The word of a value, and the dictionary with the value in it if the word needs it there. -/
def encode (v : Value) (d : Dictionary) : Word × Dictionary :=
  match v with
  | .undefined => (.undefined, d)
  | .bool b => (.ofBool b, d)
  | .int n => (.ofInt n, d)
  | .ref offset => (.heap offset, d)
  | .str _ | .object _ | .shape _ =>
    let (index, d) := d.intern v
    (.interned index, d)

/-- The value of a word. A reference needs its record in the heap. -/
def decode (d : Dictionary) (h : Heap) (w : Word) : Except InvalidWord Value :=
  match w.tag with
  | some (.int n) => .ok (.int n)
  | some (.bool b) => .ok (.bool b)
  | some .undefined => .ok .undefined
  | some (.interned index) =>
    match d.get? index with
    | some v => .ok v
    | none => .error ⟨w⟩
  | some (.heap offset) => if h.contains offset then .ok (.ref offset) else .error ⟨w⟩
  | none => .error ⟨w⟩

end TaggedScript
