import TaggedScript.Machine.Word
import TaggedScript.Value
/-!
The dictionary holds what a word has no room for. Entries are never changed or removed, and no
two are equal, so an index stands for its entry for good. A table of keys leads to the index of a
value, so that the entries need not be searched.
-/
namespace TaggedScript

/-- What tells values apart: their content, or the place of what has an identity. -/
inductive Key where
  | undefined
  | bool (b : Bool)
  | int (n : Int32)
  | str (s : String)
  | object (place : Nat)
  | shape (place : Nat)
  | ref (offset : Nat)
deriving DecidableEq

def Value.key : Value → Key
  | .undefined => .undefined
  | .bool b => .bool b
  | .int n => .int n
  | .str s => .str s
  | .object id => .object id.index
  | .shape id => .shape id.index
  | .ref offset => .ref offset.toNat

/-- Values have the same key exactly if they are equal. -/
theorem Value.key_inj {v u : Value} : v.key = u.key ↔ v = u := by
  rcases v with _ | _ | _ | _ | ⟨⟨_⟩⟩ | ⟨⟨_⟩⟩ | _ <;>
    rcases u with _ | _ | _ | _ | ⟨⟨_⟩⟩ | ⟨⟨_⟩⟩ | _ <;>
    simp [key, UInt32.toNat_inj]

/-- The index under each key, the one that was put in last first. -/
abbrev KeyTable := List (Key × UInt32)

/-- A key leads to the first of the entries that have it. -/
def KeyTable.Indexes (table : KeyTable) (entries : Array Value) : Prop :=
  ∀ k, table.lookup k = (entries.findIdx? (·.key = k)).map UInt32.ofNat

/-- The table stays in step when a value comes in that it did not know. -/
theorem KeyTable.Indexes.push {table : KeyTable} {entries : Array Value}
    (h : table.Indexes entries) {v : Value} (new : table.lookup v.key = none) :
    Indexes ((v.key, UInt32.ofNat entries.size) :: table) (entries.push v) := by
  intro k
  rw [Array.findIdx?_push, List.lookup_cons, h k]
  by_cases same : v.key = k
  · subst same
    rw [h v.key, Option.map_eq_none_iff] at new
    simp [new]
  · have other : (k == v.key) = false := beq_eq_false_iff_ne.mpr fun eq => same eq.symm
    simp [same, other]

structure Dictionary where
  entries : Array Value
  table : KeyTable
  indexed : table.Indexes entries

namespace Dictionary

def empty : Dictionary := ⟨#[], [], fun _ => by simp⟩

instance : Inhabited Dictionary := ⟨empty⟩

def size (d : Dictionary) : Nat := d.entries.size

/-- The index of a value, which becomes the last entry if it is none yet. -/
def intern (d : Dictionary) (v : Value) : UInt32 × Dictionary :=
  match known : d.table.lookup v.key with
  | some index => (index, d)
  | none =>
    let index := UInt32.ofNat d.entries.size
    (index, ⟨d.entries.push v, (v.key, index) :: d.table, d.indexed.push known⟩)

/-- The table finds what a search of the entries finds. -/
theorem lookup_key (d : Dictionary) (v : Value) :
    d.table.lookup v.key = (d.entries.findIdx? (· = v)).map UInt32.ofNat := by
  simp only [d.indexed v.key, Value.key_inj]

theorem intern_of_some {d : Dictionary} {v : Value} {i : Nat}
    (known : d.entries.findIdx? (· = v) = some i) : d.intern v = (UInt32.ofNat i, d) := by
  have found : d.table.lookup v.key = some (UInt32.ofNat i) := by
    rw [d.lookup_key, known, Option.map_some]
  unfold intern
  split
  · rename_i index here
    rw [Option.some.inj (here.symm.trans found)]
  · rename_i missing
    rw [missing] at found
    cases found

theorem intern_of_none {d : Dictionary} {v : Value} (new : d.entries.findIdx? (· = v) = none) :
    ∃ e, d.intern v = (UInt32.ofNat d.size, e) ∧ e.entries = d.entries.push v ∧
      e.table = (v.key, UInt32.ofNat d.size) :: d.table := by
  have missing : d.table.lookup v.key = none := by
    rw [d.lookup_key, new, Option.map_none]
  unfold intern
  split
  · rename_i index here
    rw [missing] at here
    cases here
  · exact ⟨_, rfl, rfl, rfl⟩

/-- The dictionary once values were interned one after the other. -/
def internAll (d : Dictionary) (vs : List Value) : Dictionary :=
  vs.foldl (fun d v => (d.intern v).2) d

def get? (d : Dictionary) (index : UInt32) : Option Value := d.entries[index.toNat]?

/-- The text of an entry that is a string. -/
def name? (d : Dictionary) (index : UInt32) : Option String :=
  match d.get? index with
  | some (.str s) => some s
  | _ => none

/-- The entry that a word names. -/
def lookup? (d : Dictionary) (w : Word) : Option Value :=
  match w.tag with
  | some (.interned index) => d.get? index
  | _ => none

end Dictionary
end TaggedScript
