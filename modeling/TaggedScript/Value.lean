/-!
Values as programs see them. What has an identity is kept in a store and named by its place
there, so two values are equal exactly if they are the same data or the same thing.
-/
namespace TaggedScript

/-- A host object or a function. -/
structure ObjectId where
  index : Nat
deriving DecidableEq, Repr, Inhabited

/-- The class of records with the same fields. -/
structure ShapeId where
  index : Nat
deriving DecidableEq, Repr, Inhabited

inductive Value where
  | undefined
  | bool (b : Bool)
  | int (n : Int32)
  | str (s : String)
  | object (id : ObjectId)
  | shape (id : ShapeId)
  /-- A record in the heap of the stack machine. -/
  | ref (offset : UInt32)
deriving DecidableEq, Inhabited

/-- Named values in the order in which the names came. -/
abbrev Table := List (String × Value)

namespace Table

/-- The value of the first entry of that name. -/
def get? : Table → String → Option Value
  | [], _ => none
  | (k, v) :: rest, name => if k = name then some v else get? rest name

/-- Changes the first entry of that name, or adds one at the end. -/
def set : Table → String → Value → Table
  | [], name, value => [(name, value)]
  | (k, v) :: rest, name, value =>
    if k = name then (k, value) :: rest else (k, v) :: set rest name value

end Table
end TaggedScript
