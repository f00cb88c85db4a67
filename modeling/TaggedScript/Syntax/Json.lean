import TaggedScript.Json
import TaggedScript.Syntax
/-!
Scripts as JSON. A node is an object with one member, named for its kind; spans and the text of
the script are left out, and a script read back has none. Members that are not asked for are
ignored, and a block, a function or a script may also be the array of its parts.
-/
namespace TaggedScript

def Literal.toJson : Literal → Json
  | undefined => .str "Undefined"
  | bool b => .obj [("Bool", .bool b)]
  | int n => .obj [("Int", .int n.toInt)]
  | str s => .obj [("Str", .str s)]

namespace Json

def ofName : Option String → Json
  | none => .null
  | some name => .str name

def ofNames (names : List String) : Json := .arr (names.map .str)

/-- A node of the given kind. -/
def node (kind : String) (members : List (String × Json)) : Json := .obj [(kind, .obj members)]

end Json

namespace Expr

mutual

def toJson : Expr → Json
  | literal _ v => .obj [("Literal", v.toJson)]
  | var _ x => .node "Var" [("name", .str x)]
  | assign _ x d e => .node "Assign" [("name", .str x), ("value", e.toJson), ("declare", .bool d)]
  | field _ r x => .node "Field" [("receiver", r.toJson), ("name", .str x)]
  | setField _ r x e =>
    .node "SetField" [("receiver", r.toJson), ("name", .str x), ("value", e.toJson)]
  | call _ f args => .node "Call" [("callee", f.toJson), ("args", .arr (toJsonAll args))]
  | methodCall _ r x args =>
    .node "MethodCall" [("receiver", r.toJson), ("name", .str x), ("args", .arr (toJsonAll args))]
  | function _ name params body =>
    .node "Function" [("name", .ofName name), ("params", .ofNames params),
      ("body", .obj [("exprs", .arr (toJsonAll body))])]
  | object _ fields => .node "Object" [("fields", .arr (toJsonFields fields))]
  | cond _ c t e =>
    .node "If" [("condition", c.toJson), ("then_block", .obj [("exprs", .arr (toJsonAll t))]),
      ("else_block", .obj [("exprs", .arr (toJsonAll e))])]
  | ret _ e => .node "Return" [("value", e.toJson)]
  | block _ body => .node "Block" [("exprs", .arr (toJsonAll body))]

def toJsonAll : List Expr → List Json
  | [] => []
  | e :: es => e.toJson :: toJsonAll es

def toJsonFields : List (String × Expr) → List Json
  | [] => []
  | (x, e) :: fields => .arr [.str x, e.toJson] :: toJsonFields fields

end

end Expr

def Script.toJson (s : Script) : Json :=
  .obj [("body", .obj [("exprs", .arr (Expr.toJsonAll s.body))])]

namespace Json

def string? : Json → Option String
  | str s => some s
  | _ => none

def bool? : Json → Option Bool
  | bool b => some b
  | _ => none

/-- An integer of 32 bits. -/
def int32? : Json → Option Int32
  | int n => if -2147483648 ≤ n ∧ n ≤ 2147483647 then some (Int32.ofInt n) else none
  | _ => none

def strings? : Json → Option (List String)
  | arr items => items.mapM string?
  | _ => none

/-- The name of a function, which may be missing. -/
def name? : Json → Option (Option String)
  | null => some none
  | str s => some (some s)
  | _ => none

def literal? : Json → Option Literal
  | str "Undefined" => some .undefined
  | obj [("Undefined", null)] => some .undefined
  | obj [("Int", v)] => v.int32?.map .int
  | obj [("Str", v)] => v.string?.map .str
  | obj [("Bool", v)] => v.bool?.map .bool
  | _ => none

/-- The value of the first member of that name. It is smaller than the members together. -/
def member (members : List (String × Json)) (name : String) :
    Option { v : Json // sizeOf v < sizeOf members } :=
  match members with
  | [] => none
  | (k, v) :: rest =>
    if k = name then
      some ⟨v, by simp; omega⟩
    else
      (member rest name).map fun ⟨v, h⟩ => ⟨v, by simp; omega⟩

mutual

def expr? (j : Json) : Option Expr :=
  match j with
  | obj [(kind, content)] =>
    match kind, content with
    | "Literal", v => (literal? v).map (.literal .none)
    | "Var", obj members => do
      let ⟨name, _⟩ ← member members "name"
      return .var .none (← name.string?)
    | "Assign", obj members => do
      let ⟨name, _⟩ ← member members "name"
      let ⟨value, _⟩ ← member members "value"
      let ⟨declare, _⟩ ← member members "declare"
      return .assign .none (← name.string?) (← declare.bool?) (← expr? value)
    | "Field", obj members => do
      let ⟨receiver, _⟩ ← member members "receiver"
      let ⟨name, _⟩ ← member members "name"
      return .field .none (← expr? receiver) (← name.string?)
    | "SetField", obj members => do
      let ⟨receiver, _⟩ ← member members "receiver"
      let ⟨name, _⟩ ← member members "name"
      let ⟨value, _⟩ ← member members "value"
      return .setField .none (← expr? receiver) (← name.string?) (← expr? value)
    | "Call", obj members => do
      let ⟨callee, _⟩ ← member members "callee"
      let ⟨args, _⟩ ← member members "args"
      return .call .none (← expr? callee) (← exprs? args)
    | "MethodCall", obj members => do
      let ⟨receiver, _⟩ ← member members "receiver"
      let ⟨name, _⟩ ← member members "name"
      let ⟨args, _⟩ ← member members "args"
      return .methodCall .none (← expr? receiver) (← name.string?) (← exprs? args)
    | "Function", obj members => do
      let name ← match member members "name" with
        | some ⟨name, _⟩ => name.name?
        | none => some none
      let ⟨params, _⟩ ← member members "params"
      let ⟨body, _⟩ ← member members "body"
      return .function .none name (← params.strings?) (← block? body)
    | "Function", arr [name, params, body] => do
      return .function .none (← name.name?) (← params.strings?) (← block? body)
    | "Object", obj members => do
      let ⟨fields, _⟩ ← member members "fields"
      return .object .none (← fields? fields)
    | "If", obj members => do
      let ⟨condition, _⟩ ← member members "condition"
      let ⟨thenBlock, _⟩ ← member members "then_block"
      let ⟨elseBlock, _⟩ ← member members "else_block"
      return .cond .none (← expr? condition) (← block? thenBlock) (← block? elseBlock)
    | "Return", obj members => do
      let ⟨value, _⟩ ← member members "value"
      return .ret .none (← expr? value)
    | "Block", v => return .block .none (← block? v)
    | _, _ => none
  | _ => none
termination_by sizeOf j
decreasing_by all_goals (simp_all; try omega)

def exprs? (j : Json) : Option (List Expr) :=
  match j with
  | arr items => items? items
  | _ => none
termination_by sizeOf j

def items? (items : List Json) : Option (List Expr) :=
  match items with
  | [] => some []
  | v :: vs => do return (← expr? v) :: (← items? vs)
termination_by sizeOf items

def fields? (j : Json) : Option (List (String × Expr)) :=
  match j with
  | arr items => fieldItems? items
  | _ => none
termination_by sizeOf j

def fieldItems? (items : List Json) : Option (List (String × Expr)) :=
  match items with
  | [] => some []
  | arr [str name, v] :: vs => do return (name, ← expr? v) :: (← fieldItems? vs)
  | _ => none
termination_by sizeOf items

def block? (j : Json) : Option (List Expr) :=
  match j with
  | obj members => do
    let ⟨v, _⟩ ← member members "exprs"
    exprs? v
  | arr [v] => exprs? v
  | _ => none
termination_by sizeOf j
decreasing_by all_goals (simp_all; try omega)

end

def script? : Json → Option Script
  | obj members => do
    let ⟨body, _⟩ ← member members "body"
    return ⟨← block? body, none⟩
  | arr [body] => do return ⟨← block? body, none⟩
  | _ => none

/-- A function definition by itself. -/
def funDef? (j : Json) : Option FunDef := do
  match ← expr? (.obj [("Function", j)]) with
  | .function _ name params body => return ⟨name, params, body⟩
  | _ => none

end Json
end TaggedScript
