import TaggedScript.Operator
import TaggedScript.Source.Span
import TaggedScript.Text.Quoted

namespace TaggedScript

/-- The words of the language. -/
inductive Token where
  | varKw | functionKw | returnKw | ifKw | elseKw | newKw | thisKw
  | trueKw | falseKw | undefinedKw
  | lparen | rparen | lbrace | rbrace | comma | semi | dot | colon | assign
  | op (operator : Operator)
  | int (value : Int32)
  | str (text : String)
  | ident (name : String)
deriving DecidableEq

/-- A token and where it stands in the source. -/
structure Lexeme where
  token : Token
  span : Span
deriving DecidableEq

namespace Token

/-- Keywords win over identifiers. -/
def ofWord (word : String) : Token :=
  match word with
  | "var" => varKw
  | "function" => functionKw
  | "return" => returnKw
  | "if" => ifKw
  | "else" => elseKw
  | "new" => newKw
  | "this" => thisKw
  | "true" => trueKw
  | "false" => falseKw
  | "undefined" => undefinedKw
  | name => ident name

def operatorName : Token → Option String
  | op operator => some operator.symbol
  | _ => none

/-- How messages name an operator. -/
def operatorLabel : Operator → String
  | .add => "Plus"
  | .sub => "Minus"
  | .mul => "Star"
  | .div => "Slash"
  | .rem => "Percent"
  | .eq => "Eq"
  | .ne => "NotEq"
  | .lt => "Less"
  | .le => "LessEq"
  | .gt => "Greater"
  | .ge => "GreaterEq"

/-- How messages name a token. -/
def label : Token → String
  | varKw => "Var"
  | functionKw => "Function"
  | returnKw => "Return"
  | ifKw => "If"
  | elseKw => "Else"
  | newKw => "New"
  | thisKw => "This"
  | trueKw => "True"
  | falseKw => "False"
  | undefinedKw => "Undefined"
  | lparen => "LParen"
  | rparen => "RParen"
  | lbrace => "LBrace"
  | rbrace => "RBrace"
  | comma => "Comma"
  | semi => "Semi"
  | dot => "Dot"
  | colon => "Colon"
  | assign => "Assign"
  | op operator => operatorLabel operator
  | int value => s!"Int({value.toInt})"
  | str text => s!"Str({Text.quote text})"
  | ident name => s!"Ident({Text.quote name})"

end Token
end TaggedScript
