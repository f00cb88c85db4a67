import TaggedScript.Syntax
import TaggedScript.Token.Lexer
/-!
Recursive descent over the tokens of a script. The cursor stays where an error was found, so
that a reader can go on from there. Recursion is bounded by an allowance that grows with the
number of tokens left.
-/
namespace TaggedScript

/-- What a token was needed for. -/
inductive Expected where
  | token (t : Token)
  | identifier
  | expression
  | fieldName
deriving DecidableEq

inductive ParseFault where
  /-- Another token stood there, or the end of the text. -/
  | expected (what : Expected) (got : Option Token)
  | invalidTarget
  | duplicateParameter (name : String)
  | duplicateField (name : String)
  /-- The allowance for recursion ran out. -/
  | nesting
deriving DecidableEq

/-- A fault, the number of the token where it was noticed, and the text to show for it. -/
structure ParseError where
  fault : ParseFault
  position : Nat
  span : Span
deriving DecidableEq

namespace Expected

def label : Expected → String
  | token t => t.label
  | identifier => "identifier"
  | expression => "expression"
  | fieldName => "field name"

end Expected

namespace ParseFault

def text : ParseFault → String
  | expected what (some t) => s!"expected {what.label}, got {t.label}"
  | expected what none => s!"expected {what.label}, got EOF"
  | invalidTarget => "invalid assignment target"
  | duplicateParameter name => s!"duplicate parameter '{name}'"
  | duplicateField name => s!"duplicate field '{name}'"
  | nesting => "expressions are nested too deeply"

end ParseFault

namespace ParseError

def message (e : ParseError) : String := s!"Parse error at token {e.position}: {e.fault.text}"

def diagnostic (e : ParseError) (source : String) : Diagnostic :=
  { message := e.fault.text
    label := some ⟨e.span, "here"⟩
    source := some source }

end ParseError

/-- A place between two tokens. The tokens before it are kept in reverse. -/
structure Cursor where
  passed : List Lexeme
  rest : List Lexeme

namespace Cursor

def ofLexemes (lexemes : List Lexeme) : Cursor := ⟨[], lexemes⟩

/-- The number of tokens before the cursor. -/
def position (c : Cursor) : Nat := c.passed.length

def next (c : Cursor) : Option Token := c.rest.head?.map (·.token)

/-- The span of the token before the cursor. -/
def lastSpan (c : Cursor) : Span :=
  match c.passed with
  | x :: _ => x.span
  | [] => .none

/-- The span of the token after the cursor, or the end of the text. -/
def nextSpan (c : Cursor) : Span :=
  match c.rest, c.passed with
  | x :: _, _ => x.span
  | [], x :: _ => x.span.after
  | [], [] => .none

def advance (c : Cursor) : Cursor :=
  match c.rest with
  | x :: rest => ⟨x :: c.passed, rest⟩
  | [] => c

/-- The cursor after all tokens `t` that come first in `rest`. -/
def passAll (t : Token) (passed : List Lexeme) : List Lexeme → Cursor
  | [] => ⟨passed, []⟩
  | x :: rest => if x.token = t then passAll t (x :: passed) rest else ⟨passed, x :: rest⟩

end Cursor

abbrev Parser := EStateM ParseError Cursor

namespace Parser

def next : Parser (Option Token) := return (← get).next

def nextSpan : Parser Span := return (← get).nextSpan

def lastSpan : Parser Span := return (← get).lastSpan

def advance : Parser Unit := modify Cursor.advance

/-- Fails at the token after the cursor. -/
def failHere {α : Type} (fault : ParseFault) : Parser α := do
  let c ← get
  throw ⟨fault, c.position, c.nextSpan⟩

/-- Fails because the token after the cursor is not what it has to be. -/
def failExpected {α : Type} (what : Expected) : Parser α := do
  failHere (.expected what (← next))

/-- Fails at the token before the cursor. -/
def failBefore {α : Type} (fault : ParseFault) : Parser α := do
  let c ← get
  throw ⟨fault, c.position - 1, c.lastSpan⟩

/-- Passes over a token if it comes next. -/
def eat (t : Token) : Parser Bool := do
  if (← next) = some t then
    advance
    return true
  else
    return false

/-- Passes over a token, which must come next, and yields its span. -/
def expect (t : Token) : Parser Span := do
  if (← next) = some t then
    let span ← nextSpan
    advance
    return span
  else
    failExpected (.token t)

def identifier : Parser String := do
  match ← next with
  | some (.ident name) =>
    advance
    return name
  | _ => failExpected .identifier

/-- Passes over a binary operator of the given precedence if one comes next. -/
def operator? (level : Nat) : Parser (Option (Operator × Span)) := do
  match ← next with
  | some (.op op) =>
    if op.precedence = level then
      let span ← nextSpan
      advance
      return some (op, span)
    else
      return none
  | _ => return none

/-- The first precedence at which no operator binds. -/
def unaryLevel : Nat := 4

/-- Passes over any number of semicolons. -/
def semicolons : Parser Unit := modify fun c => Cursor.passAll .semi c.passed c.rest

/-- The name before the colon of a field, which is not passed over. -/
def fieldName : Parser String := do
  match ← next with
  | some (.ident name) | some (.str name) => return name
  | _ => failExpected .fieldName

/-- The assignment that a target before `=` calls for, if it is one. -/
def assignment? (target value : Expr) (span : Span) : Option Expr :=
  match target with
  | .var _ name => if name = thisName then none else some (.assign span name false value)
  | .field _ receiver name => some (.setField span receiver name value)
  | _ => none

/-- The negation of an operand. The negation of an integer literal is a literal. -/
def negate (minus : Span) (operand : Expr) : Expr :=
  match operand with
  | .literal s (.int n) => .literal (minus.merge s) (.int (-n))
  | _ => Expr.binary .sub minus (.literal minus (.int 0)) operand

mutual

def expr : Nat → Parser Expr
  | 0 => failHere .nesting
  | n + 1 => do
    let target ← binary n 0
    let assignSpan ← nextSpan
    if ← eat .assign then
      let value ← expr n
      let span := target.span.merge (← lastSpan)
      match assignment? target value span with
      | some e => return e
      | none => throw ⟨.invalidTarget, (← get).position, assignSpan⟩
    else
      return target

/-- A chain of operators that bind at least as tightly as `level`. -/
def binary : Nat → Nat → Parser Expr
  | 0, _ => failHere .nesting
  | n + 1, level => do
    if level = unaryLevel then
      unary n
    else
      let left ← binary n (level + 1)
      binaryTail n level left

/-- The rest of a chain, which groups to the left. -/
def binaryTail : Nat → Nat → Expr → Parser Expr
  | 0, _, _ => failHere .nesting
  | n + 1, level, left => do
    match ← operator? level with
    | some (op, span) =>
      let right ← binary n (level + 1)
      binaryTail n level (Expr.binary op span left right)
    | none => return left

def unary : Nat → Parser Expr
  | 0 => failHere .nesting
  | n + 1 => do
    let span ← nextSpan
    if ← eat (.op .sub) then
      return negate span (← unary n)
    else
      let e ← primary n
      postfixes n e

/-- The calls and field accesses that follow an expression. -/
def postfixes : Nat → Expr → Parser Expr
  | 0, _ => failHere .nesting
  | n + 1, e => do
    match ← next with
    | some .lparen =>
      let args ← arguments n
      postfixes n (.call (e.span.merge (← lastSpan)) e args)
    | some .dot =>
      advance
      let name ← identifier
      match ← next with
      | some .lparen =>
        let args ← arguments n
        postfixes n (.methodCall (e.span.merge (← lastSpan)) e name args)
      | _ => postfixes n (.field (e.span.merge (← lastSpan)) e name)
    | _ => return e

/-- `( expr, expr, ... )` -/
def arguments : Nat → Parser (List Expr)
  | 0 => failHere .nesting
  | n + 1 => do
    let _ ← expect .lparen
    let args ← argumentList n
    let _ ← expect .rparen
    return args

/-- Expressions with commas between them, and perhaps one at the end. -/
def argumentList : Nat → Parser (List Expr)
  | 0 => failHere .nesting
  | n + 1 => do
    match ← next with
    | some .rparen => return []
    | _ =>
      let first ← expr n
      if ← eat .comma then
        return first :: (← argumentList n)
      else
        return [first]

def primary : Nat → Parser Expr
  | 0 => failHere .nesting
  | n + 1 => do
    let start ← nextSpan
    match ← next with
    | some (.int k) =>
      advance
      return .literal start (.int k)
    | some (.str s) =>
      advance
      return .literal start (.str s)
    | some .trueKw =>
      advance
      return .literal start (.bool true)
    | some .falseKw =>
      advance
      return .literal start (.bool false)
    | some .undefinedKw =>
      advance
      return .literal start .undefined
    | some .thisKw =>
      advance
      return .var start thisName
    | some (.ident name) =>
      advance
      return .var start name
    | some .lparen =>
      advance
      let inner ← expr n
      let _ ← expect .rparen
      return inner
    | some .functionKw => function n
    | some .newKw =>
      advance
      object n start
    | some .lbrace => object n start
    | _ => failExpected .expression

/-- `function name(a, b) { body }`, the name is optional. -/
def function : Nat → Parser Expr
  | 0 => failHere .nesting
  | n + 1 => do
    let start ← expect .functionKw
    let name ← match ← next with
      | some (.ident name) =>
        advance
        pure (some name)
      | _ => pure none
    let _ ← expect .lparen
    let params ← parameters n []
    let _ ← expect .rparen
    let body ← block n
    return .function (start.merge (← lastSpan)) name params body

/-- Parameters after those in `seen`, which differ from them and from each other. -/
def parameters : Nat → List String → Parser (List String)
  | 0, _ => failHere .nesting
  | n + 1, seen => do
    match ← next with
    | some .rparen => return []
    | _ =>
      let name ← identifier
      if name ∈ seen then
        failBefore (.duplicateParameter name)
      if ← eat .comma then
        return name :: (← parameters n (seen ++ [name]))
      else
        return [name]

/-- `{ name: expr, "name": expr }`, where `start` is the token that opened the expression. -/
def object : Nat → Span → Parser Expr
  | 0, _ => failHere .nesting
  | n + 1, start => do
    let _ ← expect .lbrace
    let fields ← fieldList n []
    let _ ← expect .rbrace
    return .object (start.merge (← lastSpan)) fields

/-- Fields after those named in `seen`, which differ from them and from each other. -/
def fieldList : Nat → List String → Parser (List (String × Expr))
  | 0, _ => failHere .nesting
  | n + 1, seen => do
    match ← next with
    | some .rbrace => return []
    | _ =>
      let name ← fieldName
      if name ∈ seen then
        failHere (.duplicateField name)
      advance
      let _ ← expect .colon
      let value ← expr n
      if ← eat .comma then
        return (name, value) :: (← fieldList n (seen ++ [name]))
      else
        return [(name, value)]

/-- `{ stmt* }` -/
def block : Nat → Parser (List Expr)
  | 0 => failHere .nesting
  | n + 1 => do
    let _ ← expect .lbrace
    let body ← statements n
    let _ ← expect .rbrace
    return body

/-- Statements up to a closing brace or the end. -/
def statements : Nat → Parser (List Expr)
  | 0 => failHere .nesting
  | n + 1 => do
    match ← next with
    | none | some .rbrace => return []
    | _ =>
      let first ← statement n
      return first :: (← statements n)

def statement : Nat → Parser Expr
  | 0 => failHere .nesting
  | n + 1 => do
    let e ← match ← next with
      | some .varKw => declaration n
      | some .returnKw => returning n
      | some .ifKw => conditional n
      | _ => expr n
    semicolons
    return e

/-- `var name = expr` or `var name` -/
def declaration : Nat → Parser Expr
  | 0 => failHere .nesting
  | n + 1 => do
    let start ← expect .varKw
    let name ← identifier
    let value ← if ← eat .assign then
        expr n
      else
        pure (.literal (← lastSpan) .undefined)
    return .assign (start.merge (← lastSpan)) name true value

/-- `return expr` or `return` -/
def returning : Nat → Parser Expr
  | 0 => failHere .nesting
  | n + 1 => do
    let start ← expect .returnKw
    let value ← match ← next with
      | none | some .semi | some .rbrace => pure (.literal start .undefined)
      | _ => expr n
    return .ret (start.merge (← lastSpan)) value

/-- `if (cond) { ... } else if (cond) { ... } else { ... }` -/
def conditional : Nat → Parser Expr
  | 0 => failHere .nesting
  | n + 1 => do
    let start ← expect .ifKw
    let _ ← expect .lparen
    let test ← expr n
    let _ ← expect .rparen
    let thenBlock ← block n
    let elseBlock ← if ← eat .elseKw then
        match ← next with
        | some .ifKw => pure [← conditional n]
        | _ => block n
      else
        pure []
    return .cond (start.merge (← lastSpan)) test thenBlock elseBlock

end

/-- Statements up to the end of the text. -/
def script : Nat → Parser (List Expr)
  | 0 => failHere .nesting
  | n + 1 => do
    match ← next with
    | none => return []
    | _ =>
      let first ← statement n
      return first :: (← script n)

/-- A depth that recursion cannot reach before the tokens run out: no more than sixteen calls
lie between one token and the next. -/
def allowance (c : Cursor) : Nat := 16 * (c.rest.length + 1)

/-- One expression from where the cursor stands. -/
def parseExpr : Parser Expr := do expr (allowance (← get))

/-- All statements from where the cursor stands. -/
def parseScript : Parser (List Expr) := do script (allowance (← get))

end Parser

/-- Why a text is not a script. -/
inductive SourceError where
  | lex (e : LexError)
  | parse (e : ParseError)

namespace SourceError

def message : SourceError → String
  | lex e => e.message
  | parse e => e.message

def diagnostic (source : String) : SourceError → Diagnostic
  | lex e => e.diagnostic source
  | parse e => e.diagnostic source

end SourceError

/-- Reads a whole text. The script keeps it. -/
def parseSource (source : String) : Except SourceError Script :=
  match lex source with
  | .error e => .error (.lex e)
  | .ok lexemes =>
    match Parser.parseScript (.ofLexemes lexemes) with
    | .error e _ => .error (.parse e)
    | .ok body _ => .ok ⟨body, some source⟩

end TaggedScript
