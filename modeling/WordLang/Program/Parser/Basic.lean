import WordLang.Position
import WordLang.Token

/-! # Taking tokens off a list

    A parser is a function from the tokens that are left to a result and the
    tokens that are left then; the first fault ends it.  The end of the text
    is a token that is never passed, so there always is a next token to
    look at and to blame. -/

namespace WordLang

/-! ## Section 1: Errors -/

/-- What could have stood where something else does. -/
inductive Expected where
  | token (t : Token)
  | functionName
  | parameterName
  | staticName
  | constName
  | constElement
  | integerType
  | arrayLength
  | variableName
  | loopVariable
  | arrayName
  | assignTarget
  | operatorOrFunction
  | expression
deriving DecidableEq

namespace Expected

/-- How messages name what was expected. -/
protected def toString : Expected → String
  | .token t => toString t
  | .functionName => "function name"
  | .parameterName => "parameter name or ')'"
  | .staticName => "static name"
  | .constName => "const name"
  | .constElement => "integer literal or ']'"
  | .integerType => "integer type"
  | .arrayLength => "array length"
  | .variableName => "variable name"
  | .loopVariable => "loop variable"
  | .arrayName => "array name"
  | .assignTarget => "assignment target"
  | .operatorOrFunction => "operator or function name"
  | .expression => "expression"

instance : ToString Expected := ⟨Expected.toString⟩

end Expected

/-- Why tokens do not form a program. -/
inductive ParseCause where
  | unexpectedToken (expected : Expected) (found : Token)
  /-- No word has this many bits. -/
  | unknownType (bits : Nat)
  | invalidArity (op : BinOp) (found : Nat)
  | assignmentInExpression (op : AssignOp)
  | missingReturnValue (ty : Ty)
  | unexpectedReturnValue
  | outsideLoop (keyword : Keyword)
  | misplacedStatic
  /-- The fuel ran out; the fuel given is always enough. -/
  | outOfFuel
deriving DecidableEq

/-- A fault of a program's form, and where it is. -/
abbrev ParseError := Located ParseCause

namespace ParseCause

/-- The wording of a fault, without its place. -/
def message : ParseCause → String
  | .unexpectedToken expected found => s!"expected {expected}, found {found}"
  | .unknownType bits => s!"unknown type 'u{bits}'"
  | .invalidArity op found => s!"operator '{op.symbol}' takes 2 operands, found {found}"
  | .assignmentInExpression op => s!"assignment '{op.symbol}' cannot be used as an expression"
  | .missingReturnValue ty => s!"return without a value in a function returning {ty}"
  | .unexpectedReturnValue => "unexpected return value"
  | .outsideLoop keyword => s!"'{keyword.text}' outside of a loop"
  | .misplacedStatic => "'static' must be declared at top level or inside a function"
  | .outOfFuel => "program too large"

end ParseCause

/-! ## Section 2: Taking tokens -/

/-- Reads something off the front of the tokens. -/
abbrev Parser := StateT (List (Located Token)) (Except ParseError)

namespace Parser

/-- The first of some tokens; after the last one comes the end of the text. -/
def firstToken : List (Located Token) → Located Token
  | [] => ⟨.start, .eof⟩
  | t :: _ => t

/-- What is left after the first token; the end of the text always is. -/
def afterFirst : List (Located Token) → List (Located Token)
  | [] => []
  | t :: rest => if t.item = .eof then t :: rest else rest

/-- Ends with a fault. -/
@[inline] def fail {α : Type} (pos : Position) (cause : ParseCause) : Parser α :=
  throw ⟨pos, cause⟩

/-- The next token, which stays. -/
@[inline] def peek : Parser (Located Token) := do
  return firstToken (← get)

/-- The token after the next one, which stays. -/
@[inline] def peekSecond : Parser (Located Token) := do
  return firstToken (afterFirst (← get))

/-- Takes the next token. -/
@[inline] def advance : Parser (Located Token) := do
  let ts ← get
  set (afterFirst ts)
  return firstToken ts

/-- Ends with the fault that the next token is not what was expected. -/
@[inline] def unexpected {α : Type} (expected : Expected) : Parser α := do
  let t ← peek
  fail t.pos (.unexpectedToken expected t.item)

/-- Takes the next token if it is this one, and says whether it was. -/
def eat (token : Token) : Parser Bool := do
  let t ← peek
  if t.item = token then
    let _ ← advance
    return true
  else
    return false

/-- Takes this token and gives its place. -/
def expect (token : Token) : Parser Position := do
  let t ← peek
  if t.item = token then
    let _ ← advance
    return t.pos
  else
    unexpected (.token token)

/-- Takes a name. -/
def ident (expected : Expected) : Parser String := do
  let t ← peek
  match t.item with
  | .ident name =>
    let _ ← advance
    return name
  | _ => unexpected expected

/-- Takes a number. -/
def number (expected : Expected) : Parser Nat := do
  let t ← peek
  match t.item with
  | .number value =>
    let _ ← advance
    return value
  | _ => unexpected expected

/-- Takes all semicolons that come next. -/
def skipSeparators : Parser Unit :=
  modify (List.dropWhile fun t => decide (t.item = .sign .semicolon))

end Parser

end WordLang
