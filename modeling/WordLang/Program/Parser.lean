import WordLang.Program
import WordLang.Program.Parser.Basic
import WordLang.Token.Lexer

/-! # Reading programs

    Compound expressions start with their operator and are in parentheses,
    so one token decides what to read next.  Only an assignment needs a
    second one.  The layout of the text matters in one place: the value of a
    `return` starts on the same line.

    The parsers that call each other take a fuel that each call lowers.
    `Program.ofTokens` gives them four for every token, which is more than
    they use: a call either takes a token or is one of few in a row that do
    not. -/

namespace WordLang

namespace Parser

/-! ## Section 1: Types and declarations -/

/-- The name of a word type. -/
def width : Parser Width := do
  let t ← peek
  match t.item with
  | .uint bits =>
    let _ ← advance
    match Width.ofBits bits with
    | .ok w => return w
    | .error _ => fail t.pos (.unknownType bits)
  | _ => unexpected .integerType

/-- A type: the name of a word type, or in brackets such a name and a length. -/
def type : Parser Ty := do
  if ← eat (.sign .lbracket) then
    let element ← width
    let len ← number .arrayLength
    let _ ← expect (.sign .rbracket)
    return .array element len
  else
    return .uint (← width)

/-- A name, a colon and a type. -/
def typedName (expected : Expected) : Parser (String × Ty) := do
  let name ← ident expected
  let _ ← expect (.sign .colon)
  let ty ← type
  return (name, ty)

/-- A declaration of a static. -/
def staticDecl : Parser StaticDecl := do
  let pos ← expect (.keyword .staticWord)
  let (name, ty) ← typedName .staticName
  return ⟨name, ty, pos⟩

/-- The numbers of a table up to the closing bracket, after those already `found`, newest
    first.  Commas between them may be left out. -/
def constElements : Nat → List Nat → Parser (List Nat)
  | 0, _ => fail .start .outOfFuel
  | fuel + 1, found => do
    if ← eat (.sign .rbracket) then
      return found.reverse
    else
      let value ← number .constElement
      let _ ← eat (.sign .comma)
      constElements fuel (value :: found)

/-- A constant table. -/
def constDecl (fuel : Nat) : Parser ConstDecl := do
  let pos ← expect (.keyword .constWord)
  let (name, ty) ← typedName .constName
  let _ ← expect (.assign .set)
  let _ ← expect (.sign .lbracket)
  let values ← constElements fuel []
  return ⟨name, ty, values, pos⟩

/-- The parameters up to the closing parenthesis.  Commas between them may be left out. -/
def params : Nat → Parser (List Param)
  | 0 => fail .start .outOfFuel
  | fuel + 1 => do
    if ← eat (.sign .rparen) then
      return []
    else
      let (name, ty) ← typedName .parameterName
      let _ ← eat (.sign .comma)
      let rest ← params fuel
      return ⟨name, ty⟩ :: rest

/-! ## Section 2: Expressions -/

mutual

/-- An expression. -/
def expression : Nat → Parser Expr
  | 0 => fail .start .outOfFuel
  | fuel + 1 => do
    let t ← peek
    match t.item with
    | .number value =>
      let _ ← advance
      return .literal t.pos value
    | .ident name =>
      let _ ← advance
      return .ident t.pos name
    | .sign .lbracket =>
      let _ ← advance
      let offset ← expression fuel
      let _ ← expect (.sign .rbracket)
      let array ← ident .arrayName
      return .index t.pos offset array
    | .sign .lparen =>
      let _ ← advance
      let head ← advance
      match head.item with
      | .op op =>
        -- all operands are read before they are counted
        match ← operands fuel with
        | [left, right] => return .binary t.pos op left right
        | found => fail t.pos (.invalidArity op found.length)
      | .ident function => return .call t.pos function (← operands fuel)
      | .assign op => fail t.pos (.assignmentInExpression op)
      | found => fail head.pos (.unexpectedToken .operatorOrFunction found)
    | _ => unexpected .expression

/-- Expressions up to the closing parenthesis. -/
def operands : Nat → Parser (List Expr)
  | 0 => fail .start .outOfFuel
  | fuel + 1 => do
    if ← eat (.sign .rparen) then
      return []
    else
      let e ← expression fuel
      let rest ← operands fuel
      return e :: rest

end

/-! ## Section 3: Statements -/

/-- Where a statement stands. -/
structure Context where
  inFunction : Bool
  returns    : Option Ty
  inLoop     : Bool

/-- The surroundings of the top-level statements. -/
def Context.topLevel : Context := ⟨false, none, false⟩

/-- The surroundings of a function's body. -/
def Context.body (returns : Option Ty) : Context := ⟨true, returns, false⟩

/-- The surroundings of a loop's body. -/
def Context.enterLoop (ctx : Context) : Context := { ctx with inLoop := true }

/-- Whether a token can start the value of a `return` before it on the same line. -/
def startsValue : Token → Bool
  | .sign .rbrace | .sign .semicolon | .eof => false
  | _ => true

/-- A `return`.  A value belongs to it only if it starts on the same line, and has to be there
    exactly in functions with a return type. -/
def returnStatement (fuel : Nat) (ctx : Context) : Parser Statement := do
  let pos ← expect (.keyword .returnWord)
  let next ← peek
  let hasValue := next.pos.line == pos.line && startsValue next.item
  match hasValue, ctx.returns with
  | true, some _ => return .ret pos (some (← expression fuel))
  | false, none => return .ret pos none
  | true, none => fail pos .unexpectedReturnValue
  | false, some ty => fail pos (.missingReturnValue ty)

/-- The target of an assignment. -/
def place (fuel : Nat) : Parser Place := do
  if ← eat (.sign .lbracket) then
    let offset ← expression fuel
    let _ ← expect (.sign .rbracket)
    let array ← ident .arrayName
    return .elem offset array
  else
    return .var (← ident .assignTarget)

/-- An assignment by `op`, whose two first tokens are those next. -/
def assignment (fuel : Nat) (op : AssignOp) : Parser Statement := do
  let pos ← expect (.sign .lparen)
  let _ ← advance
  let target ← place fuel
  let value ← expression fuel
  let _ ← expect (.sign .rparen)
  return .assign pos op target value

/-- A variable with its initial value. -/
def letStatement (fuel : Nat) : Parser Statement := do
  let pos ← expect (.keyword .letWord)
  let (name, ty) ← typedName .variableName
  let _ ← expect (.assign .set)
  let value ← expression fuel
  return .letVar pos name ty value

/-- The loop variable with its type, and the two bounds. -/
def forHeader (fuel : Nat) : Parser (String × Ty × Expr × Expr) := do
  let name ← ident .loopVariable
  let _ ← expect (.sign .colon)
  let w ← width
  let _ ← expect (.keyword .inWord)
  let start ← expression fuel
  let _ ← expect (.sign .dotdot)
  let stop ← expression fuel
  return (name, .uint w, start, stop)

mutual

/-- A statement. -/
def statement : Nat → Context → Parser Statement
  | 0, _ => fail .start .outOfFuel
  | fuel + 1, ctx => do
    let t ← peek
    match t.item with
    | .keyword .letWord => letStatement fuel
    | .keyword .staticWord =>
      -- statics of the program are items, not statements
      if ctx.inFunction then return .static (← staticDecl) else fail t.pos .misplacedStatic
    | .keyword .ifWord => conditional fuel ctx
    | .keyword .forWord =>
      let _ ← advance
      let (name, ty, start, stop) ← forHeader fuel
      let body ← block fuel ctx.enterLoop
      return .forRange t.pos name ty start stop body
    | .keyword .loopWord =>
      let _ ← advance
      return .loop t.pos (← block fuel ctx.enterLoop)
    | .keyword .breakWord =>
      let _ ← advance
      if ctx.inLoop then return .breakLoop t.pos else fail t.pos (.outsideLoop .breakWord)
    | .keyword .continueWord =>
      let _ ← advance
      if ctx.inLoop then return .continueLoop t.pos else fail t.pos (.outsideLoop .continueWord)
    | .keyword .returnWord => returnStatement fuel ctx
    | .sign .panic =>
      let _ ← advance
      return .panic t.pos
    | .sign .lparen =>
      -- an assignment starts like an expression
      let second ← peekSecond
      match second.item with
      | .assign op => assignment fuel op
      | _ => return .expr t.pos (← expression fuel)
    | _ => return .expr t.pos (← expression fuel)

/-- An `if` with all that belongs to it.  After `else` another `if` may follow directly; it is
    then the only statement of the `else` block. -/
def conditional : Nat → Context → Parser Statement
  | 0, _ => fail .start .outOfFuel
  | fuel + 1, ctx => do
    let pos ← expect (.keyword .ifWord)
    let cond ← expression fuel
    let yes ← block fuel ctx
    if ← eat (.keyword .elseWord) then
      let next ← peek
      if next.item = .keyword .ifWord then
        let nested ← conditional fuel ctx
        return .ifElse pos cond yes [nested]
      else
        let no ← block fuel ctx
        return .ifElse pos cond yes no
    else
      return .ifThen pos cond yes

/-- A block in braces. -/
def block : Nat → Context → Parser (List Statement)
  | 0, _ => fail .start .outOfFuel
  | fuel + 1, ctx => do
    let _ ← expect (.sign .lbrace)
    statements fuel ctx

/-- The statements up to the closing brace. -/
def statements : Nat → Context → Parser (List Statement)
  | 0, _ => fail .start .outOfFuel
  | fuel + 1, ctx => do
    skipSeparators
    if ← eat (.sign .rbrace) then
      return []
    else
      let s ← statement fuel ctx
      let rest ← statements fuel ctx
      return s :: rest

end

/-! ## Section 4: Programs -/

/-- A function.  Both the parameter list and the return type may be left out. -/
def function (fuel : Nat) : Parser Function := do
  let pos ← expect (.keyword .fnWord)
  let name ← ident .functionName
  let ps ← (do if ← eat (.sign .lparen) then params fuel else return [])
  let returns ← (do if ← eat (.sign .colon) then return some (← type) else return none)
  let body ← block fuel (.body returns)
  return ⟨name, ps, returns, body, pos⟩

/-- A top-level item. -/
def item (fuel : Nat) : Parser Item := do
  let t ← peek
  match t.item with
  | .keyword .fnWord => return .function (← function fuel)
  | .keyword .staticWord => return .static (← staticDecl)
  | .keyword .constWord => return .const (← constDecl fuel)
  | _ => return .statement (← statement fuel .topLevel)

/-- The items up to the end of the text. -/
def items : Nat → Parser (List Item)
  | 0 => fail .start .outOfFuel
  | fuel + 1 => do
    skipSeparators
    let t ← peek
    if t.item = .eof then
      return []
    else
      let i ← item fuel
      let rest ← items fuel
      return i :: rest

end Parser

/-- Why a text is not a program. -/
inductive SourceError where
  | lex (e : LexError)
  | parse (e : ParseError)
deriving DecidableEq

namespace Program

/-- Tokens that end with the end of the text: where it is missing, it is put at the place of
    the last token. -/
def closeTokens (ts : List (Located Token)) : List (Located Token) :=
  match ts.getLast? with
  | none => [⟨.start, .eof⟩]
  | some t => if t.item = .eof then ts else ts ++ [⟨t.pos, .eof⟩]

/-- The program that tokens form. -/
def ofTokens (ts : List (Located Token)) : Except ParseError Program := do
  let items ← (Parser.items (4 * ts.length + 8)).run' (closeTokens ts)
  return ⟨items⟩

/-- The program that a text describes. -/
def parse (source : String) : Except SourceError Program :=
  match tokenize source with
  | .error e => .error (.lex e)
  | .ok ts =>
    match ofTokens ts with
    | .error e => .error (.parse e)
    | .ok p => .ok p

end Program

end WordLang
