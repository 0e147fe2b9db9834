import WordLang.Program

/-! # The canonical text of a program

    One statement on a line, four blanks for each enclosing block, numbers
    in decimal, and an empty line on either side of a function.  An `else`
    block that holds nothing but an `if` is written `else if`. -/

namespace WordLang

/-! ## Section 1: Expressions -/

namespace Expr

mutual

/-- The text of an expression: operator or function first, in parentheses. -/
def text : Expr → String
  | .literal _ value => toString value
  | .ident _ name => name
  | .index _ i array => "[" ++ text i ++ "]" ++ array
  | .binary _ op left right => "(" ++ op.symbol ++ " " ++ text left ++ " " ++ text right ++ ")"
  | .call _ function args => "(" ++ function ++ argsText args ++ ")"

/-- The text of arguments, a blank before each. -/
def argsText : List Expr → String
  | [] => ""
  | e :: rest => " " ++ text e ++ argsText rest

end

end Expr

namespace Place

/-- The text of an assignment's target. -/
def text : Place → String
  | .var name => name
  | .elem i array => "[" ++ i.text ++ "]" ++ array

end Place

/-! ## Section 2: Statements -/

/-- The blanks in front of a line inside this many blocks. -/
def indent (depth : Nat) : String := "".pushn ' ' (4 * depth)

namespace StaticDecl

/-- The text of a static declaration. -/
def text (d : StaticDecl) : String := s!"static {d.name}:{d.ty}"

end StaticDecl

/-- Lines in braces, inside `depth` blocks. -/
def braces (depth : Nat) (inner : String) : String :=
  "\x7b\n" ++ inner ++ indent depth ++ "\x7d"

namespace Statement

/-- Whether a block is nothing but an `if`. -/
def isLoneConditional : List Statement → Bool
  | [s] => s.isConditional
  | _ => false

mutual

/-- The text of a statement inside `depth` blocks, from its first word to its last. -/
def text (depth : Nat) : Statement → String
  | .letVar _ name ty value => s!"let {name}:{ty} = " ++ value.text
  | .static decl => decl.text
  | .assign _ op place value => "(" ++ op.symbol ++ " " ++ place.text ++ " " ++ value.text ++ ")"
  | .ifThen _ cond yes => "if " ++ cond.text ++ " " ++ braces depth (linesText (depth + 1) yes)
  | .ifElse _ cond yes no =>
    "if " ++ cond.text ++ " " ++ braces depth (linesText (depth + 1) yes) ++ " else " ++
      (if isLoneConditional no then firstText depth no
       else braces depth (linesText (depth + 1) no))
  | .forRange _ var ty start stop body =>
    s!"for {var}:{ty} in " ++ start.text ++ ".." ++ stop.text ++ " "
      ++ braces depth (linesText (depth + 1) body)
  | .loop _ body => "loop " ++ braces depth (linesText (depth + 1) body)
  | .breakLoop _ => "break"
  | .continueLoop _ => "continue"
  | .ret _ none => "return"
  | .ret _ (some value) => "return " ++ value.text
  | .panic _ => "!!"
  | .expr _ value => value.text

/-- Statements on lines of their own. -/
def linesText (depth : Nat) : List Statement → String
  | [] => ""
  | s :: rest => indent depth ++ text depth s ++ "\n" ++ linesText depth rest

/-- The text of the first statement of a block. -/
def firstText (depth : Nat) : List Statement → String
  | [] => ""
  | s :: _ => text depth s

end

end Statement

/-! ## Section 3: Items and programs -/

namespace Function

/-- The parameter list; a function without parameters has none. -/
def paramsText (f : Function) : String :=
  if f.params.isEmpty then ""
  else "(" ++ " ".intercalate (f.params.map fun p => s!"{p.name}:{p.ty}") ++ ")"

/-- The return type behind a colon, if there is one. -/
def retText (f : Function) : String :=
  match f.ret with
  | none => ""
  | some ty => s!":{ty}"

/-- The text of a function. -/
def text (f : Function) : String :=
  "fn " ++ f.name ++ f.paramsText ++ f.retText ++ " " ++ braces 0 (Statement.linesText 1 f.body)

end Function

namespace ConstDecl

/-- The text of a constant table. -/
def text (c : ConstDecl) : String :=
  s!"const {c.name}:{c.ty} = [" ++ " ".intercalate (c.values.map toString) ++ "]"

end ConstDecl

namespace Item

/-- The text of an item. -/
def text : Item → String
  | .function f => f.text
  | .static decl => decl.text
  | .const decl => decl.text
  | .statement s => s.text 0

/-- Whether an item is a function. -/
def isFunction : Item → Bool
  | .function _ => true
  | _ => false

end Item

namespace Program

/-- The text of items that follow the item `before`. -/
def itemsText (before : Item) : List Item → String
  | [] => ""
  | item :: rest =>
    (if item.isFunction || before.isFunction then "\n" else "")
      ++ item.text ++ "\n" ++ itemsText item rest

/-- The canonical text of a program. -/
def print (p : Program) : String :=
  match p.items with
  | [] => ""
  | item :: rest => item.text ++ "\n" ++ itemsText item rest

end Program

end WordLang
