import WordLang.Operator
import WordLang.Position

/-! # Programs

    A program is a list of items: functions, statics, constant tables and
    the statements that are run.  Every node keeps the place it was read
    from, which only error messages and traces ever look at. -/

namespace WordLang

/-! ## Section 1: Expressions -/

/-- An expression. -/
inductive Expr where
  | literal (pos : Position) (value : Nat)
  | ident (pos : Position) (name : String)
  /-- An element of the array of that name. -/
  | index (pos : Position) (offset : Expr) (array : String)
  | binary (pos : Position) (op : BinOp) (left right : Expr)
  | call (pos : Position) (function : String) (args : List Expr)
deriving Inhabited

namespace Expr

/-- Where an expression starts. -/
def pos : Expr → Position
  | .literal pos _ => pos
  | .ident pos _ => pos
  | .index pos _ _ => pos
  | .binary pos _ _ _ => pos
  | .call pos _ _ => pos

end Expr

/-- What can be assigned to: a whole variable, or an element of an array. -/
inductive Place where
  | var (name : String)
  | elem (offset : Expr) (array : String)

namespace Place

/-- The variable that an assignment changes. -/
def name : Place → String
  | .var name => name
  | .elem _ array => array

end Place

/-! ## Section 2: Statements -/

/-- Declares a variable that keeps its value for the whole run. -/
structure StaticDecl where
  name : String
  ty   : Ty
  pos  : Position
deriving DecidableEq

/-- A statement.  A block is a list of statements. -/
inductive Statement where
  | letVar (pos : Position) (name : String) (ty : Ty) (value : Expr)
  /-- The declaration starts where the statement does, at the word `static`, so the place of the
      one is that of the other and is kept once. -/
  | static (decl : StaticDecl)
  | assign (pos : Position) (op : AssignOp) (place : Place) (value : Expr)
  | ifThen (pos : Position) (cond : Expr) (yes : List Statement)
  | ifElse (pos : Position) (cond : Expr) (yes no : List Statement)
  /-- Runs its body for each number from `start` up to but not including `stop`. -/
  | forRange (pos : Position) (var : String) (ty : Ty) (start stop : Expr) (body : List Statement)
  | loop (pos : Position) (body : List Statement)
  | breakLoop (pos : Position)
  | continueLoop (pos : Position)
  | ret (pos : Position) (value : Option Expr)
  | panic (pos : Position)
  | expr (pos : Position) (value : Expr)

namespace Statement

/-- Where a statement starts. -/
def pos : Statement → Position
  | .letVar pos _ _ _ => pos
  | .static decl => decl.pos
  | .assign pos _ _ _ => pos
  | .ifThen pos _ _ => pos
  | .ifElse pos _ _ _ => pos
  | .forRange pos _ _ _ _ _ => pos
  | .loop pos _ => pos
  | .breakLoop pos => pos
  | .continueLoop pos => pos
  | .ret pos _ => pos
  | .panic pos => pos
  | .expr pos _ => pos

/-- Whether a statement is an `if`, with or without `else`. -/
def isConditional : Statement → Bool
  | .ifThen _ _ _ | .ifElse _ _ _ _ => true
  | _ => false

mutual

/-- The statics declared in a statement and the blocks inside it, in source order. -/
def statics : Statement → List StaticDecl
  | .static decl => [decl]
  | .ifThen _ _ yes => blockStatics yes
  | .ifElse _ _ yes no => blockStatics yes ++ blockStatics no
  | .forRange _ _ _ _ _ body => blockStatics body
  | .loop _ body => blockStatics body
  | .letVar _ _ _ _ | .assign _ _ _ _ | .breakLoop _ | .continueLoop _ | .ret _ _ | .panic _
  | .expr _ _ => []

/-- The statics declared in a block and the blocks inside it, in source order. -/
def blockStatics : List Statement → List StaticDecl
  | [] => []
  | s :: rest => statics s ++ blockStatics rest

end

end Statement

/-! ## Section 3: Items and programs -/

/-- A parameter of a function. -/
structure Param where
  name : String
  ty   : Ty
deriving DecidableEq

/-- A function; without a return type it gives no value. -/
structure Function where
  name   : String
  params : List Param
  ret    : Option Ty
  body   : List Statement
  pos    : Position

namespace Function

/-- The statics of a function, also those in nested blocks, in source order. -/
def statics (f : Function) : List StaticDecl := Statement.blockStatics f.body

end Function

/-- A table of numbers that never changes. -/
structure ConstDecl where
  name   : String
  ty     : Ty
  values : List Nat
  pos    : Position
deriving DecidableEq

/-- A top-level item. -/
inductive Item where
  | function (f : Function)
  | static (decl : StaticDecl)
  | const (decl : ConstDecl)
  | statement (s : Statement)

namespace Item

/-- The function that an item is. -/
def function? : Item → Option Function
  | .function f => some f
  | _ => none

/-- The static that an item declares. -/
def static? : Item → Option StaticDecl
  | .static decl => some decl
  | _ => none

/-- The constant table that an item declares. -/
def const? : Item → Option ConstDecl
  | .const decl => some decl
  | _ => none

/-- The statement that an item is. -/
def statement? : Item → Option Statement
  | .statement s => some s
  | _ => none

end Item

/-- A program: its items in source order. -/
structure Program where
  items : List Item

namespace Program

/-- The functions, in source order. -/
def functions (p : Program) : List Function := p.items.filterMap Item.function?

/-- The global statics, in source order. -/
def statics (p : Program) : List StaticDecl := p.items.filterMap Item.static?

/-- The constant tables, in source order. -/
def consts (p : Program) : List ConstDecl := p.items.filterMap Item.const?

/-- The top-level statements, in the order they run. -/
def statements (p : Program) : List Statement := p.items.filterMap Item.statement?

end Program

end WordLang
