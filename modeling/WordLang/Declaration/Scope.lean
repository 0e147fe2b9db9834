import WordLang.Declaration
import WordLang.Program

/-! # Scopes of names

    A name is looked up in the enclosing scopes from the innermost out, then
    among the statics of the function and of the program, then among the
    constant tables.  A `let` is seen from the next statement of its block
    on; parameters share the scope of the function's body, and a loop
    variable that of the loop's body.

    `nameErrors` reports every name that means nothing, every assignment to
    a constant table and every name bound twice in one scope. -/

namespace WordLang

/-- The names bound in the enclosing scopes, the innermost scope first. -/
abbrev Scopes := List (List String)

namespace Scopes

/-- Whether some scope binds a name. -/
def binds (scopes : Scopes) (name : String) : Bool := scopes.any (fun scope => scope.contains name)

/-- Binds a name in the innermost scope. -/
def bind (scopes : Scopes) (name : String) : Scopes :=
  match scopes with
  | [] => []
  | scope :: rest => (name :: scope) :: rest

/-- The fault of binding a name that the innermost scope already has. -/
def bindErrors (scopes : Scopes) (name : String) (pos : Position) : List DeclError :=
  match scopes with
  | [] => []
  | scope :: _ => if scope.contains name then [⟨pos, .duplicateLocal name⟩] else []

end Scopes

/-- What a name stands for. -/
inductive Binding where
  | bound
  | static
  | const
deriving DecidableEq

/-- The names that are known in all of a function, or in all of the top level. -/
structure Names where
  functions : List String
  /-- Global statics. -/
  statics : List String
  consts : List String
  /-- The statics of the function itself. -/
  own : List String

namespace Names

/-- What a name stands for inside some scopes. -/
def resolve (names : Names) (scopes : Scopes) (name : String) : Option Binding :=
  if scopes.binds name then some .bound
  else if names.own.contains name || names.statics.contains name then some .static
  else if names.consts.contains name then some .const
  else none

/-- The fault of a name that stands for nothing. -/
def referenceErrors (names : Names) (scopes : Scopes) (name : String) (pos : Position) :
    List DeclError :=
  match names.resolve scopes name with
  | none => [⟨pos, .undefinedIdentifier name⟩]
  | some _ => []

/-- The fault of an assignment to something that is no variable. -/
def assignErrors (names : Names) (scopes : Scopes) (name : String) (pos : Position) :
    List DeclError :=
  match names.resolve scopes name with
  | none => [⟨pos, .undefinedIdentifier name⟩]
  | some .const => [⟨pos, .assignToConst name⟩]
  | some _ => []

/-- The fault of a call of a function that there is not. -/
def callErrors (names : Names) (function : String) (pos : Position) : List DeclError :=
  if names.functions.contains function then [] else [⟨pos, .undefinedFunction function⟩]

end Names

/-! ## Section 1: Expressions -/

namespace Expr

mutual

/-- The faulty names of an expression, in the order of evaluation. -/
def nameErrors (names : Names) (scopes : Scopes) : Expr → List DeclError
  | .literal _ _ => []
  | .ident pos name => names.referenceErrors scopes name pos
  | .index pos offset array =>
    nameErrors names scopes offset ++ names.referenceErrors scopes array pos
  | .binary _ _ left right => nameErrors names scopes left ++ nameErrors names scopes right
  | .call pos function args => names.callErrors function pos ++ argsNameErrors names scopes args

/-- The faulty names of arguments. -/
def argsNameErrors (names : Names) (scopes : Scopes) : List Expr → List DeclError
  | [] => []
  | e :: rest => nameErrors names scopes e ++ argsNameErrors names scopes rest

end

end Expr

namespace Place

/-- The faulty names of an assignment's target. -/
def nameErrors (names : Names) (scopes : Scopes) (pos : Position) : Place → List DeclError
  | .var name => names.assignErrors scopes name pos
  | .elem offset array => offset.nameErrors names scopes ++ names.assignErrors scopes array pos

end Place

/-! ## Section 2: Statements -/

namespace Statement

/-- The scopes of the statements that follow a statement. -/
def scopesAfter (scopes : Scopes) : Statement → Scopes
  | .letVar _ name _ _ => scopes.bind name
  | _ => scopes

mutual

/-- The faulty names of a statement, in source order. -/
def nameErrors (names : Names) (scopes : Scopes) : Statement → List DeclError
  | .letVar pos name _ value => value.nameErrors names scopes ++ scopes.bindErrors name pos
  | .static _ => []
  | .assign pos _ place value =>
    place.nameErrors names scopes pos ++ value.nameErrors names scopes
  | .ifThen _ cond yes =>
    cond.nameErrors names scopes ++ blockNameErrors names ([] :: scopes) yes
  | .ifElse _ cond yes no =>
    cond.nameErrors names scopes ++ blockNameErrors names ([] :: scopes) yes
      ++ blockNameErrors names ([] :: scopes) no
  | .forRange _ var _ start stop body =>
    start.nameErrors names scopes ++ stop.nameErrors names scopes
      ++ blockNameErrors names ([var] :: scopes) body
  | .loop _ body => blockNameErrors names ([] :: scopes) body
  | .breakLoop _ | .continueLoop _ | .panic _ | .ret _ none => []
  | .ret _ (some value) => value.nameErrors names scopes
  | .expr _ value => value.nameErrors names scopes

/-- The faulty names of a block, whose innermost scope is the first. -/
def blockNameErrors (names : Names) (scopes : Scopes) : List Statement → List DeclError
  | [] => []
  | s :: rest => nameErrors names scopes s ++ blockNameErrors names (scopesAfter scopes s) rest

end

end Statement

/-! ## Section 3: Functions and programs -/

namespace Function

/-- The faults of parameters that have a name already in the scope. -/
def paramErrors (pos : Position) (scope : List String) : List Param → List DeclError
  | [] => []
  | p :: rest =>
    (if scope.contains p.name then [⟨pos, .duplicateLocal p.name⟩] else [])
      ++ paramErrors pos (p.name :: scope) rest

/-- The scope of a function's body before its first statement. -/
def paramScope (f : Function) : List String := (f.params.map Param.name).reverse

/-- The faults of statics that a parameter would hide. -/
def hiddenStaticErrors (f : Function) : List DeclError :=
  f.statics.filterMap fun d =>
    if f.params.any (fun p => p.name == d.name) then
      some ⟨d.pos, .duplicateStatic f.name d.name⟩
    else none

/-- The faulty names of a function, given what is known in the whole program. -/
def nameErrors (f : Function) (names : Names) : List DeclError :=
  paramErrors f.pos [] f.params ++ f.hiddenStaticErrors
    ++ Statement.blockNameErrors { names with own := f.statics.map StaticDecl.name }
        [f.paramScope] f.body

end Function

namespace Program

/-- The names that are known at the top level. -/
def names (p : Program) : Names where
  functions := p.functions.map Function.name
  statics := p.statics.map StaticDecl.name
  consts := p.consts.map ConstDecl.name
  own := []

/-- Every faulty name of a program: of the functions in source order, then of the top-level
    statements, which share one scope. -/
def nameErrors (p : Program) : List DeclError :=
  p.functions.flatMap (fun f => f.nameErrors p.names)
    ++ Statement.blockNameErrors p.names [[]] p.statements

end Program

end WordLang
