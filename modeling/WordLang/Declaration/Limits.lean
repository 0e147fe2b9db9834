import WordLang.Declaration
import WordLang.Program

/-! # Limits on what can be declared

    Arrays have from 1 to 65536 elements and functions at most 255
    parameters.  Every declared type is looked at, wherever it stands. -/

namespace WordLang

/-- Whether an array is neither empty nor too long. -/
def Ty.withinLimits : Ty → Bool
  | .uint _ => true
  | .array _ len => 1 ≤ len && len ≤ maxArrayLength

/-- The fault of a type declared at a place, if it has one. -/
def Ty.limitErrors (pos : Position) : Ty → List DeclError
  | .uint _ => []
  | .array element len =>
    if (Ty.array element len).withinLimits then [] else [⟨pos, .arrayLength len⟩]

namespace Statement

mutual

/-- The types in a statement that break a limit, in source order. -/
def limitErrors : Statement → List DeclError
  | .letVar pos _ ty _ => ty.limitErrors pos
  | .static decl => decl.ty.limitErrors decl.pos
  | .ifThen _ _ yes => blockLimitErrors yes
  | .ifElse _ _ yes no => blockLimitErrors yes ++ blockLimitErrors no
  | .forRange pos _ ty _ _ body => ty.limitErrors pos ++ blockLimitErrors body
  | .loop _ body => blockLimitErrors body
  | .assign _ _ _ _ | .breakLoop _ | .continueLoop _ | .ret _ _ | .panic _ | .expr _ _ => []

/-- The types in a block that break a limit, in source order. -/
def blockLimitErrors : List Statement → List DeclError
  | [] => []
  | s :: rest => limitErrors s ++ blockLimitErrors rest

end

end Statement

namespace Function

/-- What breaks a limit in a function: the number of parameters, then the types. -/
def limitErrors (f : Function) : List DeclError :=
  (if maxParams < f.params.length then
    [⟨f.pos, .tooManyParams f.name f.params.length⟩] else [])
  ++ f.params.flatMap (fun p => p.ty.limitErrors f.pos)
  ++ f.ret.toList.flatMap (fun ty => ty.limitErrors f.pos)
  ++ Statement.blockLimitErrors f.body

end Function

namespace Item

/-- What breaks a limit in an item. -/
def limitErrors : Item → List DeclError
  | .function f => f.limitErrors
  | .static decl => decl.ty.limitErrors decl.pos
  | .const decl => decl.ty.limitErrors decl.pos
  | .statement s => s.limitErrors

end Item

namespace Program

/-- Everything in a program that breaks a limit, in source order. -/
def limitErrors (p : Program) : List DeclError := p.items.flatMap Item.limitErrors

end Program

end WordLang
