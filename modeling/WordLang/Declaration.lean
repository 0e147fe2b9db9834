import WordLang.Position
import WordLang.Width

/-! # Faults of declarations and names

    What can be wrong with a program before it runs.  Unlike other faults
    these do not end the search: all of them are reported. -/

namespace WordLang

/-- The greatest length of an array. -/
def maxArrayLength : Nat := 65536

/-- The greatest number of parameters of a function. -/
def maxParams : Nat := 255

/-- Why a program is rejected before it runs. -/
inductive DeclCause where
  | duplicateFunction (name : String)
  /-- Two statics or constant tables of the program have one name. -/
  | duplicateGlobal (name : String)
  /-- Two statics of a function, or a static and a parameter of it, have one name. -/
  | duplicateStatic (function name : String)
  /-- The scope already has a variable of this name. -/
  | duplicateLocal (name : String)
  | constNotArray (name : String)
  | constLength (name : String) (expected found : Nat)
  | constValueOutOfRange (name : String) (value : Nat) (width : Width)
  | undefinedIdentifier (name : String)
  | undefinedFunction (name : String)
  | assignToConst (name : String)
  | arrayLength (len : Nat)
  | tooManyParams (function : String) (count : Nat)
deriving DecidableEq

/-- A fault of a declaration or a name, and where it is. -/
abbrev DeclError := Located DeclCause

namespace DeclCause

/-- The wording of a fault, without its place. -/
def message : DeclCause → String
  | .duplicateFunction name => s!"function '{name}' is already defined"
  | .duplicateGlobal name => s!"global '{name}' is already declared"
  | .duplicateStatic function name =>
    s!"static '{name}' is already declared in function '{function}'"
  | .duplicateLocal name => s!"'{name}' is already bound in this scope"
  | .constNotArray name => s!"const '{name}' must have an array type"
  | .constLength name expected found =>
    s!"const '{name}' declares {expected} elements, literal has {found}"
  | .constValueOutOfRange name value width =>
    s!"const '{name}' element {value} does not fit in {width}"
  | .undefinedIdentifier name => s!"undefined identifier '{name}'"
  | .undefinedFunction name => s!"undefined function '{name}'"
  | .assignToConst name => s!"cannot assign to const '{name}'"
  | .arrayLength len => s!"array length {len} outside 1..={maxArrayLength}"
  | .tooManyParams function count =>
    s!"function '{function}' has {count} parameters, limit is {maxParams}"

end DeclCause

end WordLang
