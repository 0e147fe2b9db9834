import WordLang.Position
import WordLang.Width

/-! # Failures of a run

    What can end a run before its last statement.  Types, widths and numbers
    of arguments are only known while a program runs, so mistakes in them
    are failures and not faults of declarations. -/

namespace WordLang

/-- Why a run ended early. -/
inductive RuntimeCause where
  /-- The program asked for it, in this function or at the top level. -/
  | explicitPanic (function : Option String)
  | typeMismatch (expected found : Ty)
  | scalarExpected (found : Ty)
  | notAnArray (name : String)
  | arityMismatch (function : String) (expected found : Nat)
  | indexOutOfBounds (array : String) (index len : Nat)
  | literalOutOfRange (value : Nat) (width : Width)
  | divisionByZero
  /-- Only where results that do not fit are not cut. -/
  | arithmeticOverflow (op : String) (width : Width)
  | stackExhausted (limit : Nat)
  | missingReturn (function : String)
  | noValue (function : String)
  | constAssignment (name : String)
  | unresolved (name : String)
deriving DecidableEq

/-- A failure of a run, and the place in the program it is blamed on. -/
abbrev RuntimeError := Located RuntimeCause

namespace RuntimeCause

/-- The wording of a failure, without its place. -/
def message : RuntimeCause → String
  | .explicitPanic none => "explicit panic"
  | .explicitPanic (some function) => s!"explicit panic in function '{function}'"
  | .typeMismatch expected found => s!"type mismatch: expected {expected}, found {found}"
  | .scalarExpected found => s!"expected a scalar, found {found}"
  | .notAnArray name => s!"'{name}' is not an array"
  | .arityMismatch function expected found =>
    s!"function '{function}' takes {expected} arguments, found {found}"
  | .indexOutOfBounds array index len =>
    s!"index {index} out of bounds for '{array}' (length {len})"
  | .literalOutOfRange value width => s!"literal {value} does not fit in {width}"
  | .divisionByZero => "division by zero"
  | .arithmeticOverflow op width => s!"arithmetic overflow in '{op}' at {width}"
  | .stackExhausted limit => s!"call depth exceeded limit {limit}"
  | .missingReturn function => s!"function '{function}' ended without returning a value"
  | .noValue function => s!"function '{function}' does not return a value"
  | .constAssignment name => s!"cannot assign to const '{name}'"
  | .unresolved name => s!"unresolved name '{name}'"

end RuntimeCause

end WordLang
