import WordLang.Value

/-! # Operators on words

    Every operator takes two words of one width.  Arithmetic gives a word of
    that width, comparisons and the logical operators a single bit.

    `raw` is the result before it is cut to its width.  Under the `wrap`
    policy the low bits of it are the answer; under `trap` a result that
    `overflows` is a fault instead.  Shifts to the left only ever drop bits,
    so they overflow under neither policy. -/

namespace WordLang

/-! ## Section 1: The operators and their symbols -/

/-- The operators of expressions. -/
inductive BinOp where
  | add | sub | mul | div | rem | xor | shl | shr
  | or | and
  | eq | ne | lt | le | gt | ge
deriving DecidableEq, Inhabited

namespace BinOp

/-- Every operator: arithmetic, then logical operators, then comparisons. -/
def all : List BinOp :=
  [.add, .sub, .mul, .div, .rem, .xor, .shl, .shr, .or, .and, .eq, .ne, .lt, .le, .gt, .ge]

/-- How an operator is written. -/
def symbol : BinOp → String
  | .add => "+"  | .sub => "-"  | .mul => "*"  | .div => "/"
  | .rem => "%"  | .xor => "^"  | .shl => "<<" | .shr => ">>"
  | .or => "|"   | .and => "&"
  | .eq => "=="  | .ne => "!="  | .lt => "<"   | .le => "<="
  | .gt => ">"   | .ge => ">="

/-- The operator written like this. -/
def ofSymbol? (text : String) : Option BinOp := all.find? (fun op => op.symbol == text)

/-- Operators that compare two numbers. -/
def isComparison : BinOp → Bool
  | .eq | .ne | .lt | .le | .gt | .ge => true
  | _ => false

/-- Operators that only test their operands for zero. -/
def isLogical : BinOp → Bool
  | .or | .and => true
  | _ => false

/-- Operators whose result is a single bit. -/
def yieldsBool (op : BinOp) : Bool := op.isComparison || op.isLogical

end BinOp

/-- The operators of assignments. -/
inductive AssignOp where
  | set | add | sub
deriving DecidableEq, Inhabited

namespace AssignOp

/-- Every assignment operator. -/
def all : List AssignOp := [.set, .add, .sub]

/-- How an assignment operator is written. -/
def symbol : AssignOp → String
  | .set => "="
  | .add => "+="
  | .sub => "-="

/-- The assignment operator written like this. -/
def ofSymbol? (text : String) : Option AssignOp := all.find? (fun op => op.symbol == text)

/-- The operator that combines the old value with the new one, if any does. -/
def binOp? : AssignOp → Option BinOp
  | .set => none
  | .add => some .add
  | .sub => some .sub

end AssignOp

/-! ## Section 2: What the operators compute -/

/-- What happens to a result that does not fit its width. -/
inductive Overflow where
  /-- The low bits are kept. -/
  | wrap
  /-- The program fails. -/
  | trap
deriving DecidableEq, Inhabited

/-- Why an operator has no result. -/
inductive Fault where
  | divisionByZero
  | overflow
deriving DecidableEq

namespace BinOp

/-- The result before it is cut to its width.  A difference is taken above `2 ^ 64`, which is a
    multiple of the count of every width, so that it has the right low bits also below zero. -/
def raw (op : BinOp) (w : Width) (a b : Nat) : Nat :=
  match op with
  | .add => a + b
  | .sub => Width.word.count + a - b
  | .mul => a * b
  | .div => a / b
  | .rem => a % b
  | .xor => a ^^^ b
  | .shl => if w.bits ≤ b then 0 else a <<< b
  | .shr => if w.bits ≤ b then 0 else a >>> b
  | .or => (a != 0 || b != 0).toNat
  | .and => (a != 0 && b != 0).toNat
  | .eq => (a == b).toNat
  | .ne => (a != b).toNat
  | .lt => (decide (a < b)).toNat
  | .le => (decide (a ≤ b)).toNat
  | .gt => (decide (b < a)).toNat
  | .ge => (decide (b ≤ a)).toNat

/-- The width of the result on operands of width `w`. -/
def resultWidth (op : BinOp) (w : Width) : Width :=
  if op.yieldsBool then .bool else w

/-- Whether the result counts as too large or too small for its width. -/
def overflows (op : BinOp) (w : Width) (a b : Nat) : Bool :=
  match op with
  | .sub => a < b
  | .add | .mul | .div | .rem | .xor | .shr => w.max < op.raw w a b
  | .shl | .or | .and | .eq | .ne | .lt | .le | .gt | .ge => false

/-- Whether the operator divides by its second operand. -/
def divides : BinOp → Bool
  | .div | .rem => true
  | _ => false

/-- The value of an operator on two words of width `w`. -/
def apply (op : BinOp) (w : Width) (a b : Nat) (policy : Overflow) : Except Fault Value :=
  if op.divides && b == 0 then .error .divisionByZero
  else if policy = .trap ∧ op.overflows w a b then .error .overflow
  else .ok (.wrapped (op.resultWidth w) (op.raw w a b))

/-- A value that an operator gives has the width foretold, and fits it. -/
theorem apply_eq_ok {op : BinOp} {w : Width} {a b : Nat} {policy : Overflow} {v : Value}
    (h : op.apply w a b policy = .ok v) :
    v = .wrapped (op.resultWidth w) (op.raw w a b) := by
  unfold apply at h
  split at h
  · cases h
  · split at h
    · cases h
    · exact (Except.ok.inj h).symm

end BinOp

end WordLang
