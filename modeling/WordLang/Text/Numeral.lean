/-! # Numerals

    Numbers are written in decimal, or in hexadecimal after `0x` or `0X`.
    A numeral stands for a number below `2 ^ 64`; anything larger is none. -/

namespace WordLang.Text

/-- Two to the power of 64, which no numeral reaches. -/
def numeralLimit : Nat := 0x10000000000000000

/-- The value of a hexadecimal digit of either case. -/
def hexDigit? (c : Char) : Option Nat :=
  if c.isDigit then some (c.toNat - '0'.toNat)
  else if 'a' ≤ c ∧ c ≤ 'f' then some (c.toNat - 'a'.toNat + 10)
  else if 'A' ≤ c ∧ c ≤ 'F' then some (c.toNat - 'A'.toNat + 10)
  else none

/-- The value of a decimal digit. -/
def decimalDigit? (c : Char) : Option Nat :=
  if c.isDigit then some (c.toNat - '0'.toNat) else none

/-- The number that further digits make of the number `n` read so far. -/
def digitsFrom (base : Nat) (digit? : Char → Option Nat) (n : Nat) : List Char → Option Nat
  | [] => some n
  | c :: cs =>
    match digit? c with
    | some d => digitsFrom base digit? (n * base + d) cs
    | none => none

/-- The number written in decimal digits only. -/
def decimal? (cs : List Char) : Option Nat :=
  if cs.isEmpty then none else digitsFrom 10 decimalDigit? 0 cs

/-- The number written in hexadecimal digits only. -/
def hexadecimal? (cs : List Char) : Option Nat :=
  if cs.isEmpty then none else digitsFrom 16 hexDigit? 0 cs

/-- The number that a word denotes in either notation, whatever its size. -/
def numeralValue? : List Char → Option Nat
  | '0' :: 'x' :: cs => hexadecimal? cs
  | '0' :: 'X' :: cs => hexadecimal? cs
  | cs => decimal? cs

/-- The number below `2 ^ 64` that a word denotes. -/
def numeral? (word : List Char) : Option Nat :=
  (numeralValue? word).filter (fun n => decide (n < numeralLimit))

end WordLang.Text
