/-! # Word widths and declared types

    Every number of the language is an unsigned word of a declared width,
    between 1 and 64 bits.  A type is one word, or an array of a fixed
    number of words of one width. -/

namespace WordLang

/-! ## Section 1: Errors of building a width or a value -/

/-- Why a width or a value could not be built. -/
inductive ValueError where
  /-- There is no word of this many bits. -/
  | invalidWidth (bits : Nat)
  /-- The number needs more than this many bits. -/
  | outOfRange (value bits : Nat)
deriving DecidableEq

namespace ValueError

/-- The wording of an error. -/
def message : ValueError → String
  | .invalidWidth bits => s!"invalid integer width: {bits} (expected 1..=64)"
  | .outOfRange value bits => s!"value {value} does not fit in u{bits}"

end ValueError

/-! ## Section 2: Widths -/

/-- The number of bits of a word, from 1 to 64. -/
structure Width where
  bits    : Nat
  one_le  : 1 ≤ bits
  le_size : bits ≤ 64
deriving DecidableEq

namespace Width

/-- The width of truth values. -/
def bool : Width := ⟨1, by decide, by decide⟩

/-- The width of a literal that nothing else determines. -/
def byte : Width := ⟨8, by decide, by decide⟩

/-- The greatest width, and that of a literal in index position. -/
def word : Width := ⟨64, by decide, by decide⟩

instance : Inhabited Width := ⟨byte⟩

/-- The width of this many bits, if there is one. -/
def ofBits (bits : Nat) : Except ValueError Width :=
  if h : 1 ≤ bits ∧ bits ≤ 64 then .ok ⟨bits, h.1, h.2⟩ else .error (.invalidWidth bits)

/-- How many numbers a width has: two to the power of its bits. -/
def count (w : Width) : Nat := Nat.pow 2 w.bits

/-- The greatest number of a width. -/
def max (w : Width) : Nat := w.count - 1

/-- Whether a number can be held without loss. -/
def fits (w : Width) (n : Nat) : Bool := decide (n ≤ w.max)

/-- The low bits of a number, as many as the width has. -/
def reduce (w : Width) (n : Nat) : Nat := n % w.count

/-- The name of a word type: `u` and the number of bits. -/
protected def toString (w : Width) : String := s!"u{w.bits}"

instance : ToString Width := ⟨Width.toString⟩

theorem count_pos (w : Width) : 0 < w.count := Nat.two_pow_pos w.bits

theorem fits_iff {w : Width} {n : Nat} : w.fits n = true ↔ n < w.count := by
  have := w.count_pos
  rw [fits, decide_eq_true_iff, max]; omega

theorem fits_reduce (w : Width) (n : Nat) : w.fits (w.reduce n) = true :=
  fits_iff.mpr (Nat.mod_lt _ w.count_pos)

theorem reduce_eq_self {w : Width} {n : Nat} (h : w.fits n = true) : w.reduce n = n :=
  Nat.mod_eq_of_lt (fits_iff.mp h)

end Width

/-! ## Section 3: Types -/

/-- A declared type: a word, or an array of `len` words. -/
inductive Ty where
  | uint (width : Width)
  | array (element : Width) (len : Nat)
deriving DecidableEq, Inhabited

namespace Ty

/-- The width of a word or of an array's elements. -/
def width : Ty → Width
  | .uint w => w
  | .array element _ => element

/-- The width of a word; an array has none. -/
def scalarWidth? : Ty → Option Width
  | .uint w => some w
  | .array _ _ => none

/-- The name of a type; an array is written with its element type and its length. -/
protected def toString : Ty → String
  | .uint w => toString w
  | .array element len => s!"[{element} {len}]"

instance : ToString Ty := ⟨Ty.toString⟩

end Ty

end WordLang
