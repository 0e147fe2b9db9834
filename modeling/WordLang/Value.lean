import WordLang.Width

/-! # Values

    A value is a word together with its width, or an array of words of one
    width.  A value knows its type, so two words of different widths are
    different values even if they are the same number. -/

namespace WordLang

/-- A word of some width, or an array of words of one width. -/
inductive Value where
  | scalar (width : Width) (bits : Nat)
  | array (element : Width) (items : Array Nat)
deriving DecidableEq, Inhabited

namespace Value

/-! ## Section 1: Building values -/

/-- A word, if the number fits its width. -/
def ofNat (w : Width) (n : Nat) : Except ValueError Value :=
  if w.fits n then .ok (.scalar w n) else .error (.outOfRange n w.bits)

/-- The word of a number's low bits. -/
def wrapped (w : Width) (n : Nat) : Value := .scalar w (w.reduce n)

/-- A truth value: `1` or `0` in a single bit. -/
def ofBool (b : Bool) : Value := .scalar .bool b.toNat

/-- An array, if every element fits; otherwise the first that does not is the error. -/
def ofList (w : Width) (ns : List Nat) : Except ValueError Value :=
  match ns.find? (fun n => !w.fits n) with
  | some n => .error (.outOfRange n w.bits)
  | none => .ok (.array w ns.toArray)

/-- The zero of a type. -/
def zero : Ty → Value
  | .uint w => .scalar w 0
  | .array element len => .array element (Array.replicate len 0)

/-! ## Section 2: Looking at values -/

/-- The type of a value. -/
def ty : Value → Ty
  | .scalar w _ => .uint w
  | .array element items => .array element items.size

/-- Width and number of a word; an array has none. -/
def scalar? : Value → Option (Width × Nat)
  | .scalar w n => some (w, n)
  | .array _ _ => none

/-- An element of an array as a word of its own; a word has no elements. -/
def element? (v : Value) (i : Nat) : Option Value :=
  match v with
  | .scalar _ _ => none
  | .array element items => items[i]?.map (.scalar element)

/-- Stores a number as an element, as it is; without such an element nothing changes. -/
def setElement (v : Value) (i n : Nat) : Value :=
  match v with
  | .scalar w m => .scalar w m
  | .array element items => .array element (items.setIfInBounds i n)

/-- Whether there is an element to store to. -/
def hasElement (v : Value) (i : Nat) : Bool := (v.element? i).isSome

/-- A nonzero word counts as true; an array does not. -/
def isTruthy : Value → Bool
  | .scalar _ n => n != 0
  | .array _ _ => false

/-- Every number held fits its width. -/
def InRange : Value → Prop
  | .scalar w n => w.fits n = true
  | .array element items => ∀ n ∈ items, element.fits n = true

/-! ## Section 3: Text -/

/-- A word in decimal; the elements of an array in brackets, a comma and a blank between. -/
protected def toString : Value → String
  | .scalar _ n => toString n
  | .array _ items => "[" ++ ", ".intercalate (items.toList.map toString) ++ "]"

instance : ToString Value := ⟨Value.toString⟩

/-! ## Section 4: Types and elements -/

@[simp] theorem ty_zero (t : Ty) : (zero t).ty = t := by
  cases t <;> simp [zero, ty]

@[simp] theorem ty_wrapped (w : Width) (n : Nat) : (wrapped w n).ty = .uint w := rfl

@[simp] theorem ty_setElement (v : Value) (i n : Nat) : (v.setElement i n).ty = v.ty := by
  cases v <;> simp [setElement, ty]

theorem inRange_wrapped (w : Width) (n : Nat) : (wrapped w n).InRange :=
  w.fits_reduce n

theorem inRange_zero (t : Ty) : (zero t).InRange := by
  cases t with
  | uint w => exact Width.fits_iff.mpr (Width.count_pos _)
  | array element len =>
    intro n hn
    rw [Array.eq_of_mem_replicate hn]
    exact Width.fits_iff.mpr (Width.count_pos _)

end Value

end WordLang
