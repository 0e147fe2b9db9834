/-! # Positions in source text

    A position is a line and a column, both counted from one; a column
    counts characters.  Tokens, the nodes of a program and every error
    point into the source with a position, so `Located` pairs one with
    whatever stands there. -/

namespace WordLang

/-! ## Section 1: Positions and their order -/

/-- A line and a column, both counted from one.  They are numbers without a bound.  A reader that
    keeps them in 32 bits has the same ones as long as a text has fewer than `2 ^ 32 - 1` lines,
    and each line fewer characters than that. -/
structure Position where
  line   : Nat
  column : Nat
deriving DecidableEq, Inhabited

namespace Position

/-- The first character of a text. -/
def start : Position := ⟨1, 1⟩

/-- Reading order: an earlier line first, within a line an earlier column. -/
protected def lt (p q : Position) : Prop :=
  p.line < q.line ∨ p.line = q.line ∧ p.column < q.column

/-- Reading order, or the same place. -/
protected def le (p q : Position) : Prop :=
  p.line < q.line ∨ p.line = q.line ∧ p.column ≤ q.column

instance : LT Position := ⟨Position.lt⟩

instance : LE Position := ⟨Position.le⟩

instance (p q : Position) : Decidable (p < q) :=
  inferInstanceAs (Decidable (p.line < q.line ∨ p.line = q.line ∧ p.column < q.column))

instance (p q : Position) : Decidable (p ≤ q) :=
  inferInstanceAs (Decidable (p.line < q.line ∨ p.line = q.line ∧ p.column ≤ q.column))

theorem lt_iff {p q : Position} :
    p < q ↔ p.line < q.line ∨ p.line = q.line ∧ p.column < q.column := Iff.rfl

theorem le_iff {p q : Position} :
    p ≤ q ↔ p.line < q.line ∨ p.line = q.line ∧ p.column ≤ q.column := Iff.rfl

protected theorem lt_trans {p q r : Position} (hpq : p < q) (hqr : q < r) : p < r := by
  rw [lt_iff] at *; omega

protected theorem lt_irrefl (p : Position) : ¬ p < p := by
  rw [lt_iff]; omega

/-- Positions in reading order. -/
def sort (ps : List Position) : List Position :=
  ps.mergeSort (fun p q => decide (p ≤ q))

/-- The place `n` characters further on the same line. -/
def advance (p : Position) (n : Nat) : Position :=
  { p with column := p.column + n }

/-- Line and column with a colon between them. -/
protected def toString (p : Position) : String :=
  s!"{p.line}:{p.column}"

instance : ToString Position := ⟨Position.toString⟩

end Position

/-! ## Section 2: Things at a place -/

/-- Something found at a place in the source. -/
structure Located (α : Type) where
  pos  : Position
  item : α
deriving DecidableEq

end WordLang
