import WordLang.Machine

/-! # Computations on a machine

    A computation ends with a result, ends with a failure, or runs out of
    fuel.  A failure keeps the machine it left behind: scopes and frames
    that were opened are closed on the way, and what was stored stays.

    Beside how it ends, a computation tells which single changes it made to
    the machine, so that the states in between can be spoken about.  They are
    a relation and not a list: nothing is recorded while a program runs. -/

namespace WordLang

/-- How a computation ends. -/
inductive Outcome (α : Type) where
  | done (a : α) (m : Machine)
  | fault (e : RuntimeError) (m : Machine)
  | outOfFuel

namespace Outcome

/-- The machine that is left, unless the fuel ran out. -/
def machine? {α : Type} : Outcome α → Option Machine
  | .done _ m => some m
  | .fault _ m => some m
  | .outOfFuel => none

/-- The same end with another machine left. -/
@[always_inline, inline] def mapMachine {α : Type} (f : Machine → Machine) : Outcome α → Outcome α
  | .done a m => .done a (f m)
  | .fault e m => .fault e (f m)
  | .outOfFuel => .outOfFuel

end Outcome

namespace Outcome

@[simp] theorem machine?_mapMachine {α : Type} (f : Machine → Machine) (o : Outcome α) :
    (o.mapMachine f).machine? = o.machine?.map f := by
  cases o <;> rfl

end Outcome

/-- A state is reached from another one by single changes, one after another. -/
inductive Leads (changes : Machine → Machine → Prop) : Machine → Machine → Prop where
  | here (m : Machine) : Leads changes m m
  | change {a b c : Machine} (first : changes a b) (rest : Leads changes b c) : Leads changes a c

namespace Leads

variable {changes changes' : Machine → Machine → Prop} {a b c : Machine}

theorem single (h : changes a b) : Leads changes a b := .change h (.here b)

theorem trans (h : Leads changes a b) (h' : Leads changes b c) : Leads changes a c := by
  induction h with
  | here m => exact h'
  | change first _ ih => exact .change first (ih h')

theorem mono (h : Leads changes a b) (hmono : ∀ p q, changes p q → changes' p q) :
    Leads changes' a b := by
  induction h with
  | here m => exact .here m
  | change first _ ih => exact .change (hmono _ _ first) ih

end Leads

/-- What a computation does on a machine. -/
structure Execution (α : Type) (start : Machine) where
  outcome : Outcome α
  /-- The single changes made on the way, each from one state to the next. -/
  changes : Machine → Machine → Prop
  /-- No change is left out: together they lead to the machine that is left. -/
  linked : ∀ m, outcome.machine? = some m → Leads changes start m

/-- A computation on a machine. -/
def Exec (α : Type) : Type := (m : Machine) → Execution α m

namespace Exec

variable {α β : Type}

/-- The computation that changes nothing and ends with this outcome on the machine it is given. -/
@[always_inline, inline] def still (m : Machine) (o : Outcome α)
    (h : ∀ m', o.machine? = some m' → m = m') : Execution α m :=
  ⟨o, fun _ _ => False, fun m' hm => h m' hm ▸ .here m⟩

/-- Gives a result and leaves the machine alone. -/
@[always_inline, inline] protected def pure (a : α) : Exec α := fun m =>
  still m (.done a m) (fun _ => Option.some.inj)

/-- Goes on with the result; without one there is nothing to go on with. -/
@[always_inline, inline] protected def bind (x : Exec α) (f : α → Exec β) : Exec β := fun m =>
  match x m with
  | ⟨.done a m', before, linked⟩ =>
    let after := f a m'
    ⟨after.outcome, fun p q => before p q ∨ after.changes p q, fun m'' h =>
      ((linked m' rfl).mono (fun _ _ => Or.inl)).trans
        ((after.linked m'' h).mono (fun _ _ => Or.inr))⟩
  | ⟨.fault e m', before, linked⟩ => ⟨.fault e m', before, linked⟩
  | ⟨.outOfFuel, before, _⟩ => ⟨.outOfFuel, before, fun _ h => nomatch h⟩

@[always_inline] instance : Monad Exec where
  pure := Exec.pure
  bind := Exec.bind

/-- The computation that has no fuel left. -/
@[always_inline, inline] def outOfFuel : Exec α := fun m =>
  still m .outOfFuel (fun _ h => nomatch h)

/-- Ends with a failure. -/
@[always_inline, inline] def fail (pos : Position) (cause : RuntimeCause) : Exec α := fun m =>
  still m (.fault ⟨pos, cause⟩ m) (fun _ => Option.some.inj)

/-- Looks at the machine. -/
@[always_inline, inline] def reads (f : Machine → α) : Exec α := fun m =>
  still m (.done (f m) m) (fun _ => Option.some.inj)

/-- Changes the machine. -/
@[always_inline, inline] def modify (f : Machine → Machine) : Exec Unit := fun m =>
  ⟨.done () (f m), fun p q => p = m ∧ q = f m, fun _ h => .single ⟨rfl, (Option.some.inj h).symm⟩⟩

/-- Runs a computation after one change to the machine and before another one, which is made
    however the computation ends. -/
@[always_inline, inline] def within (enter leave : Machine → Machine) (x : Exec α) : Exec α :=
  fun m =>
    let inner := x (enter m)
    { outcome := inner.outcome.mapMachine leave
      changes := fun p q =>
        p = m ∧ q = enter m ∨ inner.changes p q ∨ inner.outcome.machine? = some p ∧ q = leave p
      linked := by
        intro m' hm'
        rw [Outcome.machine?_mapMachine] at hm'
        obtain ⟨last, hlast, rfl⟩ := Option.map_eq_some_iff.mp hm'
        refine .change (Or.inl ⟨rfl, rfl⟩) (Leads.trans (b := last) ?_ ?_)
        · exact (inner.linked last hlast).mono (fun _ _ h => Or.inr (Or.inl h))
        · exact .single (Or.inr (Or.inr ⟨hlast, rfl⟩)) }

/-- Runs a computation in a scope of its own, which is closed however it ends. -/
@[always_inline, inline] def inScope (scope : NameMap Value) (x : Exec α) : Exec α :=
  within (fun m => m.pushScope scope) Machine.popScope x

/-- Runs a computation in a frame of its own, which is removed however it ends. -/
@[always_inline, inline] def inFrame (frame : Frame) (x : Exec α) : Exec α :=
  within (fun m => m.pushFrame frame) Machine.popFrame x

/-! ## Section 1: Values where a certain kind is needed -/

/-- A value as a word. -/
def scalar (pos : Position) (v : Value) : Exec (Width × Nat) :=
  match v with
  | .scalar w n => .pure (w, n)
  | .array element items => fail pos (.scalarExpected (.array element items.size))

/-- A value as a word of this width. -/
def wordOf (pos : Position) (w : Width) (v : Value) : Exec Nat := do
  let (found, n) ← scalar pos v
  if found = w then return n else fail pos (.typeMismatch (.uint w) (.uint found))

/-- Fails unless a value has this type. -/
def expectType (pos : Position) (ty : Ty) (v : Value) : Exec Unit :=
  if v.ty = ty then .pure () else fail pos (.typeMismatch ty v.ty)

/-- A literal as a word of this width. -/
def literal (pos : Position) (value : Nat) (w : Width) : Exec Value :=
  match Value.ofNat w value with
  | .ok v => .pure v
  | .error _ => fail pos (.literalOutOfRange value w)

/-- The result of an operator; faults name the operator as it is written. -/
def applyOp (pos : Position) (symbol : String) (op : BinOp) (w : Width) (a b : Nat)
    (policy : Overflow) : Exec Value :=
  match op.apply w a b policy with
  | .ok v => .pure v
  | .error .divisionByZero => fail pos .divisionByZero
  | .error .overflow => fail pos (.arithmeticOverflow symbol w)

/-! ## Section 2: Names -/

/-- The value of a name. -/
def read (pos : Position) (name : String) : Exec Value := do
  match ← reads (fun m => m.read? name) with
  | some v => return v
  | none => fail pos (.unresolved name)

/-- The element of the array of a name. -/
def readElement (pos : Position) (array : String) (i : Nat) : Exec Value := do
  match ← read pos array with
  | .scalar _ _ => fail pos (.notAnArray array)
  | .array element items =>
    match items[i]? with
    | some n => return .scalar element n
    | none => fail pos (.indexOutOfBounds array i items.size)

/-- What an assignment finds in place: its type, and the number there if it is a word. -/
structure Target where
  ty      : Ty
  current : Option Nat

/-- What stands under a name, or in an element of the array of that name. -/
def target (pos : Position) (name : String) (index : Option Nat) : Exec Target := do
  match index with
  | none =>
    let v ← read pos name
    return ⟨v.ty, v.scalar?.map Prod.snd⟩
  | some i =>
    let v ← readElement pos name i
    return ⟨v.ty, v.scalar?.map Prod.snd⟩

/-- Changes the value of a name in the cell that it stands for. -/
def update (pos : Position) (name : String) (f : Value → Value) : Exec Unit := do
  match ← reads (fun m => m.cell name) with
  | .error cause => fail pos cause
  | .ok c => modify (fun m => m.modifyCell c name f)

/-- Stores a value under a name, or in an element of the array of that name. -/
def store (pos : Position) (name : String) (index : Option Nat) (v : Value) : Exec Unit := do
  match index, v with
  | none, v => update pos name (fun _ => v)
  | some i, .scalar _ n => update pos name (fun old => old.setElement i n)
  | some _, .array element items =>
    -- the cell is looked for first, so a name that cannot be assigned to is reported as such
    update pos name id
    fail pos (.scalarExpected (.array element items.size))

/-- Binds the parameters of a function to values, checking types in order. -/
def bindParams (scope : NameMap Value) : List Param → List Position → List Value →
    Exec (NameMap Value)
  | p :: ps, pos :: poss, v :: vs => do
    expectType pos p.ty v
    bindParams (scope.insert p.name v) ps poss vs
  | _, _, _ => .pure scope

end Exec

end WordLang
