import WordLang.Proofs.Steps

/-! # What an assignment stores

    An assignment finds out what to store and where, and then stores it.
    `assigned` is the first part alone: the index, a look at what is there,
    the right-hand side, and what the operator makes of both.  It writes
    nothing of its own; the store at the end is the only write
    (`runAssign_eq`).

    `Looked` and `Valued` tell how far an assignment has come before and
    after its right-hand side, and `assigned_ends` how it can end up to the
    store: in a failure with the state that the evaluations have left, or
    with what the operator made of the old value and the new one. -/

namespace WordLang

open Exec

/-! ## Section 1: What stands in a place -/

/-- The value itself, or one of its elements. -/
def Value.part? (v : Value) : Option Nat → Option Value
  | none => some v
  | some i => v.element? i

/-- The value of a name, or an element of the array of that name. -/
def Machine.part? (m : Machine) (name : String) (index : Option Nat) : Option Value :=
  (m.read? name).bind (fun v => v.part? index)

namespace Exec

/-- The value of a name, or an element of the array of that name. -/
def readPart (pos : Position) (name : String) : Option Nat → Exec Value
  | none => read pos name
  | some i => readElement pos name i

theorem target_eq (pos : Position) (name : String) (index : Option Nat) :
    target pos name index =
      readPart pos name index >>= fun old => pure ⟨old.ty, old.scalar?.map Prod.snd⟩ := by
  cases index <;> rfl

theorem still_readPart (pos : Position) (name : String) (index : Option Nat) :
    Still (readPart pos name index) := by
  cases index with
  | none => exact still_read pos name
  | some i => exact still_readElement pos name i

section

variable {m : Machine} {name : String}

theorem outcome_read_some {v : Value} (h : m.read? name = some v) (pos : Position) :
    (read pos name m).outcome = .done v m := by
  unfold read
  rw [outcome_bind_done (a := m.read? name) rfl, h]
  rfl

theorem outcome_read_none (h : m.read? name = none) (pos : Position) :
    (read pos name m).outcome = .fault ⟨pos, .unresolved name⟩ m := by
  unfold read
  rw [outcome_bind_done (a := m.read? name) rfl, h]
  rfl

theorem outcome_readPart_some {index : Option Nat} {old : Value}
    (h : m.part? name index = some old) (pos : Position) :
    (readPart pos name index m).outcome = .done old m := by
  obtain ⟨v, hread, hpart⟩ := Option.bind_eq_some_iff.mp h
  have hdone := outcome_read_some hread pos
  cases index with
  | none =>
    cases hpart
    exact hdone
  | some i =>
    cases v with
    | scalar w n => cases hpart
    | array element items =>
      obtain ⟨n, hn, rfl⟩ := Option.map_eq_some_iff.mp hpart
      unfold readPart readElement
      rw [outcome_bind_done hdone]
      dsimp only
      rw [hn]
      rfl

/-- What is not there fails for one reason, wherever the blame goes. -/
theorem outcome_readPart_none {index : Option Nat} (h : m.part? name index = none) :
    ∃ cause, ∀ pos, (readPart pos name index m).outcome = .fault ⟨pos, cause⟩ m := by
  cases hread : m.read? name with
  | none =>
    refine ⟨.unresolved name, fun pos => ?_⟩
    have hfault := outcome_read_none hread pos
    cases index with
    | none => exact hfault
    | some i => exact outcome_bind_fault hfault
  | some v =>
    have hdone := outcome_read_some hread
    rw [Machine.part?, hread, Option.bind_some] at h
    cases index with
    | none => cases h
    | some i =>
      cases v with
      | scalar w n => exact ⟨.notAnArray name, fun pos => outcome_bind_done (hdone pos)⟩
      | array element items =>
        refine ⟨.indexOutOfBounds name i items.size, fun pos => ?_⟩
        unfold readPart readElement
        rw [outcome_bind_done (hdone pos)]
        dsimp only
        rw [Option.map_eq_none_iff.mp h]
        rfl

theorem part?_of_readPart {pos : Position} {index : Option Nat} {old : Value} {m' : Machine}
    (h : (readPart pos name index m).outcome = .done old m') : m.part? name index = some old := by
  cases hpart : m.part? name index with
  | none =>
    obtain ⟨cause, hfault⟩ := outcome_readPart_none hpart
    rw [hfault] at h
    cases h
  | some u =>
    rw [outcome_readPart_some hpart] at h
    cases h
    rfl

theorem outcome_update_ok {c : Machine.Cell} (h : m.cell name = .ok c) (pos : Position)
    (f : Value → Value) :
    (update pos name f m).outcome = .done () (m.modifyCell c name f) := by
  unfold update
  rw [outcome_bind_done (a := m.cell name) rfl, h]
  rfl

theorem outcome_update_error {cause : RuntimeCause} (h : m.cell name = .error cause)
    (pos : Position) (f : Value → Value) :
    (update pos name f m).outcome = .fault ⟨pos, cause⟩ m := by
  unfold update
  rw [outcome_bind_done (a := m.cell name) rfl, h]
  rfl

end

end Exec

/-- A place accepts values of the type that stands in it. -/
theorem Machine.accepts_of_part? {m : Machine} {name : String} {index : Option Nat} {old : Value}
    (h : m.part? name index = some old) : m.Accepts name index old.ty := by
  obtain ⟨v, hread, hpart⟩ := Option.bind_eq_some_iff.mp h
  cases index with
  | none =>
    cases hpart
    exact congrArg (Option.map Value.ty) hread
  | some i =>
    cases v with
    | scalar w n => cases hpart
    | array element items =>
      obtain ⟨n, -, rfl⟩ := Option.map_eq_some_iff.mp hpart
      exact ⟨element, items.size, congrArg (Option.map Value.ty) hread, rfl⟩

/-! ## Section 2: What the operator makes of the old value and the new one -/

namespace AssignOp

/-- An operator that combines needs a word to combine with. -/
def Admits (op : AssignOp) (old : Value) : Prop := op.binOp? = none ∨ old.scalar?.isSome = true

instance (op : AssignOp) (old : Value) : Decidable (op.Admits old) :=
  inferInstanceAs (Decidable (_ ∨ _))

theorem eq_set_of_binOp? {op : AssignOp} (h : op.binOp? = none) : op = .set := by
  cases op with
  | set => rfl
  | add => cases h
  | sub => cases h

/-- A plain assignment takes a value of the old type as it is; the others take a word of the old
    width and combine it with the old one. -/
inductive Combines (policy : Overflow) : AssignOp → Value → Value → Value → Prop where
  | set {old rhs : Value} (ty : rhs.ty = old.ty) : Combines policy .set old rhs rhs
  | word {op : AssignOp} {bin : BinOp} {w : Width} {a b : Nat} {v : Value}
      (operator : op.binOp? = some bin) (result : bin.apply w a b policy = .ok v) :
      Combines policy op (.scalar w a) (.scalar w b) v

/-- What is stored has the type of what was there. -/
theorem Combines.ty_eq {policy : Overflow} {op : AssignOp} {old rhs v : Value}
    (h : op.Combines policy old rhs v) : v.ty = old.ty := by
  cases h with
  | set ty => exact ty
  | @word op bin w a b v operator result =>
    -- the operators that combine do arithmetic, and no comparison
    have hwidth : bin.resultWidth w = w := by
      cases op with
      | set => cases operator
      | add => cases operator; rfl
      | sub => cases operator; rfl
    rw [BinOp.apply_eq_ok result, hwidth]
    rfl

end AssignOp

namespace Exec

/-- What there is to store, from the old value and the right-hand side. -/
def combine (policy : Overflow) (pos valuePos : Position) (op : AssignOp) (old rhs : Value) :
    Exec Value :=
  match op.binOp?, old with
  | none, old => do
    expectType valuePos old.ty rhs
    return rhs
  | some bin, .scalar w a => do
    let b ← wordOf valuePos w rhs
    applyOp pos op.symbol bin w a b policy
  | some _, .array element items => fail pos (.scalarExpected (.array element items.size))

theorem combine_set (policy : Overflow) (pos valuePos : Position) (old rhs : Value) :
    combine policy pos valuePos .set old rhs =
      expectType valuePos old.ty rhs >>= fun _ => pure rhs := rfl

theorem combine_word {op : AssignOp} {bin : BinOp} (h : op.binOp? = some bin) (policy : Overflow)
    (pos valuePos : Position) (w : Width) (a : Nat) (rhs : Value) :
    combine policy pos valuePos op (.scalar w a) rhs =
      wordOf valuePos w rhs >>= fun b => applyOp pos op.symbol bin w a b policy := by
  unfold combine
  rw [h]

theorem still_combine (policy : Overflow) (pos valuePos : Position) (op : AssignOp)
    (old rhs : Value) : Still (combine policy pos valuePos op old rhs) := by
  unfold combine
  split
  · exact .bind (still_expectType _ _ _) (fun _ => .pure)
  · exact .bind (still_wordOf _ _ _) (fun _ => still_applyOp _ _ _ _ _ _ _)
  · exact .fail

/-- The word of a value that has to have this width. -/
theorem outcome_wordOf (pos : Position) (w : Width) (b : Nat) (m : Machine) :
    (wordOf pos w (.scalar w b) m).outcome = .done b m := by
  show ((pure (w, b) >>= _ : Exec Nat) m).outcome = _
  rw [outcome_bind_done (a := (w, b)) rfl]
  dsimp only
  rw [if_pos rfl]
  rfl

theorem eq_scalar_of_wordOf {pos : Position} {w : Width} {v : Value} {b : Nat} {m m' : Machine}
    (h : (wordOf pos w v m).outcome = .done b m') : v = .scalar w b := by
  cases v with
  | array element items => cases h
  | scalar found n =>
    rw [wordOf, outcome_bind_done (a := (found, n)) rfl] at h
    dsimp only at h
    split at h
    · next heq =>
      cases h
      rw [heq]
    · cases h

theorem ty_eq_of_expectType {pos : Position} {ty : Ty} {v : Value} {u : Unit} {m m' : Machine}
    (h : (expectType pos ty v m).outcome = .done u m') : v.ty = ty := by
  unfold expectType at h
  split at h
  · next heq => exact heq
  · cases h

theorem apply_eq_of_applyOp {pos : Position} {symbol : String} {op : BinOp} {w : Width} {a b : Nat}
    {policy : Overflow} {v : Value} {m m' : Machine}
    (h : (applyOp pos symbol op w a b policy m).outcome = .done v m') :
    op.apply w a b policy = .ok v := by
  unfold applyOp at h
  cases hv : op.apply w a b policy with
  | ok v' =>
    rw [hv] at h
    cases h
    rfl
  | error fault =>
    rw [hv] at h
    cases fault with
    | divisionByZero => cases h
    | overflow => cases h

theorem outcome_combine_of_combines {policy : Overflow} {op : AssignOp} {old rhs v : Value}
    (h : op.Combines policy old rhs v) (pos valuePos : Position) (m : Machine) :
    (combine policy pos valuePos op old rhs m).outcome = .done v m := by
  cases h with
  | set ty =>
    rw [combine_set, expectType, if_pos ty]
    rfl
  | @word op bin w a b v operator result =>
    rw [combine_word operator, outcome_bind_done (outcome_wordOf valuePos w b m), applyOp, result]
    rfl

theorem combines_of_combine {policy : Overflow} {pos valuePos : Position} {op : AssignOp}
    {old rhs v : Value} {m m' : Machine}
    (h : (combine policy pos valuePos op old rhs m).outcome = .done v m') :
    op.Combines policy old rhs v := by
  cases hop : op.binOp? with
  | none =>
    obtain rfl := AssignOp.eq_set_of_binOp? hop
    obtain ⟨u, m'', hu, hv⟩ := outcome_bind_eq_done.mp h
    cases hv
    exact .set (ty_eq_of_expectType hu)
  | some bin =>
    cases old with
    | array element items =>
      unfold combine at h
      rw [hop] at h
      cases h
    | scalar w a =>
      rw [combine_word hop] at h
      obtain ⟨b, m'', hb, hv⟩ := outcome_bind_eq_done.mp h
      obtain rfl := eq_scalar_of_wordOf hb
      exact .word hop (apply_eq_of_applyOp hv)

end Exec

/-! ## Section 3: An assignment up to its store -/

/-- The index of a place that has one. -/
def placeIndex (env : Env) (fuel : Nat) : Place → Exec (Option Nat)
  | .var _ => pure none
  | .elem offset _ => do
    let (_, i) ← scalar offset.pos (← eval env fuel offset (some .word))
    return some i

/-- An assignment without its store: the index and the value to store. -/
def assigned (env : Env) (fuel : Nat) (pos : Position) (op : AssignOp) (place : Place)
    (value : Expr) : Exec (Option Nat × Value) := do
  let index ← placeIndex env fuel place
  let old ← readPart pos place.name index
  if op.Admits old then
    let rhs ← eval env fuel value old.ty.scalarWidth?
    let v ← combine env.config.overflow pos value.pos op old rhs
    return (index, v)
  else fail pos (.scalarExpected old.ty)

section

variable {env : Env} {fuel : Nat} {pos : Position} {op : AssignOp} {place : Place} {value : Expr}
variable {m : Machine}

/-- How far an assignment has come before its right-hand side: the index, the state after it, and
    what stands in the place. -/
structure Looked (env : Env) (fuel : Nat) (op : AssignOp) (place : Place) (m : Machine)
    (index : Option Nat) (m₁ : Machine) (old : Value) : Prop where
  begun : (placeIndex env fuel place m).outcome = .done index m₁
  found : m₁.part? place.name index = some old
  admits : op.Admits old

/-- An assignment that fails before its right-hand side, and the state it leaves: the index failed,
    or there is nothing in the place, or there is an array where a word is needed. -/
inductive Misses (env : Env) (fuel : Nat) (pos : Position) (op : AssignOp) (place : Place)
    (m : Machine) : RuntimeError → Machine → Prop where
  | index {e : RuntimeError} {m₁ : Machine}
      (failed : (placeIndex env fuel place m).outcome = .fault e m₁) :
      Misses env fuel pos op place m e m₁
  | target {index : Option Nat} {m₁ : Machine} {e : RuntimeError}
      (begun : (placeIndex env fuel place m).outcome = .done index m₁)
      (missing : m₁.part? place.name index = none)
      (failed : (readPart pos place.name index m₁).outcome = .fault e m₁) :
      Misses env fuel pos op place m e m₁
  | array {index : Option Nat} {m₁ : Machine} {old : Value}
      (begun : (placeIndex env fuel place m).outcome = .done index m₁)
      (found : m₁.part? place.name index = some old) (refused : ¬ op.Admits old) :
      Misses env fuel pos op place m ⟨pos, .scalarExpected old.ty⟩ m₁

/-- The look at the place succeeds, fails, or is not reached because the index is not over. -/
theorem look_cases (env : Env) (fuel : Nat) (pos : Position) (op : AssignOp) (place : Place)
    (m : Machine) :
    (∃ index m₁ old, Looked env fuel op place m index m₁ old) ∨
    (∃ e m₁, Misses env fuel pos op place m e m₁) ∨
    (placeIndex env fuel place m).outcome = .outOfFuel := by
  cases hbegun : (placeIndex env fuel place m).outcome with
  | outOfFuel => exact .inr (.inr rfl)
  | fault e m₁ => exact .inr (.inl ⟨e, m₁, .index hbegun⟩)
  | done index m₁ =>
    cases hfound : m₁.part? place.name index with
    | none =>
      obtain ⟨cause, hfault⟩ := outcome_readPart_none hfound
      exact .inr (.inl ⟨_, m₁, .target hbegun hfound (hfault pos)⟩)
    | some old =>
      by_cases hadmits : op.Admits old
      · exact .inl ⟨index, m₁, old, hbegun, hfound, hadmits⟩
      · exact .inr (.inl ⟨_, m₁, .array hbegun hfound hadmits⟩)

/-- Without a look at the place there is nothing to evaluate for it. -/
theorem assigned_of_misses {e : RuntimeError} {m₁ : Machine}
    (h : Misses env fuel pos op place m e m₁) :
    (assigned env fuel pos op place value m).outcome = .fault e m₁ := by
  unfold assigned
  cases h with
  | index failed => exact outcome_bind_fault failed
  | target begun missing failed => rw [outcome_bind_done begun, outcome_bind_fault failed]
  | array begun found refused =>
    rw [outcome_bind_done begun, outcome_bind_done (outcome_readPart_some found pos),
      if_neg refused]
    rfl

/-- After the look, the right-hand side and what the operator makes of it are all that is left. -/
theorem assigned_of_looked {index : Option Nat} {m₁ : Machine} {old : Value}
    (h : Looked env fuel op place m index m₁ old) :
    (assigned env fuel pos op place value m).outcome =
      ((eval env fuel value old.ty.scalarWidth? >>= fun rhs =>
        combine env.config.overflow pos value.pos op old rhs >>= fun v => pure (index, v))
          m₁).outcome := by
  unfold assigned
  rw [outcome_bind_done h.begun, outcome_bind_done (outcome_readPart_some h.found pos),
    if_pos h.admits]

/-- How far an assignment has come after its right-hand side. -/
structure Valued (env : Env) (fuel : Nat) (op : AssignOp) (place : Place) (value : Expr)
    (m : Machine) (index : Option Nat) (m₁ : Machine) (old rhs : Value) (m₂ : Machine) : Prop
    extends Looked env fuel op place m index m₁ old where
  valued : (eval env fuel value old.ty.scalarWidth? m₁).outcome = .done rhs m₂

/-- An assignment that fails before its store, and the state it leaves: that after the evaluations
    so far. -/
inductive Unassigned (env : Env) (fuel : Nat) (pos : Position) (op : AssignOp) (place : Place)
    (value : Expr) (m : Machine) : RuntimeError → Machine → Prop where
  /-- The index or the look at the place failed. -/
  | target {e : RuntimeError} {m₁ : Machine} (misses : Misses env fuel pos op place m e m₁) :
      Unassigned env fuel pos op place value m e m₁
  /-- The right-hand side failed. -/
  | value {index : Option Nat} {m₁ m₂ : Machine} {old : Value} {e : RuntimeError}
      (looked : Looked env fuel op place m index m₁ old)
      (failed : (eval env fuel value old.ty.scalarWidth? m₁).outcome = .fault e m₂) :
      Unassigned env fuel pos op place value m e m₂
  /-- The right-hand side has a wrong type, or the operator failed. -/
  | combine {index : Option Nat} {m₁ m₂ : Machine} {old rhs : Value} {e : RuntimeError}
      (valued : Valued env fuel op place value m index m₁ old rhs m₂)
      (failed : (combine env.config.overflow pos value.pos op old rhs m₂).outcome = .fault e m₂) :
      Unassigned env fuel pos op place value m e m₂

/-- Up to its store, an assignment fails in one of these ways, or what there is to store comes from
    the value in the place and the right-hand side. -/
theorem assigned_ends (env : Env) (fuel : Nat) (pos : Position) (op : AssignOp) (place : Place)
    (value : Expr) (m : Machine) :
    Ends (fun found m₂ => ∃ m₁ old rhs,
        Valued env fuel op place value m found.1 m₁ old rhs m₂ ∧
        op.Combines env.config.overflow old rhs found.2)
      (Unassigned env fuel pos op place value m)
      (assigned env fuel pos op place value m).outcome := by
  rcases look_cases env fuel pos op place m with ⟨index, m₁, old, hlooked⟩ | ⟨e, m₁, hmisses⟩ |
    hstarved
  · rw [assigned_of_looked hlooked]
    cases hvalue : (eval env fuel value old.ty.scalarWidth? m₁).outcome with
    | outOfFuel => rw [outcome_bind_outOfFuel hvalue]; trivial
    | fault e m₂ => rw [outcome_bind_fault hvalue]; exact .value hlooked hvalue
    | done rhs m₂ =>
      rw [outcome_bind_done hvalue]
      rcases (still_combine env.config.overflow pos value.pos op old rhs).answer m₂ with
        ⟨v, hv⟩ | ⟨e, he⟩
      · rw [outcome_bind_done hv]
        exact ⟨m₁, old, rhs, ⟨hlooked, hvalue⟩, combines_of_combine hv⟩
      · rw [outcome_bind_fault he]
        exact .combine ⟨hlooked, hvalue⟩ he
  · rw [assigned_of_misses hmisses]
    exact .target hmisses
  · rw [assigned, outcome_bind_outOfFuel hstarved]
    trivial

theorem valued_of_assigned {index : Option Nat} {v : Value} {m₂ : Machine}
    (h : (assigned env fuel pos op place value m).outcome = .done (index, v) m₂) :
    ∃ m₁ old rhs, Valued env fuel op place value m index m₁ old rhs m₂ ∧
      op.Combines env.config.overflow old rhs v := by
  have hends := assigned_ends env fuel pos op place value m
  rw [h] at hends
  exact hends

/-- What the evaluation of an index keeps is kept by the whole of it. -/
theorem moves_placeIndex {R : Machine → Machine → Prop} [Composes R]
    (heval : ∀ offset array, place = .elem offset array →
      Moves R (eval env fuel offset (some .word))) : Moves R (placeIndex env fuel place) := by
  cases place with
  | var name => exact .pure
  | elem offset array =>
    exact .bind (heval offset array rfl) (fun v => .bind (moves_scalar _ v) (fun _ => .pure))

/-- What the evaluations of an assignment keep is kept up to its store. -/
theorem moves_assigned {R : Machine → Machine → Prop} [Composes R]
    (heval : ∀ e hint, Moves R (eval env fuel e hint)) :
    Moves R (assigned env fuel pos op place value) := by
  refine .bind (moves_placeIndex (fun offset _ _ => heval offset _)) (fun index => ?_)
  refine .bind (still_readPart pos place.name index).moves (fun old => ?_)
  split
  · exact .bind (heval _ _) (fun rhs => .bind (still_combine _ _ _ _ _ _).moves (fun _ => .pure))
  · exact .fail

/-- An assignment is `assigned` and then one store. -/
theorem runAssign_eq (env : Env) (fuel : Nat) (pos : Position) (op : AssignOp) (place : Place)
    (value : Expr) :
    runAssign env (fuel + 1) pos op place value =
      assigned env fuel pos op place value >>= fun found => do
        store pos place.name found.1 found.2
        return .next := by
  unfold assigned
  rw [runAssign.eq_def, bind_assoc]
  show placeIndex env fuel place >>= _ = _
  refine bind_congr (fun index => ?_)
  rw [target_eq, bind_assoc, bind_assoc]
  refine bind_congr (fun old => ?_)
  rw [pure_bind]
  -- the operator and the value in the place decide the branch on both sides
  cases hop : op.binOp? with
  | none => simp [AssignOp.Admits, hop, combine]
  | some bin =>
    cases old with
    | scalar w a =>
      simp [AssignOp.Admits, hop, combine, Value.scalar?, Value.ty, Ty.width, Ty.scalarWidth?]
    | array element items => simp [AssignOp.Admits, hop, Value.scalar?, fail_bind]

end

end WordLang
