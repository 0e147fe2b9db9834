import WordLang.Proofs.Locations
import WordLang.Proofs.SlotTypes
import WordLang.Proofs.StackDiscipline

/-! # An assignment writes one location, or nothing

    An assignment looks at its target, evaluates the right-hand side, which
    may call functions that change the same target, and looks for the target
    again to write it.  It finds the location that it looked at, with a value
    of the same type there, and so with the same elements: there always is an
    element to store to, and always a word to store in it.

    `AssignFault` lists the ways to fail.  The state is then the one that the
    evaluations so far have left. -/

namespace WordLang

open Exec

/-! ## Section 1: Replacing a part of a value -/

namespace Value

/-- The value with this part in place of the old one, and with nothing else changed. -/
structure PartReplaced (held : Value) (index : Option Nat) (v new : Value) : Prop where
  there : new.part? index = some v
  elsewhere : ∀ i, index = some i → ∀ j, j ≠ i → new.element? j = held.element? j
  ty : new.ty = held.ty

theorem partReplaced_whole {held v : Value} (h : v.ty = held.ty) : held.PartReplaced none v v :=
  ⟨rfl, nofun, h⟩

theorem partReplaced_setElement {element : Width} {items : Array Nat} {i : Nat}
    (h : i < items.size) (n : Nat) :
    (array element items).PartReplaced (some i) (.scalar element n)
      ((array element items).setElement i n) := by
  refine ⟨?_, ?_, ty_setElement _ _ _⟩
  · show (items.setIfInBounds i n)[i]?.map _ = _
    rw [Array.getElem?_setIfInBounds_self_of_lt h]
    rfl
  · intro i' hi' j hj
    obtain rfl := Option.some.inj hi'
    show (items.setIfInBounds i n)[j]?.map _ = items[j]?.map _
    rw [Array.getElem?_setIfInBounds_ne (Ne.symm hj)]

/-- An element of a value is a word of the element's width, and within the array. -/
theorem eq_array_of_part? {v old : Value} {i : Nat} (h : v.part? (some i) = some old) :
    ∃ element items, v = .array element items ∧ i < items.size ∧ old.ty = .uint element := by
  cases v with
  | scalar w n => cases h
  | array element items =>
    obtain ⟨n, hn, rfl⟩ := Option.map_eq_some_iff.mp h
    exact ⟨element, items, rfl, (Array.getElem?_eq_some_iff.mp hn).1, rfl⟩

/-- Values of one type have the same parts, whatever these hold. -/
theorem ty_part?_congr {v v' : Value} (h : v'.ty = v.ty) (index : Option Nat) :
    (v'.part? index).map Value.ty = (v.part? index).map Value.ty := by
  cases index with
  | none => exact congrArg some h
  | some i =>
    cases v with
    | scalar w n =>
      cases v' with
      | scalar w' n' => rfl
      | array element items => cases h
    | array element items =>
      cases v' with
      | scalar w n => cases h
      | array element' items' =>
        obtain ⟨rfl, hsize⟩ := Ty.array.inj h
        show (items'[i]?.map _).map _ = (items[i]?.map _).map _
        rw [Option.map_map, Option.map_map]
        by_cases hi : i < items.size
        · rw [Array.getElem?_eq_getElem hi, Array.getElem?_eq_getElem (hsize ▸ hi)]
          rfl
        · rw [Array.getElem?_eq_none (Nat.le_of_not_lt hi),
            Array.getElem?_eq_none (hsize ▸ Nat.le_of_not_lt hi)]

end Value

/-! ## Section 2: The store at the end -/

namespace Exec

variable {m : Machine} {name : String}

/-- A place that cannot be written fails before anything is stored. -/
theorem outcome_store_error {cause : RuntimeCause} (h : m.cell name = .error cause)
    (pos : Position) (index : Option Nat) (v : Value) :
    (store pos name index v m).outcome = .fault ⟨pos, cause⟩ m := by
  unfold store
  split
  · exact outcome_update_error h pos _
  · exact outcome_update_error h pos _
  · exact outcome_bind_fault (outcome_update_error h pos _)

/-- A value of the type of the part that it replaces is stored there, and nothing else changes. -/
theorem outcome_store_ok {c : Machine.Cell} {held : Value} {index : Option Nat} {v : Value}
    (hcell : m.cell name = .ok c) (hheld : m.valueAt? (c.location name) = some held)
    (hty : (held.part? index).map Value.ty = some v.ty) (pos : Position) :
    ∃ m' new, (store pos name index v m).outcome = .done () m' ∧
      held.PartReplaced index v new ∧ m.ChangedAt (c.location name) new m' := by
  have hupdate : ∀ f : Value → Value, (update pos name f m).outcome = .done () _ ∧
      m.ChangedAt (c.location name) (f held) (m.modifyCell c name f) :=
    fun f => ⟨outcome_update_ok hcell pos f, Machine.changedAt_modifyCell hheld f⟩
  cases index with
  | none =>
    obtain ⟨hdone, hchanged⟩ := hupdate (fun _ => v)
    exact ⟨_, v, hdone, Value.partReplaced_whole (Option.some.inj hty).symm, hchanged⟩
  | some i =>
    obtain ⟨old, hold, hvty⟩ := Option.map_eq_some_iff.mp hty
    obtain ⟨element, items, rfl, hi, holdty⟩ := Value.eq_array_of_part? hold
    cases v with
    -- an element is a word, so there is no array to store in it
    | array element' items' => cases holdty.symm.trans hvty
    | scalar w n =>
      obtain rfl := Ty.uint.inj (holdty.symm.trans hvty)
      obtain ⟨hdone, hchanged⟩ := hupdate (fun held => held.setElement i n)
      exact ⟨_, _, hdone, Value.partReplaced_setElement hi n, hchanged⟩

end Exec

/-! ## Section 3: The place is found again -/

section

variable {env : Env} {fuel : Nat} {pos : Position} {op : AssignOp} {place : Place} {value : Expr}
variable {m m₁ m₂ : Machine} {index : Option Nat} {old rhs : Value}

/-- The location that was looked at is still that of the place after the right-hand side, with a
    value whose parts have the types that they had. -/
theorem Valued.found_again (h : Valued env fuel op place value m index m₁ old rhs m₂) :
    ∃ loc held, m₁.locate? place.name = some loc ∧ m₂.locate? place.name = some loc ∧
      m₂.valueAt? loc = some held ∧ (held.part? index).map Value.ty = some old.ty := by
  have hleft : (eval env fuel value old.ty.scalarWidth? m₁).outcome.machine? = some m₂ :=
    congrArg Outcome.machine? h.valued
  obtain ⟨before, hbefore, hpart⟩ := Option.bind_eq_some_iff.mp h.found
  rw [Machine.read?_eq] at hbefore
  obtain ⟨loc, hloc, -⟩ := Option.bind_eq_some_iff.mp hbefore
  have hloc₂ : m₂.locate? place.name = some loc := by
    rw [Machine.locate?_of_kept ((kept_eval env fuel _ _).ends hleft), hloc]
  -- the value may be another one by now, but not its type
  have hty := (keepsTypes env fuel).ty_read? hleft place.name
  rw [Machine.read?_eq, hloc₂, Machine.read?_eq, hbefore] at hty
  obtain ⟨held, hheld, hheldty⟩ := Option.map_eq_some_iff.mp hty
  refine ⟨loc, held, hloc, hloc₂, hheld, ?_⟩
  rw [Value.ty_part?_congr hheldty, hpart]
  rfl

/-! ## Section 4: How assignments end -/

/-- An assignment that fails, and the state it leaves: that after the evaluations so far. -/
inductive AssignFault (env : Env) (fuel : Nat) (pos : Position) (op : AssignOp) (place : Place)
    (value : Expr) (m : Machine) : RuntimeError → Machine → Prop where
  /-- There is nothing to store. -/
  | unassigned {e : RuntimeError} {m' : Machine}
      (stage : Unassigned env fuel pos op place value m e m') :
      AssignFault env fuel pos op place value m e m'
  /-- The place is in a constant table. -/
  | const {index : Option Nat} {m₁ m₂ : Machine} {old rhs v : Value}
      (valued : Valued env fuel op place value m index m₁ old rhs m₂)
      (combined : op.Combines env.config.overflow old rhs v)
      (located : m₁.locate? place.name = some (.const place.name)) :
      AssignFault env fuel pos op place value m ⟨pos, .constAssignment place.name⟩ m₂

/-- An assignment that succeeds, and the state it leaves: that after the right-hand side, with the
    part replaced that the place was before it. -/
inductive AssignWrites (env : Env) (fuel : Nat) (op : AssignOp) (place : Place) (value : Expr)
    (m : Machine) : Machine → Prop where
  | wrote {index : Option Nat} {m₁ m₂ m' : Machine} {old rhs v held new : Value} {loc : Location}
      (valued : Valued env fuel op place value m index m₁ old rhs m₂)
      (located : m₁.locate? place.name = some loc)
      (combined : op.Combines env.config.overflow old rhs v)
      (holds : m₂.valueAt? loc = some held) (replaced : held.PartReplaced index v new)
      (changed : m₂.ChangedAt loc new m') :
      AssignWrites env fuel op place value m m'

/-- An assignment fails as listed, or writes what it looked at and goes on. -/
theorem runAssign_ends (env : Env) (fuel : Nat) (pos : Position) (op : AssignOp) (place : Place)
    (value : Expr) (m : Machine) :
    Ends (fun flow m' => flow = .next ∧ AssignWrites env fuel op place value m m')
      (AssignFault env fuel pos op place value m)
      (runAssign env (fuel + 1) pos op place value m).outcome := by
  have hends := assigned_ends env fuel pos op place value m
  -- up to the store there are only evaluations, so what is left to show is about the store
  rw [runAssign_eq]
  cases hassigned : (assigned env fuel pos op place value m).outcome with
  | outOfFuel => rw [outcome_bind_outOfFuel hassigned]; trivial
  | fault e m₂ =>
    rw [hassigned] at hends
    rw [outcome_bind_fault hassigned]
    exact .unassigned hends
  | done found m₂ =>
    obtain ⟨index, v⟩ := found
    rw [hassigned] at hends
    obtain ⟨m₁, old, rhs, hvalued, hcombines⟩ := hends
    obtain ⟨loc, held, hloc, hloc₂, hheld, hty⟩ := hvalued.found_again
    rw [outcome_bind_done hassigned]
    rcases Machine.locate?_cases hloc₂ with ⟨c, hcell, rfl⟩ | ⟨hcell, rfl⟩
    · rw [← hcombines.ty_eq] at hty
      obtain ⟨m', new, hstore, hreplaced, hchanged⟩ := outcome_store_ok hcell hheld hty pos
      rw [outcome_bind_done hstore]
      exact ⟨rfl, .wrote hvalued hloc hcombines hheld hreplaced hchanged⟩
    · rw [outcome_bind_fault (outcome_store_error hcell pos index v)]
      exact .const hvalued hcombines hloc

/-- Without a call in its index, an assignment has changed nothing when it looks at its place. -/
theorem Looked.unmoved (h : Looked env fuel op place m index m₁ old)
    (hplace : place.callFree = true) : m₁ = m :=
  (unmoved_placeIndex hplace fuel).ends (congrArg Outcome.machine? h.begun)

theorem Misses.unmoved {e : RuntimeError} (h : Misses env fuel pos op place m e m₁)
    (hplace : place.callFree = true) : m₁ = m := by
  have hindex : (placeIndex env fuel place m).outcome.machine? = some m₁ → m₁ = m :=
    (unmoved_placeIndex hplace fuel).ends
  cases h with
  | index failed => exact hindex (congrArg Outcome.machine? failed)
  | target begun missing failed => exact hindex (congrArg Outcome.machine? begun)
  | array begun found refused => exact hindex (congrArg Outcome.machine? begun)

theorem Valued.unmoved (h : Valued env fuel op place value m index m₁ old rhs m₂)
    (hplace : place.callFree = true) (hvalue : value.callFree = true) : m₂ = m := by
  have hrhs : m₂ = m₁ := (unmoved_eval hvalue fuel _).ends (congrArg Outcome.machine? h.valued)
  rw [hrhs, h.toLooked.unmoved hplace]

/-- Without calls, a failure leaves all as it was. -/
theorem AssignFault.unmoved {e : RuntimeError} {m' : Machine}
    (h : AssignFault env fuel pos op place value m e m') (hplace : place.callFree = true)
    (hvalue : value.callFree = true) : m' = m := by
  cases h with
  | unassigned stage =>
    cases stage with
    | target misses => exact misses.unmoved hplace
    | value looked failed =>
      have hrhs := (unmoved_eval hvalue fuel _).ends (congrArg Outcome.machine? failed)
      exact Eq.trans hrhs (looked.unmoved hplace)
    | combine valued failed => exact valued.unmoved hplace hvalue
  | const valued combined located => exact valued.unmoved hplace hvalue

/-- What there is to store in an element is a word, and the element is there. -/
theorem element_of_assigned {i : Nat} {v : Value} {m₂ : Machine}
    (h : (assigned env fuel pos op place value m).outcome = .done (some i, v) m₂) :
    (∃ w n, v = .scalar w n) ∧ ∃ held, m₂.read? place.name = some held ∧
      held.hasElement i = true := by
  obtain ⟨m₁, old, rhs, hvalued, hcombines⟩ := valued_of_assigned h
  obtain ⟨loc, held, -, hloc, hheld, hty⟩ := hvalued.found_again
  obtain ⟨there, hthere, hold⟩ := Option.map_eq_some_iff.mp hty
  obtain ⟨element, items, rfl, -, hword⟩ := Value.eq_array_of_part? hthere
  constructor
  · have hvty : v.ty = .uint element := hcombines.ty_eq.trans (hold.symm.trans hword)
    cases v with
    | scalar w n => exact ⟨w, n, rfl⟩
    | array element' items' => cases hvty
  · refine ⟨.array element items, ?_, Option.isSome_iff_exists.mpr ⟨there, hthere⟩⟩
    rw [Machine.read?_eq, hloc]
    exact hheld

end

/-! ## Section 5: One location, or nothing -/

/-- An assignment that fails leaves the state of the evaluations so far, which without calls is the
    one before it.  One that succeeds leaves the state after the right-hand side, but that the part
    which the place was before the right-hand side is replaced by what the operator made of it.  All
    that is ever stored in an element is a word, and the element is there. -/
theorem assignment_writes_one_location (env : Env) (fuel : Nat) (pos : Position) (op : AssignOp)
    (place : Place) (value : Expr) (m : Machine) :
    (∀ e m', (runAssign env (fuel + 1) pos op place value m).outcome = .fault e m' →
      AssignFault env fuel pos op place value m e m' ∧
      (place.callFree = true → value.callFree = true → m' = m)) ∧
    (∀ flow m', (runAssign env (fuel + 1) pos op place value m).outcome = .done flow m' →
      flow = .next ∧ AssignWrites env fuel op place value m m') ∧
    runAssign env (fuel + 1) pos op place value =
      (assigned env fuel pos op place value >>= fun found => do
        store pos place.name found.1 found.2
        return .next) ∧
    (∀ i v m₂, (assigned env fuel pos op place value m).outcome = .done (some i, v) m₂ →
      (∃ w n, v = .scalar w n) ∧
      ∃ held, m₂.read? place.name = some held ∧ held.hasElement i = true) := by
  have hends := runAssign_ends env fuel pos op place value m
  refine ⟨fun e m' h => ?_, fun flow m' h => ?_, runAssign_eq env fuel pos op place value,
    fun i v m₂ h => element_of_assigned h⟩
  · rw [h] at hends
    exact ⟨hends, hends.unmoved⟩
  · rw [h] at hends
    exact hends

/-- Stores in an element of a global static and gives a byte. -/
def overwrites : Function :=
  ⟨"g", [], some (.uint .byte),
    [.assign ⟨1, 15⟩ .set (.elem (.literal ⟨1, 20⟩ 1) "A") (.literal ⟨1, 24⟩ 50),
      .ret ⟨1, 30⟩ (some (.literal ⟨1, 37⟩ 5))], ⟨1, 1⟩⟩

/-- A static array and a constant table. -/
def beforeAssignment : Machine :=
  .initial ⟨.singleton "A" (.array .byte #[1, 2]), .empty, .singleton "K" (.array .byte #[9])⟩

/-- What the right-hand side stores in the element is lost: it is the old value that is added to,
    and that location which is written.  A constant table is left alone, and so is all else. -/
theorem assignment_writes_one_location_overwrites :
    let env : Env := ⟨.singleton "g" overwrites, .default⟩
    let element : Place := .elem (.literal ⟨2, 5⟩ 1) "A"
    let value : Expr := .call ⟨2, 9⟩ "g" []
    let table : Place := .elem (.literal ⟨3, 4⟩ 0) "K"
    (∃ m', (runAssign env 9 ⟨2, 1⟩ .add element value beforeAssignment).outcome =
        .done .next m' ∧ m'.valueAt? (.global "A") = some (.array .byte #[1, 7]) ∧
      AssignWrites env 8 .add element value beforeAssignment m') ∧
    (∃ m₂ held, (assigned env 8 ⟨2, 1⟩ .add element value beforeAssignment).outcome =
        .done (some 1, .scalar .byte 7) m₂ ∧
      m₂.read? "A" = some held ∧ held.hasElement 1 = true) ∧
    (∃ e m', (runAssign env 9 ⟨3, 1⟩ .set table (.literal ⟨3, 8⟩ 1) beforeAssignment).outcome =
      .fault e m' ∧ m' = beforeAssignment) := by
  intro env element value table
  obtain ⟨-, hdone, -, helement⟩ :=
    assignment_writes_one_location env 8 ⟨2, 1⟩ .add element value beforeAssignment
  obtain ⟨hfault, -⟩ :=
    assignment_writes_one_location env 8 ⟨3, 1⟩ .set table (.literal ⟨3, 8⟩ 1) beforeAssignment
  refine ⟨⟨_, rfl, rfl, (hdone .next _ rfl).2⟩, ?_, ⟨_, _, rfl, (hfault _ _ rfl).2 rfl rfl⟩⟩
  obtain ⟨-, held, hread, hhas⟩ := helement 1 (.scalar .byte 7) _ rfl
  exact ⟨_, held, rfl, hread, hhas⟩

end WordLang
