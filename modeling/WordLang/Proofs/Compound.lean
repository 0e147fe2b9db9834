import WordLang.Proofs.Fuel
import WordLang.Proofs.StackDiscipline
import WordLang.Proofs.Widths

/-! # A compound assignment is its expansion

    `(+= P v)` and `(= P (+ P v))` run through different code.  The second
    evaluates the place twice, finds the width of the literals in `v` from
    the operand beside it, and checks the type of a sum that it has only just
    computed.  They still end alike from every state, if the index of the
    place has no call: with the same state and, where they fail, with the same
    cause, but that an overflow names the operator as it is written.

    `EndAlike` compares two computations by what they come to.  As for other
    such relations there is a rule for composed computations, and most parts
    of the two assignments are the same, or differ in where they put the
    blame only. -/

namespace WordLang

open Exec

variable {α β : Type}

/-! ## Section 1: Computations that end alike -/

/-- The same end, where failures are related by `R`. -/
inductive Outcome.Alike (R : RuntimeError → RuntimeError → Prop) :
    Outcome α → Outcome α → Prop where
  | done (a : α) (m : Machine) : Alike R (.done a m) (.done a m)
  | fault {e e' : RuntimeError} (m : Machine) (related : R e e') :
    Alike R (.fault e m) (.fault e' m)
  | outOfFuel : Alike R .outOfFuel .outOfFuel

theorem Outcome.Alike.refl {R : RuntimeError → RuntimeError → Prop} (hR : ∀ e, R e e)
    (o : Outcome α) : Alike R o o := by
  cases o with
  | done a m => exact .done a m
  | fault e m => exact .fault m (hR e)
  | outOfFuel => exact .outOfFuel

/-- From this state on, both computations come to the same end, or neither is ever over. -/
def EndAlike (R : RuntimeError → RuntimeError → Prop) (x y : Nat → Exec α) (m : Machine) : Prop :=
  ∃ o o', ComesTo x m o ∧ ComesTo y m o' ∧ o.Alike R o'

namespace EndAlike

variable {R : RuntimeError → RuntimeError → Prop} {x y : Nat → Exec α} {m : Machine}

/-- A computation whose ends last ends like itself. -/
theorem self (hR : ∀ e, R e e) (hx : ∀ fuel, Lasts (x fuel) (x (fuel + 1))) (m : Machine) :
    EndAlike R x x m := by
  obtain ⟨o, ho⟩ := exists_comesTo hx m
  exact ⟨o, o, ho, ho, .refl hR o⟩

/-- Computations that take no fuel. -/
theorem const {x y : Exec α} (h : (x m).outcome.Alike R (y m).outcome) :
    EndAlike R (fun _ => x) (fun _ => y) m :=
  ⟨_, _, .const x m, .const y m, h⟩

theorem succ (h : EndAlike R (fun fuel => x (fuel + 1)) (fun fuel => y (fuel + 1)) m) :
    EndAlike R x y m := by
  obtain ⟨o, o', ho, ho', halike⟩ := h
  exact ⟨o, o', ho.succ, ho'.succ, halike⟩

/-- The first part of the second computation may be put in the place of one that comes to the
    same. -/
theorem of_second {x : Nat → Exec β} {y y₀ : Nat → Exec α} {g : Nat → α → Exec β}
    (hlasts : ∀ fuel, Lasts (y₀ fuel) (y₀ (fuel + 1)))
    (hy : ∀ o, ComesTo y₀ m o → ComesTo y m o)
    (h : EndAlike R x (fun fuel => y₀ fuel >>= g fuel) m) :
    EndAlike R x (fun fuel => y fuel >>= g fuel) m := by
  obtain ⟨o, o', ho, ho', halike⟩ := h
  obtain ⟨p, hp⟩ := exists_comesTo hlasts m
  exact ⟨o, o', ho, .bind_congr hp (hy p hp) ho', halike⟩

theorem bind {f g : Nat → α → Exec β} (h : EndAlike R x y m)
    (hf : ∀ a m', ComesTo x m (.done a m') →
      EndAlike R (fun fuel => f fuel a) (fun fuel => g fuel a) m') :
    EndAlike R (fun fuel => x fuel >>= f fuel) (fun fuel => y fuel >>= g fuel) m := by
  obtain ⟨o, o', ho, ho', halike⟩ := h
  cases halike with
  | done a m' =>
    obtain ⟨p, p', hp, hp', halike⟩ := hf a m' ho
    exact ⟨p, p', .bind_done ho hp, .bind_done ho' hp', halike⟩
  | fault m' related => exact ⟨_, _, .bind_fault ho, .bind_fault ho', .fault m' related⟩
  | outOfFuel => exact ⟨_, _, .bind_outOfFuel ho, .bind_outOfFuel ho', .outOfFuel⟩

end EndAlike

/-! ## Section 2: What the two assignments have in common -/

/-- The same failure at any place; an overflow names the one operator or the other. -/
inductive SameFault (op : AssignOp) (bin : BinOp) : RuntimeError → RuntimeError → Prop where
  | same (pos pos' : Position) (cause : RuntimeCause) : SameFault op bin ⟨pos, cause⟩ ⟨pos', cause⟩
  | overflow (pos pos' : Position) (w : Width) :
      SameFault op bin ⟨pos, .arithmeticOverflow op.symbol w⟩
        ⟨pos', .arithmeticOverflow bin.symbol w⟩

theorem SameFault.refl {op : AssignOp} {bin : BinOp} (e : RuntimeError) : SameFault op bin e e :=
  .same e.pos e.pos e.item

/-- The place as an expression. -/
def Place.toExpr (pos : Position) : Place → Expr
  | .var name => .ident pos name
  | .elem offset array => .index pos offset array

section

variable {op : AssignOp} {bin : BinOp}

theorem alike_readPart (pos pos' : Position) (name : String) (index : Option Nat) (m : Machine) :
    (readPart pos name index m).outcome.Alike (SameFault op bin)
      (readPart pos' name index m).outcome := by
  cases hpart : m.part? name index with
  | none =>
    obtain ⟨cause, hfault⟩ := outcome_readPart_none hpart
    rw [hfault, hfault]
    exact .fault m (.same pos pos' cause)
  | some old =>
    rw [outcome_readPart_some hpart, outcome_readPart_some hpart]
    exact .done old m

end

/-- To evaluate a place is to find its index and to read it. -/
theorem eval_toExpr (env : Env) (fuel : Nat) (pos : Position) (place : Place)
    (hint : Option Width) :
    eval env (fuel + 1) (place.toExpr pos) hint =
      placeIndex env fuel place >>= fun index => readPart pos place.name index := by
  cases place with
  | var name =>
    rw [Place.toExpr, eval, placeIndex, pure_bind]
    rfl
  | elem offset array =>
    rw [Place.toExpr, eval, placeIndex, bind_assoc]
    refine bind_congr (fun v => ?_)
    rw [bind_assoc]
    refine bind_congr (fun word => ?_)
    rw [pure_bind]
    rfl

/-! ## Section 3: The expansion's right-hand side -/

section

variable {env : Env} {m : Machine} {place : Place} {index : Option Nat} {old : Value}

/-- The place comes to what stands in it. -/
theorem comesTo_toExpr (hindex : ComesTo (fun fuel => placeIndex env fuel place) m (.done index m))
    (hpart : m.part? place.name index = some old) (pos : Position) (hint : Option Width) :
    ComesTo (fun fuel => eval env fuel (place.toExpr pos) hint) m (.done old m) := by
  apply ComesTo.succ
  simp only [eval_toExpr]
  refine .bind_done hindex ?_
  rw [← outcome_readPart_some hpart pos]
  exact .const _ m

/-- The place is known to have the width of what stands in it, if that is a word. -/
theorem staticWidth_toExpr {fuel : Nat} {m' : Machine}
    (hindex : (placeIndex env fuel place m).outcome = .done index m')
    (hpart : m.part? place.name index = some old) (pos : Position) :
    staticWidth env m (place.toExpr pos) = old.ty.scalarWidth? := by
  obtain ⟨v, hread, hv⟩ := Option.bind_eq_some_iff.mp hpart
  cases place with
  | var name =>
    cases hindex
    cases hv
    rw [Place.toExpr, staticWidth_ident, show m.read? name = some old from hread]
    rfl
  | elem offset array =>
    obtain ⟨w, i, m₁, -, hdone⟩ := outcome_scalar_eq_done.mp hindex
    cases hdone
    rw [Place.toExpr, staticWidth_index, show m.read? array = some v from hread]
    cases v with
    | scalar w n => cases hv
    | array element items =>
      obtain ⟨n, -, rfl⟩ := Option.map_eq_some_iff.mp hv
      rfl

variable {left right : Expr} {bin : BinOp} {hint : Option Width}

/-- What an operator that does arithmetic comes to if its left operand is a word that was known to
    be one: the right operand is evaluated as a word of the same width. -/
theorem comesTo_binary {w : Width} {a : Nat} {o : Outcome Value} (hbin : bin.yieldsBool = false)
    (hleft : ∀ hint, ComesTo (fun fuel => eval env fuel left hint) m (.done (.scalar w a) m))
    (hwidth : staticWidth env m left = some w) (pos : Position)
    (hright : ComesTo (fun fuel => eval env fuel right (some w) >>= fun rhs =>
      wordOf right.pos w rhs >>= fun b =>
        applyOp pos bin.symbol bin w a b env.config.overflow) m o) :
    ComesTo (fun fuel => eval env fuel (.binary pos bin left right) hint) m o := by
  have hlogical : bin.isLogical = false := (Bool.or_eq_false_iff.mp hbin).2
  have hhint : (operandHints env bin left right hint m).2 = some w := by
    rw [operandHints, hwidth]
    rfl
  apply ComesTo.succ
  simp only [eval, hlogical, Bool.false_eq_true, if_false]
  -- the hints are taken first; whatever the left one is, the left operand comes to the same
  refine .bind_done (.const (reads (operandHints env bin left right hint)) m) ?_
  refine .bind_done (hleft _) (.bind_done (.const (scalar left.pos (.scalar w a)) m) ?_)
  simpa only [hhint] using hright

/-- An operator that does arithmetic fails on an array before the right operand is evaluated. -/
theorem comesTo_binary_array {element : Width} {items : Array Nat} (hbin : bin.yieldsBool = false)
    (hleft : ∀ hint,
      ComesTo (fun fuel => eval env fuel left hint) m (.done (.array element items) m))
    (pos : Position) :
    ComesTo (fun fuel => eval env fuel (.binary pos bin left right) hint) m
      (.fault ⟨left.pos, .scalarExpected (.array element items.size)⟩ m) := by
  have hlogical : bin.isLogical = false := (Bool.or_eq_false_iff.mp hbin).2
  apply ComesTo.succ
  simp only [eval, hlogical, Bool.false_eq_true, if_false]
  refine .bind_done (.const (reads (operandHints env bin left right hint)) m) ?_
  exact .bind_done (hleft _) (.bind_fault (.const (scalar left.pos (.array element items)) m))

end

/-! ## Section 4: The two assignments -/

section

variable {op : AssignOp} {bin : BinOp}

theorem alike_update (pos pos' : Position) (name : String) (f : Value → Value) (m : Machine) :
    (update pos name f m).outcome.Alike (SameFault op bin) (update pos' name f m).outcome := by
  cases hcell : m.cell name with
  | error cause =>
    rw [outcome_update_error hcell, outcome_update_error hcell]
    exact .fault m (.same pos pos' cause)
  | ok c =>
    rw [outcome_update_ok hcell, outcome_update_ok hcell]
    exact .done () _

theorem endAlike_store (pos pos' : Position) (name : String) (index : Option Nat) (v : Value)
    (m : Machine) :
    EndAlike (SameFault op bin) (fun _ => store pos name index v)
      (fun _ => store pos' name index v) m := by
  unfold store
  split
  · exact .const (alike_update pos pos' name _ m)
  · exact .const (alike_update pos pos' name _ m)
  · exact .bind (.const (alike_update pos pos' name _ m))
      (fun _ m' _ => .const (.fault m' (.same pos pos' _)))

/-- The operator gives the same on both sides, or fails alike.  What it gives has the width of the
    operands, so it has the type of what it replaces. -/
theorem alike_applyOp (hop : op.binOp? = some bin) (pos opPos setPos valuePos : Position)
    (w : Width) (a b : Nat) (policy : Overflow) (m : Machine) :
    (applyOp pos op.symbol bin w a b policy m).outcome.Alike (SameFault op bin)
      ((applyOp opPos bin.symbol bin w a b policy >>= fun v =>
        combine policy setPos valuePos .set (.scalar w a) v) m).outcome := by
  rw [outcome_bind]
  unfold applyOp
  cases hresult : bin.apply w a b policy with
  | ok v =>
    have hcombines : AssignOp.Combines policy op (.scalar w a) (.scalar w b) v := .word hop hresult
    have hset : AssignOp.Combines policy .set (.scalar w a) v v := .set hcombines.ty_eq
    show Outcome.Alike _ (.done v m) (combine policy setPos valuePos .set _ v m).outcome
    rw [outcome_combine_of_combines hset]
    exact .done v m
  | error fault =>
    cases fault with
    | divisionByZero => exact .fault m (.same pos opPos _)
    | overflow => exact .fault m (.overflow pos opPos w)

end

section

variable {env : Env} {op : AssignOp} {bin : BinOp} {place : Place}

theorem yieldsBool_of_binOp? (h : op.binOp? = some bin) : bin.yieldsBool = false := by
  cases op with
  | set => cases h
  | add => cases h; rfl
  | sub => cases h; rfl

/-- With a word in the place, both evaluate the right-hand side as a word of its width, and make
    the same of the two. -/
theorem endAlike_combine (hop : op.binOp? = some bin) {left : Expr} {w : Width} {a : Nat}
    {m : Machine}
    (hleft : ∀ hint, ComesTo (fun fuel => eval env fuel left hint) m (.done (.scalar w a) m))
    (hwidth : staticWidth env m left = some w) (pos opPos setPos valuePos : Position)
    (value : Expr) :
    EndAlike (SameFault op bin)
      (fun fuel => eval env fuel value (some w) >>= fun rhs =>
        combine env.config.overflow pos value.pos op (.scalar w a) rhs)
      (fun fuel => eval env fuel (.binary opPos bin left value) (some w) >>= fun v =>
        combine env.config.overflow setPos valuePos .set (.scalar w a) v) m := by
  apply EndAlike.of_second (fun fuel => lasts_eval_bind env fuel value (some w))
    (fun o ho => comesTo_binary (yieldsBool_of_binOp? hop) hleft hwidth opPos ho)
  -- from here on both evaluate the right-hand side and take its word
  simp only [combine_word hop, bind_assoc]
  refine .bind (.self .refl (fun fuel => lasts_eval env fuel value (some w)) m)
    (fun rhs m₁ _ => .bind (.const (.refl .refl _)) (fun b m₂ _ => .const ?_))
  exact alike_applyOp hop pos opPos setPos valuePos w a b env.config.overflow m₂

/-- Both have the same to store, or fail alike. -/
theorem endAlike_assigned (hop : op.binOp? = some bin) (hplace : place.callFree = true)
    (pos pos' opPos placePos : Position) (value : Expr) (m : Machine) :
    EndAlike (SameFault op bin) (fun fuel => assigned env fuel pos op place value)
      (fun fuel => assigned env fuel pos' .set place
        (.binary opPos bin (place.toExpr placePos) value)) m := by
  refine .bind (.self .refl (fun fuel => lasts_placeIndex env fuel place) m)
    (fun index m₁ hindex => ?_)
  -- without a call the index leaves the state alone, so it can be found twice
  obtain rfl : m₁ = m := hindex.moved (unmoved_placeIndex hplace) rfl
  refine .bind (.const (alike_readPart pos pos' place.name index m₁)) (fun old m₂ hold => ?_)
  have hread := hold.eq_of_const
  obtain rfl := (still_readPart pos place.name index).eq_of_done hread
  have hpart := part?_of_readPart hread
  have hleft := comesTo_toExpr hindex hpart placePos
  have hset : AssignOp.Admits .set old := .inl rfl
  cases old with
  -- the one refuses an array when it looks at it, the other when it takes a word of it
  | array element items =>
    have hrefused : ¬ op.Admits (.array element items) := by
      rintro (hnone | hsome)
      · rw [hop] at hnone
        cases hnone
      · cases hsome
    simp only [if_pos hset, if_neg hrefused]
    exact ⟨_, _, .const _ m₂,
      .bind_fault (comesTo_binary_array (yieldsBool_of_binOp? hop) hleft opPos),
      .fault m₂ (.same _ _ _)⟩
  | scalar w a =>
    have hadmits : op.Admits (.scalar w a) := .inr rfl
    obtain ⟨enough, henough⟩ := hindex
    have hwidth := staticWidth_toExpr (henough enough (Nat.le_refl enough)) hpart placePos
    simp only [if_pos hset, if_pos hadmits, ← bind_assoc]
    exact .bind (endAlike_combine hop hleft hwidth pos opPos pos' opPos value)
      (fun v m₃ _ => .const (.done (index, v) m₃))

/-- Both assignments end alike, wherever they put the blame. -/
theorem endAlike_runAssign (hop : op.binOp? = some bin) (hplace : place.callFree = true)
    (pos pos' opPos placePos : Position) (value : Expr) (m : Machine) :
    EndAlike (SameFault op bin) (fun fuel => runAssign env fuel pos op place value)
      (fun fuel => runAssign env fuel pos' .set place
        (.binary opPos bin (place.toExpr placePos) value)) m := by
  apply EndAlike.succ
  simp only [runAssign_eq]
  exact .bind (endAlike_assigned hop hplace pos pos' opPos placePos value m)
    (fun found m₁ _ => .bind (endAlike_store pos pos' place.name found.1 found.2 m₁)
      (fun _ m₂ _ => .const (.done Flow.next m₂)))

end

/-! ## Section 5: The expansion of a compound assignment -/

/-- A compound assignment to a place without a call in its index comes to what the plain assignment
    of the written-out operation comes to: the same flow and state, or the same failure and state
    but for the place of the failure and the operator that an overflow names, or no end at all.  As
    statements they record where they stand, so there they stand at one place. -/
theorem compound_assignment_expands (env : Env) {op : AssignOp} {bin : BinOp}
    (hop : op.binOp? = some bin) {place : Place} (hplace : place.callFree = true)
    (value : Expr) (pos pos' opPos placePos : Position) (m : Machine) :
    let expanded : Expr := .binary opPos bin (place.toExpr placePos) value
    EndAlike (SameFault op bin) (fun fuel => runAssign env fuel pos op place value)
      (fun fuel => runAssign env fuel pos' .set place expanded) m ∧
    EndAlike (SameFault op bin) (fun fuel => runStatement env fuel (.assign pos op place value))
      (fun fuel => runStatement env fuel (.assign pos .set place expanded)) m := by
  intro expanded
  refine ⟨endAlike_runAssign hop hplace pos pos' opPos placePos value m, .succ ?_⟩
  simp only [runStatement]
  exact .bind (.const (.refl .refl _))
    (fun _ m₁ _ => endAlike_runAssign hop hplace pos pos opPos placePos value m₁)

/-- Moves the index and changes the element that it pointed to. -/
def shifts : Function :=
  ⟨"f", [], some (.uint .byte),
    [.assign ⟨1, 15⟩ .set (.elem (.ident ⟨1, 20⟩ "i") "A") (.literal ⟨1, 24⟩ 100),
      .assign ⟨2, 3⟩ .set (.var "i") (.literal ⟨2, 8⟩ 0),
      .ret ⟨3, 3⟩ (some (.literal ⟨3, 10⟩ 5))], ⟨1, 1⟩⟩

/-- An array, and an index into it. -/
def unshifted : Machine :=
  .initial ⟨(NameMap.singleton "A" (.array .byte #[1, 2])).insert "i" (.scalar .byte 1), .empty,
    .empty⟩

/-- What the call leaves. -/
def shifted : Machine :=
  ⟨⟨(NameMap.singleton "A" (.array .byte #[1, 100])).insert "i" (.scalar .byte 0), .empty, .empty⟩,
    [.topLevel],
    [.ret "f" (some (.scalar .byte 5)), .statement ⟨3, 3⟩ 1, .statement ⟨2, 3⟩ 1,
      .statement ⟨1, 15⟩ 1, .call "f" 1]⟩

/-- Both subtract from the element that the index pointed to before the call, and both trap there,
    each naming its own operator. -/
theorem compound_assignment_expands_shifts :
    let env : Env := ⟨.singleton "f" shifts, ⟨8, .trap⟩⟩
    let place : Place := .elem (.ident ⟨5, 5⟩ "i") "A"
    let value : Expr := .call ⟨5, 9⟩ "f" []
    let expanded : Expr := .binary ⟨5, 12⟩ .sub (place.toExpr ⟨5, 14⟩) value
    AssignOp.sub.binOp? = some .sub ∧ place.callFree = true ∧
    (runAssign env 9 ⟨5, 1⟩ .sub place value unshifted).outcome =
      .fault ⟨⟨5, 1⟩, .arithmeticOverflow "-=" .byte⟩ shifted ∧
    (runAssign env 9 ⟨5, 1⟩ .set place expanded unshifted).outcome =
      .fault ⟨⟨5, 12⟩, .arithmeticOverflow "-" .byte⟩ shifted ∧
    EndAlike (SameFault .sub .sub)
      (fun fuel => runStatement env fuel (.assign ⟨5, 1⟩ .sub place value))
      (fun fuel => runStatement env fuel (.assign ⟨5, 1⟩ .set place expanded)) unshifted := by
  intro env place value expanded
  have hop : AssignOp.sub.binOp? = some .sub := rfl
  have hplace : place.callFree = true := rfl
  obtain ⟨-, hstatements⟩ :=
    compound_assignment_expands env hop hplace value ⟨5, 1⟩ ⟨5, 1⟩ ⟨5, 12⟩ ⟨5, 14⟩ unshifted
  exact ⟨hop, hplace, rfl, rfl, hstatements⟩

end WordLang
