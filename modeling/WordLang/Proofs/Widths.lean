import WordLang.Proofs.SlotTypes

/-! # Widths are known beforehand

    `staticWidth` looks at an expression without running any of it, and yet
    it is never wrong: a word that the expression gives has the width known
    beforehand, or else the one expected, or else that of a byte.  Where a
    width is known, what is expected makes no difference to the run.

    The left operand may call functions before the right one is evaluated,
    and both hints were taken before that.  They still hold good, because
    nothing that runs gives a name another type. -/

namespace WordLang

open Exec

/-! ## Section 1: What is known beforehand -/

/-- The width foretold of an expression: the known one, else the one expected, else a byte's. -/
def foretoldWidth (env : Env) (m : Machine) (e : Expr) (hint : Option Width) : Width :=
  ((staticWidth env m e).or hint).getD .byte

/-- What is known of an expression is still known after another one has been evaluated. -/
theorem staticWidth_after_eval {env : Env} {fuel : Nat} {e : Expr} {hint : Option Width}
    {v : Value} {m m' : Machine} (h : (eval env fuel e hint m).outcome = .done v m') (e' : Expr) :
    staticWidth env m' e' = staticWidth env m e' :=
  staticWidth_congr ((keepsTypes env fuel).ty_read? (by rw [h]; rfl)) (fun _ => rfl) e'

theorem foretoldWidth_of_yieldsBool {env : Env} {m : Machine} {op : BinOp}
    (h : op.yieldsBool = true) (pos : Position) (left right : Expr) (hint : Option Width) :
    foretoldWidth env m (.binary pos op left right) hint = .bool := by
  rw [foretoldWidth, staticWidth, if_pos h]
  rfl

/-- The operator gives the width foretold of the whole, if the left operand has the one foretold
    of it where its own hint is expected. -/
theorem resultWidth_foretold (env : Env) (m : Machine) (op : BinOp) (pos : Position)
    (left right : Expr) (hint : Option Width) :
    op.resultWidth (foretoldWidth env m left (operandHints env op left right hint m).1) =
      foretoldWidth env m (.binary pos op left right) hint := by
  by_cases hbool : op.yieldsBool = true
  · rw [foretoldWidth_of_yieldsBool hbool, BinOp.resultWidth, if_pos hbool]
  · simp only [BinOp.resultWidth, operandHints, foretoldWidth, staticWidth, if_neg hbool,
      Option.or_assoc]

/-! ## Section 2: Words have the width foretold -/

/-- A computation that goes on with a word has been given one. -/
theorem outcome_scalar_eq_done {β : Type} {x : Exec Value} {pos : Position}
    {k : Width × Nat → Exec β} {m m'' : Machine} {b : β} :
    ((x >>= fun v => scalar pos v >>= k) m).outcome = .done b m'' ↔
      ∃ w n m', (x m).outcome = .done (.scalar w n) m' ∧ (k (w, n) m').outcome = .done b m'' := by
  rw [outcome_bind_eq_done]
  constructor
  · rintro ⟨v, m', hv, hk⟩
    cases v with
    | scalar w n =>
      rw [outcome_bind_done (a := (w, n)) rfl] at hk
      exact ⟨w, n, m', hv, hk⟩
    | array element items => cases hk
  · rintro ⟨w, n, m', hv, hk⟩
    exact ⟨.scalar w n, m', hv, hk⟩

theorem eq_of_literal {pos : Position} {value : Nat} {w : Width} {v : Value} {m m' : Machine}
    (h : (literal pos value w m).outcome = .done v m') : v = .scalar w value := by
  unfold literal Value.ofNat at h
  by_cases hfits : w.fits value = true
  · rw [if_pos hfits] at h
    cases h
    rfl
  · rw [if_neg hfits] at h
    cases h

theorem ret_of_finishCall {pos : Position} {f : Function} {flow : Flow} {v : Value}
    {m m' : Machine} (h : (finishCall pos f flow m).outcome = .done (some v) m') :
    f.ret = some v.ty := by
  unfold finishCall at h
  cases hret : f.ret with
  | none => rw [hret] at h; cases h
  | some ty =>
    rw [hret] at h
    rcases flow with _ | _ | _ | ⟨_ | u⟩
    case returned.some =>
      obtain ⟨_, m'', hty, hdone⟩ := outcome_bind_eq_done.mp h
      cases hdone
      rw [ty_eq_of_expectType hty]
    all_goals cases h

/-- A value that a call gives has the type that its function declares. -/
theorem ret_of_call {env : Env} {fuel : Nat} {pos : Position} {name : String} {args : List Expr}
    {v : Value} {m m' : Machine} (h : (call env fuel pos name args m).outcome = .done (some v) m') :
    ∃ f, env.functions.get? name = some f ∧ f.ret = some v.ty := by
  cases fuel with
  | zero => cases h
  | succ fuel =>
    rw [call] at h
    cases hf : env.functions.get? name with
    | none => rw [hf] at h; cases h
    | some f =>
      rw [hf] at h
      -- the arguments, their binding and the body come first, and then the value
      obtain ⟨values, m₁, -, h⟩ := outcome_bind_eq_done.mp h
      obtain ⟨params, m₂, -, h⟩ := outcome_bind_eq_done.mp h
      obtain ⟨flow, m₃, -, h⟩ := outcome_bind_eq_done.mp h
      exact ⟨f, rfl, ret_of_finishCall h⟩

/-- The result of an operator, from the width of its left operand. -/
theorem width_of_applyOp {pos : Position} {symbol : String} {op : BinOp} {w w' : Width}
    {a b n : Nat} {policy : Overflow} {m m' : Machine}
    (h : (applyOp pos symbol op w a b policy m).outcome = .done (.scalar w' n) m') :
    w' = op.resultWidth w :=
  (Value.scalar.inj (BinOp.apply_eq_ok (apply_eq_of_applyOp h))).1

/-- A word has the width foretold of its expression. -/
theorem width_eq_foretold {env : Env} {fuel : Nat} {e : Expr} {hint : Option Width} {w : Width}
    {n : Nat} {m m' : Machine} (h : (eval env fuel e hint m).outcome = .done (.scalar w n) m') :
    w = foretoldWidth env m e hint := by
  induction fuel generalizing e hint w n m m' with
  | zero => cases h
  | succ fuel ih =>
    cases e with
    | literal pos value =>
      rw [eval] at h
      exact (Value.scalar.inj (eq_of_literal h)).1
    | ident pos name =>
      rw [eval] at h
      have hpart : m.part? name none = some (.scalar w n) := part?_of_readPart h
      obtain ⟨v, hread, hv⟩ := Option.bind_eq_some_iff.mp hpart
      cases hv
      rw [foretoldWidth, staticWidth_ident, hread]
      rfl
    | index pos offset array =>
      rw [eval] at h
      obtain ⟨wi, i, m₁, hoffset, h⟩ := outcome_scalar_eq_done.mp h
      have hpart : m₁.part? array (some i) = some (.scalar w n) := part?_of_readPart h
      obtain ⟨v, hread, hpart⟩ := Option.bind_eq_some_iff.mp hpart
      -- the array is read after the offset, and has the type that it had before
      rw [foretoldWidth, ← staticWidth_after_eval hoffset, staticWidth_index, hread]
      cases v with
      | scalar w n => cases hpart
      | array element items =>
        obtain ⟨n', -, heq⟩ := Option.map_eq_some_iff.mp hpart
        exact (Value.scalar.inj heq).1.symm
    | binary pos op left right =>
      rw [eval] at h
      dsimp only at h
      by_cases hlogical : op.isLogical = true
      · rw [if_pos hlogical] at h
        obtain ⟨wa, a, m₁, -, h⟩ := outcome_scalar_eq_done.mp h
        obtain ⟨wb, b, m₂, -, h⟩ := outcome_scalar_eq_done.mp h
        cases h
        rw [foretoldWidth_of_yieldsBool (by rw [BinOp.yieldsBool, hlogical, Bool.or_true])]
      · rw [if_neg hlogical, reads_bind_at] at h
        obtain ⟨wa, a, m₁, hleft, h⟩ := outcome_scalar_eq_done.mp h
        obtain ⟨u, m₂, -, h⟩ := outcome_bind_eq_done.mp h
        obtain ⟨b, m₃, -, h⟩ := outcome_bind_eq_done.mp h
        rw [width_of_applyOp h, ih hleft]
        exact resultWidth_foretold env m op pos left right hint
    | call pos name args =>
      rw [eval] at h
      obtain ⟨result, m₁, hcall, h⟩ := outcome_bind_eq_done.mp h
      cases result with
      | none => cases h
      | some v =>
        cases h
        obtain ⟨f, hf, hret⟩ := ret_of_call hcall
        rw [foretoldWidth, staticWidth, hf, Option.bind_some, hret]
        rfl

/-! ## Section 3: What is expected matters only where nothing is known -/

/-- Where the width is known, evaluation is the same run whatever is expected. -/
theorem eval_eq_of_staticWidth {env : Env} {fuel : Nat} {e : Expr} {m : Machine}
    (h : (staticWidth env m e).isSome = true) (hint hint' : Option Width) :
    eval env fuel e hint m = eval env fuel e hint' m := by
  induction fuel generalizing e hint hint' m with
  | zero => rfl
  | succ fuel ih =>
    cases e with
    | literal pos value => cases h
    | ident pos name => rw [eval, eval]
    | index pos offset array => rw [eval, eval]
    | call pos name args => rw [eval, eval]
    | binary pos op left right =>
      rw [eval, eval]
      dsimp only
      by_cases hlogical : op.isLogical = true
      · rw [if_pos hlogical, if_pos hlogical]
      · rw [if_neg hlogical, if_neg hlogical, reads_bind_at, reads_bind_at]
        -- a hint for an operand is settled by the other one, or it does not matter
        have operand : ∀ (other outer outer' : Option Width) (operand : Expr) (m₁ : Machine),
            (other.isSome || (staticWidth env m₁ operand).isSome) = true →
            eval env fuel operand (other.or outer) m₁ =
              eval env fuel operand (other.or outer') m₁ := by
          intro other outer outer' operand m₁ hknown
          cases other with
          | some w => rfl
          | none => exact ih hknown _ _
        by_cases hbool : op.yieldsBool = true
        · simp only [operandHints, if_pos hbool]
        · rw [staticWidth, if_neg hbool, Option.isSome_or] at h
          simp only [operandHints, if_neg hbool]
          refine bind_congr_at (operand _ _ _ _ _ (Bool.or_comm _ _ ▸ h)) (fun v m₁ hv => ?_)
          refine bind_congr_at rfl (fun word m₂ hword => bind_congr_at (operand _ _ _ _ _ ?_) ?_)
          · obtain rfl := (still_scalar _ _).eq_of_done hword
            rwa [staticWidth_after_eval hv]
          · exact fun _ _ _ => rfl

/-! ## Section 4: Widths are predicted exactly -/

/-- A word has the width known of its expression before it is evaluated, else the one expected, else
    that of a byte; and where a width is known, the whole run is the same whatever is expected. -/
theorem width_known_beforehand (env : Env) (fuel : Nat) (e : Expr) (hint : Option Width)
    (m : Machine) :
    (∀ w n m', (eval env fuel e hint m).outcome = .done (.scalar w n) m' →
      w = ((staticWidth env m e).or hint).getD .byte) ∧
    ((staticWidth env m e).isSome = true →
      ∀ hint', eval env fuel e hint' m = eval env fuel e hint m) :=
  ⟨fun _ _ _ h => width_eq_foretold h, fun h hint' => eval_eq_of_staticWidth h hint' hint⟩

/-- Adds to a global static and gives a word. -/
def bump : Function :=
  ⟨"bump", [], some (.uint .word),
    [.assign ⟨1, 20⟩ .add (.var "G") (.literal ⟨1, 25⟩ 1),
      .ret ⟨1, 30⟩ (some (.literal ⟨1, 37⟩ 1000))], ⟨1, 1⟩⟩

/-- A sum whose left operand changes what the right one reads. -/
def bumpedSum : Expr :=
  .binary ⟨2, 1⟩ .add (.call ⟨2, 3⟩ "bump" [])
    (.binary ⟨2, 10⟩ .add (.literal ⟨2, 12⟩ 300) (.ident ⟨2, 16⟩ "G"))

/-- What is there before the sum is evaluated. -/
def unbumped : Machine := .initial ⟨.singleton "G" (.scalar .word 5), .empty, .empty⟩

/-- What the sum leaves behind. -/
def bumped : Machine :=
  ⟨⟨.singleton "G" (.scalar .word 6), .empty, .empty⟩, [.topLevel],
    [.ret "bump" (some (.scalar .word 1000)), .statement ⟨1, 30⟩ 1, .statement ⟨1, 20⟩ 1,
      .call "bump" 1]⟩

/-- The literals are words, as is known of the call and of the static, though bytes are expected,
    and so they are if nothing is. -/
theorem width_known_beforehand_bumpedSum :
    let env : Env := ⟨.singleton "bump" bump, .default⟩
    (eval env 9 bumpedSum (some .byte) unbumped).outcome =
      .done (.scalar .word 1306) bumped ∧
    .word = ((staticWidth env unbumped bumpedSum).or (some .byte)).getD .byte ∧
    (staticWidth env unbumped bumpedSum).isSome = true ∧
    eval env 9 bumpedSum none unbumped =
      eval env 9 bumpedSum (some .byte) unbumped := by
  intro env
  obtain ⟨hwidth, hsame⟩ := width_known_beforehand env 9 bumpedSum (some .byte) unbumped
  have hdone : (eval env 9 bumpedSum (some .byte) unbumped).outcome =
      .done (.scalar .word 1306) bumped := rfl
  exact ⟨hdone, hwidth _ _ _ hdone, rfl, hsame rfl none⟩

end WordLang
