import WordLang.Proofs.Execution

/-! # The parts of the semantics that do not call each other

    One rule for each of them: what has to hold of the machine for the part
    to guarantee something.  Failures fall in two groups, those that blame a
    name and those about values and limits; a rule asks for the first group
    only where the part can really fail like that.

    Everything that is proved about all runs uses these rules for the parts,
    whatever the property is. -/

namespace WordLang

/-- Failures that blame a name: it means nothing, or it cannot be assigned to. -/
def RuntimeCause.isNameFault : RuntimeCause → Bool
  | .unresolved _ | .constAssignment _ => true
  | _ => false

open Exec

variable {S : Machine → Machine → Prop} {E : RuntimeError → Machine → Prop} {m : Machine}

/-! ## Section 1: Values where a certain kind is needed -/

theorem ensures_scalar {Q : Width × Nat → Machine → Prop} (pos : Position) (v : Value)
    (hE : ∀ e, e.item.isNameFault = false → E e m)
    (hQ : ∀ w n, v = .scalar w n → Q (w, n) m) : Ensures S Q E (scalar pos v) m := by
  cases v with
  | scalar w n => exact .pure (hQ w n rfl)
  | array element items => exact .fail (hE _ rfl)

theorem ensures_wordOf {Q : Nat → Machine → Prop} (pos : Position) (w : Width) (v : Value)
    (hE : ∀ e, e.item.isNameFault = false → E e m) (hQ : ∀ n, Q n m) :
    Ensures S Q E (wordOf pos w v) m := by
  refine .bind (ensures_scalar pos v hE (fun found n _ => ?_))
  dsimp only
  split
  · exact .pure (hQ n)
  · exact .fail (hE _ rfl)

theorem ensures_expectType {Q : Unit → Machine → Prop} (pos : Position) (ty : Ty) (v : Value)
    (hE : ∀ e, e.item.isNameFault = false → E e m) (hQ : v.ty = ty → Q () m) :
    Ensures S Q E (expectType pos ty v) m := by
  unfold expectType
  split
  · next h => exact .pure (hQ h)
  · exact .fail (hE _ rfl)

theorem Value.inRange_of_ofNat {w : Width} {n : Nat} {v : Value} (h : ofNat w n = .ok v) :
    v.InRange := by
  unfold ofNat at h
  split at h
  · next hfits => cases h; exact hfits
  · cases h

theorem ensures_literal {Q : Value → Machine → Prop} (pos : Position) (value : Nat) (w : Width)
    (hE : ∀ e, e.item.isNameFault = false → E e m) (hQ : ∀ v, v.InRange → Q v m) :
    Ensures S Q E (literal pos value w) m := by
  unfold literal
  split
  · next v hv => exact .pure (hQ v (Value.inRange_of_ofNat hv))
  · exact .fail (hE _ rfl)

theorem ensures_applyOp {Q : Value → Machine → Prop} (pos : Position) (symbol : String)
    (op : BinOp) (w : Width) (a b : Nat) (policy : Overflow)
    (hE : ∀ e, e.item.isNameFault = false → E e m)
    (hQ : ∀ v, v.ty = .uint (op.resultWidth w) → v.InRange → Q v m) :
    Ensures S Q E (applyOp pos symbol op w a b policy) m := by
  unfold applyOp
  split
  · next v hv =>
    rw [BinOp.apply_eq_ok hv]
    exact .pure (hQ _ rfl (Value.inRange_wrapped _ _))
  · exact .fail (hE _ rfl)
  · exact .fail (hE _ rfl)

/-! ## Section 2: Names -/

theorem ensures_read {Q : Value → Machine → Prop} (pos : Position) (name : String)
    (hN : m.read? name = none → E ⟨pos, .unresolved name⟩ m)
    (hQ : ∀ v, m.read? name = some v → Q v m) : Ensures S Q E (read pos name) m := by
  refine .bind (.reads ?_)
  cases hv : m.read? name with
  | none => exact .fail (hN hv)
  | some v => exact .pure (hQ v hv)

theorem ensures_readElement {Q : Value → Machine → Prop} (pos : Position) (array : String)
    (i : Nat) (hE : ∀ e, e.item.isNameFault = false → E e m)
    (hN : m.read? array = none → E ⟨pos, .unresolved array⟩ m)
    (hQ : ∀ element items n, m.read? array = some (.array element items) → items[i]? = some n →
      Q (.scalar element n) m) : Ensures S Q E (readElement pos array i) m := by
  refine .bind (ensures_read pos array hN (fun v hv => ?_))
  cases v with
  | scalar w n => exact .fail (hE _ rfl)
  | array element items =>
    dsimp only
    split
    · next n hn => exact .pure (hQ element items n hv hn)
    · exact .fail (hE _ rfl)

/-- Whether a value of this type may be stored under a name, or in an element of the array of that
    name. -/
def Machine.Accepts (m : Machine) (name : String) (index : Option Nat) (ty : Ty) : Prop :=
  match index with
  | none => (m.read? name).map Value.ty = some ty
  | some _ => ∃ element len,
      (m.read? name).map Value.ty = some (.array element len) ∧ ty = .uint element

theorem Machine.Accepts.congr {m m' : Machine} {name : String} {index : Option Nat} {ty : Ty}
    (h : m.Accepts name index ty)
    (hty : (m'.read? name).map Value.ty = (m.read? name).map Value.ty) :
    m'.Accepts name index ty := by
  cases index with
  | none => exact hty.trans h
  | some i =>
    obtain ⟨element, len, harray, hword⟩ := h
    exact ⟨element, len, hty.trans harray, hword⟩

/-- What an assignment finds in place tells what may be stored there. -/
theorem ensures_target {Q : Target → Machine → Prop} (pos : Position) (name : String)
    (index : Option Nat) (hE : ∀ e, e.item.isNameFault = false → E e m)
    (hN : m.read? name = none → E ⟨pos, .unresolved name⟩ m)
    (hQ : ∀ there : Target, m.Accepts name index there.ty →
      (there.current.isSome → there.ty = .uint there.ty.width) → Q there m) :
    Ensures S Q E (target pos name index) m := by
  cases index with
  | none =>
    refine .bind (ensures_read pos name hN (fun v hv => .pure (hQ _ ?_ ?_)))
    · exact congrArg (Option.map Value.ty) hv
    · intro hcurrent
      cases v with
      | scalar w n => rfl
      | array element items => cases hcurrent
  | some i =>
    refine .bind (ensures_readElement pos name i hE hN (fun element items n hv _ =>
      .pure (hQ _ ⟨element, items.size, ?_, rfl⟩ (fun _ => rfl))))
    exact congrArg (Option.map Value.ty) hv

theorem ensures_update {Q : Unit → Machine → Prop} (pos : Position) (name : String)
    (f : Value → Value) (hN : ∀ cause, m.cell name = .error cause → E ⟨pos, cause⟩ m)
    (hQ : ∀ c, m.cell name = .ok c →
      S m (m.modifyCell c name f) ∧ Q () (m.modifyCell c name f)) :
    Ensures S Q E (update pos name f) m := by
  refine .bind (.reads ?_)
  cases hc : m.cell name with
  | error cause => exact .fail (hN cause hc)
  | ok c => exact .modify (hQ c hc).1 (hQ c hc).2

/-! ## Section 3: Calls -/

/-- The scope in which parameters stand for values. -/
def boundParams (scope : NameMap Value) : List Param → List Value → NameMap Value
  | p :: ps, v :: vs => boundParams (scope.insert p.name v) ps vs
  | _, _ => scope

/-- A parameter is bound only if its argument has a place to blame. -/
theorem ensures_bindParams {Q : NameMap Value → Machine → Prop} (scope : NameMap Value)
    (ps : List Param) (poss : List Position) (vs : List Value)
    (hE : ∀ e, e.item.isNameFault = false → E e m)
    (hQ : Q (boundParams scope ps (vs.take poss.length)) m) :
    Ensures S Q E (bindParams scope ps poss vs) m := by
  fun_induction bindParams scope ps poss vs with
  | case1 scope p ps pos poss v vs ih =>
    exact .bind (ensures_expectType pos p.ty v hE (fun _ => ih hQ))
  | case2 ps scope poss vs hnil =>
    -- one of the three lists is at its end
    have hdone : boundParams scope ps (vs.take poss.length) = scope := by
      match ps, poss, vs, hnil with
      | [], _, _, _ => rfl
      | _ :: _, [], _, _ => rfl
      | _ :: _, _ :: _, [], _ => rfl
      | p :: ps, pos :: poss, v :: vs, hnil => exact (hnil p ps pos poss v vs rfl rfl rfl).elim
    rw [hdone] at hQ
    exact .pure hQ

theorem ensures_prepareCall {Q : NameMap Value → Machine → Prop} (env : Env) (pos : Position)
    (f : Function) (args : List Expr) (values : List Value)
    (hE : ∀ e, e.item.isNameFault = false → E e m)
    (hQ : values.length = f.params.length →
      Q (boundParams .empty f.params (values.take args.length)) m) :
    Ensures S Q E (prepareCall env pos f args values) m := by
  unfold prepareCall
  split
  · exact .fail (hE _ rfl)
  · next hlen =>
    refine .bind (ensures_bindParams _ _ _ _ hE (.bind (.reads ?_)))
    split
    · exact .fail (hE _ rfl)
    · rw [List.length_map]
      exact .pure (hQ (Decidable.not_not.mp hlen))

/-- A call gives no value that its body did not return. -/
theorem ensures_finishCall {Q : Option Value → Machine → Prop} (pos : Position) (f : Function)
    (flow : Flow) (hE : ∀ e, e.item.isNameFault = false → E e m) (hS : ∀ ev, S m (m.emit ev))
    (hQ : ∀ result ev, (∀ v, result = some v → flow = .returned (some v)) →
      Q result (m.emit ev)) :
    Ensures S Q E (finishCall pos f flow) m := by
  unfold finishCall
  split
  · refine .bind (.modify (hS _) (.pure (hQ _ _ (fun v hv => ?_))))
    cases hv
  -- the value is what the body returned, once its type has been looked at
  · next ty v _ =>
    refine .bind (ensures_expectType _ _ _ hE (fun _ =>
      .bind (.modify (hS _) (.pure (hQ _ _ (fun u hu => ?_))))))
    cases hu
    rfl
  · exact .fail (hE _ rfl)

theorem ensures_runPanic {Q : Flow → Machine → Prop} (pos : Position) (hS : ∀ ev, S m (m.emit ev))
    (hE : ∀ e ev, e.item.isNameFault = false → E e (m.emit ev)) :
    Ensures S Q E (runPanic pos) m :=
  .bind (.reads (.bind (.modify (hS _) (.fail (hE _ _ rfl)))))

end WordLang
