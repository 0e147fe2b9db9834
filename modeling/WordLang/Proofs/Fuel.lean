import WordLang.Proofs.Assigned
import WordLang.Proofs.Judgment

/-! # What a run comes to with enough fuel

    Fuel decides only whether a run ends.  A result or a failure that some
    fuel is enough for stays the same with more of it.  To see this, a run is
    compared with itself, one fuel ahead.

    A run therefore comes to one thing from some fuel on: a result, a
    failure, or never an end.  `ComesTo` says what it is.  To tell what a
    composed computation comes to, it is enough to know it of its parts, and
    how much fuel these are given no longer matters. -/

namespace WordLang

open Exec

variable {α β : Type}

/-! ## Section 1: Computations that give what others give -/

/-- Wherever the first computation is not out of fuel, the second one ends like it. -/
def Lasts (x y : Exec α) : Prop := ∀ m, (x m).outcome ≠ .outOfFuel → (y m).outcome = (x m).outcome

namespace Lasts

theorem refl (x : Exec α) : Lasts x x := fun _ _ => rfl

theorem outOfFuel (y : Exec α) : Lasts Exec.outOfFuel y := fun _ h => absurd rfl h

theorem bind {x y : Exec α} {f g : α → Exec β} (h : Lasts x y) (hf : ∀ a, Lasts (f a) (g a)) :
    Lasts (x >>= f) (y >>= g) := by
  intro m hm
  cases hx : (x m).outcome with
  | outOfFuel => exact absurd (outcome_bind_outOfFuel hx) hm
  | fault e m' =>
    have hy := (h m (by rw [hx]; exact nofun)).trans hx
    rw [outcome_bind_fault hx, outcome_bind_fault hy]
  | done a m' =>
    have hy := (h m (by rw [hx]; exact nofun)).trans hx
    rw [outcome_bind_done hx] at hm ⊢
    rw [outcome_bind_done hy]
    exact hf a m' hm

theorem within {x y : Exec α} (enter leave : Machine → Machine) (h : Lasts x y) :
    Lasts (Exec.within enter leave x) (Exec.within enter leave y) := by
  intro m hm
  show (y (enter m)).outcome.mapMachine leave = (x (enter m)).outcome.mapMachine leave
  have hinner : (x (enter m)).outcome ≠ .outOfFuel := by
    intro hx
    apply hm
    show (x (enter m)).outcome.mapMachine leave = _
    rw [hx]
    rfl
  rw [h (enter m) hinner]

end Lasts

/-! ## Section 2: More fuel changes no end -/

/-- A judgment about a run beside itself with one more of fuel. -/
abbrev Lasts.judgment : Judgment Unit := fun fuel _ {_} x y _ _ => Lasts x (y (fuel + 1))

theorem lastingRules (env : Env) :
    FullRules (.free (fun _ => True) False) (.self env) Lasts.judgment where
  lawful := Discipline.lawful_free (fun _ _ => trivial) (fun _ _ _ _ _ _ => trivial)
  functions := Pairing.pairsFunctions_self env
  pure _ := .refl _
  fail _ _ _ := .refl _
  outOfFuel _ _ := .outOfFuel _
  succ hx := hx
  bind hx hf := hx.bind (fun a => hf a nofun)
  weaken hx _ := hx
  forget hx := hx
  read _ _ _ := .refl _
  operandHints op left right hint := by
    simp only [Pairing.move_relocating, Expr.relocate_id]
    exact .refl _
  returnHint := .refl _
  applyOp _ _ _ _ _ _ := .refl _
  declare _ _ := .refl _
  inScope _ _ _ _ hx := hx.within _ _
  enterStatement _ := .refl _
  runPanic _ := .refl _
  noFunction _ _ := .refl _
  callWith args values _ hf hf' _ hbody := by
    cases hf.symm.trans hf'
    simp only [Pairing.move_relocating, Expr.relocateAll_id]
    refine .bind (.refl _) (fun params => .bind (.within _ _ ?_) (fun _ => .refl _))
    exact .bind (.refl _) (fun _ => hbody () trivial)
  update _ _ _ _ := .refl _

section

variable (env : Env) (fuel : Nat)

theorem lasts_eval (e : Expr) (hint : Option Width) :
    Lasts (eval env fuel e hint) (eval env (fuel + 1) e hint) := by
  have h := ((lastingRules env).parts fuel).eval (c := ()) e hint trivial
  simp only [Pairing.move_relocating, Expr.relocate_id] at h
  exact h

theorem lasts_runBlock (ss : List Statement) :
    Lasts (runBlock env fuel ss) (runBlock env (fuel + 1) ss) := by
  have h := ((lastingRules env).parts fuel).runBlock (c := ()) (Pairing.alike_relocateAll ss)
    trivial
  simp only [Statement.relocateAll_id] at h
  exact h

theorem lasts_runStatement (s : Statement) :
    Lasts (runStatement env fuel s) (runStatement env (fuel + 1) s) := by
  have h := ((lastingRules env).parts fuel).runStatement (c := ()) (Pairing.counterpart_relocate s)
    trivial
  simp only [Statement.relocate_id] at h
  exact h

/-- An evaluation, and then what does not depend on the fuel. -/
theorem lasts_eval_bind (e : Expr) (hint : Option Width) {k : Value → Exec β} :
    Lasts (eval env fuel e hint >>= k) (eval env (fuel + 1) e hint >>= k) :=
  .bind (lasts_eval env fuel e hint) (fun _ => .refl _)

theorem lasts_placeIndex (place : Place) :
    Lasts (placeIndex env fuel place) (placeIndex env (fuel + 1) place) := by
  cases place with
  | var name => exact .refl _
  | elem offset array => exact lasts_eval_bind env fuel offset _

end

/-! ## Section 3: What a run comes to -/

/-- From some fuel on, the computation ends like this, or is never over. -/
def ComesTo (x : Nat → Exec α) (m : Machine) (o : Outcome α) : Prop :=
  ∃ enough, ∀ fuel, enough ≤ fuel → (x fuel m).outcome = o

/-- An end that some fuel is enough for is what the computation comes to. -/
theorem comesTo_of_outcome {x : Nat → Exec α} (hx : ∀ fuel, Lasts (x fuel) (x (fuel + 1)))
    {m : Machine} {enough : Nat} {o : Outcome α} (h : (x enough m).outcome = o)
    (ho : o ≠ .outOfFuel) : ComesTo x m o := by
  refine ⟨enough, fun fuel hle => ?_⟩
  induction hle with
  | refl => exact h
  | @step fuel _ ih => exact (hx fuel m (by rw [ih]; exact ho)).trans ih

theorem comesTo_of_done {x : Nat → Exec α} (hx : ∀ fuel, Lasts (x fuel) (x (fuel + 1)))
    {m m' : Machine} {enough : Nat} {a : α} (h : (x enough m).outcome = .done a m') :
    ComesTo x m (.done a m') :=
  comesTo_of_outcome hx h nofun

/-- A computation whose ends last comes to something. -/
theorem exists_comesTo {x : Nat → Exec α} (hx : ∀ fuel, Lasts (x fuel) (x (fuel + 1)))
    (m : Machine) : ∃ o, ComesTo x m o := by
  -- whether a run ever ends is not decided by running it
  by_cases h : ∃ enough, (x enough m).outcome ≠ .outOfFuel
  · obtain ⟨enough, henough⟩ := h
    exact ⟨_, comesTo_of_outcome hx rfl henough⟩
  · exact ⟨.outOfFuel, 0, fun fuel _ => Classical.not_not.mp (not_exists.mp h fuel)⟩

namespace ComesTo

variable {x : Nat → Exec α} {f : Nat → α → Exec β} {m : Machine}

theorem unique {o o' : Outcome α} (h : ComesTo x m o) (h' : ComesTo x m o') : o = o' := by
  obtain ⟨enough, ho⟩ := h
  obtain ⟨enough', ho'⟩ := h'
  rw [← ho _ (Nat.le_max_left enough enough'), ho' _ (Nat.le_max_right enough enough')]

/-- What takes no fuel comes to what it is. -/
theorem const (x : Exec α) (m : Machine) : ComesTo (fun _ => x) m (x m).outcome :=
  ⟨0, fun _ _ => rfl⟩

/-- One more of fuel for a step makes no difference. -/
theorem succ {o : Outcome α} (h : ComesTo (fun fuel => x (fuel + 1)) m o) : ComesTo x m o := by
  obtain ⟨enough, ho⟩ := h
  refine ⟨enough + 1, fun fuel hle => ?_⟩
  obtain ⟨fuel, rfl⟩ := Nat.exists_eq_add_of_le' (Nat.le_of_add_left_le hle)
  exact ho fuel (Nat.le_of_add_le_add_right hle)

theorem bind_done {a : α} {m' : Machine} {o : Outcome β} (h : ComesTo x m (.done a m'))
    (hf : ComesTo (fun fuel => f fuel a) m' o) : ComesTo (fun fuel => x fuel >>= f fuel) m o := by
  obtain ⟨enough, hx⟩ := h
  obtain ⟨enough', hf⟩ := hf
  refine ⟨max enough enough', fun fuel hle => ?_⟩
  obtain ⟨hle, hle'⟩ := Nat.max_le.mp hle
  exact (outcome_bind_done (hx fuel hle)).trans (hf fuel hle')

theorem succ_iff {o : Outcome α} : ComesTo x m o ↔ ComesTo (fun fuel => x (fuel + 1)) m o := by
  refine ⟨?_, succ⟩
  rintro ⟨enough, ho⟩
  exact ⟨enough, fun fuel hle => ho (fuel + 1) (Nat.le_succ_of_le hle)⟩

/-- Once the first part has given its result, all is left to the second. -/
theorem bind_done_iff {a : α} {m' : Machine} {o : Outcome β} (h : ComesTo x m (.done a m')) :
    ComesTo (fun fuel => x fuel >>= f fuel) m o ↔ ComesTo (fun fuel => f fuel a) m' o := by
  refine ⟨?_, bind_done h⟩
  rintro ⟨enough, ho⟩
  obtain ⟨enough', hx⟩ := h
  refine ⟨max enough enough', fun fuel hle => ?_⟩
  obtain ⟨hle, hle'⟩ := Nat.max_le.mp hle
  exact (outcome_bind_done (hx fuel hle')).symm.trans (ho fuel hle)

theorem bind_fault {e : RuntimeError} {m' : Machine} (h : ComesTo x m (.fault e m')) :
    ComesTo (fun fuel => x fuel >>= f fuel) m (.fault e m') := by
  obtain ⟨enough, hx⟩ := h
  exact ⟨enough, fun fuel hle => outcome_bind_fault (hx fuel hle)⟩

theorem bind_outOfFuel (h : ComesTo x m .outOfFuel) :
    ComesTo (fun fuel => x fuel >>= f fuel) m .outOfFuel := by
  obtain ⟨enough, hx⟩ := h
  exact ⟨enough, fun fuel hle => outcome_bind_outOfFuel (hx fuel hle)⟩

/-- The first part may be put in the place of one that comes to the same. -/
theorem bind_congr {y : Nat → Exec α} {p : Outcome α} {o : Outcome β} (hx : ComesTo x m p)
    (hy : ComesTo y m p) (h : ComesTo (fun fuel => x fuel >>= f fuel) m o) :
    ComesTo (fun fuel => y fuel >>= f fuel) m o := by
  cases p with
  | done a m' =>
    obtain ⟨enough, hx⟩ := hx
    obtain ⟨enough', ho⟩ := h
    refine .bind_done hy ⟨max enough enough', fun fuel hle => ?_⟩
    obtain ⟨hle, hle'⟩ := Nat.max_le.mp hle
    exact (outcome_bind_done (hx fuel hle)).symm.trans (ho fuel hle')
  | fault e m' =>
    rw [h.unique (.bind_fault hx)]
    exact .bind_fault hy
  | outOfFuel =>
    rw [h.unique (.bind_outOfFuel hx)]
    exact .bind_outOfFuel hy

/-- What is left is left again, however the computation inside ends. -/
theorem within (enter leave : Machine → Machine) {o : Outcome α} (h : ComesTo x (enter m) o) :
    ComesTo (fun fuel => Exec.within enter leave (x fuel)) m (o.mapMachine leave) := by
  obtain ⟨enough, ho⟩ := h
  exact ⟨enough, fun fuel hle => congrArg (Outcome.mapMachine leave) (ho fuel hle)⟩

theorem eq_of_const {x : Exec α} {o : Outcome α} (h : ComesTo (fun _ => x) m o) :
    (x m).outcome = o := (const x m).unique h

/-- What relates the first and the last state of every run relates them here. -/
theorem moved {R : Machine → Machine → Prop} (hx : ∀ fuel, Moves R (x fuel)) {o : Outcome α}
    (h : ComesTo x m o) {m' : Machine} (hm' : o.machine? = some m') : R m m' := by
  obtain ⟨enough, ho⟩ := h
  apply (hx enough).ends
  rw [ho enough (Nat.le_refl enough), hm']

end ComesTo

end WordLang
