import WordLang.Proofs.Arithmetic
import WordLang.Proofs.Fuel
import WordLang.Proofs.StoreInvariant

/-! # The rounds of a `for`

    A `for` evaluates its bounds and from then on depends on the two numbers
    only.  Its rounds take the numbers from the first bound up to but not at
    the second, one after another, until a round does not go on; nothing that
    the body does changes which number comes next or how many are left.

    `RoundsPass` says that some rounds have gone on, each from the state that the
    one before it left, and `ForEnds` how the whole loop ends: after all
    rounds, or by the first that does not go on.  That the loop ends in no
    other way follows from there always being one such end. -/

namespace WordLang

open Exec

/-! ## Section 1: One round -/

/-- Whether a loop goes on after a round that ended like this. -/
def Flow.goesOn : Flow → Bool
  | .next | .continued => true
  | .broke | .returned _ => false

/-- How the loop around ends by a round that does not go on. -/
def Flow.outside : Flow → Flow
  | .broke => .next
  | flow => flow

/-- How a loop ends by a round that ended like this, unless it goes on. -/
def Outcome.endsLoop? : Outcome Flow → Option (Outcome Flow)
  | .done flow m => if flow.goesOn then none else some (.done flow.outside m)
  | .fault e m => some (.fault e m)
  | .outOfFuel => some .outOfFuel

/-- One round of a `for`: the body in a scope that binds the variable and nothing else. -/
def forRound (env : Env) (fuel : Nat) (var : String) (w : Width) (body : List Statement)
    (i : Nat) : Exec Flow :=
  inScope (.singleton var (.wrapped w i)) (runBlock env fuel body)

theorem runFor_round {env : Env} {var : String} {w : Width} {body : List Statement} {i stop : Nat}
    (h : i < stop) (fuel : Nat) :
    runFor env (fuel + 1) var w i stop body =
      forRound env fuel var w body i >>= fun flow =>
        if flow.goesOn then runFor env fuel var w (i + 1) stop body else pure flow.outside := by
  rw [runFor, if_pos h, forRound]
  refine bind_congr (fun flow => ?_)
  cases flow <;> rfl

/-- A round that does not go on is the last, whatever would follow it. -/
theorem comesTo_lastRound {x k : Nat → Exec Flow} {m : Machine} {o o' : Outcome Flow}
    (runs : ComesTo x m o) (ends : o.endsLoop? = some o') :
    ComesTo (fun fuel => x fuel >>= fun flow =>
      if flow.goesOn then k fuel else pure flow.outside) m o' := by
  cases o with
  | done flow m' =>
    cases hgoes : flow.goesOn with
    | true => simp [Outcome.endsLoop?, hgoes] at ends
    | false =>
      obtain rfl : .done flow.outside m' = o' := by simpa [Outcome.endsLoop?, hgoes] using ends
      refine .bind_done runs ?_
      simp only [hgoes, Bool.false_eq_true, if_false]
      exact .const _ _
  | fault e m' => cases ends; exact .bind_fault runs
  | outOfFuel => cases ends; exact .bind_outOfFuel runs

/-- After a round that goes on, all is left to what follows it. -/
theorem comesTo_passedRound {x k : Nat → Exec Flow} {m m₁ : Machine} {flow : Flow}
    {o : Outcome Flow} (runs : ComesTo x m (.done flow m₁)) (goesOn : flow.goesOn = true) :
    ComesTo (fun fuel => x fuel >>= fun flow =>
      if flow.goesOn then k fuel else pure flow.outside) m o ↔ ComesTo k m₁ o := by
  rw [ComesTo.bind_done_iff runs]
  simp only [goesOn, if_true]

theorem runFor_over {env : Env} {var : String} {w : Width} {body : List Statement} {i stop : Nat}
    (h : ¬ i < stop) (fuel : Nat) : runFor env (fuel + 1) var w i stop body = pure .next := by
  rw [runFor, if_neg h]

/-! ## Section 2: Rounds one after another -/

section

variable {env : Env} {var : String} {w : Width} {body : List Statement}

/-- This many rounds from the number `i` on go on, one after another, from the first state to the
    second. -/
inductive RoundsPass (env : Env) (var : String) (w : Width) (body : List Statement) :
    Nat → Nat → Machine → Machine → Prop where
  | none {i : Nat} {m : Machine} : RoundsPass env var w body i 0 m m
  | round {i n : Nat} {m m₁ m' : Machine} {flow : Flow}
      (runs : ComesTo (fun fuel => forRound env fuel var w body i) m (.done flow m₁))
      (goesOn : flow.goesOn = true) (rest : RoundsPass env var w body (i + 1) n m₁ m') :
      RoundsPass env var w body i (n + 1) m m'

/-- How the rounds for the numbers from `first` on end that are less than `past`. -/
inductive ForEnds (env : Env) (var : String) (w : Width) (body : List Statement)
    (first past : Nat) (m : Machine) : Outcome Flow → Prop where
  /-- All of them go on. -/
  | through {m' : Machine} (passes : RoundsPass env var w body first (past - first) m m') :
      ForEnds env var w body first past m (.done .next m')
  /-- After some that go on, one does not. -/
  | stopped {n : Nat} {m' : Machine} {o o' : Outcome Flow} (left : n < past - first)
      (passes : RoundsPass env var w body first n m m')
      (runs : ComesTo (fun fuel => forRound env fuel var w body (first + n)) m' o)
      (ends : o.endsLoop? = some o') : ForEnds env var w body first past m o'

/-- Rounds that go on bring the loop to where it would start with the number after theirs. -/
theorem comesTo_runFor_of_pass {first n past : Nat} {m m' : Machine} {o : Outcome Flow}
    (h : RoundsPass env var w body first n m m') (hn : n ≤ past - first) :
    ComesTo (fun fuel => runFor env fuel var w first past body) m o ↔
      ComesTo (fun fuel => runFor env fuel var w (first + n) past body) m' o := by
  induction h with
  | none => exact Iff.rfl
  | @round first n m m₁ m' flow runs goesOn rest ih =>
    have hfirst : first < past := by omega
    rw [ComesTo.succ_iff]
    simp only [runFor_round hfirst]
    rw [comesTo_passedRound runs goesOn, Nat.add_left_comm, Nat.add_comm n, ← ih (by omega)]

/-- A round that does not go on ends the loop. -/
theorem comesTo_runFor_of_end {i past : Nat} {m : Machine} {o o' : Outcome Flow} (hi : i < past)
    (runs : ComesTo (fun fuel => forRound env fuel var w body i) m o)
    (ends : o.endsLoop? = some o') :
    ComesTo (fun fuel => runFor env fuel var w i past body) m o' := by
  rw [ComesTo.succ_iff]
  simp only [runFor_round hi]
  exact comesTo_lastRound runs ends

/-- The loop ends as it is said to. -/
theorem ForEnds.comesTo {first past : Nat} {m : Machine} {o : Outcome Flow}
    (h : ForEnds env var w body first past m o) :
    ComesTo (fun fuel => runFor env fuel var w first past body) m o := by
  cases h with
  | @through m' passes =>
    rw [comesTo_runFor_of_pass passes (Nat.le_refl _), ComesTo.succ_iff]
    have hover : ¬ first + (past - first) < past := by omega
    simp only [runFor_over hover]
    exact .const _ _
  | stopped left passes runs ends =>
    rw [comesTo_runFor_of_pass passes (Nat.le_of_lt left)]
    exact comesTo_runFor_of_end (by omega) runs ends

/-- What comes after a round that goes on comes after it. -/
theorem ForEnds.after_round {i past : Nat} {m m₁ : Machine} {flow : Flow} {o : Outcome Flow}
    (hi : i < past) (runs : ComesTo (fun fuel => forRound env fuel var w body i) m (.done flow m₁))
    (goesOn : flow.goesOn = true) (h : ForEnds env var w body (i + 1) past m₁ o) :
    ForEnds env var w body i past m o := by
  cases h with
  | through passes =>
    have hcount : past - i = past - (i + 1) + 1 := by omega
    apply ForEnds.through
    rw [hcount]
    exact .round runs goesOn passes
  | @stopped n m' o o' left passes runs' ends =>
    refine .stopped (n := n + 1) (by omega) (.round runs goesOn passes) ?_ ends
    rwa [Nat.add_left_comm, Nat.add_comm n]

variable (env var w body) in
theorem lasts_forRound (fuel i : Nat) :
    Lasts (forRound env fuel var w body i) (forRound env (fuel + 1) var w body i) :=
  .within _ _ (lasts_runBlock env fuel body)

variable (env var w body) in
/-- There is such an end from every state, by induction on the rounds that are left. -/
theorem exists_forEnds (first past : Nat) (m : Machine) :
    ∃ o, ForEnds env var w body first past m o := by
  induction hleft : past - first generalizing first m with
  | zero =>
    refine ⟨.done .next m, .through ?_⟩
    rw [hleft]
    exact .none
  | succ left ih =>
    obtain ⟨o, runs⟩ := exists_comesTo (fun fuel => lasts_forRound env var w body fuel first) m
    cases hends : o.endsLoop? with
    | some o' => exact ⟨o', .stopped (n := 0) (by omega) .none runs hends⟩
    | none =>
      -- only a round that goes on leaves the loop to the others
      cases o with
      | done flow m₁ =>
        have hgoes : flow.goesOn = true := by simpa [Outcome.endsLoop?] using hends
        obtain ⟨o', hrest⟩ := ih (first + 1) m₁ (by omega)
        exact ⟨o', hrest.after_round (by omega) runs hgoes⟩
      | fault e m' => cases hends
      | outOfFuel => cases hends

/-- The loop ends as it is said to, and in no other way. -/
theorem comesTo_runFor_iff {first past : Nat} {m : Machine} {o : Outcome Flow} :
    ComesTo (fun fuel => runFor env fuel var w first past body) m o ↔
      ForEnds env var w body first past m o := by
  refine ⟨fun h => ?_, ForEnds.comesTo⟩
  obtain ⟨o', hends⟩ := exists_forEnds env var w body first past m
  rwa [h.unique hends.comesTo]

/-- If not all rounds up to some number go on, the numbers after it make no difference. -/
theorem comesTo_runFor_of_not_pass {first mid past : Nat} {m : Machine} (hmid : mid ≤ past)
    (hstops : ¬ ∃ m', RoundsPass env var w body first (mid - first) m m') (o : Outcome Flow) :
    ComesTo (fun fuel => runFor env fuel var w first past body) m o ↔
      ComesTo (fun fuel => runFor env fuel var w first mid body) m o := by
  obtain ⟨o', hends⟩ := exists_forEnds env var w body first mid m
  have hlonger : ForEnds env var w body first past m o' := by
    cases hends with
    | through passes => exact absurd ⟨_, passes⟩ hstops
    | stopped left passes runs ends => exact .stopped (by omega) passes runs ends
  constructor
  · intro h
    rw [h.unique hlonger.comesTo]
    exact hends.comesTo
  · intro h
    rw [h.unique hends.comesTo]
    exact hlonger.comesTo

end

/-! ## Section 3: The bounds -/

section

variable {env : Env} {pos : Position} {var : String} {ty : Ty} {start stop : Expr}
variable {body : List Statement} {m m₁ m₂ : Machine}

/-- A bound that is a word of the right width is taken as its number. -/
theorem comesTo_bound {β : Type} {x : Nat → Exec Value} {k : Nat → Nat → Exec β} {w : Width}
    {n : Nat} {o : Outcome β} (h : ComesTo x m (.done (.scalar w n) m₁)) (pos : Position) :
    ComesTo (fun fuel => x fuel >>= fun v => wordOf pos w v >>= k fuel) m o ↔
      ComesTo (fun fuel => k fuel n) m₁ o := by
  have hword : ComesTo (fun _ => wordOf pos w (.scalar w n)) m₁ (.done n m₁) := by
    rw [← outcome_wordOf pos w n m₁]
    exact .const _ m₁
  rw [ComesTo.bind_done_iff h, ComesTo.bind_done_iff hword]

/-- Before the bounds are evaluated, the statement is recorded. -/
theorem comesTo_statement {α : Type} {k : Nat → Exec α} {o : Outcome α} (pos : Position) :
    ComesTo (fun fuel => enterStatement pos >>= fun _ => k fuel) m o ↔
      ComesTo k (m.emit (.statement pos m.depth)) o :=
  ComesTo.bind_done_iff (a := ()) (.const (enterStatement pos) m)

theorem comesTo_forRange {first past : Nat} {o : Outcome Flow}
    (hstart : ComesTo (fun fuel => eval env fuel start (some ty.width))
      (m.emit (.statement pos m.depth)) (.done (.scalar ty.width first) m₁))
    (hstop : ComesTo (fun fuel => eval env fuel stop (some ty.width)) m₁
      (.done (.scalar ty.width past) m₂)) :
    ComesTo (fun fuel => runStatement env fuel (.forRange pos var ty start stop body)) m o ↔
      ComesTo (fun fuel => runFor env fuel var ty.width first past body) m₂ o := by
  rw [ComesTo.succ_iff]
  simp only [runStatement]
  rw [Statement.pos, comesTo_statement, comesTo_bound hstart, comesTo_bound hstop]

theorem comesTo_forRange_of_start {e : RuntimeError}
    (hstart : ComesTo (fun fuel => eval env fuel start (some ty.width))
      (m.emit (.statement pos m.depth)) (.fault e m₁)) :
    ComesTo (fun fuel => runStatement env fuel (.forRange pos var ty start stop body)) m
      (.fault e m₁) := by
  rw [ComesTo.succ_iff]
  simp only [runStatement]
  rw [Statement.pos, comesTo_statement]
  exact .bind_fault hstart

theorem comesTo_forRange_of_stop {first : Nat} {e : RuntimeError}
    (hstart : ComesTo (fun fuel => eval env fuel start (some ty.width))
      (m.emit (.statement pos m.depth)) (.done (.scalar ty.width first) m₁))
    (hstop : ComesTo (fun fuel => eval env fuel stop (some ty.width)) m₁ (.fault e m₂)) :
    ComesTo (fun fuel => runStatement env fuel (.forRange pos var ty start stop body)) m
      (.fault e m₂) := by
  rw [ComesTo.succ_iff]
  simp only [runStatement]
  rw [Statement.pos, comesTo_statement, comesTo_bound hstart]
  exact .bind_fault hstop

/-- Where every number fits its width, an expression gives a value that does. -/
theorem intact_of_eval {e : Expr} {hint : Option Width} {v : Value} {store : Store}
    (hm : m.Intact store)
    (h : ComesTo (fun fuel => eval env fuel e hint) m (.done v m₁)) :
    m₁.Intact store ∧ v.InRange := by
  obtain ⟨enough, ho⟩ := h
  have hkeeps := (keepsIntact store env enough).eval (c := ()) e hint trivial m hm
  exact hkeeps.done (ho enough (Nat.le_refl _))

/-- No number before the second bound is cut, for the bound itself fits. -/
theorem lt_count_of_bounds {first past : Nat} {store : Store} (hm : m.Intact store)
    (hstart : ComesTo (fun fuel => eval env fuel start (some ty.width))
      (m.emit (.statement pos m.depth)) (.done (.scalar ty.width first) m₁))
    (hstop : ComesTo (fun fuel => eval env fuel stop (some ty.width)) m₁
      (.done (.scalar ty.width past) m₂)) : past < ty.width.count := by
  obtain ⟨hm₁, -⟩ := intact_of_eval (hm.emit _) hstart
  obtain ⟨-, hfits⟩ := intact_of_eval hm₁ hstop
  exact Width.fits_iff.mp hfits

end

/-! ## Section 4: The law of iteration -/

/-- A `for` evaluates its bounds, the first and then the second, and ends by a bound that fails.
    From the two numbers on, it runs its body for one number after another in a scope of its own,
    each uncut where every number of the state fits its width, until a round does not go on or all
    are done.  Cut in two at a number in between, it does the same: the first part and, if all its
    rounds go on, the second. -/
theorem for_loop_law (env : Env) (pos : Position) (var : String) (ty : Ty) (start stop : Expr)
    (body : List Statement) (m : Machine) :
    (∀ first past m₁ m₂,
      ComesTo (fun fuel => eval env fuel start (some ty.width)) (m.emit (.statement pos m.depth))
        (.done (.scalar ty.width first) m₁) →
      ComesTo (fun fuel => eval env fuel stop (some ty.width)) m₁
        (.done (.scalar ty.width past) m₂) →
      (∀ o, ComesTo (fun fuel => runStatement env fuel (.forRange pos var ty start stop body)) m o ↔
        ForEnds env var ty.width body first past m₂ o) ∧
      ∀ store, m.Intact store → past < ty.width.count ∧
        ∀ i < past, Value.wrapped ty.width i = .scalar ty.width i) ∧
    (∀ e m₁,
      ComesTo (fun fuel => eval env fuel start (some ty.width)) (m.emit (.statement pos m.depth))
        (.fault e m₁) →
      ComesTo (fun fuel => runStatement env fuel (.forRange pos var ty start stop body)) m
        (.fault e m₁)) ∧
    (∀ first e m₁ m₂,
      ComesTo (fun fuel => eval env fuel start (some ty.width)) (m.emit (.statement pos m.depth))
        (.done (.scalar ty.width first) m₁) →
      ComesTo (fun fuel => eval env fuel stop (some ty.width)) m₁ (.fault e m₂) →
      ComesTo (fun fuel => runStatement env fuel (.forRange pos var ty start stop body)) m
        (.fault e m₂)) ∧
    (∀ w first mid past, first ≤ mid → mid ≤ past →
      (∀ m', RoundsPass env var w body first (mid - first) m m' →
        ComesTo (fun fuel => runFor env fuel var w first mid body) m (.done .next m') ∧
        ∀ o, ComesTo (fun fuel => runFor env fuel var w first past body) m o ↔
          ComesTo (fun fuel => runFor env fuel var w mid past body) m' o) ∧
      ((¬ ∃ m', RoundsPass env var w body first (mid - first) m m') →
        ∀ o, ComesTo (fun fuel => runFor env fuel var w first past body) m o ↔
          ComesTo (fun fuel => runFor env fuel var w first mid body) m o)) := by
  refine ⟨fun first past m₁ m₂ hstart hstop => ⟨fun o => ?_, fun store hm => ?_⟩,
    fun e m₁ => comesTo_forRange_of_start, fun first e m₁ m₂ => comesTo_forRange_of_stop,
    fun w first mid past hfirst hmid => ⟨fun m' passes => ⟨?_, fun o => ?_⟩, ?_⟩⟩
  · rw [comesTo_forRange hstart hstop, comesTo_runFor_iff]
  · have hpast := lt_count_of_bounds hm hstart hstop
    exact ⟨hpast, fun i hi => Value.wrapped_of_lt (Nat.lt_trans hi hpast)⟩
  · exact (ForEnds.through passes).comesTo
  · have hleft : mid - first ≤ past - first := by omega
    rw [comesTo_runFor_of_pass passes hleft, Nat.add_sub_cancel' hfirst]
  · exact comesTo_runFor_of_not_pass hmid

/-- A body that counts its rounds and gives the loop variable another value. -/
def clearsAndCounts : List Statement :=
  [.assign ⟨3, 3⟩ .set (.var "i") (.literal ⟨3, 8⟩ 0),
    .assign ⟨4, 3⟩ .add (.var "N") (.literal ⟨4, 9⟩ 1)]

/-- A loop over the last numbers of a byte. -/
def lastBytes : Program :=
  ⟨[.static ⟨"N", .uint .byte, ⟨1, 1⟩⟩,
    .statement (.forRange ⟨2, 1⟩ "i" (.uint .byte) (.literal ⟨2, 13⟩ 253) (.literal ⟨2, 18⟩ 255)
      clearsAndCounts)]⟩

/-- It has two rounds, which count to two, and neither of its numbers is cut; the second round
    alone does what is left after the first. -/
theorem for_loop_law_lastBytes :
    let env := lastBytes.env .default
    let m := lastBytes.start
    let begun := m.emit (.statement ⟨2, 1⟩ 0)
    (∃ m', ForEnds env "i" .byte clearsAndCounts 253 255 begun (.done .next m') ∧
      m'.store.global? "N" = some (.scalar .byte 2)) ∧
    (255 < Width.byte.count ∧ Value.wrapped .byte 254 = .scalar .byte 254) ∧
    (∃ m', RoundsPass env "i" .byte clearsAndCounts 253 (254 - 253) m m' ∧
      ∀ o, ComesTo (fun fuel => runFor env fuel "i" .byte 253 255 clearsAndCounts) m o ↔
        ComesTo (fun fuel => runFor env fuel "i" .byte 254 255 clearsAndCounts) m' o) := by
  intro env m begun
  obtain ⟨hends, -, -, hsplit⟩ := for_loop_law env ⟨2, 1⟩ "i" (.uint .byte) (.literal ⟨2, 13⟩ 253)
    (.literal ⟨2, 18⟩ 255) clearsAndCounts m
  have hbound : ∀ pos n, Width.byte.fits n = true →
      ComesTo (fun fuel => eval env fuel (.literal pos n) (some .byte)) begun
        (.done (.scalar .byte n) begun) := by
    intro pos n hn
    have hone : (eval env 1 (.literal pos n) (some .byte) begun).outcome =
        .done (.scalar .byte n) begun := by
      simp only [eval, literal, Value.ofNat, Option.getD_some, if_pos hn]
      rfl
    exact comesTo_of_done (fun fuel => lasts_eval env fuel _ _) hone
  obtain ⟨hiff, hfits⟩ := hends 253 255 begun begun (hbound ⟨2, 13⟩ 253 rfl)
    (hbound ⟨2, 18⟩ 255 rfl)
  obtain ⟨hpast, huncut⟩ := hfits _ lastBytes.intact_initial
  have hrun := comesTo_of_done (fun fuel => lasts_runStatement env fuel _) (show
    (runStatement env 9 (.forRange ⟨2, 1⟩ "i" (.uint .byte) (.literal ⟨2, 13⟩ 253)
      (.literal ⟨2, 18⟩ 255) clearsAndCounts) m).outcome = .done .next _ from rfl)
  refine ⟨⟨_, (hiff _).mp hrun, rfl⟩, ⟨hpast, huncut 254 (by decide)⟩, ?_⟩
  have hround := comesTo_of_done (fun fuel => lasts_forRound _ _ _ _ fuel 253) (show
    (forRound env 9 "i" .byte clearsAndCounts 253 m).outcome = .done .next _ from rfl)
  have hpass := RoundsPass.round hround rfl .none
  exact ⟨_, hpass, ((hsplit .byte 253 254 255 (by decide) (by decide)).1 _ hpass).2⟩

end WordLang
