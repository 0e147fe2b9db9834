import WordLang.Proofs.Frames
import WordLang.Proofs.Passage
import WordLang.Proofs.Relocation

/-! # Two runs side by side

    The second of two runs has at least the means of the first: no lower
    limit on calls, no policy that traps where the first does not, no less
    fuel.  Its places may be other ones.  Then it does what the first one
    does for as long as that one goes on.

    `Follows` says so of a pair of computations.  Either both end alike, or
    the first one was cut short by what it lacks: its fuel, a result that
    did not fit, or one call too many.  In the last two cases the second
    run comes through the point where the first one stopped.

    As for `Ensures` there is one rule for each way to build a computation. -/

namespace WordLang

/-! ## Section 1: What is compared -/

/-- A result that does not fit, reported as a failure. -/
def RuntimeCause.isOverflow : RuntimeCause → Bool
  | .arithmeticOverflow _ _ => true
  | _ => false

/-- Two runs, the second with at least the means of the first. -/
structure Comparison where
  /-- Where the places of the first run are in the second. -/
  move : Position → Position
  low  : Config
  high : Config
  /-- The fuel that the second run has beyond that of the first. -/
  extra : Nat
  depth_le : low.maxDepth ≤ high.maxDepth
  overflow_le : high.overflow = .trap → low.overflow = .trap

namespace Comparison

/-- Failures that are the same but for their places and the limit they name.  An overflow is among
    them only if the second run traps too. -/
inductive Alike (c : Comparison) : RuntimeError → RuntimeError → Prop where
  | same (pos : Position) {cause : RuntimeCause}
      (traps : cause.isOverflow = true → c.high.overflow = .trap) :
      Alike c ⟨pos, cause⟩ ⟨c.move pos, cause⟩
  | exhausted (pos : Position) :
      Alike c ⟨pos, .stackExhausted c.low.maxDepth⟩ ⟨c.move pos, .stackExhausted c.high.maxDepth⟩

/-- What stops the first run alone, the events up to then, and the events of the second run where
    it has just gone further. -/
inductive Cuts (c : Comparison) : RuntimeCause → List Event → List Event → Prop where
  | overflow {op : String} {w : Width} {events : List Event} (low : c.low.overflow = .trap)
      (high : c.high.overflow = .wrap) : Cuts c (.arithmeticOverflow op w) events events
  | depth {function : String} {depth : Nat} {events : List Event}
      (lower : c.low.maxDepth < c.high.maxDepth) (deeper : c.low.maxDepth < depth) :
      Cuts c (.stackExhausted c.low.maxDepth) events (.call function depth :: events)

/-- With the same limit and the same policy nothing stops the first run alone. -/
theorem not_cuts {c : Comparison} {cause : RuntimeCause} {events shown : List Event}
    (hdepth : c.low.maxDepth = c.high.maxDepth) (hoverflow : c.low.overflow = c.high.overflow) :
    ¬ c.Cuts cause events shown := by
  intro hcuts
  cases hcuts with
  | overflow low high =>
    rw [hoverflow, high] at low
    cases low
  | depth lower deeper => omega

end Comparison

variable {α β : Type}

/-- From this state on, the second computation does what the first one does, as far as that one
    goes. -/
inductive Follows (c : Comparison) (x y : Exec α) (m : Machine) : Prop where
  | done {a : α} {m' : Machine} (first : (x m).outcome = .done a m')
      (second : (y (m.relocate c.move)).outcome = .done a (m'.relocate c.move))
      (height : m'.frames.length = m.frames.length)
  | fault {e e' : RuntimeError} {m' : Machine} (first : (x m).outcome = .fault e m')
      (second : (y (m.relocate c.move)).outcome = .fault e' (m'.relocate c.move))
      (alike : c.Alike e e')
  /-- With the same fuel both runs are out of it at the same time. -/
  | starved (first : (x m).outcome = .outOfFuel)
      (second : c.extra = 0 → (y (m.relocate c.move)).outcome = .outOfFuel)
  | cut {e : RuntimeError} {m' q : Machine} (first : (x m).outcome = .fault e m')
      (second : (y (m.relocate c.move)).Through q)
      (cuts : c.Cuts e.item (m'.relocate c.move).events q.events)

/-! ## Section 2: One rule for each way to build a computation -/

namespace Follows

variable {c : Comparison} {x y : Exec α} {m : Machine}

theorem pure {a : α} : Follows c (Pure.pure a : Exec α) (Pure.pure a) m :=
  .done rfl rfl rfl

theorem fail {pos : Position} {cause : RuntimeCause} (h : cause.isOverflow = false) :
    Follows c (Exec.fail pos cause : Exec α) (Exec.fail (c.move pos) cause) m := by
  refine .fault rfl rfl (.same pos (fun htrue => ?_))
  rw [h] at htrue
  cases htrue

theorem reads {f g : Machine → α} (h : g (m.relocate c.move) = f m) :
    Follows c (Exec.reads f) (Exec.reads g) m := by
  refine .done rfl ?_ rfl
  show Outcome.done (g (m.relocate c.move)) (m.relocate c.move) = _
  rw [h]

theorem modify {f g : Machine → Machine} (h : g (m.relocate c.move) = (f m).relocate c.move)
    (height : (f m).frames.length = m.frames.length) :
    Follows c (Exec.modify f) (Exec.modify g) m := by
  refine .done rfl ?_ height
  show Outcome.done () (g (m.relocate c.move)) = _
  rw [h]

theorem bind {f g : α → Exec β} (h : Follows c x y m)
    (hf : ∀ a m', (x m).outcome = .done a m' → m'.frames.length = m.frames.length →
      Follows c (f a) (g a) m') :
    Follows c (x >>= f) (y >>= g) m := by
  cases h with
  | done first second height =>
    have hx := Exec.outcome_bind_done (f := f) first
    have hy := Exec.outcome_bind_done (f := g) second
    cases hf _ _ first height with
    | done first' second' height' =>
      exact .done (hx.trans first') (hy.trans second') (height'.trans height)
    | fault first' second' alike => exact .fault (hx.trans first') (hy.trans second') alike
    | starved first' second' =>
      exact .starved (hx.trans first') (fun hextra => hy.trans (second' hextra))
    | cut first' second' cuts => exact .cut (hx.trans first') (.bind_right second second') cuts
  | fault first second alike =>
    exact .fault (Exec.outcome_bind_fault first) (Exec.outcome_bind_fault second) alike
  | starved first second =>
    exact .starved (Exec.outcome_bind_outOfFuel first)
      (fun hextra => Exec.outcome_bind_outOfFuel (second hextra))
  | cut first second cuts => exact .cut (Exec.outcome_bind_fault first) (.bind_left second) cuts

/-- Leaving has to undo in number of frames what entering did, and records nothing. -/
theorem within {enter leave enter' leave' : Machine → Machine}
    (henter : enter' (m.relocate c.move) = (enter m).relocate c.move)
    (hleave : ∀ p, leave' (p.relocate c.move) = (leave p).relocate c.move)
    (hevents : ∀ p, (leave p).events = p.events)
    (hheight : ∀ p, p.frames.length = (enter m).frames.length →
      (leave p).frames.length = m.frames.length)
    (h : Follows c x y (enter m)) :
    Follows c (Exec.within enter leave x) (Exec.within enter' leave' y) m := by
  have hx : (Exec.within enter leave x m).outcome = (x (enter m)).outcome.mapMachine leave := rfl
  have hy : (Exec.within enter' leave' y (m.relocate c.move)).outcome =
      (y ((enter m).relocate c.move)).outcome.mapMachine leave' := by
    rw [← henter]
    rfl
  cases h with
  | done first second height =>
    rw [first] at hx
    rw [second] at hy
    refine .done hx (hy.trans ?_) (hheight _ height)
    rw [Outcome.mapMachine, hleave]
  | fault first second alike =>
    rw [first] at hx
    rw [second] at hy
    refine .fault hx (hy.trans ?_) alike
    rw [Outcome.mapMachine, hleave]
  | starved first second =>
    rw [first] at hx
    refine .starved hx (fun hextra => ?_)
    rw [hy, second hextra]
    rfl
  | cut first second cuts =>
    rw [first] at hx
    refine .cut hx (.within (henter ▸ second)) ?_
    rw [Machine.events_relocate, hevents]
    exact cuts

end Follows

/-! ## Section 3: Following from every state with a frame

    Every call and the top level has a frame, and without one the number of
    active calls would not go up with the first call. -/

/-- The second computation follows the first from every state that has a frame. -/
def Tracks (c : Comparison) (x y : Exec α) : Prop := ∀ m, m.frames ≠ [] → Follows c x y m

namespace Tracks

variable {c : Comparison} {x y : Exec α}

theorem pure {a : α} : Tracks c (Pure.pure a : Exec α) (Pure.pure a) := fun _ _ => .pure

theorem fail {pos : Position} {cause : RuntimeCause} (h : cause.isOverflow = false) :
    Tracks c (Exec.fail pos cause : Exec α) (Exec.fail (c.move pos) cause) :=
  fun _ _ => .fail h

/-- The first run has no fuel left. -/
theorem outOfFuel (h : c.extra = 0 → y = Exec.outOfFuel) : Tracks c Exec.outOfFuel y := by
  intro m _
  refine .starved rfl (fun hextra => ?_)
  rw [h hextra]
  rfl

theorem reads {f g : Machine → α} (h : ∀ m, g (m.relocate c.move) = f m) :
    Tracks c (Exec.reads f) (Exec.reads g) :=
  fun m _ => .reads (h m)

theorem modify {f g : Machine → Machine} (h : ∀ m, g (m.relocate c.move) = (f m).relocate c.move)
    (height : ∀ m, (f m).frames.length = m.frames.length) :
    Tracks c (Exec.modify f) (Exec.modify g) :=
  fun m _ => .modify (h m) (height m)

theorem bind {f g : α → Exec β} (h : Tracks c x y) (hf : ∀ a, Tracks c (f a) (g a)) :
    Tracks c (x >>= f) (y >>= g) := by
  intro m hm
  exact (h m hm).bind (fun a m' _ height => hf a m' (Machine.ne_nil_of_height hm height))

theorem inScope (scope : NameMap Value) (h : Tracks c x y) :
    Tracks c (Exec.inScope scope x) (Exec.inScope scope y) := by
  intro m hm
  -- scopes come and go inside one frame
  have hheight : (m.pushScope scope).frames.length = m.frames.length := m.length_frames_mapScopes _
  refine .within (m.mapScopes_relocate _ _) (fun p => p.mapScopes_relocate _ _)
    (fun p => p.events_mapScopes _) (fun p hp => ?_) (h _ (Machine.ne_nil_of_height hm hheight))
  exact (p.length_frames_mapScopes _).trans (hp.trans hheight)

theorem inFrame (frame : Frame) (h : Tracks c x y) :
    Tracks c (Exec.inFrame frame x) (Exec.inFrame (frame.relocate c.move) y) := by
  intro m _
  refine .within (m.pushFrame_relocate _ frame) (fun p => p.popFrame_relocate _) (fun _ => rfl)
    (fun p hp => ?_) (h _ (List.cons_ne_nil _ _))
  show p.frames.tail.length = m.frames.length
  rw [List.length_tail, hp]
  rfl

end Tracks

end WordLang
