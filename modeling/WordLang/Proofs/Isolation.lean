import WordLang.Proofs.Frames
import WordLang.Proofs.Inheritance
import WordLang.Proofs.Passage

/-! # A call sees nothing of its callers

    A state with frames of its own can be put on top of other frames, with
    other events before its own: `atop`.  A computation is isolated if what
    lies below makes no difference to it but by its height, which is part of
    the number of active calls.  There is then one outcome and one set of
    changes for all that may lie below.

    All parts of the semantics are isolated, for none of them looks at more
    than the current frame, the store and the depth.  So the body of a
    function runs alike whatever its callers hold. -/

namespace WordLang

open Exec

/-! ## Section 1: States on top of others -/

namespace Machine

/-- The state with these frames below its own and these events before its own. -/
def atop (m : Machine) (below : List Frame) (past : List Event) : Machine :=
  ⟨m.store, m.frames ++ below, m.events ++ past⟩

section

variable (m : Machine) (below : List Frame) (past : List Event)

theorem atop_inj {m m' : Machine} {below : List Frame} {past : List Event}
    (h : m.atop below past = m'.atop below past) : m = m' := by
  obtain ⟨hstore, hframes, hevents⟩ := Machine.mk.inj h
  have hframes' := List.append_cancel_right hframes
  have hevents' := List.append_cancel_right hevents
  cases m
  cases m'
  exact Machine.mk.injEq .. ▸ ⟨hstore, hframes', hevents'⟩

theorem depth_atop : (m.atop below past).depth = m.frames.length + below.length - 1 := by
  simp [depth, atop]

variable {m} (hm : m.frames ≠ [])

include hm

theorem frame?_atop : (m.atop below past).frame? = m.frame? := by
  show (m.frames ++ below).head? = m.frames.head?
  rw [List.head?_append, List.head?_eq_some_head hm]
  rfl

theorem popFrame_atop : (m.atop below past).popFrame = m.popFrame.atop below past := by
  show (⟨m.store, (m.frames ++ below).tail, m.events ++ past⟩ : Machine) = _
  rw [List.tail_append_of_ne_nil hm]
  rfl

theorem mapScopes_atop (f : List (NameMap Value) → List (NameMap Value)) :
    (m.atop below past).mapScopes f = (m.mapScopes f).atop below past := by
  rcases m with ⟨store, _ | ⟨frame, rest⟩, events⟩
  · exact absurd rfl hm
  · rfl

theorem modifyCell_atop (c : Cell) (name : String) (f : Value → Value) :
    (m.atop below past).modifyCell c name f = (m.modifyCell c name f).atop below past := by
  cases c with
  | scope index => exact mapScopes_atop below past hm _
  | static function => rfl
  | global => rfl

end

end Machine

/-- What is asked of the machine gives one answer whatever lies below, of a given height. -/
theorem Local.atop {α : Type} {f : Machine → α} (h : Local f) {m : Machine} (hm : m.frames ≠ [])
    {below below' : List Frame} (past past' : List Event) (hheight : below'.length = below.length) :
    f (m.atop below' past') = f (m.atop below past) := by
  apply h
  · rfl
  · rw [Machine.frame?_atop below' past' hm, Machine.frame?_atop below past hm]
  · rw [Machine.depth_atop, Machine.depth_atop, hheight]

/-! ## Section 2: Executions on top of others -/

variable {α β : Type}

/-- The execution ends and changes states in this way, but on top of these frames and events. -/
structure Execution.Atop {start : Machine} (ex : Execution α start) (outcome : Outcome α)
    (steps : Machine → Machine → Prop) (below : List Frame) (past : List Event) : Prop where
  ends : ex.outcome = outcome.mapMachine (fun m => m.atop below past)
  changes : ∀ p q, ex.changes p q ↔
    ∃ a b, steps a b ∧ p = a.atop below past ∧ q = b.atop below past

/-- From this state on the computation does the same whatever lies below, of a given height, and
    leaves as many frames of its own as there were. -/
def Isolated (height : Nat) (x : Exec α) (m : Machine) : Prop :=
  ∃ (outcome : Outcome α) (steps : Machine → Machine → Prop),
    (∀ m', outcome.machine? = some m' → m'.frames.length = m.frames.length) ∧
    ∀ below past, below.length = height →
      (x (m.atop below past)).Atop outcome steps below past

namespace Isolated

variable {height : Nat} {x : Exec α} {m : Machine}

/-- What changes nothing and always ends in one way. -/
theorem of_still (outcome : Outcome α)
    (hsame : ∀ m', outcome.machine? = some m' → m' = m)
    (h : ∀ below past, below.length = height →
      (x (m.atop below past)).outcome = outcome.mapMachine (fun m => m.atop below past) ∧
      ∀ p q, ¬ (x (m.atop below past)).changes p q) : Isolated height x m := by
  refine ⟨outcome, fun _ _ => False, fun m' hm' => by rw [hsame m' hm'], ?_⟩
  intro below past hheight
  obtain ⟨hends, hnone⟩ := h below past hheight
  refine ⟨hends, fun p q => ⟨fun hpq => absurd hpq (hnone p q), ?_⟩⟩
  rintro ⟨a, b, hfalse, -⟩
  exact hfalse.elim

theorem pure {a : α} : Isolated height (Pure.pure a : Exec α) m :=
  of_still (.done a m) (fun _ h => (Option.some.inj h).symm)
    (fun _ _ _ => ⟨rfl, fun _ _ h => h⟩)

theorem fail {pos : Position} {cause : RuntimeCause} :
    Isolated height (Exec.fail pos cause : Exec α) m :=
  of_still (.fault ⟨pos, cause⟩ m) (fun _ h => (Option.some.inj h).symm)
    (fun _ _ _ => ⟨rfl, fun _ _ h => h⟩)

theorem outOfFuel : Isolated height (Exec.outOfFuel : Exec α) m := by
  apply of_still .outOfFuel
  · intro m' hm'
    cases hm'
  · exact fun _ _ _ => ⟨rfl, fun _ _ hpq => hpq⟩

theorem reads {f : Machine → α} (a : α)
    (h : ∀ below past, below.length = height → f (m.atop below past) = a) :
    Isolated height (Exec.reads f) m := by
  apply of_still (.done a m) (fun _ h => (Option.some.inj h).symm)
  intro below past hheight
  refine ⟨?_, fun _ _ hpq => hpq⟩
  show Outcome.done (f (m.atop below past)) (m.atop below past) = _
  rw [h below past hheight]
  rfl

theorem modify {f : Machine → Machine} (m' : Machine) (hframes : m'.frames.length = m.frames.length)
    (h : ∀ below past, below.length = height → f (m.atop below past) = m'.atop below past) :
    Isolated height (Exec.modify f) m := by
  refine ⟨.done () m', fun a b => a = m ∧ b = m', ?_, ?_⟩
  · intro last hlast
    obtain rfl := Option.some.inj hlast
    exact hframes
  · intro below past hheight
    constructor
    · show Outcome.done () (f (m.atop below past)) = _
      rw [h below past hheight]
      rfl
    · intro p q
      show p = m.atop below past ∧ q = f (m.atop below past) ↔ _
      rw [h below past hheight]
      constructor
      · rintro ⟨hp, hq⟩
        exact ⟨m, m', ⟨rfl, rfl⟩, hp, hq⟩
      · rintro ⟨a, b, ⟨rfl, rfl⟩, hp, hq⟩
        exact ⟨hp, hq⟩

theorem bind {f : α → Exec β} (h : Isolated height x m)
    (hf : ∀ a m', m'.frames.length = m.frames.length → Isolated height (f a) m') :
    Isolated height (x >>= f) m := by
  obtain ⟨outcome, steps, hframes, hatop⟩ := h
  cases outcome with
  | done a m' =>
    have hheight' := hframes m' rfl
    obtain ⟨outcome', steps', hframes', hatop'⟩ := hf a m' hheight'
    refine ⟨outcome', fun p q => steps p q ∨ steps' p q, ?_, ?_⟩
    · intro last hlast
      exact (hframes' last hlast).trans hheight'
    · intro below past hheight
      have hfirst := hatop below past hheight
      have hsecond := hatop' below past hheight
      constructor
      · rw [outcome_bind_done hfirst.ends]
        exact hsecond.ends
      · intro p q
        have hdone : ∀ b n, (x (m.atop below past)).outcome = .done b n ↔
            a = b ∧ m'.atop below past = n := by
          intro b n
          rw [hfirst.ends]
          exact Outcome.done.injEq .. ▸ Iff.rfl
        rw [changes_bind, hfirst.changes]
        simp only [hdone]
        constructor
        · rintro (⟨c, d, hcd, hp, hq⟩ | ⟨b, n, ⟨rfl, rfl⟩, hpq⟩)
          · exact ⟨c, d, .inl hcd, hp, hq⟩
          · obtain ⟨c, d, hcd, hp, hq⟩ := (hsecond.changes p q).mp hpq
            exact ⟨c, d, .inr hcd, hp, hq⟩
        · rintro ⟨c, d, hcd | hcd, hp, hq⟩
          · exact .inl ⟨c, d, hcd, hp, hq⟩
          · exact .inr ⟨a, _, ⟨rfl, rfl⟩, (hsecond.changes p q).mpr ⟨c, d, hcd, hp, hq⟩⟩
  | fault e m' =>
    refine ⟨.fault e m', steps, hframes, ?_⟩
    intro below past hheight
    have hfirst := hatop below past hheight
    refine ⟨outcome_bind_fault hfirst.ends, fun p q => ?_⟩
    rw [changes_bind, hfirst.changes, hfirst.ends]
    simp [Outcome.mapMachine]
  | outOfFuel =>
    refine ⟨.outOfFuel, steps, nofun, ?_⟩
    intro below past hheight
    have hfirst := hatop below past hheight
    refine ⟨outcome_bind_outOfFuel hfirst.ends, fun p q => ?_⟩
    rw [changes_bind, hfirst.changes, hfirst.ends]
    simp [Outcome.mapMachine]

/-- Entering and leaving have to be isolated too, and leave as many frames as there were. -/
theorem within {enter leave : Machine → Machine} (inside : Machine)
    (henter : ∀ below past, enter (m.atop below past) = inside.atop below past)
    (hleave : ∀ p, p.frames.length = inside.frames.length →
      (leave p).frames.length = m.frames.length ∧
      ∀ below past, leave (p.atop below past) = (leave p).atop below past)
    (h : Isolated height x inside) : Isolated height (Exec.within enter leave x) m := by
  obtain ⟨outcome, steps, hframes, hatop⟩ := h
  refine ⟨outcome.mapMachine leave,
    fun a b => a = m ∧ b = inside ∨ steps a b ∨ outcome.machine? = some a ∧ b = leave a, ?_, ?_⟩
  · intro last hlast
    rw [Outcome.machine?_mapMachine] at hlast
    obtain ⟨p, hp, rfl⟩ := Option.map_eq_some_iff.mp hlast
    exact (hleave p (hframes p hp)).1
  · intro below past hheight
    have hinner := hatop below past hheight
    rw [← henter below past] at hinner
    -- the states before leaving are those of the inner outcome
    have hlast : ∀ p, (x (enter (m.atop below past))).outcome.machine? = some p ↔
        ∃ a, outcome.machine? = some a ∧ a.atop below past = p := by
      intro p
      rw [hinner.ends, Outcome.machine?_mapMachine, Option.map_eq_some_iff]
    constructor
    · show (x (enter (m.atop below past))).outcome.mapMachine leave = _
      rw [hinner.ends]
      cases outcome with
      | done a p =>
        exact congrArg (Outcome.done a) ((hleave p (hframes p rfl)).2 below past)
      | fault e p =>
        exact congrArg (Outcome.fault e) ((hleave p (hframes p rfl)).2 below past)
      | outOfFuel => rfl
    · intro p q
      show p = m.atop below past ∧ q = enter (m.atop below past) ∨
        (x (enter (m.atop below past))).changes p q ∨
        (x (enter (m.atop below past))).outcome.machine? = some p ∧ q = leave p ↔ _
      rw [hinner.changes, hlast, henter]
      constructor
      · rintro (⟨rfl, rfl⟩ | ⟨a, b, hab, rfl, rfl⟩ | ⟨⟨a, ha, rfl⟩, rfl⟩)
        · exact ⟨m, inside, .inl ⟨rfl, rfl⟩, rfl, rfl⟩
        · exact ⟨a, b, .inr (.inl hab), rfl, rfl⟩
        · exact ⟨a, leave a, .inr (.inr ⟨ha, rfl⟩), rfl, (hleave a (hframes a ha)).2 below past⟩
      · rintro ⟨a, b, ⟨rfl, rfl⟩ | hab | ⟨ha, rfl⟩, rfl, rfl⟩
        · exact .inl ⟨rfl, rfl⟩
        · exact .inr (.inl ⟨a, b, hab, rfl, rfl⟩)
        · exact .inr (.inr ⟨⟨a, ha, rfl⟩, ((hleave a (hframes a ha)).2 below past).symm⟩)

theorem emit {e : Machine → Event} (e' : Event)
    (h : ∀ below past, below.length = height → e (m.atop below past) = e') :
    Isolated height (Exec.modify fun m => m.emit (e m)) m := by
  apply modify (m := m) (m.emit e') rfl
  intro below past hheight
  rw [h below past hheight]
  rfl

theorem inFrame (frame : Frame) (h : Isolated height x (m.pushFrame frame)) :
    Isolated height (inFrame frame x) m := by
  apply within (m.pushFrame frame) (fun below past => rfl) _ h
  intro p hp
  have hlength : p.frames.length = m.frames.length + 1 := hp
  have hne : p.frames ≠ [] := List.ne_nil_of_length_eq_add_one hlength
  refine ⟨?_, fun below past => Machine.popFrame_atop below past hne⟩
  show p.frames.tail.length = m.frames.length
  rw [List.length_tail, hlength, Nat.add_sub_cancel]

theorem inScope (scope : NameMap Value) (hm : m.frames ≠ [])
    (h : Isolated height x (m.pushScope scope)) : Isolated height (inScope scope x) m := by
  apply within (m.pushScope scope) (fun below past => Machine.mapScopes_atop below past hm _) _ h
  intro p hp
  have hlength : p.frames.length = m.frames.length := hp.trans (m.length_frames_mapScopes _)
  have hne : p.frames ≠ [] := Machine.ne_nil_of_height hm hlength
  refine ⟨(p.length_frames_mapScopes _).trans hlength, ?_⟩
  intro below past
  exact Machine.mapScopes_atop below past hne _

end Isolated

/-! ## Section 3: All parts of the semantics -/

section

variable {height : Nat} {m : Machine}

theorem isolated_expectType (pos : Position) (ty : Ty) (v : Value) :
    Isolated height (expectType pos ty v) m := by
  unfold expectType
  split
  · exact .pure
  · exact .fail

theorem isolated_bindParams (scope : NameMap Value) (ps : List Param) (poss : List Position)
    (vs : List Value) : Isolated height (bindParams scope ps poss vs) m := by
  induction ps generalizing scope poss vs m with
  | nil => exact .pure
  | cons p ps ih =>
    cases poss with
    | nil => exact .pure
    | cons pos poss =>
      cases vs with
      | nil => exact .pure
      | cons v vs =>
        apply Isolated.bind (isolated_expectType pos p.ty v)
        intro _ m' _
        exact ih _ poss vs

/-- Before a call only the number of active calls is looked at. -/
theorem isolated_prepareCall (env : Env) (pos : Position) (f : Function) (args : List Expr)
    (values : List Value) : Isolated height (prepareCall env pos f args values) m := by
  unfold prepareCall
  split
  · exact .fail
  · apply Isolated.bind (isolated_bindParams _ _ _ _)
    intro params m' _
    apply Isolated.bind
    · apply Isolated.reads (m'.frames.length + height - 1)
      intro below past hheight
      rw [Machine.depth_atop, hheight]
    · intro depth m'' _
      split
      · exact .fail
      · exact .pure

theorem isolated_finishCall (pos : Position) (f : Function) (flow : Flow) :
    Isolated height (finishCall pos f flow) m := by
  have hret : ∀ value (n : Machine), Isolated height
      (modify fun m => m.emit (.ret f.name value)) n :=
    fun value n => .emit (.ret f.name value) (fun _ _ _ => rfl)
  unfold finishCall
  split
  · exact .bind (hret _ _) (fun _ _ _ => .pure)
  · apply Isolated.bind (isolated_expectType _ _ _)
    intro _ m' _
    exact .bind (hret _ _) (fun _ _ _ => .pure)
  · exact .fail

/-- A call from its evaluated arguments on is isolated as a whole, as it looks into no frame but its
    own. -/
theorem isolated_callWith {env : Env} {body : Exec Flow}
    (hbody : ∀ n : Machine, n.frames ≠ [] → Isolated height body n) (pos : Position)
    (f : Function) (args : List Expr) (values : List Value) :
    Isolated height (callWith env pos f args values body) m := by
  apply Isolated.bind (isolated_prepareCall env pos f args values)
  intro params m' _
  apply Isolated.bind
  · apply Isolated.inFrame
    apply Isolated.bind
    · apply Isolated.emit
        (.call f.name ((m'.pushFrame (.call f params)).frames.length + height - 1))
      intro below past hheight
      rw [Machine.depth_atop, hheight]
    · intro _ m'' hframes
      exact hbody m'' (Machine.ne_nil_of_height (List.cons_ne_nil _ _) hframes)
  · intro flow m'' _
    exact isolated_finishCall pos f flow

end

/-- From every state with a frame the parts of the semantics are isolated. -/
theorem inherited_isolated (env : Env) (height : Nat) :
    Inherited env (fun _ {_} x => ∀ m : Machine, m.frames ≠ [] → Isolated height x m) where
  pure _ := fun _ _ => .pure
  fail _ _ _ := fun _ _ => .fail
  outOfFuel := fun _ _ => .outOfFuel
  reads f hlocal := by
    intro m hm
    apply Isolated.reads (f (m.atop (List.replicate height .topLevel) []))
    intro below past hheight
    exact hlocal.atop hm _ _ (hheight.trans List.length_replicate.symm)
  bind h hf := by
    intro m hm
    apply (h m hm).bind
    intro a m' hframes
    exact hf a m' (Machine.ne_nil_of_height hm hframes)
  declare name v := fun m hm =>
    .modify (m.declare name v) (m.length_frames_mapScopes _)
      (fun below past _ => Machine.mapScopes_atop below past hm _)
  update pos name f := by
    intro m hm
    have hcell : ∀ below past, (m.atop below past).cell name = m.cell name := by
      intro below past
      have hframe := congrArg (Option.map Frame.header) (Machine.frame?_atop below past hm)
      refine Machine.cell_congr ?_ hframe name
      rfl
    apply Isolated.bind (.reads (m.cell name) (fun below past _ => hcell below past))
    intro found m' hframes
    cases found with
    | error cause => exact .fail
    | ok c =>
      apply Isolated.modify (m'.modifyCell c name f) (m'.length_frames_modifyCell c name f)
      intro below past _
      exact Machine.modifyCell_atop below past (Machine.ne_nil_of_height hm hframes) c name f
  inScope scope _ h := by
    intro m hm
    have hlength := m.length_frames_mapScopes (fun scopes => scope :: scopes)
    exact .inScope scope hm (h _ (Machine.ne_nil_of_height hm hlength))
  enterStatement pos := by
    intro m _
    apply Isolated.emit (.statement pos (m.frames.length + height - 1))
    intro below past hheight
    rw [Machine.depth_atop, hheight]
  runPanic pos := by
    intro m hm
    have hname : ∀ below past, (m.atop below past).functionName? = m.functionName? :=
      fun below past => Machine.functionName?_congr
        (congrArg (Option.map Frame.header) (Machine.frame?_atop below past hm))
    apply Isolated.bind (.reads m.functionName? (fun below past _ => hname below past))
    intro function m' _
    apply Isolated.bind
    · apply Isolated.emit (.panic pos function (m'.frames.length + height - 1))
      intro below past hheight
      rw [Machine.depth_atop, hheight]
    · exact fun _ _ _ => .fail
  callWith {_ _ f} pos args values {_} _ hbody := fun _ _ =>
    isolated_callWith hbody pos f args values

/-! ## Section 4: Two callers -/

section

variable {start : Machine} {below : List Frame} {past : List Event} {outcome : Outcome α}
variable {steps : Machine → Machine → Prop}

/-- The way on top of other frames is the way without them. -/
theorem leads_atop {changes : Machine → Machine → Prop}
    (h : ∀ p q, changes p q ↔ ∃ a b, steps a b ∧ p = a.atop below past ∧ q = b.atop below past)
    (s t : Machine) : Leads changes (s.atop below past) (t.atop below past) ↔ Leads steps s t := by
  constructor
  · intro hleads
    generalize hs : s.atop below past = p at hleads
    generalize ht : t.atop below past = q at hleads
    induction hleads generalizing s with
    | here m =>
      obtain rfl := Machine.atop_inj (hs.trans ht.symm)
      exact .here s
    | change first _ ih =>
      obtain ⟨a, b, hab, ha, hb⟩ := (h _ _).mp first
      obtain rfl := Machine.atop_inj (hs.trans ha)
      exact .change hab (ih b hb.symm ht)
  · intro hleads
    induction hleads with
    | here m => exact .here _
    | change first _ ih => exact .change ((h _ _).mpr ⟨_, _, first, rfl, rfl⟩) ih

/-- The states on the way of an execution that is on top of others. -/
theorem Execution.Atop.through_iff {ex : Execution α (start.atop below past)}
    (h : ex.Atop outcome steps below past) (q : Machine) :
    ex.Through (q.atop below past) ↔
      Leads steps start q ∧ ∀ m, outcome.machine? = some m → Leads steps q m := by
  have hlast : ∀ m, ex.outcome.machine? = some m ↔
      ∃ a, outcome.machine? = some a ∧ a.atop below past = m := by
    intro m
    rw [h.ends, Outcome.machine?_mapMachine, Option.map_eq_some_iff]
  constructor
  · rintro ⟨hreached, honward⟩
    refine ⟨(leads_atop h.changes start q).mp hreached, fun m hm => ?_⟩
    exact (leads_atop h.changes q m).mp (honward _ ((hlast _).mpr ⟨m, hm, rfl⟩))
  · rintro ⟨hreached, honward⟩
    refine ⟨(leads_atop h.changes start q).mpr hreached, fun m hm => ?_⟩
    obtain ⟨a, ha, rfl⟩ := (hlast m).mp hm
    exact (leads_atop h.changes q a).mpr (honward a ha)

end

/-- Two computations end alike on top of the frames and events of two states: with the same result
    or the same failure, the same store, the same frames above and the same new events. -/
inductive SameEnd (m m' : Machine) : Outcome α → Outcome α → Prop where
  | done (a : α) (store : Store) (above : List Frame) (events : List Event) :
      SameEnd m m' (.done a ⟨store, above ++ m.frames, events ++ m.events⟩)
        (.done a ⟨store, above ++ m'.frames, events ++ m'.events⟩)
  | fault (e : RuntimeError) (store : Store) (above : List Frame) (events : List Event) :
      SameEnd m m' (.fault e ⟨store, above ++ m.frames, events ++ m.events⟩)
        (.fault e ⟨store, above ++ m'.frames, events ++ m'.events⟩)
  | unfinished : SameEnd m m' .outOfFuel .outOfFuel

/-- Two executions on top of the frames and events of two states end alike, and come through the
    same states on the way, whether they end or not. -/
structure SameAbove (m m' : Machine) {s s' : Machine} (ex : Execution α s) (ex' : Execution α s') :
    Prop where
  ends : SameEnd m m' ex.outcome ex'.outcome
  way : ∀ store above events,
    ex.Through ⟨store, above ++ m.frames, events ++ m.events⟩ ↔
      ex'.Through ⟨store, above ++ m'.frames, events ++ m'.events⟩

/-- An isolated computation does the same on top of any two states of one height. -/
theorem Isolated.sameAbove {x : Exec α} {start m m' : Machine}
    (h : Isolated m.frames.length x start) (hheight : m'.frames.length = m.frames.length) :
    SameAbove m m' (x (start.atop m.frames m.events)) (x (start.atop m'.frames m'.events)) := by
  obtain ⟨outcome, steps, -, hatop⟩ := h
  have hfirst := hatop m.frames m.events rfl
  have hsecond := hatop m'.frames m'.events hheight
  constructor
  · rw [hfirst.ends, hsecond.ends]
    cases outcome with
    | done a last => exact .done a last.store last.frames last.events
    | fault e last => exact .fault e last.store last.frames last.events
    | outOfFuel => exact .unfinished
  · intro store above events
    exact (hfirst.through_iff ⟨store, above, events⟩).trans
      (hsecond.through_iff ⟨store, above, events⟩).symm

/-- Calls are isolated.  In two states with the same store and as many frames, whatever functions,
    scopes and values these frames hold, the body of a function with its parameters bound does the
    same: it gives the same flow or the same failure, leaves the same store, records the same events
    and comes through the same states.  So does a whole call from its evaluated arguments on, with
    its checks before the body and after it. -/
theorem callee_isolated (env : Env) (fuel : Nat) (f : Function) (m m' : Machine)
    (hstore : m'.store = m.store) (hheight : m'.frames.length = m.frames.length) :
    (∀ params, SameAbove m m' (runBlock env fuel f.body (m.pushFrame (.call f params)))
      (runBlock env fuel f.body (m'.pushFrame (.call f params)))) ∧
    ∀ pos args values,
      SameAbove m m' (callWith env pos f args values (runBlock env fuel f.body) m)
        (callWith env pos f args values (runBlock env fuel f.body) m') := by
  have hbody : ∀ n : Machine, n.frames ≠ [] →
      Isolated m.frames.length (runBlock env fuel f.body) n :=
    ((inherited_isolated env m.frames.length).parts fuel).runBlock f.body everywhere
  obtain ⟨store, frames', events'⟩ := m'
  obtain rfl : store = m.store := hstore
  constructor
  · intro params
    -- the frame of the call is all that the body has of its own
    have hcalled := hbody ⟨m.store, [.call f params], []⟩ (List.cons_ne_nil _ _)
    exact hcalled.sameAbove hheight
  · intro pos args values
    have hcall : Isolated m.frames.length
        (callWith env pos f args values (runBlock env fuel f.body)) ⟨m.store, [], []⟩ :=
      isolated_callWith hbody pos f args values
    exact hcall.sameAbove hheight

/-- Adds its argument to a static, and then asks for a variable that it does not have. -/
def asksForMore : Function :=
  ⟨"f", [⟨"x", .uint .byte⟩], some (.uint .byte),
    [.static ⟨"S", .uint .byte, ⟨1, 18⟩⟩,
      .assign ⟨2, 3⟩ .add (.var "S") (.ident ⟨2, 8⟩ "x"),
      .ret ⟨3, 3⟩ (some (.ident ⟨3, 10⟩ "y"))], ⟨1, 1⟩⟩

/-- A state in which these variables of the top level are all there are. -/
def holding (scope : NameMap Value) : Machine :=
  ⟨⟨.empty, .singleton "f" (.singleton "S" (.scalar .byte 0)), .empty⟩, [⟨none, [scope]⟩], []⟩

/-- The body of the function, run from such a state with five as its argument. -/
def askedWhile (scope : NameMap Value) : Execution Flow
    ((holding scope).pushFrame (.call asksForMore (.singleton "x" (.scalar .byte 5)))) :=
  runBlock ⟨.empty, .default⟩ 8 asksForMore.body _

/-- One caller has the variable and the other one has not; the callee fails without it in both, and
    has changed its static by then. -/
theorem callee_isolated_asksForMore :
    (holding (.singleton "y" (.scalar .byte 9))).read? "y" = some (.scalar .byte 9) ∧
    (holding .empty).read? "y" = none ∧
    SameAbove (holding (.singleton "y" (.scalar .byte 9))) (holding .empty)
      (askedWhile (.singleton "y" (.scalar .byte 9))) (askedWhile .empty) ∧
    ∃ last, (askedWhile (.singleton "y" (.scalar .byte 9))).outcome =
        .fault ⟨⟨3, 10⟩, .unresolved "y"⟩ last ∧
      last.store.local? "f" "S" = some (.scalar .byte 5) := by
  have hsame := callee_isolated ⟨.empty, .default⟩ 8 asksForMore
    (holding (.singleton "y" (.scalar .byte 9))) (holding .empty) rfl rfl
  exact ⟨rfl, rfl, hsame.1 _, _, rfl, rfl⟩

end WordLang
