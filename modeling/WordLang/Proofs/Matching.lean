import WordLang.Proofs.Inheritance
import WordLang.Proofs.Passage

/-! # Runs that match

    The outline of a state is what a computation can learn of it: the store
    and the frames, without the bodies of their functions and without the
    events.  `Matches x y` says that from states with one outline, `y` ends
    like `x` whenever `x` ends, and with one outline again.  The second
    computation may take more fuel for it, so it is given as what it does
    with any fuel; some fuel has to be enough.

    What is asked of a state depends on its outline only, and so does what a
    change of it leaves.  Hence the parts of the semantics that do not call
    each other match themselves. -/

namespace WordLang

open Exec

/-! ## Section 1: Outlines -/

namespace Machine

/-- The store and the frames of a state, without the bodies of functions and without events. -/
def outline (m : Machine) : Machine := ⟨m.store, m.frames.map Frame.header, []⟩

variable {m m' : Machine}

theorem outline_mapScopes (m : Machine) (f : List (NameMap Value) → List (NameMap Value)) :
    (m.mapScopes f).outline = m.outline.mapScopes f := by
  rcases m with ⟨store, _ | ⟨frame, rest⟩, events⟩ <;> rfl

theorem outline_mapScopes_congr (hlike : m'.outline = m.outline)
    (f : List (NameMap Value) → List (NameMap Value)) :
    (m'.mapScopes f).outline = (m.mapScopes f).outline := by
  rw [outline_mapScopes, outline_mapScopes, hlike]

theorem outline_modifyCell (m : Machine) (c : Cell) (name : String) (f : Value → Value) :
    (m.modifyCell c name f).outline = m.outline.modifyCell c name f := by
  cases c with
  | scope index => exact m.outline_mapScopes _
  | static function => rfl
  | global => rfl

theorem outline_pushFrame (m : Machine) (frame : Frame) :
    (m.pushFrame frame).outline = m.outline.pushFrame frame.header := rfl

theorem outline_popFrame (m : Machine) : m.popFrame.outline = m.outline.popFrame := by
  unfold popFrame outline
  rw [List.map_tail]

end Machine

/-- What is asked of a state has one answer for all states of one outline. -/
theorem Local.outline {α : Type} {f : Machine → α} (h : Local f) {m m' : Machine}
    (hlike : m'.outline = m.outline) : f m' = f m := by
  obtain ⟨hstore, hframes, -⟩ := Machine.mk.inj hlike
  apply h
  · exact hstore
  · have hhead := congrArg List.head? hframes
    rw [List.head?_map, List.head?_map] at hhead
    exact hhead
  · have hlength := congrArg List.length hframes
    rw [List.length_map, List.length_map] at hlength
    rw [Machine.depth, Machine.depth, hlength]

theorem local_cell (name : String) : Local (fun m => m.cell name) :=
  fun _ _ hstore hframe _ => Machine.cell_congr hstore hframe name

theorem local_functionName? : Local Machine.functionName? :=
  fun _ _ _ hframe _ => Machine.functionName?_congr hframe

theorem local_depth : Local Machine.depth := fun _ _ _ _ hdepth => hdepth

/-! ## Section 2: Computations that match -/

variable {α β : Type}

/-- From these states on, the second computation ends like the first one if that one ends, once it
    has enough fuel. -/
inductive Attains (x : Exec α) (y : Nat → Exec α) (m m' : Machine) : Prop where
  | done {a : α} {last last' : Machine} (first : (x m).outcome = .done a last) (enough : Nat)
      (second : ∀ fuel, enough ≤ fuel → (y fuel m').outcome = .done a last')
      (like : last'.outline = last.outline)
  | fault {e : RuntimeError} {last last' : Machine} (first : (x m).outcome = .fault e last)
      (enough : Nat) (second : ∀ fuel, enough ≤ fuel → (y fuel m').outcome = .fault e last')
      (like : last'.outline = last.outline)
  | starved (first : (x m).outcome = .outOfFuel)

namespace Attains

variable {x x₀ : Exec α} {y y₀ : Nat → Exec α} {m m₀ m' m₀' : Machine}

/-- The first computation may be put in the place of one that ends like it. -/
theorem of_first (h : Attains x₀ y m₀ m') (heq : (x m).outcome = (x₀ m₀).outcome) :
    Attains x y m m' := by
  cases h with
  | starved first => exact .starved (heq.trans first)
  | fault first enough second like => exact .fault (heq.trans first) enough second like
  | done first enough second like => exact .done (heq.trans first) enough second like

/-- The second computation may be put in the place of one that ends like it with less fuel. -/
theorem of_second (h : Attains x y₀ m m₀')
    (heq : ∀ fuel, (y (fuel + 2) m').outcome = (y₀ (fuel + 1) m₀').outcome) :
    Attains x y m m' := by
  have hmore : ∀ {o : Outcome α} {enough : Nat},
      (∀ fuel, enough ≤ fuel → (y₀ fuel m₀').outcome = o) →
      ∀ fuel, enough + 2 ≤ fuel → (y fuel m').outcome = o := by
    intro o enough second fuel hle
    obtain ⟨more, rfl⟩ := Nat.exists_eq_add_of_le' (Nat.le_trans (Nat.le_add_left 2 enough) hle)
    rw [heq]
    exact second (more + 1) (by omega)
  cases h with
  | starved first => exact .starved first
  | fault first enough second like => exact .fault first (enough + 2) (hmore second) like
  | done first enough second like => exact .done first (enough + 2) (hmore second) like

end Attains

/-- From all states of one outline, the second computation ends like the first. -/
def Matches (x : Exec α) (y : Nat → Exec α) : Prop :=
  ∀ m m' : Machine, m'.outline = m.outline → Attains x y m m'

namespace Matches

variable {x : Exec α} {y : Nat → Exec α}

theorem pure {a : α} : Matches (Pure.pure a : Exec α) (fun _ => Pure.pure a) :=
  fun _ _ hlike => .done rfl 0 (fun _ _ => rfl) hlike

theorem fail {pos : Position} {cause : RuntimeCause} :
    Matches (Exec.fail pos cause : Exec α) (fun _ => Exec.fail pos cause) :=
  fun _ _ hlike => .fault rfl 0 (fun _ _ => rfl) hlike

/-- Nothing is asked of a computation that matches one without fuel. -/
theorem outOfFuel : Matches (Exec.outOfFuel : Exec α) y := fun _ _ _ => .starved rfl

theorem reads {f g : Machine → α}
    (h : ∀ m m' : Machine, m'.outline = m.outline → g m' = f m) :
    Matches (Exec.reads f) (fun _ => Exec.reads g) := by
  intro m m' hlike
  refine .done rfl 0 (fun _ _ => ?_) hlike
  show Outcome.done (g m') m' = .done (f m) m'
  rw [h m m' hlike]

theorem modify {f g : Machine → Machine}
    (h : ∀ m m' : Machine, m'.outline = m.outline → (g m').outline = (f m).outline) :
    Matches (Exec.modify f) (fun _ => Exec.modify g) :=
  fun m m' hlike => .done rfl 0 (fun _ _ => rfl) (h m m' hlike)

theorem bind {f : α → Exec β} {g : Nat → α → Exec β} (hx : Matches x y)
    (hf : ∀ a, Matches (f a) (fun fuel => g fuel a)) :
    Matches (x >>= f) (fun fuel => y fuel >>= g fuel) := by
  intro m m' hlike
  cases hx m m' hlike with
  | starved first => exact .starved (outcome_bind_outOfFuel first)
  | fault first enough second like =>
    exact .fault (outcome_bind_fault first) enough
      (fun fuel hle => outcome_bind_fault (second fuel hle)) like
  | @done a last last' first enough second like =>
    have hbegin := outcome_bind_done (f := f) first
    -- what is enough for both parts is enough for the whole
    cases hf a last last' like with
    | starved first' => exact .starved (hbegin.trans first')
    | fault first' enough' second' like' =>
      refine .fault (hbegin.trans first') (max enough enough') (fun fuel hle => ?_) like'
      rw [outcome_bind_done (second fuel (by omega))]
      exact second' fuel (by omega)
    | done first' enough' second' like' =>
      refine .done (hbegin.trans first') (max enough enough') (fun fuel hle => ?_) like'
      rw [outcome_bind_done (second fuel (by omega))]
      exact second' fuel (by omega)

theorem within {enter leave enter' leave' : Machine → Machine}
    (henter : ∀ m m' : Machine, m'.outline = m.outline → (enter' m').outline = (enter m).outline)
    (hleave : ∀ m m' : Machine, m'.outline = m.outline → (leave' m').outline = (leave m).outline)
    (h : Matches x y) :
    Matches (Exec.within enter leave x) (fun fuel => Exec.within enter' leave' (y fuel)) := by
  intro m m' hlike
  cases h (enter m) (enter' m') (henter m m' hlike) with
  | starved first => exact .starved (congrArg (Outcome.mapMachine leave) first)
  | fault first enough second like =>
    exact .fault (congrArg (Outcome.mapMachine leave) first) enough
      (fun fuel hle => congrArg (Outcome.mapMachine leave') (second fuel hle)) (hleave _ _ like)
  | done first enough second like =>
    exact .done (congrArg (Outcome.mapMachine leave) first) enough
      (fun fuel hle => congrArg (Outcome.mapMachine leave') (second fuel hle)) (hleave _ _ like)

/-- What a part does with its fuel lowered by one is what it does. -/
theorem succ (h : Matches x (fun fuel => y (fuel + 1))) : Matches x y :=
  fun m m' hlike => (h m m' hlike).of_second (fun _ => rfl)

theorem emit {e e' : Machine → Event} :
    Matches (Exec.modify fun m => m.emit (e m)) (fun _ => Exec.modify fun m => m.emit (e' m)) :=
  .modify (fun _ _ hlike => hlike)

theorem mapScopes (f : List (NameMap Value) → List (NameMap Value)) :
    Matches (Exec.modify fun m => m.mapScopes f) (fun _ => Exec.modify fun m => m.mapScopes f) :=
  .modify (fun _ _ hlike => Machine.outline_mapScopes_congr hlike f)

theorem inScope (scope : NameMap Value) (h : Matches x y) :
    Matches (Exec.inScope scope x) (fun fuel => Exec.inScope scope (y fuel)) := by
  apply h.within
  · exact fun _ _ hlike => Machine.outline_mapScopes_congr hlike (fun scopes => scope :: scopes)
  · exact fun _ _ hlike => Machine.outline_mapScopes_congr hlike List.tail

theorem inFrame {frame frame' : Frame} (hframe : frame'.header = frame.header)
    (h : Matches x y) :
    Matches (Exec.inFrame frame x) (fun fuel => Exec.inFrame frame' (y fuel)) := by
  apply h.within
  · intro m m' hlike
    rw [Machine.outline_pushFrame, Machine.outline_pushFrame, hlike, hframe]
  · intro m m' hlike
    rw [Machine.outline_popFrame, Machine.outline_popFrame, hlike]

end Matches

/-! ## Section 3: Parts that match themselves -/

theorem matches_read (pos : Position) (name : String) :
    Matches (read pos name) (fun _ => read pos name) := by
  apply Matches.bind (.reads (fun _ _ => (local_read? name).outline))
  intro found
  cases found with
  | none => exact .fail
  | some v => exact .pure

theorem matches_update (pos : Position) (name : String) (f : Value → Value) :
    Matches (update pos name f) (fun _ => update pos name f) := by
  apply Matches.bind (.reads (fun _ _ => (local_cell name).outline))
  intro found
  cases found with
  | error cause => exact .fail
  | ok c =>
    apply Matches.modify
    intro m m' hlike
    rw [Machine.outline_modifyCell, Machine.outline_modifyCell, hlike]

theorem matches_applyOp (pos : Position) (symbol : String) (op : BinOp) (w : Width) (a b : Nat)
    (policy : Overflow) :
    Matches (applyOp pos symbol op w a b policy)
      (fun _ => applyOp pos symbol op w a b policy) := by
  unfold applyOp
  split
  · exact .pure
  · exact .fail
  · exact .fail

theorem matches_runPanic (pos : Position) :
    Matches (runPanic pos) (fun _ => runPanic pos) := by
  apply Matches.bind (.reads (fun _ _ => local_functionName?.outline))
  intro function
  exact .bind .emit (fun _ => .fail)

theorem matches_expectType (pos : Position) (ty : Ty) (v : Value) :
    Matches (expectType pos ty v) (fun _ => expectType pos ty v) := by
  unfold expectType
  split
  · exact .pure
  · exact .fail

theorem matches_bindParams (scope : NameMap Value) (ps : List Param) (poss : List Position)
    (vs : List Value) :
    Matches (bindParams scope ps poss vs) (fun _ => bindParams scope ps poss vs) := by
  fun_induction bindParams scope ps poss vs with
  | case1 scope p ps pos poss v vs ih => exact .bind (matches_expectType pos p.ty v) (fun _ => ih)
  | case2 ps scope poss vs hnil => exact .pure

theorem matches_prepareCall (env : Env) (pos : Position) (f : Function) (args : List Expr)
    (values : List Value) :
    Matches (prepareCall env pos f args values) (fun _ => prepareCall env pos f args values) := by
  unfold prepareCall
  split
  · exact .fail
  · apply Matches.bind (matches_bindParams _ _ _ _)
    intro params
    apply Matches.bind (.reads (fun _ _ => local_depth.outline))
    intro depth
    split
    · exact .fail
    · exact .pure

theorem matches_finishCall (pos : Position) (f : Function) (flow : Flow) :
    Matches (finishCall pos f flow) (fun _ => finishCall pos f flow) := by
  unfold finishCall
  split
  · exact .bind .emit (fun _ => .pure)
  · exact .bind (matches_expectType _ _ _) (fun _ => .bind .emit (fun _ => .pure))
  · exact .fail

section

variable {env env' : Env} {f f' : Function}

theorem prepareCall_congr (hconfig : env'.config = env.config) (hheader : f'.header = f.header)
    (pos : Position) (args : List Expr) (values : List Value) :
    prepareCall env' pos f' args values = prepareCall env pos f args values := by
  obtain ⟨hname, hparams, -⟩ := Function.mk.inj hheader
  unfold prepareCall
  rw [hconfig, hname, hparams]

theorem finishCall_congr (hheader : f'.header = f.header) (pos : Position) (flow : Flow) :
    finishCall pos f' flow = finishCall pos f flow := by
  obtain ⟨hname, -, hret, -, hpos⟩ := Function.mk.inj hheader
  unfold finishCall
  rw [hname, hret, hpos]

/-- Of a function that is called, the header and what its body does matter. -/
theorem matches_callWith (hconfig : env'.config = env.config) (hheader : f'.header = f.header)
    (pos : Position) (args : List Expr) (values : List Value) {body : Exec Flow}
    {body' : Nat → Exec Flow} (hbody : Matches body body') :
    Matches (callWith env pos f args values body)
      (fun fuel => callWith env' pos f' args values (body' fuel)) := by
  unfold callWith
  rw [prepareCall_congr hconfig hheader]
  apply Matches.bind (matches_prepareCall env pos f args values)
  intro params
  have hframe : (Frame.call f' params).header = (Frame.call f params).header := by
    show Frame.mk (some f'.header) [params] = Frame.mk (some f.header) [params]
    rw [hheader]
  apply Matches.bind (.inFrame hframe (.bind .emit (fun _ => hbody)))
  intro flow
  rw [finishCall_congr hheader]
  exact matches_finishCall pos f flow

end

end WordLang
