import WordLang.Proofs.Frames
import WordLang.Proofs.Inheritance
import WordLang.Proofs.Passage

/-! # The single steps of a run

    All that a run ever does to a machine is of five kinds: it records an
    event, changes the scopes of the current frame, changes the store,
    enters a call or leaves one.  Events that tell a depth tell that of the
    moment, and a call is entered only below the limit.

    An invariant of all runs is thus a matter of five cases.  Two are drawn
    from it here: events are only ever added, and the number of active
    calls stays within the limit. -/

namespace WordLang

open Exec

/-! ## Section 1: Steps -/

/-- The number of active calls that an event tells. -/
def Event.depth? : Event → Option Nat
  | .statement _ depth | .call _ depth | .panic _ _ depth => some depth
  | .ret _ _ | .topLevelReturn _ => none

/-- What a single change of a run is, with this limit on active calls. -/
inductive Step (limit : Nat) : Machine → Machine → Prop where
  | record (m : Machine) (e : Event) (now : ∀ d, e.depth? = some d → d = m.depth) :
      Step limit m (m.emit e)
  | scopes (m : Machine) (f : List (NameMap Value) → List (NameMap Value)) :
      Step limit m (m.mapScopes f)
  | store (m : Machine) (s : Store) : Step limit m { m with store := s }
  | enter (m : Machine) (frame : Frame) (below : m.depth < limit) :
      Step limit m (m.pushFrame frame)
  | leave (m : Machine) : Step limit m m.popFrame

theorem step_modifyCell (limit : Nat) (m : Machine) (c : Machine.Cell) (name : String)
    (f : Value → Value) : Step limit m (m.modifyCell c name f) := by
  cases c with
  | scope index => exact .scopes m _
  | static function => exact .store m _
  | global => exact .store m _

/-! ## Section 2: Computations that change nothing -/

/-- Gives an answer at once, and leaves the machine alone. -/
def Still {α : Type} (x : Exec α) : Prop :=
  ∀ m, Ensures (fun _ _ => False) (fun _ m' => m' = m) (fun _ m' => m' = m) x m ∧
    (x m).outcome ≠ .outOfFuel

namespace Still

variable {α β : Type} {x : Exec α}

theorem pure {a : α} : Still (Pure.pure a : Exec α) := fun _ => ⟨.pure rfl, nofun⟩

theorem fail {pos : Position} {cause : RuntimeCause} : Still (Exec.fail pos cause : Exec α) :=
  fun _ => ⟨.fail rfl, nofun⟩

theorem reads {f : Machine → α} : Still (Exec.reads f) := fun _ => ⟨.reads rfl, nofun⟩

theorem bind {f : α → Exec β} (h : Still x) (hf : ∀ a, Still (f a)) : Still (x >>= f) := by
  intro m
  obtain ⟨hx, hanswer⟩ := h m
  constructor
  · refine .bind (hx.mono (fun _ _ hpq => hpq) (fun a m' hm' => ?_) (fun _ _ hm' => hm'))
    rw [hm']
    exact (hf a m).1
  · rw [outcome_bind]
    cases houtcome : (x m).outcome with
    | done a m' => exact (hf a m').2
    | fault e m' => exact nofun
    | outOfFuel => exact absurd houtcome hanswer

/-- The answer is a result or a failure, with the machine that was there before. -/
theorem answer (h : Still x) (m : Machine) :
    (∃ a, (x m).outcome = .done a m) ∨ ∃ e, (x m).outcome = .fault e m := by
  obtain ⟨hx, hanswer⟩ := h m
  cases houtcome : (x m).outcome with
  | done a m' =>
    obtain rfl := hx.done houtcome
    exact .inl ⟨a, rfl⟩
  | fault e m' =>
    obtain rfl := hx.fault houtcome
    exact .inr ⟨e, rfl⟩
  | outOfFuel => exact absurd houtcome hanswer

theorem eq_of_done {a : α} {m m' : Machine} (h : Still x) (hx : (x m).outcome = .done a m') :
    m' = m := (h m).1.done hx

/-- A state is related to itself by whatever composed computations inherit. -/
theorem moves {R : Machine → Machine → Prop} [Composes R] (h : Still x) : Moves R x := by
  intro m
  refine (h m).1.mono (fun _ _ hpq => hpq.elim) (fun _ m' hm' => ?_) (fun _ m' hm' => ?_)
  · rw [hm']
    exact Composes.refl m
  · rw [hm']
    exact Composes.refl m

end Still

theorem still_scalar (pos : Position) (v : Value) : Still (scalar pos v) := by
  cases v with
  | scalar w n => exact .pure
  | array element items => exact .fail

theorem still_wordOf (pos : Position) (w : Width) (v : Value) : Still (wordOf pos w v) := by
  refine .bind (still_scalar pos v) (fun word => ?_)
  obtain ⟨found, n⟩ := word
  dsimp only
  split
  · exact .pure
  · exact .fail

theorem still_expectType (pos : Position) (ty : Ty) (v : Value) : Still (expectType pos ty v) := by
  unfold expectType
  split
  · exact .pure
  · exact .fail

theorem still_literal (pos : Position) (value : Nat) (w : Width) :
    Still (literal pos value w) := by
  unfold literal
  split
  · exact .pure
  · exact .fail

theorem still_applyOp (pos : Position) (symbol : String) (op : BinOp) (w : Width) (a b : Nat)
    (policy : Overflow) : Still (applyOp pos symbol op w a b policy) := by
  unfold applyOp
  split
  · exact .pure
  · exact .fail
  · exact .fail

theorem still_read (pos : Position) (name : String) : Still (read pos name) := by
  refine .bind .reads (fun found => ?_)
  cases found with
  | none => exact .fail
  | some v => exact .pure

theorem still_readElement (pos : Position) (array : String) (i : Nat) :
    Still (readElement pos array i) := by
  refine .bind (still_read pos array) (fun v => ?_)
  cases v with
  | scalar w n => exact .fail
  | array element items =>
    dsimp only
    split
    · exact .pure
    · exact .fail

theorem still_target (pos : Position) (name : String) (index : Option Nat) :
    Still (target pos name index) := by
  cases index with
  | none => exact .bind (still_read _ _) (fun _ => .pure)
  | some i => exact .bind (still_readElement _ _ _) (fun _ => .pure)

theorem still_bindParams (scope : NameMap Value) (ps : List Param) (poss : List Position)
    (vs : List Value) : Still (bindParams scope ps poss vs) := by
  fun_induction bindParams scope ps poss vs with
  | case1 scope p ps pos poss v vs ih => exact .bind (still_expectType _ _ _) (fun _ => ih)
  | case2 ps scope poss vs hnil => exact .pure

theorem still_prepareCall (env : Env) (pos : Position) (f : Function) (args : List Expr)
    (values : List Value) : Still (prepareCall env pos f args values) := by
  unfold prepareCall
  split
  · exact .fail
  · refine .bind (still_bindParams _ _ _ _) (fun _ => .bind .reads (fun _ => ?_))
    split
    · exact .fail
    · exact .pure

/-- A call is made only below the limit. -/
theorem depth_lt_of_prepareCall {env : Env} {pos : Position} {f : Function} {args : List Expr}
    {values : List Value} {params : NameMap Value} {m m' : Machine}
    (h : (prepareCall env pos f args values m).outcome = .done params m') :
    m.depth < env.config.maxDepth := by
  unfold prepareCall at h
  split at h
  · cases h
  · rcases (still_bindParams .empty f.params (args.map Expr.pos) values).answer m with
      ⟨bound, hbound⟩ | ⟨e, he⟩
    · rw [outcome_bind_done hbound, outcome_bind_done (a := m.depth) rfl] at h
      split at h
      · cases h
      · next hlimit => exact Nat.lt_of_not_le hlimit
    · rw [outcome_bind_fault he] at h
      cases h

/-! ## Section 3: Computations made of steps -/

/-- Every change is a step, and an invariant of steps holds on the whole way. -/
def Walks {α : Type} (limit : Nat) (I : Machine → Prop) (x : Exec α) : Prop :=
  ∀ m, I m → Ensures (fun p q => Step limit p q ∧ I p ∧ I q) (fun _ => I) (fun _ => I) x m

/-- What no step breaks. -/
def Steady (limit : Nat) (I : Machine → Prop) : Prop := ∀ p q, Step limit p q → I p → I q

namespace Walks

variable {α β : Type} {limit : Nat} {I : Machine → Prop} {x : Exec α}

theorem pure {a : α} : Walks limit I (Pure.pure a : Exec α) := fun _ hm => .pure hm

theorem fail {pos : Position} {cause : RuntimeCause} :
    Walks limit I (Exec.fail pos cause : Exec α) := fun _ hm => .fail hm

theorem outOfFuel : Walks limit I (Exec.outOfFuel : Exec α) := fun _ _ => .outOfFuel

theorem of_still (h : Still x) : Walks limit I x := by
  intro m hm
  exact (h m).1.mono (fun _ _ hpq => hpq.elim) (fun _ _ hm' => hm' ▸ hm) (fun _ _ hm' => hm' ▸ hm)

theorem modify (hI : Steady limit I) {f : Machine → Machine} (h : ∀ m, Step limit m (f m)) :
    Walks limit I (Exec.modify f) := by
  intro m hm
  have hafter := hI m (f m) (h m) hm
  exact .modify ⟨h m, hm, hafter⟩ hafter

theorem bind {f : α → Exec β} (h : Walks limit I x) (hf : ∀ a, Walks limit I (f a)) :
    Walks limit I (x >>= f) := by
  intro m hm
  exact .bind ((h m hm).mono (fun _ _ hpq => hpq) (fun a m' hm' => hf a m' hm')
    (fun _ _ he => he))

theorem within (hI : Steady limit I) {enter leave : Machine → Machine} {m : Machine} (hm : I m)
    (henter : Step limit m (enter m)) (hleave : ∀ p, Step limit p (leave p))
    (h : Walks limit I x) :
    Ensures (fun p q => Step limit p q ∧ I p ∧ I q) (fun _ => I) (fun _ => I)
      (Exec.within enter leave x) m := by
  have hinside := hI m (enter m) henter hm
  refine .within ⟨henter, hm, hinside⟩ ((h _ hinside).mono (fun _ _ hpq => hpq) ?_ ?_)
  · intro a p hp
    have hafter := hI p (leave p) (hleave p) hp
    exact ⟨⟨hleave p, hp, hafter⟩, hafter⟩
  · intro e p hp
    have hafter := hI p (leave p) (hleave p) hp
    exact ⟨⟨hleave p, hp, hafter⟩, hafter⟩

theorem inScope (hI : Steady limit I) (scope : NameMap Value) (h : Walks limit I x) :
    Walks limit I (Exec.inScope scope x) :=
  fun m hm => Walks.within hI hm (.scopes m _) (fun p => .scopes p _) h

end Walks

section

variable {limit : Nat} {I : Machine → Prop}

theorem walks_emit (hI : Steady limit I) {e : Machine → Event}
    (h : ∀ m d, (e m).depth? = some d → d = m.depth) :
    Walks limit I (modify fun m => m.emit (e m)) :=
  .modify hI (fun m => .record m (e m) (h m))

/-- An event that tells no depth may be recorded at any time. -/
theorem walks_emit_undated (hI : Steady limit I) {e : Event} (h : e.depth? = none) :
    Walks limit I (modify fun m => m.emit e) := by
  apply walks_emit hI
  intro m d hd
  rw [h] at hd
  cases hd

theorem walks_runPanic (hI : Steady limit I) (pos : Position) : Walks limit I (runPanic pos) := by
  refine .bind (.of_still .reads) (fun function => .bind (walks_emit hI ?_) (fun _ => .fail))
  intro m d hd
  exact (Option.some.inj hd).symm

theorem walks_finishCall (hI : Steady limit I) (pos : Position) (f : Function) (flow : Flow) :
    Walks limit I (finishCall pos f flow) := by
  have hret : ∀ v, Walks limit I (modify fun m => m.emit (.ret f.name v)) :=
    fun v => walks_emit_undated hI rfl
  unfold finishCall
  split
  · exact .bind (hret _) (fun _ => .pure)
  · exact .bind (.of_still (still_expectType _ _ _)) (fun _ => .bind (hret _) (fun _ => .pure))
  · exact .fail

theorem walks_update (hI : Steady limit I) (pos : Position) (name : String) (f : Value → Value) :
    Walks limit I (update pos name f) := by
  refine .bind (.of_still .reads) (fun found => ?_)
  cases found with
  | error cause => exact .fail
  | ok c => exact .modify hI (fun m => step_modifyCell limit m c name f)

end

/-- A call from its arguments on: its frame comes only after the limit has been looked at. -/
theorem walks_callWith {env : Env} {I : Machine → Prop} (hI : Steady env.config.maxDepth I)
    (pos : Position) (f : Function) (args : List Expr) (values : List Value) {body : Exec Flow}
    (hbody : Walks env.config.maxDepth I body) :
    Walks env.config.maxDepth I (callWith env pos f args values body) := by
  have hinside : Walks env.config.maxDepth I
      (modify (fun m => m.emit (.call f.name m.depth)) >>= fun _ => body) := by
    refine .bind (walks_emit hI ?_) (fun _ => hbody)
    intro m d hd
    exact (Option.some.inj hd).symm
  have hready := still_prepareCall env pos f args values
  intro m hm
  refine .bind ⟨fun p q hpq => ((hready m).1.changes p q hpq).elim, ?_⟩
  rcases hready.answer m with ⟨params, hdone⟩ | ⟨e, he⟩
  · rw [hdone]
    have hcalled : Ensures _ _ _ (inFrame (.call f params) _) m :=
      Walks.within hI hm (.enter m _ (depth_lt_of_prepareCall hdone)) (fun p => .leave p) hinside
    exact .bind (hcalled.mono (fun _ _ hpq => hpq)
      (fun flow m' hm' => walks_finishCall hI pos f flow m' hm') (fun _ _ he => he))
  · rw [he]
    exact hm

/-! ## Section 4: Runs are made of steps -/

/-- A computation is made of steps if its parts are. -/
theorem inherited_walks {env : Env} {I : Machine → Prop} (hI : Steady env.config.maxDepth I) :
    Inherited env (fun _ {_} x => Walks env.config.maxDepth I x) where
  pure _ := .pure
  fail _ _ _ := .fail
  outOfFuel := .outOfFuel
  reads _ _ := .of_still .reads
  bind := .bind
  declare _ _ := .modify hI (fun m => .scopes m _)
  update := walks_update hI
  inScope scope _ h := h.inScope hI scope
  enterStatement _ := walks_emit hI (fun _ _ hd => (Option.some.inj hd).symm)
  runPanic := walks_runPanic hI
  callWith {_ _ f} pos args values {_} _ hbody := walks_callWith hI pos f args values hbody

theorem walks_runTopLevel {env : Env} {I : Machine → Prop} (hI : Steady env.config.maxDepth I)
    (fuel : Nat) (ss : List Statement) :
    Walks env.config.maxDepth I (runTopLevel env fuel ss) :=
  (inherited_walks hI).runTopLevel (fun _ => walks_emit_undated hI rfl) fuel ss

/-! ## Section 5: Events are only added -/

/-- The events of the first state are the earlier ones of the second. -/
def Extends (m m' : Machine) : Prop := m.events <:+ m'.events

instance : Composes Extends := ⟨fun m => List.suffix_refl m.events, List.IsSuffix.trans⟩

theorem Step.extends {limit : Nat} {m m' : Machine} (h : Step limit m m') : Extends m m' := by
  cases h with
  | record e now => exact List.suffix_cons e m.events
  | scopes f =>
    have hsame : (m.mapScopes f).events = m.events := m.events_mapScopes f
    exact ⟨[], hsame.symm⟩
  | store s => exact List.suffix_refl _
  | enter frame below => exact List.suffix_refl _
  | leave => exact List.suffix_refl _

namespace Program

/-- An execution that comes through a state ends with the events of that state and later ones. -/
theorem extends_of_through {p : Program} {env : Env} {fuel : Nat} {m q m' : Machine}
    (h : (p.execution env fuel m).Through q)
    (hend : (p.execute env fuel m).machine? = some m') : Extends q m' := by
  have hsteady : Steady env.config.maxDepth (fun _ => True) := fun _ _ _ _ => trivial
  have hwalks := walks_runTopLevel hsteady fuel p.statements m trivial
  refine (h.onward m' hend).moved (fun a b hab => ?_)
  exact (hwalks.changes a b hab).1.extends

end Program

/-! ## Section 6: Active calls stay within the limit -/

/-- No more calls than the limit are active, and none of those recorded went beyond it. -/
structure Machine.WithinDepth (limit : Nat) (m : Machine) : Prop where
  active : m.depth ≤ limit
  recorded : ∀ function depth, .call function depth ∈ m.events → depth ≤ limit

theorem Machine.withinDepth_initial (limit : Nat) (store : Store) :
    (initial store).WithinDepth limit :=
  ⟨Nat.zero_le limit, fun _ _ h => absurd h List.not_mem_nil⟩

theorem steady_withinDepth (limit : Nat) : Steady limit (Machine.WithinDepth limit) := by
  intro m m' hstep h
  obtain ⟨hactive, hrecorded⟩ := h
  cases hstep with
  | record e now =>
    refine ⟨hactive, ?_⟩
    intro function depth hmem
    rcases List.mem_cons.mp hmem with heq | hmem
    · have hdepth : depth = m.depth := now depth (by rw [← heq]; rfl)
      omega
    · exact hrecorded function depth hmem
  | scopes f =>
    refine ⟨?_, ?_⟩
    · simpa [Machine.depth] using hactive
    · intro function depth hmem
      rw [m.events_mapScopes] at hmem
      exact hrecorded function depth hmem
  | store s => exact ⟨hactive, hrecorded⟩
  | enter frame below =>
    refine ⟨?_, hrecorded⟩
    have hbefore : m.depth = m.frames.length - 1 := rfl
    have hafter : (m.pushFrame frame).depth = m.frames.length := rfl
    omega
  | leave =>
    refine ⟨?_, hrecorded⟩
    have hbefore : m.depth = m.frames.length - 1 := rfl
    have hafter : m.popFrame.depth = m.frames.length - 1 - 1 := by
      simp [Machine.depth, Machine.popFrame]
    omega

end WordLang
