import WordLang.Proofs.ControlFlow
import WordLang.Proofs.Panics
import WordLang.Proofs.Slots

/-! # Where a value is missing

    A function with a return type may run to the end of its body.  The call
    then fails, and as no construct catches a failure, so does the whole
    computation: it fails in this way exactly if one of its calls has come to
    the end of such a body (`MissesExactly`).  This is inherited from the
    parts of a computation.

    In a program that was read from a text the body of a function ends
    without a value just if no `return` was executed in it. -/

namespace WordLang

open Exec

variable {α β : Type}

/-! ## Section 1: The calls that a computation makes -/

/-- The execution comes to a call of the function, whose body begins in this state. -/
def Execution.Begins {start : Machine} (ex : Execution α start) (f : Function) (q : Machine) :
    Prop :=
  ∃ p params, ex.changes p q ∧ q = p.emit (.call f.name p.depth) ∧
    p.frame? = some (.call f params)

section

variable {x : Exec α} {m q : Machine} {f : Function}

/-- A change that records nothing begins no call. -/
theorem not_begins_of_silent {g : Machine → Machine} (h : ∀ m, (g m).events = m.events) :
    ¬ (modify g m).Begins f q := by
  rintro ⟨p, params, ⟨rfl, rfl⟩, hcall, -⟩
  exact emit_ne_of_silent _ (h p) hcall.symm

theorem not_begins_emit {e : Machine → Event} (h : ∀ m name depth, e m ≠ .call name depth) :
    ¬ (modify (fun m => m.emit (e m)) m).Begins f q := by
  rintro ⟨p, params, ⟨rfl, rfl⟩, hcall, -⟩
  exact h p _ _ (List.cons.inj (congrArg Machine.events hcall)).1

theorem Still.not_begins (h : Still x) : ¬ (x m).Begins f q := by
  rintro ⟨p, params, hchange, -⟩
  exact ((h m).1.changes _ _ hchange).elim

theorem begins_bind {k : α → Exec β} :
    ((x >>= k) m).Begins f q ↔
      (x m).Begins f q ∨ ∃ a m', (x m).outcome = .done a m' ∧ (k a m').Begins f q := by
  unfold Execution.Begins
  simp only [changes_bind]
  grind

/-- Opening and closing a scope or a frame begins no call. -/
theorem begins_within {enter leave : Machine → Machine} (henter : ∀ m, (enter m).events = m.events)
    (hleave : ∀ m, (leave m).events = m.events) :
    (within enter leave x m).Begins f q ↔ (x (enter m)).Begins f q := by
  constructor
  · rintro ⟨p, params, ⟨rfl, rfl⟩ | hinside | ⟨-, rfl⟩, hcall, hframe⟩
    · exact absurd hcall.symm (emit_ne_of_silent _ (henter p))
    · exact ⟨p, params, hinside, hcall, hframe⟩
    · exact absurd hcall.symm (emit_ne_of_silent _ (hleave p))
  · rintro ⟨p, params, hinside, hcall⟩
    exact ⟨p, params, .inr (.inl hinside), hcall⟩

end

/-! ## Section 2: Values that are missing -/

/-- The body of a function with a return type ends from this state on, but returns no value. -/
def EndsWithoutValue (env : Env) (f : Function) (q : Machine) : Prop :=
  f.ret ≠ none ∧ ∃ flow m', ComesTo (fun fuel => runBlock env fuel f.body) q (.done flow m') ∧
    ∀ v, flow ≠ .returned (some v)

/-- One of the functions that can be called. -/
def Env.Declares (env : Env) (f : Function) : Prop := ∃ name, env.functions.get? name = some f

/-- The execution comes to a call that is blamed like this for the value it does not return. -/
def Execution.Misses (env : Env) {start : Machine} (ex : Execution α start) (pos : Position)
    (name : String) : Prop :=
  ∃ f q, env.Declares f ∧ ex.Begins f q ∧ EndsWithoutValue env f q ∧ f.pos = pos ∧ f.name = name

/-- A computation that is over has failed for want of a value just if one of its calls has returned
    none. -/
def MissesExactly (env : Env) (x : Exec α) : Prop :=
  ∀ m, (x m).outcome ≠ .outOfFuel → ∀ pos name,
    (x m).outcome.failure? = some ⟨pos, .missingReturn name⟩ ↔ (x m).Misses env pos name

namespace MissesExactly

variable {env : Env} {x : Exec α}

/-- A computation that neither begins a call nor fails like that. -/
theorem of_none (hbegins : ∀ m f q, ¬ (x m).Begins f q)
    (hfails : ∀ m, Ensures (fun _ _ => True) (fun _ _ => True)
      (fun e _ => ∀ name, e.item ≠ .missingReturn name) x m) : MissesExactly env x := by
  intro m _ pos name
  refine iff_of_false (fun hfailure => ?_) ?_
  · cases hrun : (x m).outcome with
    | fault e m' =>
      rw [hrun] at hfailure
      cases hfailure
      exact (hfails m).fault hrun name rfl
    | _ =>
      rw [hrun] at hfailure
      cases hfailure
  · rintro ⟨f, q, -, hcall, -⟩
    exact hbegins m f q hcall

theorem pure (a : α) : MissesExactly env (Pure.pure a : Exec α) :=
  of_none (fun _ _ _ => Still.pure.not_begins) (fun _ => .pure trivial)

theorem reads (f : Machine → α) : MissesExactly env (Exec.reads f) :=
  of_none (fun _ _ _ => Still.reads.not_begins) (fun _ => .reads trivial)

theorem outOfFuel : MissesExactly env (Exec.outOfFuel : Exec α) := fun _ h => absurd rfl h

theorem fail (pos : Position) {cause : RuntimeCause} (h : ∀ name, cause ≠ .missingReturn name) :
    MissesExactly env (Exec.fail pos cause : Exec α) :=
  of_none (fun _ _ _ => Still.fail.not_begins) (fun _ => .fail h)

theorem modify {g : Machine → Machine} (h : ∀ m, (g m).events = m.events) :
    MissesExactly env (Exec.modify g) :=
  of_none (fun _ _ _ => not_begins_of_silent h) (fun _ => .modify trivial trivial)

theorem emit {e : Machine → Event} (h : ∀ m name depth, e m ≠ .call name depth) :
    MissesExactly env (Exec.modify fun m => m.emit (e m)) :=
  of_none (fun _ _ _ => not_begins_emit h) (fun _ => .modify trivial trivial)

theorem bind {k : α → Exec β} (h : MissesExactly env x) (hk : ∀ a, MissesExactly env (k a)) :
    MissesExactly env (x >>= k) := by
  intro m hm pos name
  have hmisses : ((x >>= k) m).Misses env pos name ↔ (x m).Misses env pos name ∨
      ∃ a m', (x m).outcome = .done a m' ∧ (k a m').Misses env pos name := by
    unfold Execution.Misses
    simp only [begins_bind]
    grind
  have hx : (x m).outcome ≠ .outOfFuel := fun hx => hm (outcome_bind_outOfFuel hx)
  rw [hmisses, ← h m hx pos name]
  cases houtcome : (x m).outcome with
  | outOfFuel => exact absurd houtcome hx
  | fault e m' => simp [outcome_bind_fault houtcome, Outcome.failure?]
  | done a m' =>
    rw [outcome_bind_done houtcome] at hm ⊢
    rw [hk a m' hm pos name]
    simp [Outcome.failure?, and_assoc]

theorem within {enter leave : Machine → Machine} (henter : ∀ m, (enter m).events = m.events)
    (hleave : ∀ m, (leave m).events = m.events) (h : MissesExactly env x) :
    MissesExactly env (Exec.within enter leave x) := by
  intro m hm pos name
  have hinner : (x (enter m)).outcome ≠ .outOfFuel := by
    intro hx
    apply hm
    show (x (enter m)).outcome.mapMachine leave = _
    rw [hx]
    rfl
  have hfailure : (Exec.within enter leave x m).outcome.failure? =
      (x (enter m)).outcome.failure? := by
    show ((x (enter m)).outcome.mapMachine leave).failure? = _
    cases (x (enter m)).outcome <;> rfl
  rw [hfailure, h _ hinner pos name]
  unfold Execution.Misses
  simp only [begins_within henter hleave]

theorem inScope (scope : NameMap Value) (h : MissesExactly env x) :
    MissesExactly env (inScope scope x) :=
  h.within (fun m => m.events_mapScopes _) (fun m => m.events_mapScopes _)

end MissesExactly

/-! ## Section 3: Calls -/

/-- The state in which the body of a call begins. -/
def Machine.beginCall (m : Machine) (f : Function) (params : NameMap Value) : Machine :=
  (m.pushFrame (.call f params)).emit (.call f.name (m.pushFrame (.call f params)).depth)

/-- The body of a call in its frame. -/
def called (f : Function) (params : NameMap Value) (body : Exec Flow) : Exec Flow :=
  inFrame (.call f params) (do
    modify (fun m => m.emit (.call f.name m.depth))
    body)

section

variable {env : Env} {f f' : Function} {params : NameMap Value} {body : Exec Flow} {m q : Machine}

variable (f params body m) in
theorem outcome_called :
    (called f params body m).outcome =
      (body (m.beginCall f params)).outcome.mapMachine Machine.popFrame := by
  show Outcome.mapMachine Machine.popFrame (Execution.outcome ((modify _ >>= fun _ => body) _)) = _
  rw [outcome_bind_done (a := ()) rfl]
  rfl

/-- A call begins its body, in which there may be other calls. -/
theorem begins_called :
    (called f params body m).Begins f' q ↔
      f' = f ∧ q = m.beginCall f params ∨ (body (m.beginCall f params)).Begins f' q := by
  have henter : ∀ m : Machine, (m.pushFrame (.call f params)).events = m.events := fun _ => rfl
  have hleave : ∀ m : Machine, m.popFrame.events = m.events := fun _ => rfl
  refine (begins_within henter hleave).trans (begins_bind.trans (or_congr ?_ ?_))
  · constructor
    · rintro ⟨p, params', ⟨rfl, rfl⟩, -, hframe⟩
      cases hframe
      exact ⟨rfl, rfl⟩
    · rintro ⟨rfl, rfl⟩
      exact ⟨_, params, ⟨rfl, rfl⟩, rfl, rfl⟩
  · constructor
    · rintro ⟨_, _, hdone, hbegins⟩
      cases hdone
      exact hbegins
    · exact fun hbegins => ⟨(), _, rfl, hbegins⟩

/-- Records the end of a call. -/
def recordReturn (f : Function) (value : Option Value) : Exec (Option Value) := do
  modify (fun m => m.emit (.ret f.name value))
  return value

/-- The three ways in which a call can end after its body. -/
theorem finishCall_cases (pos : Position) (f : Function) (flow : Flow) :
    f.ret = none ∧ finishCall pos f flow = recordReturn f none ∨
    (∃ ty v, flow = .returned (some v) ∧
      finishCall pos f flow = expectType pos ty v >>= fun _ => recordReturn f (some v)) ∨
    (f.ret ≠ none ∧ ∀ v, flow ≠ .returned (some v)) ∧
      finishCall pos f flow = fail f.pos (.missingReturn f.name) := by
  unfold finishCall
  split
  · next hret => exact .inl ⟨hret, rfl⟩
  · next ty v hret => exact .inr (.inl ⟨ty, v, rfl, rfl⟩)
  · next hret hnone =>
    refine .inr (.inr ⟨⟨?_, hnone⟩, rfl⟩)
    rw [hret]
    exact Option.some_ne_none _

theorem not_begins_recordReturn {value : Option Value} :
    ¬ (recordReturn f value m).Begins f' q := by
  intro hbegins
  rcases begins_bind.mp hbegins with hemit | ⟨_, _, _, hpure⟩
  · exact not_begins_emit (e := fun _ => .ret f.name value) (fun _ _ _ => nofun) hemit
  · exact Still.pure.not_begins hpure

/-- What is recorded at the end of a call begins no other. -/
theorem not_begins_finishCall {pos : Position} {flow : Flow} :
    ¬ (finishCall pos f flow m).Begins f' q := by
  intro hbegins
  obtain ⟨-, heq⟩ | ⟨ty, v, -, heq⟩ | ⟨-, heq⟩ := finishCall_cases pos f flow
  · rw [heq] at hbegins
    exact not_begins_recordReturn hbegins
  · rw [heq] at hbegins
    rcases begins_bind.mp hbegins with hexpect | ⟨_, m', _, hrest⟩
    · exact (still_expectType pos ty v).not_begins hexpect
    · exact not_begins_recordReturn hrest
  · rw [heq] at hbegins
    exact Still.fail.not_begins hbegins

/-- The end of a call that has to give a value fails without one. -/
theorem failure?_finishCall {pos blame : Position} {flow : Flow} {name : String} :
    (finishCall pos f flow m).outcome.failure? = some ⟨blame, .missingReturn name⟩ ↔
      (f.ret ≠ none ∧ ∀ v, flow ≠ .returned (some v)) ∧ f.pos = blame ∧ f.name = name := by
  obtain ⟨hret, heq⟩ | ⟨ty, v, hflow, heq⟩ | ⟨hmissing, heq⟩ := finishCall_cases pos f flow
  · rw [heq]
    exact iff_of_false nofun (fun h => h.1.1 hret)
  · rw [heq]
    refine iff_of_false ?_ (fun h => h.1.2 v hflow)
    unfold expectType
    split
    · exact nofun
    · exact nofun
  · rw [heq]
    refine ⟨fun h => ?_, fun ⟨_, hpos, hname⟩ => ?_⟩
    · cases h
      exact ⟨hmissing, rfl, rfl⟩
    · rw [← hpos, ← hname]
      rfl

theorem MissesExactly.called {fuel : Nat} (hf : env.Declares f)
    (hbody : MissesExactly env (runBlock env fuel f.body)) (pos : Position)
    (params : NameMap Value) :
    MissesExactly env (called f params (runBlock env fuel f.body) >>= finishCall pos f) := by
  intro m hm blame name
  -- a call that misses its value is this one or one within its body
  have hmisses : ((WordLang.called f params (runBlock env fuel f.body) >>=
      finishCall pos f) m).Misses env blame name ↔
        (EndsWithoutValue env f (m.beginCall f params) ∧ f.pos = blame ∧ f.name = name) ∨
          (runBlock env fuel f.body (m.beginCall f params)).Misses env blame name := by
    unfold Execution.Misses
    simp only [begins_bind, begins_called, not_begins_finishCall, and_false, exists_false, or_false]
    grind
  have hcalled := outcome_called f params (runBlock env fuel f.body) m
  rw [hmisses]
  cases hrun : (runBlock env fuel f.body (m.beginCall f params)).outcome with
  | outOfFuel =>
    rw [hrun] at hcalled
    exact absurd (outcome_bind_outOfFuel hcalled) hm
  | fault e m' =>
    rw [hrun] at hcalled
    have hcomes := comesTo_of_outcome (fun fuel => lasts_runBlock env fuel f.body) hrun nofun
    have hends : ¬ EndsWithoutValue env f (m.beginCall f params) := by
      rintro ⟨-, flow, m'', hdone, -⟩
      cases hcomes.unique hdone
    have hinner := hbody (m.beginCall f params) (by rw [hrun]; exact nofun) blame name
    rw [hrun] at hinner
    rw [outcome_bind_fault hcalled, ← hinner]
    simp only [hends, false_and, false_or]
    exact Iff.rfl
  | done flow m' =>
    rw [hrun] at hcalled
    have hcomes := comesTo_of_done (fun fuel => lasts_runBlock env fuel f.body) hrun
    have hends : EndsWithoutValue env f (m.beginCall f params) ↔
        f.ret ≠ none ∧ ∀ v, flow ≠ .returned (some v) := by
      refine and_congr_right (fun _ => ⟨?_, fun h => ⟨flow, m', hcomes, h⟩⟩)
      rintro ⟨flow', m'', hdone, hnone⟩
      cases hcomes.unique hdone
      exact hnone
    have hinner := hbody (m.beginCall f params) (by rw [hrun]; exact nofun) blame name
    rw [hrun] at hinner
    rw [outcome_bind_done hcalled, failure?_finishCall, hends, ← hinner]
    simp [Outcome.failure?]

end

/-! ## Section 4: All parts of the semantics -/

theorem RuntimeCause.ne_missingReturn_of_isOrdinary {cause : RuntimeCause}
    (h : cause.isOrdinary = true) (name : String) : cause ≠ .missingReturn name := by
  rintro rfl
  cases h

theorem missesExactly_prepareCall (env : Env) (pos : Position) (f : Function) (args : List Expr)
    (values : List Value) : MissesExactly env (prepareCall env pos f args values) := by
  refine .of_none (fun _ _ _ => (still_prepareCall env pos f args values).not_begins) ?_
  intro m
  exact (ensures_prepareCall_still env pos f args values m).mono (fun _ _ _ => trivial)
    (fun _ _ _ => trivial) (fun _ _ he => RuntimeCause.ne_missingReturn_of_isOrdinary he.2)

theorem missesExactly_update (env : Env) (pos : Position) (name : String) (f : Value → Value) :
    MissesExactly env (update pos name f) := by
  refine .of_none (fun m g q hbegins => ?_) (fun m => ?_)
  · rcases begins_bind.mp hbegins with hreads | ⟨found, m', -, hfound⟩
    · exact Still.reads.not_begins hreads
    · cases found with
      | error cause => exact Still.fail.not_begins hfound
      | ok c => exact not_begins_of_silent (fun m => m.events_modifyCell c name f) hfound
  · apply ensures_update pos name f
    · rintro cause hcause missing rfl
      -- only names are blamed when there is no cell
      cases Machine.isNameFault_of_cell hcause
    · exact fun _ _ => ⟨trivial, trivial⟩

/-- That all values which are missing are reported is inherited. -/
theorem inherited_missesExactly (env : Env) :
    Inherited env (fun _ {_} x => MissesExactly env x) where
  pure a := .pure a
  fail pos _ hcause := .fail pos (RuntimeCause.ne_missingReturn_of_isOrdinary hcause)
  outOfFuel := .outOfFuel
  reads f _ := .reads f
  bind := .bind
  declare _ _ := .modify (fun m => m.events_mapScopes _)
  update := missesExactly_update env
  inScope scope _ h := h.inScope scope
  enterStatement _ := .emit (fun _ _ _ => nofun)
  runPanic pos := by
    refine .bind (.reads _) (fun function => .bind ?_ (fun _ => .fail pos (fun _ => nofun)))
    exact .emit (fun _ _ _ => nofun)
  callWith {_ name f} pos args values {_} hf hbody :=
    .bind (missesExactly_prepareCall env pos f args values)
      (fun params => .called ⟨name, hf⟩ hbody pos params)

theorem missesExactly_runTopLevel (env : Env) (fuel : Nat) (ss : List Statement) :
    MissesExactly env (runTopLevel env fuel ss) := by
  apply (inherited_missesExactly env).runTopLevel
  intro _ pos
  apply MissesExactly.emit
  intro m name depth hcall
  cases hcall

/-! ## Section 5: Programs that were read from a text -/

/-- Well-formed code leaves a function as its return type says, or runs to its end. -/
theorem flow_of_body {env : Env} {fuel : Nat} {f : Function} {m m' : Machine} {flow : Flow}
    (hf : f.WellFormed) (h : (runBlock env fuel f.body m).outcome = .done flow m') :
    flow = .next ∨ (flow = .returned none ∧ f.ret = none) ∨
      ∃ v, flow = .returned (some v) ∧ f.ret ≠ none := by
  have hallowed := (allowed_runBlock env fuel hf.2.2.2 m trivial).done h
  cases flow with
  | next => exact .inl rfl
  | broke => cases hallowed.2
  | continued => cases hallowed.2
  | returned value =>
    cases value with
    | none => exact .inr (.inl ⟨rfl, hallowed.2⟩)
    | some v => exact .inr (.inr ⟨v, rfl, hallowed.2⟩)

/-- A statement of the top level goes on, or ends the run without a value. -/
theorem flow_of_topLevel {env : Env} {fuel : Nat} {s : Statement} {m m' : Machine} {flow : Flow}
    (hs : s.WellFormed { inFunction := false, returns := none, inLoop := false })
    (h : (runStatement env fuel s m).outcome = .done flow m') :
    flow = .next ∨ flow = .returned none := by
  have hallowed := (allowed_runStatement env fuel hs m trivial).done h
  cases flow with
  | next => exact .inl rfl
  | broke => cases hallowed.2
  | continued => cases hallowed.2
  | returned value =>
    cases value with
    | none => exact .inr rfl
    | some v => exact absurd rfl hallowed.2

/-- A body that ends returns no value just if it executes no `return`. -/
theorem endsWithoutValue_iff {env : Env} {f : Function} {q : Machine} (hf : f.WellFormed) :
    EndsWithoutValue env f q ↔ f.ret ≠ none ∧
      (∃ flow m', ComesTo (fun fuel => runBlock env fuel f.body) q (.done flow m')) ∧
        ¬ ReturnsIn env f.body q := by
  refine and_congr_right (fun hret => ⟨?_, ?_⟩)
  · rintro ⟨flow, m', hruns, hnone⟩
    refine ⟨⟨flow, m', hruns⟩, fun hreturns => ?_⟩
    obtain ⟨enough, hrun⟩ := hruns
    obtain rfl | ⟨-, hvoid⟩ | ⟨v, rfl, -⟩ := flow_of_body hf (hrun enough (Nat.le_refl _))
    · exact hreturns.not_comesTo_next m' ⟨enough, hrun⟩
    · exact hret hvoid
    · exact hnone v rfl
  · rintro ⟨⟨flow, m', hruns⟩, hnone⟩
    refine ⟨flow, m', hruns, ?_⟩
    rintro v rfl
    obtain ⟨enough, hrun⟩ := hruns
    exact hnone ((returnsFound env enough).runBlock (hrun enough (Nat.le_refl _)))

namespace Program

/-- Code that runs in a frame of its own: the body of a function, or a statement of the top
    level. -/
def IsCode (p : Program) (ss : List Statement) : Prop :=
  (∃ f ∈ p.functions, ss = f.body) ∨ ∃ s ∈ p.statements, ss = [s]

theorem wellFormed_function {source : String} {p : Program} (h : parse source = .ok p)
    {f : Function} (hf : f ∈ p.functions) : f.WellFormed :=
  wellFormed_of_parse h _ (mem_functions_iff.mp hf)

/-- All code of a program that was read from a text is well-formed, and is not in a loop. -/
theorem IsCode.wellFormed {source : String} {p : Program} (h : parse source = .ok p)
    {ss : List Statement} (hss : p.IsCode ss) :
    ∃ ctx : Parser.Context, ctx.inLoop = false ∧ Statement.AllWellFormed ctx ss := by
  obtain ⟨f, hf, rfl⟩ | ⟨s, hs, rfl⟩ := hss
  · exact ⟨_, rfl, (wellFormed_function h hf).2.2.2⟩
  · exact ⟨_, rfl, wellFormed_statement h hs, trivial⟩

/-- Control flow stays inside its construct.  The body of a function never ends by a `break` or a
    `continue`, and returns a value just if it has to; a statement of the top level goes on or
    returns none.  An execution fails for want of a value exactly if a function with a return type
    has run to its end without executing a `return`.  A `break` ends the innermost loop around it
    in the code of the same frame, a `continue` goes on with the next round of that loop, and no
    loop lets either of them out. -/
theorem control_flow_contained {source : String} {p : Program} (h : parse source = .ok p)
    (config : Config) :
    let env := p.env config
    (∀ f ∈ p.functions, ∀ fuel m flow m', (runBlock env fuel f.body m).outcome = .done flow m' →
      flow = .next ∨ (flow = .returned none ∧ f.ret = none) ∨
        ∃ v, flow = .returned (some v) ∧ f.ret ≠ none) ∧
    (∀ s ∈ p.statements, ∀ fuel m flow m', (runStatement env fuel s m).outcome = .done flow m' →
      flow = .next ∨ flow = .returned none) ∧
    (∀ fuel m, p.execute env fuel m ≠ .outOfFuel → ∀ pos name,
      (p.execute env fuel m).failure? = some ⟨pos, .missingReturn name⟩ ↔
        ∃ f q, env.Declares f ∧ (p.execution env fuel m).Begins f q ∧
          f.pos = pos ∧ f.name = name ∧ f.ret ≠ none ∧
          (∃ flow m', ComesTo (fun fuel => runBlock env fuel f.body) q (.done flow m')) ∧
          ¬ ReturnsIn env f.body q) ∧
    (∀ ss, p.IsCode ss → JumpsContained env ss) ∧
    (∀ (l : Looping) fuel m flow m', (l.run env fuel m).outcome = .done flow m' →
      flow ≠ .broke ∧ flow ≠ .continued) := by
  intro env
  refine ⟨fun f hf fuel m flow m' => flow_of_body (wellFormed_function h hf),
    fun s hs fuel m flow m' => flow_of_topLevel (wellFormed_statement h hs), ?_, ?_, ?_⟩
  · intro fuel m hover pos name
    have hwf : ∀ {f}, env.Declares f → f.WellFormed := by
      rintro f ⟨key, hkey⟩
      exact wellFormed_function h (function_declared hkey).1
    refine (missesExactly_runTopLevel env fuel p.statements m hover pos name).trans ?_
    constructor
    · rintro ⟨f, q, hf, hbegins, hends, hpos, hname⟩
      exact ⟨f, q, hf, hbegins, hpos, hname, (endsWithoutValue_iff (hwf hf)).mp hends⟩
    · rintro ⟨f, q, hf, hbegins, hpos, hname, hends⟩
      exact ⟨f, q, hf, hbegins, (endsWithoutValue_iff (hwf hf)).mpr hends, hpos, hname⟩
  · intro ss hss
    obtain ⟨ctx, hctx, hwf⟩ := hss.wellFormed h
    exact jumpsContained hctx hwf
  · intro l fuel m flow m' hrun
    exact ((l.maintains_run env fuel m trivial).done hrun).2

/-- A text with a function that leaves its loop and forgets to return. -/
def forgetfulText : String := "fn f:u8 \x7bloop\x7bbreak\x7d\x7d\n(f)"

/-- The tokens of this text. -/
def forgetfulTokens : List (Located Token) :=
  [⟨⟨1, 1⟩, .keyword .fnWord⟩, ⟨⟨1, 4⟩, .ident "f"⟩, ⟨⟨1, 5⟩, .sign .colon⟩, ⟨⟨1, 6⟩, .uint 8⟩,
   ⟨⟨1, 9⟩, .sign .lbrace⟩, ⟨⟨1, 10⟩, .keyword .loopWord⟩, ⟨⟨1, 14⟩, .sign .lbrace⟩,
   ⟨⟨1, 15⟩, .keyword .breakWord⟩, ⟨⟨1, 20⟩, .sign .rbrace⟩, ⟨⟨1, 21⟩, .sign .rbrace⟩,
   ⟨⟨2, 1⟩, .sign .lparen⟩, ⟨⟨2, 2⟩, .ident "f"⟩, ⟨⟨2, 3⟩, .sign .rparen⟩, ⟨⟨3, 1⟩, .eof⟩]

/-- The function of this text. -/
def forgetfulFunction : Function :=
  ⟨"f", [], some (.uint .byte), [.loop ⟨1, 10⟩ [.breakLoop ⟨1, 15⟩]], ⟨1, 1⟩⟩

/-- The program of this text. -/
def forgetful : Program :=
  ⟨[.function forgetfulFunction, .statement (.expr ⟨2, 1⟩ (.call ⟨2, 1⟩ "f" []))]⟩

/-- Its run fails for want of a value, for the function has executed no `return`; its `break` has
    ended the loop and nothing else. -/
theorem control_flow_contained_forgetful :
    let env := forgetful.env .default
    let m := forgetful.start
    parse forgetfulText = .ok forgetful ∧
    (∃ q, (forgetful.execution env 9 m).Begins forgetfulFunction q ∧
      ¬ ReturnsIn env forgetfulFunction.body q) ∧
    ∃ s start m', ComesTo (fun fuel => runStatement env fuel s) start (.done .next m') ∧
      ∃ l m₁, InProgress env forgetfulFunction.body m s start l m₁ := by
  intro env m
  have htokens : tokenize forgetfulText = .ok forgetfulTokens := by
    have hsome : (tokenize forgetfulText).toOption = some forgetfulTokens := by decide +kernel
    cases htext : tokenize forgetfulText with
    | error e =>
      rw [htext] at hsome
      cases hsome
    | ok ts =>
      rw [htext] at hsome
      exact congrArg Except.ok (Option.some.inj hsome)
  have hparse : parse forgetfulText = .ok forgetful :=
    parse_eq_ok.mpr ⟨forgetfulTokens, htokens, rfl⟩
  obtain ⟨-, -, hmissing, hloops, -⟩ := control_flow_contained hparse .default
  refine ⟨hparse, ?_, ?_⟩
  · have hfails : (forgetful.execute env 9 m).failure? = some ⟨⟨1, 1⟩, .missingReturn "f"⟩ := rfl
    have hover : forgetful.execute env 9 m ≠ .outOfFuel := nofun
    obtain ⟨f, q, ⟨key, hf⟩, hbegins, -, -, -, -, hreturns⟩ := (hmissing 9 m hover _ _).mp hfails
    obtain rfl : f = forgetfulFunction := by
      have hmem := (function_declared hf).1
      exact List.mem_singleton.mp hmem
    exact ⟨q, hbegins, hreturns⟩
  · have hbreak : Executes env forgetfulFunction.body m _ (.breakLoop ⟨1, 15⟩) _ :=
      .round .loop .none rfl .here
    obtain ⟨l, m₁, s, start, n, -, hprogress, hruns⟩ :=
      (hloops _ (.inl ⟨forgetfulFunction, List.mem_singleton.mpr rfl, rfl⟩)).broke hbreak
    exact ⟨s, start, _, hruns, l, m₁, hprogress⟩

end Program

end WordLang
