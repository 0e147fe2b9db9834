import WordLang.Proofs.Bracketing

/-! # Explicit panics are final

    A `!!` statement records a panic and fails.  No construct of the language
    catches the failure, puts another one in its place or goes on after it,
    wherever the statement stands: the state in which the panic was recorded
    already tells how the run ends and what it leaves in the store.

    Read from the outside, the event of a panic is the last one, and it is
    there just if the run failed by a panic. -/

namespace WordLang

open Exec

/-! ## Section 1: Recording a panic ends a computation -/

/-- How a computation ends if a panic is recorded in this state: it fails at the place of the
    panic and blames the function that runs; events and store stay as they are. -/
structure EndsByPanic {α : Type} (outcome : Outcome α) (a : Machine) (pos : Position)
    (function : Option String) (depth : Nat) : Prop where
  blamed : function = a.functionName? ∧ depth = a.depth
  ends : ∃ m', outcome = .fault ⟨pos, .explicitPanic function⟩ m' ∧
    m'.events = .panic pos function depth :: a.events ∧ m'.store = a.store

/-- Whenever the computation records a panic, it ends by it. -/
def PanicsFinally {α : Type} (x : Exec α) : Prop :=
  ∀ m a pos function depth, (x m).changes a (a.emit (.panic pos function depth)) →
    EndsByPanic (x m).outcome a pos function depth

/-- A change that records no event records no panic. -/
theorem emit_ne_of_silent {m m' : Machine} (e : Event) (h : m'.events = m.events) :
    m.emit e ≠ m' := by
  intro heq
  have hevents : e :: m.events = m.events := (congrArg Machine.events heq).trans h
  exact List.cons_ne_self e m.events hevents

namespace PanicsFinally

variable {α β : Type} {x : Exec α}

/-- A computation without changes records nothing. -/
theorem of_still (h : Still x) : PanicsFinally x := by
  intro m a pos function depth hchange
  exact ((h m).1.changes _ _ hchange).elim

theorem outOfFuel : PanicsFinally (Exec.outOfFuel : Exec α) :=
  fun _ _ _ _ _ hchange => hchange.elim

theorem modify {f : Machine → Machine} (h : ∀ m, (f m).events = m.events) :
    PanicsFinally (Exec.modify f) := by
  intro m a pos function depth hchange
  obtain ⟨rfl, heq⟩ := hchange
  exact absurd heq (emit_ne_of_silent _ (h a))

/-- An event of another kind is no panic. -/
theorem emit {e : Machine → Event} (h : ∀ m pos function depth, e m ≠ .panic pos function depth) :
    PanicsFinally (Exec.modify fun m => m.emit (e m)) := by
  intro m a pos function depth hchange
  obtain ⟨rfl, heq⟩ := hchange
  have hevents := congrArg Machine.events heq
  exact absurd (List.cons.inj hevents).1.symm (h a pos function depth)

/-- What comes after a failure is not done, so the failure stays what it is. -/
theorem bind {f : α → Exec β} (h : PanicsFinally x) (hf : ∀ a, PanicsFinally (f a)) :
    PanicsFinally (x >>= f) := by
  intro m a pos function depth hchange
  rcases changes_bind.mp hchange with hfirst | ⟨b, m', hdone, hsecond⟩
  · obtain ⟨hblamed, m', hfault, hleft⟩ := h m a pos function depth hfirst
    exact ⟨hblamed, m', outcome_bind_fault hfault, hleft⟩
  · obtain ⟨hblamed, m'', hfault, hleft⟩ := hf b m' a pos function depth hsecond
    refine ⟨hblamed, m'', ?_, hleft⟩
    rw [outcome_bind_done hdone]
    exact hfault

/-- Leaving a scope or a frame after a failure changes neither the events nor the store. -/
theorem within {enter leave : Machine → Machine} (henter : ∀ m, (enter m).events = m.events)
    (hevents : ∀ m, (leave m).events = m.events) (hstore : ∀ m, (leave m).store = m.store)
    (h : PanicsFinally x) : PanicsFinally (Exec.within enter leave x) := by
  intro m a pos function depth hchange
  rcases hchange with ⟨rfl, heq⟩ | hinside | ⟨-, heq⟩
  · exact absurd heq (emit_ne_of_silent _ (henter a))
  · obtain ⟨hblamed, m', hfault, hlast, hleft⟩ := h _ a pos function depth hinside
    refine ⟨hblamed, leave m', ?_, ?_, ?_⟩
    · show (x (enter m)).outcome.mapMachine leave = _
      rw [hfault]
      rfl
    · rw [hevents, hlast]
    · rw [hstore, hleft]
  · exact absurd heq (emit_ne_of_silent _ (hevents a))

theorem inScope (scope : NameMap Value) (h : PanicsFinally x) :
    PanicsFinally (inScope scope x) :=
  h.within (fun m => m.events_mapScopes _) (fun m => m.events_mapScopes _)
    (fun m => m.store_mapScopes _)

theorem inFrame (frame : Frame) (h : PanicsFinally x) : PanicsFinally (inFrame frame x) :=
  h.within (fun _ => rfl) (fun _ => rfl) (fun _ => rfl)

end PanicsFinally

/-! ## Section 2: All parts of the semantics -/

theorem panicsFinally_runPanic (pos : Position) : PanicsFinally (runPanic pos) := by
  intro m a pos' function depth hchange
  rcases changes_bind.mp hchange with hreads | ⟨name, m', hdone, hchange⟩
  · exact hreads.elim
  · cases hdone
    rcases changes_bind.mp hchange with ⟨rfl, heq⟩ | ⟨_, m'', -, hfail⟩
    · have hevent := (List.cons.inj (congrArg Machine.events heq)).1
      cases hevent
      exact ⟨⟨rfl, rfl⟩, _, rfl, rfl, rfl⟩
    · exact hfail.elim

theorem panicsFinally_finishCall (pos : Position) (f : Function) (flow : Flow) :
    PanicsFinally (finishCall pos f flow) := by
  have hret : ∀ value, PanicsFinally (Exec.modify fun m => m.emit (.ret f.name value)) :=
    fun value => .emit (fun _ _ _ _ => nofun)
  unfold finishCall
  split
  · exact .bind (hret none) (fun _ => .of_still .pure)
  · next ty v _ =>
    apply PanicsFinally.bind (.of_still (still_expectType pos ty v))
    intro _
    exact .bind (hret (some v)) (fun _ => .of_still .pure)
  · exact .of_still .fail

theorem inherited_panicsFinally (env : Env) :
    Inherited env (fun _ {_} x => PanicsFinally x) where
  pure _ := .of_still .pure
  fail _ _ _ := .of_still .fail
  outOfFuel := .outOfFuel
  reads _ _ := .of_still .reads
  bind := .bind
  declare _ _ := .modify (fun m => m.events_mapScopes _)
  update pos name f := by
    apply PanicsFinally.bind (.of_still .reads)
    intro found
    cases found with
    | error cause => exact .of_still .fail
    | ok c => exact .modify (fun m => m.events_modifyCell c name f)
  inScope scope _ h := h.inScope scope
  enterStatement _ := .emit (fun _ _ _ _ => nofun)
  runPanic := panicsFinally_runPanic
  callWith {_ _ f} pos args values {_} _ hbody := by
    apply PanicsFinally.bind (.of_still (still_prepareCall _ pos f args values))
    intro params
    have hcall : PanicsFinally (Exec.modify fun m => m.emit (.call f.name m.depth)) :=
      .emit (fun _ _ _ _ => nofun)
    have hcalled := PanicsFinally.inFrame (.call f params) (.bind hcall (fun _ => hbody))
    exact .bind hcalled (panicsFinally_finishCall pos f)

theorem panicsFinally_runTopLevel (env : Env) (fuel : Nat) (ss : List Statement) :
    PanicsFinally (runTopLevel env fuel ss) := by
  apply (inherited_panicsFinally env).runTopLevel
  intro _ pos
  apply PanicsFinally.emit
  intro m pos function depth hpanic
  cases hpanic

/-- Every event that is new at the end of the way was recorded by one of the changes. -/
theorem Leads.recorded {changes : Machine → Machine → Prop} {limit : Nat} {a b : Machine}
    (h : Leads changes a b) (hsteps : ∀ p q, changes p q → Step limit p q) :
    ∃ es, b.events = es ++ a.events ∧ ∀ e ∈ es, ∃ q, changes q (q.emit e) := by
  induction h with
  | here m => exact ⟨[], rfl, fun _ he => absurd he List.not_mem_nil⟩
  | @change a b c first _ ih =>
    obtain ⟨es, hes, hnew⟩ := ih
    cases hsteps a b first with
    | record e now =>
      refine ⟨es ++ [e], ?_, ?_⟩
      · rw [hes, List.append_assoc]
        rfl
      · intro e' he'
        rcases List.mem_append.mp he' with he' | he'
        · exact hnew e' he'
        · rw [List.mem_singleton.mp he']
          exact ⟨a, first⟩
    | scopes f =>
      rw [a.events_mapScopes] at hes
      exact ⟨es, hes, hnew⟩
    | store s => exact ⟨es, hes, hnew⟩
    | enter frame below => exact ⟨es, hes, hnew⟩
    | leave => exact ⟨es, hes, hnew⟩

/-! ## Section 3: Panics among the events of a run -/

/-- The failure that a computation ends with. -/
def Outcome.failure? {α : Type} : Outcome α → Option RuntimeError
  | .fault e _ => some e
  | .done _ _ | .outOfFuel => none

/-- The failure of the run that a result tells. -/
def runtimeError? : Except Error Memory → Option RuntimeError
  | .error (.runtime e) => some e
  | .error _ | .ok _ => none

/-- What it means that in the events of a run with this failure a panic comes last. -/
structure PanicLast (env : Env) (events : List Event) (failure : Option RuntimeError) : Prop where
  /-- Nothing follows a panic, and the run fails by it, in the innermost call that is open. -/
  final : ∀ before pos function depth after, events = before ++ .panic pos function depth :: after →
    after = [] ∧ failure = some ⟨pos, .explicitPanic function⟩ ∧
      ∃ stack, openAfter? env [] before = some stack ∧ function = stack.head?
  /-- A run that fails by a panic has recorded it. -/
  recorded : ∀ pos function, failure = some ⟨pos, .explicitPanic function⟩ →
    ∃ before depth, events = before ++ [.panic pos function depth]

theorem Completes.panicLast {env : Env} {m m' : Machine} (h : Completes env m m') :
    ∃ events, m'.events = events.reverse ++ m.events ∧ PanicLast env events none := by
  obtain ⟨es, hrecords, hread, hlast⟩ := h
  refine ⟨es, hrecords.events, ?_, nofun⟩
  intro before pos function depth after hes
  rcases hlast with hquiet | ⟨b, pos', rfl, hquiet⟩
  · have hmem : Event.panic pos function depth ∈ es := by
      rw [hes]
      exact List.mem_append_right _ List.mem_cons_self
    exact nomatch hquiet _ hmem
  · exact nomatch (hquiet.last rfl hes).2.1

theorem Breaks.panicLast {env : Env} {m m' : Machine} {e : RuntimeError}
    (h : Breaks env m e m') (hm : m.activeCalls = []) :
    ∃ events, m'.events = events.reverse ++ m.events ∧ PanicLast env events (some e) := by
  obtain ⟨es, stack, hrecords, hread, hannounces⟩ := h
  rw [hm] at hread
  refine ⟨es, hrecords.events, ?_, ?_⟩
  · intro before pos function depth after hes
    unfold Announces at hannounces
    split at hannounces
    · next function' hitem =>
      obtain ⟨b, depth', rfl, hquiet⟩ := hannounces
      obtain ⟨rfl, hevent, hafter⟩ := hquiet.last rfl hes
      obtain ⟨rfl, rfl, rfl⟩ := Event.panic.inj hevent
      refine ⟨hafter, ?_, ?_⟩
      · rw [← hitem]
      -- the panic fits what is open before it
      · rw [openAfter?_append] at hread
        obtain ⟨opened, hopened, hpanic⟩ := Option.bind_eq_some_iff.mp hread
        rw [openAfter?_singleton, Event.openAfter?] at hpanic
        obtain ⟨⟨hfunction, -⟩, -⟩ := Option.ite_none_right_eq_some.mp hpanic
        exact ⟨opened, hopened, hfunction⟩
    · have hmem : Event.panic pos function depth ∈ es := by
        rw [hes]
        exact List.mem_append_right _ List.mem_cons_self
      have hlast : Event.isLast (.panic pos function depth) = false := hannounces _ hmem
      cases hlast
  · intro pos function he
    cases he
    obtain ⟨before, depth, hes, -⟩ := hannounces
    exact ⟨before, depth, hes⟩

namespace Program

variable {p : Program} {config : Config} {fuel : Nat}

theorem panicLast_of_execute {m m' : Machine} (hm : m.functions = [none])
    (h : (p.execute (p.env config) fuel m).machine? = some m') :
    ∃ events, m'.events = events.reverse ++ m.events ∧
      PanicLast (p.env config) events (p.execute (p.env config) fuel m).failure? := by
  cases hend : p.execute (p.env config) fuel m with
  | done a last =>
    rw [hend] at h
    cases h
    exact (completes_of_execute hm hend).panicLast
  | fault e last =>
    rw [hend] at h
    cases h
    exact (breaks_of_execute hm hend).panicLast (Machine.activeCalls_of_functions [] hm)
  | outOfFuel => rw [hend] at h; cases h

theorem panicLast_of_trace {events : List Event} {result : Except Error Memory}
    (h : p.trace config fuel = some (events, result)) :
    PanicLast (p.env config) events (runtimeError? result) := by
  have hstart : p.start.functions = [none] := rfl
  cases shown_of_trace h with
  | rejected errors =>
    refine ⟨?_, nofun⟩
    intro before pos function depth after hnil
    simp at hnil
  | @done m ends =>
    obtain ⟨es, hes, hlast⟩ := (completes_of_execute hstart ends).panicLast
    rw [hes, show p.start.events = [] from rfl, List.append_nil, List.reverse_reverse]
    exact hlast
  | @fault e m ends =>
    obtain ⟨es, hes, hlast⟩ := (breaks_of_execute hstart ends).panicLast rfl
    rw [hes, show p.start.events = [] from rfl, List.append_nil, List.reverse_reverse]
    exact hlast

/-- An execution fails by a panic only if one was recorded on its way. -/
theorem panic_recorded {m m' : Machine} {pos : Position} {function : Option String}
    (hm : m.functions = [none])
    (h : p.execute (p.env config) fuel m = .fault ⟨pos, .explicitPanic function⟩ m') :
    ∃ a depth,
      (p.execution (p.env config) fuel m).changes a (a.emit (.panic pos function depth)) := by
  have hsteady : Steady (p.env config).config.maxDepth (fun _ => True) := fun _ _ _ _ => trivial
  have hwalks := walks_runTopLevel hsteady fuel p.statements m trivial
  have hway := (p.execution (p.env config) fuel m).linked m' (congrArg Outcome.machine? h)
  obtain ⟨new, hnew, hrecorded⟩ := hway.recorded (fun a b hab => (hwalks.changes a b hab).1)
  obtain ⟨es, stack, hrecords, -, before, depth, rfl, -⟩ := breaks_of_execute hm h
  have hsame : new = (before ++ [Event.panic pos function depth]).reverse :=
    List.append_cancel_right (hnew.symm.trans hrecords.events)
  have hmem : Event.panic pos function depth ∈ new := by
    rw [hsame]
    simp
  obtain ⟨a, ha⟩ := hrecorded _ hmem
  exact ⟨a, depth, ha⟩

/-- An explicit panic is final and never masked.  A `!!` statement records a panic, in the state it
    finds, and fails.  Whenever a panic is recorded in an execution, however deep inside calls,
    loops and expressions, the execution fails at the place of the statement and blames the
    function of the innermost active call, and nothing is recorded or stored any more; and it
    fails like that for no other reason.  Among the events of a run a panic is thus the last one,
    and there is one just if the run fails by it; likewise for the events that any execution
    adds. -/
theorem explicit_panic_final (p : Program) (config : Config) :
    (∀ fuel pos m, ∃ entered, entered = m.emit (.statement pos m.depth) ∧
      (runStatement (p.env config) (fuel + 1) (.panic pos) m).changes entered
        (entered.emit (.panic pos m.functionName? m.depth)) ∧
      (runStatement (p.env config) (fuel + 1) (.panic pos) m).outcome =
        .fault ⟨pos, .explicitPanic m.functionName?⟩
          (entered.emit (.panic pos m.functionName? m.depth))) ∧
    (∀ fuel m a pos function depth,
      (p.execution (p.env config) fuel m).changes a (a.emit (.panic pos function depth)) →
      EndsByPanic (p.execute (p.env config) fuel m) a pos function depth) ∧
    (∀ fuel events result, p.trace config fuel = some (events, result) →
      PanicLast (p.env config) events (runtimeError? result)) ∧
    ∀ m, p.Reaches (p.env config) p.start m → ∀ fuel m',
      (∀ pos function, p.execute (p.env config) fuel m =
          .fault ⟨pos, .explicitPanic function⟩ m' →
        ∃ a depth,
          (p.execution (p.env config) fuel m).changes a (a.emit (.panic pos function depth))) ∧
      ((p.execute (p.env config) fuel m).machine? = some m' →
        ∃ events, m'.events = events.reverse ++ m.events ∧
          PanicLast (p.env config) events (p.execute (p.env config) fuel m).failure?) := by
  refine ⟨?_, ?_, fun fuel events result h => panicLast_of_trace h, ?_⟩
  · intro fuel pos m
    refine ⟨_, rfl, ?_, ?_⟩
    · rw [runStatement]
      exact .inr (.inr (.inl ⟨rfl, rfl⟩))
    · rw [runStatement]
      rfl
  · intro fuel m a pos function depth hchange
    exact panicsFinally_runTopLevel _ fuel p.statements m a pos function depth hchange
  · intro m hm fuel m'
    refine ⟨fun pos function hend => panic_recorded hm.functions_eq hend, ?_⟩
    intro hend
    exact panicLast_of_execute hm.functions_eq hend

/-- A panic in the argument of a call that has too few arguments, in the bound of a `for`. -/
def panicInArgument : Program :=
  ⟨[.function ⟨"f", [], some (.uint .byte), [.panic ⟨1, 11⟩], ⟨1, 1⟩⟩,
    .function ⟨"g", [⟨"a", .uint .byte⟩, ⟨"b", .uint .byte⟩], some (.uint .byte),
      [.ret ⟨2, 25⟩ (some (.ident ⟨2, 32⟩ "a"))], ⟨2, 1⟩⟩,
    .statement (.forRange ⟨3, 1⟩ "i" (.uint .byte) (.literal ⟨3, 13⟩ 0)
      (.call ⟨3, 16⟩ "g" [.call ⟨3, 19⟩ "f" []]) [])]⟩

/-- The run fails by the panic, not by the missing argument, and so does the next execution. -/
theorem explicit_panic_final_panicInArgument :
    (∃ events, panicInArgument.trace .default 9 =
        some (events, .error (.runtime ⟨⟨1, 11⟩, .explicitPanic (some "f")⟩)) ∧
      events = [.statement ⟨3, 1⟩ 0, .call "f" 1, .statement ⟨1, 11⟩ 1,
        .panic ⟨1, 11⟩ (some "f") 1] ∧
      PanicLast (panicInArgument.env .default) events
        (some ⟨⟨1, 11⟩, .explicitPanic (some "f")⟩)) ∧
    ∃ m m', panicInArgument.Reaches (panicInArgument.env .default) panicInArgument.start m ∧
      m.events.length = 4 ∧
      panicInArgument.execute (panicInArgument.env .default) 9 m =
        .fault ⟨⟨1, 11⟩, .explicitPanic (some "f")⟩ m' ∧
      (∃ a depth, EndsByPanic (panicInArgument.execute (panicInArgument.env .default) 9 m) a
        ⟨1, 11⟩ (some "f") depth) ∧
      ∃ events, m'.events = events.reverse ++ m.events ∧
        PanicLast (panicInArgument.env .default) events
          (some ⟨⟨1, 11⟩, .explicitPanic (some "f")⟩) := by
  obtain ⟨-, hfinal, hruns, hexecutions⟩ := explicit_panic_final panicInArgument .default
  have hreaches := Reaches.execute (p := panicInArgument) .start (show
    (panicInArgument.execute (panicInArgument.env .default) 9 panicInArgument.start).machine?
      = some _ from rfl)
  obtain ⟨hasked, hadds⟩ := hexecutions _ hreaches 9 _
  obtain ⟨a, depth, hchange⟩ := hasked ⟨1, 11⟩ (some "f") rfl
  exact ⟨⟨_, rfl, rfl, hruns 9 _ _ rfl⟩, _, _, hreaches, rfl, rfl,
    ⟨a, depth, hfinal 9 _ a _ _ depth hchange⟩, hadds rfl⟩

end Program

end WordLang
