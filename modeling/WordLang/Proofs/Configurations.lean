import WordLang.Proofs.Declared
import WordLang.Proofs.Lockstep
import WordLang.Proofs.Steps

/-! # What the configuration of a run can change

    Runs of one program that differ in fuel, in the policy for results that
    do not fit or in the limit on calls are compared with each other.  More
    fuel changes no answer.  A run that traps does what the run that does
    not trap does, up to the first result that does not fit.  And the limit
    on calls matters only if the program goes beyond it. -/

namespace WordLang

open Exec

/-! ## Section 1: Results and events -/

/-- The run ended because a result did not fit. -/
def Overflowed (result : Except Error Memory) : Prop :=
  ∃ pos op w, result = .error (.runtime ⟨pos, .arithmeticOverflow op w⟩)

theorem not_overflowed_ok (memory : Memory) : ¬ Overflowed (.ok memory) := by
  rintro ⟨_, _, _, h⟩
  cases h

theorem not_overflowed_declarations (errors : List DeclError) :
    ¬ Overflowed (.error (.declarations errors)) := by
  rintro ⟨_, _, _, h⟩
  cases h

/-- The run ended because more calls than this were to be active. -/
def ExhaustedAt (limit : Nat) (result : Except Error Memory) : Prop :=
  ∃ pos, result = .error (.runtime ⟨pos, .stackExhausted limit⟩)

/-- The greatest depth of a call among these events, or zero. -/
def deepestCall : List Event → Nat
  | [] => 0
  | .call _ depth :: rest => max depth (deepestCall rest)
  | _ :: rest => deepestCall rest

theorem le_deepestCall {events : List Event} {function : String} {depth : Nat}
    (h : .call function depth ∈ events) : depth ≤ deepestCall events := by
  fun_induction deepestCall events with
  | case1 => exact absurd h List.not_mem_nil
  | case2 function' depth' rest ih =>
    rcases List.mem_cons.mp h with heq | hmem
    · cases heq
      exact Nat.le_max_left _ _
    · exact Nat.le_trans (ih hmem) (Nat.le_max_right _ _)
  | case3 e rest hne ih =>
    rcases List.mem_cons.mp h with heq | hmem
    · exact absurd heq.symm (hne function depth)
    · exact ih hmem

theorem deepestCall_le {events : List Event} {limit : Nat}
    (h : ∀ function depth, .call function depth ∈ events → depth ≤ limit) :
    deepestCall events ≤ limit := by
  fun_induction deepestCall events with
  | case1 => exact Nat.zero_le limit
  | case2 function depth rest ih =>
    have hfirst := h function depth List.mem_cons_self
    have hrest := ih (fun f d hmem => h f d (List.mem_cons_of_mem _ hmem))
    exact Nat.max_le.mpr ⟨hfirst, hrest⟩
  | case3 e rest hne ih => exact ih (fun f d hmem => h f d (List.mem_cons_of_mem _ hmem))

namespace Program

/-- At some point of the run, over or not, exactly these events have been recorded. -/
def Shows (p : Program) (config : Config) (fuel : Nat) (events : List Event) : Prop :=
  (∃ decls, p.check = .ok decls) ∧
    ∃ m, (p.execution (p.env config) fuel p.start).Through m ∧ events = m.events.reverse

variable {p : Program} {c : Comparison} {fuel : Nat} {events : List Event}
variable {result : Except Error Memory}

theorem trace_of_done {decls : Declarations} {config : Config} {m : Machine}
    (hcheck : p.check = .ok decls)
    (h : (p.execution (p.env config) fuel p.start).outcome = .done () m) :
    p.trace config fuel = some (m.events.reverse, .ok (.ofStore m.store)) := by
  rw [trace_of_check hcheck, execute, h]

theorem trace_of_fault {decls : Declarations} {config : Config} {e : RuntimeError} {m : Machine}
    (hcheck : p.check = .ok decls)
    (h : (p.execution (p.env config) fuel p.start).outcome = .fault e m) :
    p.trace config fuel = some (m.events.reverse, .error (.runtime e)) := by
  rw [trace_of_check hcheck, execute, h]

/-! ## Section 2: A run with more means -/

theorem execution_follows (p : Program) (hmove : c.move = id) (fuel : Nat) :
    Follows c (p.execution (p.env c.low) fuel) (p.execution (p.env c.high) (c.extra + fuel))
      p.start := by
  have hfns : SameFunctions c p.declarations.1.functions p.declarations.1.functions := by
    intro name
    rw [hmove, Function.relocate_id, Option.map_id, id]
  have htracks := tracks_runTopLevel hfns fuel p.statements
  rw [hmove, Statement.relocateAll_id] at htracks
  exact htracks _ (List.cons_ne_nil _ _)

/-- Unless the run with less fuel is out of it, both are over or neither is. -/
theorem trace_eq_none (hmove : c.move = id) (hextra : c.extra = 0)
    (h : p.trace c.low fuel = none) : p.trace c.high fuel = none := by
  cases hcheck : p.check with
  | error errors =>
    unfold trace at h
    rw [hcheck] at h
    cases h
  | ok decls =>
    rw [trace_of_check hcheck, execute] at h
    rw [trace_of_check hcheck, execute]
    cases p.execution_follows hmove fuel with
    | done first => rw [first] at h; cases h
    | fault first => rw [first] at h; cases h
    | cut first => rw [first] at h; cases h
    | starved first second =>
      have hsecond := second hextra
      rw [hextra, Nat.zero_add, hmove, Machine.relocate_id] at hsecond
      rw [hsecond]

/-- What the run with more means does, given how the first one ended. -/
inductive Sequel (p : Program) (c : Comparison) (fuel : Nat) (events : List Event)
    (result : Except Error Memory) : Prop where
  /-- It ends in the same way, by a result that does not fit only if it traps too. -/
  | same (ends : p.trace c.high (c.extra + fuel) = some (events, result))
      (traps : Overflowed result → c.high.overflow = .trap)
  /-- It fails at the same point for the same reason, but names its own limit. -/
  | exhausted {result' : Except Error Memory} (low : ExhaustedAt c.low.maxDepth result)
      (high : ExhaustedAt c.high.maxDepth result')
      (same : c.low.maxDepth = c.high.maxDepth → result' = result)
      (ends : p.trace c.high (c.extra + fuel) = some (events, result'))
  /-- It goes on where the first run trapped. -/
  | overflow (trapped : Overflowed result) (low : c.low.overflow = .trap)
      (high : c.high.overflow = .wrap) (shows : p.Shows c.high (c.extra + fuel) events)
  /-- It makes the call that the first run could not make. -/
  | deeper {function : String} {depth : Nat} (stopped : ExhaustedAt c.low.maxDepth result)
      (lower : c.low.maxDepth < c.high.maxDepth) (beyond : c.low.maxDepth < depth)
      (shows : p.Shows c.high (c.extra + fuel) (events ++ [.call function depth]))

/-- The run with more means ends in the same way, or the first one was cut short by what it lacks
    and the other one goes on from there. -/
theorem sequel_of_trace (hmove : c.move = id) (h : p.trace c.low fuel = some (events, result)) :
    p.Sequel c fuel events result := by
  cases hcheck : p.check with
  | error errors =>
    unfold trace at h
    rw [hcheck] at h
    cases h
    refine .same ?_ (fun hover => absurd hover (not_overflowed_declarations errors))
    unfold trace
    rw [hcheck]
  | ok decls =>
    rw [trace_of_check hcheck, execute] at h
    cases p.execution_follows hmove fuel with
    | done first second height =>
      rw [first] at h
      rw [hmove, Machine.relocate_id, Machine.relocate_id] at second
      have htrace := trace_of_done hcheck second
      cases h
      exact .same htrace (fun hover => absurd hover (not_overflowed_ok _))
    | fault first second alike =>
      rw [first] at h
      rw [hmove, Machine.relocate_id, Machine.relocate_id] at second
      have htrace := trace_of_fault hcheck second
      cases h
      cases alike with
      | same pos traps =>
        rw [hmove] at htrace
        refine .same htrace ?_
        rintro ⟨_, op, w, hover⟩
        cases hover
        exact traps rfl
      | exhausted pos =>
        refine .exhausted ⟨pos, rfl⟩ ⟨_, rfl⟩ ?_ htrace
        intro heq
        rw [hmove, heq]
        rfl
    | starved first second => rw [first] at h; cases h
    | cut first second cuts =>
      rename_i e m' q
      rw [hmove, Machine.relocate_id] at cuts
      rw [hmove, Machine.relocate_id] at second
      rw [first] at h
      cases h
      obtain ⟨pos, cause⟩ := e
      dsimp only at cuts
      generalize hevents : q.events = shown at cuts
      have hshows : p.Shows c.high (c.extra + fuel) shown.reverse :=
        ⟨⟨decls, hcheck⟩, q, second, by rw [hevents]⟩
      cases cuts with
      | overflow low high => exact .overflow ⟨_, _, _, rfl⟩ low high hshows
      | depth lower deeper =>
        rw [List.reverse_cons] at hshows
        exact .deeper ⟨_, rfl⟩ lower deeper hshows

/-- What a run has shown on its way is how its events begin. -/
theorem Shows.isPrefix {config : Config} {events' : List Event} (h : p.Shows config fuel events)
    (htrace : p.trace config fuel = some (events', result)) : events <+: events' := by
  obtain ⟨⟨decls, hcheck⟩, m, hthrough, rfl⟩ := h
  rw [trace_of_check hcheck] at htrace
  cases hend : p.execute (p.env config) fuel p.start with
  | done a m' =>
    rw [hend] at htrace
    cases htrace
    exact List.reverse_prefix.mpr (extends_of_through hthrough (by rw [hend]; rfl))
  | fault e m' =>
    rw [hend] at htrace
    cases htrace
    exact List.reverse_prefix.mpr (extends_of_through hthrough (by rw [hend]; rfl))
  | outOfFuel => rw [hend] at htrace; cases htrace

/-! ## Section 3: Fuel -/

/-- An answer stays the same with more fuel. -/
theorem trace_of_le {config : Config} {fuel' : Nat} (hle : fuel ≤ fuel')
    (h : p.trace config fuel = some (events, result)) :
    p.trace config fuel' = some (events, result) := by
  let c : Comparison := ⟨id, config, config, fuel' - fuel, Nat.le_refl _, fun h => h⟩
  have hfuel : c.extra + fuel = fuel' := Nat.sub_add_cancel hle
  cases sequel_of_trace (c := c) rfl h with
  | same ends traps => rwa [hfuel] at ends
  | exhausted low high same ends => rwa [hfuel, same rfl] at ends
  -- nothing but its fuel can cut a run short here
  | overflow trapped low high shows => exact nomatch low.symm.trans high
  | deeper stopped lower beyond shows => exact absurd lower (Nat.lt_irrefl _)

/-! ## Section 4: The policy for results that do not fit -/

/-- Without trapping, no result is ever reported as not fitting. -/
theorem not_overflowed_of_wrap {maxDepth : Nat}
    (h : p.trace ⟨maxDepth, .wrap⟩ fuel = some (events, result)) : ¬ Overflowed result := by
  intro hover
  let c : Comparison := ⟨id, ⟨maxDepth, .wrap⟩, ⟨maxDepth, .wrap⟩, 0, Nat.le_refl _, fun h => h⟩
  cases sequel_of_trace (c := c) rfl h with
  | same ends traps => exact nomatch traps hover
  | exhausted low high same ends =>
    obtain ⟨pos, rfl⟩ := low
    obtain ⟨pos', op, w, heq⟩ := hover
    cases heq
  | overflow trapped low high shows => cases low
  | deeper stopped lower beyond shows => exact absurd lower (Nat.lt_irrefl _)

/-- A run that does not trap goes on like one that does, up to the first result that does not
    fit. -/
theorem wrap_of_trap {maxDepth : Nat}
    (h : p.trace ⟨maxDepth, .trap⟩ fuel = some (events, result)) :
    (¬ Overflowed result ∧ p.trace ⟨maxDepth, .wrap⟩ fuel = some (events, result)) ∨
      Overflowed result ∧ p.Shows ⟨maxDepth, .wrap⟩ fuel events := by
  let c : Comparison :=
    ⟨id, ⟨maxDepth, .trap⟩, ⟨maxDepth, .wrap⟩, 0, Nat.le_refl _, fun h => nomatch h⟩
  have hfuel : c.extra + fuel = fuel := Nat.zero_add fuel
  cases sequel_of_trace (c := c) rfl h with
  | same ends traps =>
    rw [hfuel] at ends
    exact .inl ⟨fun hover => (nomatch traps hover), ends⟩
  | exhausted low high same ends =>
    rw [hfuel, same rfl] at ends
    exact .inl ⟨not_overflowed_of_wrap ends, ends⟩
  | overflow trapped low high shows =>
    rw [hfuel] at shows
    exact .inr ⟨trapped, shows⟩
  | deeper stopped lower beyond shows => exact absurd lower (Nat.lt_irrefl _)

/-- Trapping refines wrapping.  A run that traps and ends for any other reason than a result that
    does not fit ends in the same way, with the same events, if it does not trap.  If it ends for
    that reason then its events are those with which the other run begins, however long that one
    is and even if it never ends.  And a run that does not trap never ends for that reason. -/
theorem trap_refines_wrap (p : Program) (maxDepth : Nat) :
    (∀ fuel events result, p.trace ⟨maxDepth, .trap⟩ fuel = some (events, result) →
      ¬ Overflowed result → p.trace ⟨maxDepth, .wrap⟩ fuel = some (events, result)) ∧
    (∀ fuel events result, p.trace ⟨maxDepth, .trap⟩ fuel = some (events, result) →
      Overflowed result →
      (∀ fuel', fuel ≤ fuel' → p.Shows ⟨maxDepth, .wrap⟩ fuel' events) ∧
      ∀ fuel' events' result', p.trace ⟨maxDepth, .wrap⟩ fuel' = some (events', result') →
        events <+: events') ∧
    (∀ fuel events result, p.trace ⟨maxDepth, .wrap⟩ fuel = some (events, result) →
      ¬ Overflowed result) := by
  refine ⟨?_, ?_, fun fuel events result h => not_overflowed_of_wrap h⟩
  · intro fuel events result h hfits
    rcases wrap_of_trap h with ⟨-, hsame⟩ | ⟨hover, -⟩
    · exact hsame
    · exact absurd hover hfits
  · intro fuel events result h hover
    have hshows : ∀ fuel', fuel ≤ fuel' → p.Shows ⟨maxDepth, .wrap⟩ fuel' events := by
      intro fuel' hle
      rcases wrap_of_trap (trace_of_le hle h) with ⟨hfits, -⟩ | ⟨-, hshows⟩
      · exact absurd hover hfits
      · exact hshows
    refine ⟨hshows, ?_⟩
    intro fuel' events' result' htrace
    -- with the greater fuel of the two, both runs are known
    have hlong := trace_of_le (Nat.le_max_right fuel fuel') htrace
    exact (hshows _ (Nat.le_max_left fuel fuel')).isPrefix hlong

/-- Takes one from a number of a byte, and then panics. -/
def takeOne (n : Nat) : Program :=
  ⟨[.static ⟨"x", .uint .byte, ⟨1, 1⟩⟩,
    .statement (.assign ⟨2, 1⟩ .set (.var "x") (.literal ⟨2, 6⟩ n)),
    .statement (.assign ⟨3, 1⟩ .sub (.var "x") (.literal ⟨3, 7⟩ 1)),
    .statement (.panic ⟨4, 1⟩)]⟩

/-- From one the policy makes no difference; from zero, trapping ends the run before the panic. -/
theorem trap_refines_wrap_takeOne :
    (∃ events result, (takeOne 1).trace ⟨0, .trap⟩ 5 = some (events, result) ∧
      ¬ Overflowed result ∧ (takeOne 1).trace ⟨0, .wrap⟩ 5 = some (events, result)) ∧
    ∃ events result events' result', (takeOne 0).trace ⟨0, .trap⟩ 5 = some (events, result) ∧
      Overflowed result ∧ (takeOne 0).trace ⟨0, .wrap⟩ 5 = some (events', result') ∧
      (takeOne 0).Shows ⟨0, .wrap⟩ 5 events ∧ events <+: events' ∧ ¬ Overflowed result' := by
  obtain ⟨hsame, -, -⟩ := trap_refines_wrap (takeOne 1) 0
  obtain ⟨-, hbegins, hfits⟩ := trap_refines_wrap (takeOne 0) 0
  have hpanics : ¬ Overflowed (.error (.runtime ⟨⟨4, 1⟩, .explicitPanic none⟩)) := by
    rintro ⟨_, _, _, heq⟩
    cases heq
  have hover : Overflowed (.error (.runtime ⟨⟨3, 1⟩, .arithmeticOverflow "-=" .byte⟩)) :=
    ⟨_, _, _, rfl⟩
  obtain ⟨hshows, hearlier⟩ := hbegins 5 _ _ rfl hover
  exact ⟨⟨_, _, rfl, hpanics, hsame 5 _ _ rfl hpanics⟩, _, _, _, _, rfl, hover, rfl,
    hshows 5 (Nat.le_refl 5), hearlier 5 _ _ rfl, hfits 5 _ _ rfl⟩

/-! ## Section 5: The limit on calls -/

theorem maintains_withinDepth (p : Program) (env : Env) (fuel : Nat) :
    Maintains (Machine.WithinDepth env.config.maxDepth) (fun _ => True)
      (p.execution env fuel) := by
  intro m hm
  have hwalks := walks_runTopLevel (steady_withinDepth env.config.maxDepth) fuel p.statements m hm
  exact hwalks.mono (fun _ _ hpq => hpq.2) (fun _ _ hm' => ⟨hm', trivial⟩) (fun _ _ hm' => hm')

/-- No call of a run is deeper than the limit. -/
theorem deepestCall_le_maxDepth {config : Config}
    (h : p.trace config fuel = some (events, result)) :
    deepestCall events ≤ config.maxDepth := by
  cases hcheck : p.check with
  | error errors =>
    unfold trace at h
    rw [hcheck] at h
    cases h
    exact Nat.zero_le _
  | ok decls =>
    rw [trace_of_check hcheck, execute] at h
    have hmaintains := p.maintains_withinDepth (p.env config) fuel p.start
      (Machine.withinDepth_initial _ _)
    cases hend : (p.execution (p.env config) fuel p.start).outcome with
    | done a m =>
      rw [hend] at h
      cases h
      have hm := (hmaintains.done hend).1
      exact deepestCall_le (fun f d hmem => hm.recorded f d (List.mem_reverse.mp hmem))
    | fault e m =>
      rw [hend] at h
      cases h
      have hm := hmaintains.fault hend
      exact deepestCall_le (fun f d hmem => hm.recorded f d (List.mem_reverse.mp hmem))
    | outOfFuel => rw [hend] at h; cases h

/-- A run with a lower limit on calls than one that did not reach its own. -/
theorem lower_limit {policy : Overflow} {limit d : Nat} (hle : d ≤ limit)
    (h : p.trace ⟨limit, policy⟩ fuel = some (events, result))
    (hfree : ∀ l, ¬ ExhaustedAt l result) :
    (deepestCall events ≤ d ∧ p.trace ⟨d, policy⟩ fuel = some (events, result)) ∨
      d < deepestCall events ∧ ∃ events' result',
        p.trace ⟨d, policy⟩ fuel = some (events', result') ∧ ExhaustedAt d result' := by
  let c : Comparison := ⟨id, ⟨d, policy⟩, ⟨limit, policy⟩, 0, hle, fun h => h⟩
  have hfuel : c.extra + fuel = fuel := Nat.zero_add fuel
  cases hlow : p.trace ⟨d, policy⟩ fuel with
  | none =>
    rw [trace_eq_none (c := c) rfl rfl hlow] at h
    cases h
  | some ended =>
    obtain ⟨events', result'⟩ := ended
    cases sequel_of_trace (c := c) rfl hlow with
    | same ends traps =>
      rw [hfuel] at ends
      cases ends.symm.trans h
      exact .inl ⟨deepestCall_le_maxDepth hlow, rfl⟩
    | exhausted low high same ends =>
      rw [hfuel] at ends
      cases ends.symm.trans h
      exact absurd high (hfree limit)
    | overflow trapped low high shows => exact nomatch low.symm.trans high
    | deeper stopped lower beyond shows =>
      -- the higher limit lets a call through that is deeper than the lower one
      rw [hfuel] at shows
      have hmem := (shows.isPrefix h).subset (List.mem_append_right _ List.mem_cons_self)
      exact .inr ⟨Nat.lt_of_lt_of_le beyond (le_deepestCall hmem), events', result', rfl, stopped⟩

/-- A run with a higher limit on calls than one that did not reach its own. -/
theorem higher_limit {policy : Overflow} {limit d : Nat} (hle : limit ≤ d)
    (h : p.trace ⟨limit, policy⟩ fuel = some (events, result))
    (hfree : ∀ l, ¬ ExhaustedAt l result) : p.trace ⟨d, policy⟩ fuel = some (events, result) := by
  let c : Comparison := ⟨id, ⟨limit, policy⟩, ⟨d, policy⟩, 0, hle, fun h => h⟩
  have hfuel : c.extra + fuel = fuel := Nat.zero_add fuel
  cases sequel_of_trace (c := c) rfl h with
  | same ends traps => rwa [hfuel] at ends
  | exhausted low high same ends => exact absurd low (hfree limit)
  | overflow trapped low high shows => exact nomatch low.symm.trans high
  | deeper stopped lower beyond shows => exact absurd stopped (hfree limit)

/-- The limit on calls is exact and changes nothing else.  If a run does not fail because of its
    limit then it ends in the same way, with the same events, under every limit that none of its
    calls goes beyond, and under any lower limit it fails because of that limit.  In every state of
    every execution the number of active calls is within the limit. -/
theorem depth_limit_exact (p : Program) (policy : Overflow) (limit : Nat) :
    (∀ fuel events result, p.trace ⟨limit, policy⟩ fuel = some (events, result) →
      (∀ l, ¬ ExhaustedAt l result) →
      (∀ d, deepestCall events ≤ d → p.trace ⟨d, policy⟩ fuel = some (events, result)) ∧
      ∀ d, d < deepestCall events → ∃ events' result',
        p.trace ⟨d, policy⟩ fuel = some (events', result') ∧ ExhaustedAt d result') ∧
    ∀ m, p.Reaches (p.env ⟨limit, policy⟩) p.start m →
      m.depth ≤ limit ∧
      ∀ fuel a b, (p.execution (p.env ⟨limit, policy⟩) fuel m).changes a b →
        a.depth ≤ limit ∧ b.depth ≤ limit := by
  constructor
  · intro fuel events result h hfree
    constructor
    · intro d hd
      rcases Nat.le_total d limit with hle | hle
      · rcases lower_limit hle h hfree with ⟨-, hsame⟩ | ⟨hlt, -⟩
        · exact hsame
        · omega
      · exact higher_limit hle h hfree
    · intro d hd
      have hlimit : deepestCall events ≤ limit := deepestCall_le_maxDepth h
      rcases lower_limit (Nat.le_trans (Nat.le_of_lt hd) hlimit) h hfree with ⟨hge, -⟩ | ⟨-, hends⟩
      · omega
      · exact hends
  · intro m hm
    have hmaintains := fun fuel => p.maintains_withinDepth (p.env ⟨limit, policy⟩) fuel
    have hwithin := hm.maintained hmaintains (Machine.withinDepth_initial limit _)
    refine ⟨hwithin.active, fun fuel a b hab => ?_⟩
    obtain ⟨ha, hb⟩ := (hmaintains fuel m hwithin).changes a b hab
    exact ⟨ha.active, hb.active⟩

/-- A function that calls itself with one less until it is given zero, called with two. -/
def countDown : Program :=
  ⟨[.function ⟨"f", [⟨"n", .uint .byte⟩], some (.uint .byte),
      [.ifThen ⟨2, 1⟩ (.ident ⟨2, 4⟩ "n")
        [.ret ⟨3, 1⟩ (some (.call ⟨3, 8⟩ "f"
          [.binary ⟨3, 11⟩ .sub (.ident ⟨3, 14⟩ "n") (.literal ⟨3, 16⟩ 1)]))],
       .ret ⟨4, 1⟩ (some (.literal ⟨4, 8⟩ 7))],
      ⟨1, 1⟩⟩,
    .statement (.expr ⟨6, 1⟩ (.call ⟨6, 1⟩ "f" [.literal ⟨6, 4⟩ 2]))]⟩

/-- Three calls are active at the deepest point, so a limit of three is enough and one of two is
    not. -/
theorem depth_limit_exact_countDown :
    ∃ events memory, countDown.trace ⟨5, .wrap⟩ 30 = some (events, .ok memory) ∧
      deepestCall events = 3 ∧ countDown.trace ⟨3, .wrap⟩ 30 = some (events, .ok memory) ∧
      (∃ events' result', countDown.trace ⟨2, .wrap⟩ 30 = some (events', result') ∧
        ExhaustedAt 2 result') ∧
      countDown.start.depth ≤ 5 := by
  obtain ⟨hruns, hstates⟩ := depth_limit_exact countDown .wrap 5
  have hfree : ∀ memory l, ¬ ExhaustedAt l (.ok memory) := by
    rintro memory l ⟨_, heq⟩
    cases heq
  obtain ⟨henough, htooLow⟩ := hruns 30 _ _ rfl (hfree _)
  exact ⟨_, _, rfl, rfl, henough 3 (Nat.le_refl 3), htooLow 2 (by decide), (hstates _ .start).1⟩

end Program

end WordLang
