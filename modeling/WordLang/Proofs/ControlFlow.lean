import WordLang.Proofs.Iteration
import WordLang.Proofs.WellFormed
import WordLang.Proofs.Widths

/-! # Control flow stays inside its construct

    The parser lets `break` and `continue` stand in loops only, and a `return`
    has a value just if its function has a return type.  `Flow.AllowedIn`
    says what this leaves for the flow of a statement, and a run of
    well-formed statements gives no other.

    `Executes` tells which statements a run of a block comes to, in which
    state, and which loop is the innermost around them.  What such a
    statement ends with, the block ends with, unless it is the business of
    that loop (`Executes.comesTo`): a `break` or a `continue` decides how the
    innermost loop goes on and nothing else, a `return` ends the block.
    Conversely a block that ends by a `return` has executed one. -/

namespace WordLang

open Exec
open Statement (AllWellFormed)

/-! ## Section 1: Loops in progress -/

/-- A loop before one of its rounds. -/
inductive Looping where
  | endless (body : List Statement)
  /-- The variable takes the numbers from `i` up to but not at `stop`. -/
  | counting (var : String) (w : Width) (i stop : Nat) (body : List Statement)

namespace Looping

def body : Looping → List Statement
  | .endless body | .counting _ _ _ _ body => body

/-- The scope that the next round starts with, and the loop after it, if there is one more. -/
def next? : Looping → Option (NameMap Value × Looping)
  | .endless body => some (.empty, .endless body)
  | .counting var w i stop body =>
    if i < stop then some (.singleton var (.wrapped w i), .counting var w (i + 1) stop body)
    else none

/-- Runs what is left of a loop. -/
def run (env : Env) (fuel : Nat) : Looping → Exec Flow
  | .endless body => runLoop env fuel body
  | .counting var w i stop body => runFor env fuel var w i stop body

variable {env : Env} {l rest : Looping} {scope : NameMap Value}

theorem run_round (h : l.next? = some (scope, rest)) (fuel : Nat) :
    l.run env (fuel + 1) = inScope scope (runBlock env fuel l.body) >>= fun flow =>
      if flow.goesOn then rest.run env fuel else pure flow.outside := by
  cases l with
  | endless body =>
    cases h
    rw [run, runLoop]
    refine bind_congr (fun flow => ?_)
    cases flow <;> rfl
  | counting var w i stop body =>
    by_cases hi : i < stop
    · simp only [next?, if_pos hi, Option.some.injEq, Prod.mk.injEq] at h
      obtain ⟨rfl, rfl⟩ := h
      exact runFor_round hi fuel
    · simp [next?, hi] at h

theorem run_over (h : l.next? = none) (fuel : Nat) : l.run env (fuel + 1) = pure .next := by
  cases l with
  | endless body => cases h
  | counting var w i stop body =>
    have hi : ¬ i < stop := fun hi => by simp [next?, hi] at h
    exact runFor_over hi fuel

variable {m m₁ : Machine} {flow : Flow} {o o' : Outcome Flow}

/-- A round that goes on leaves the loop to the rounds after it. -/
theorem comesTo_run_of_pass (more : l.next? = some (scope, rest))
    (runs : ComesTo (fun fuel => runBlock env fuel l.body) (m.pushScope scope) (.done flow m₁))
    (goesOn : flow.goesOn = true) :
    ComesTo (fun fuel => l.run env fuel) m o ↔
      ComesTo (fun fuel => rest.run env fuel) m₁.popScope o := by
  rw [ComesTo.succ_iff]
  simp only [run_round more]
  exact comesTo_passedRound (runs.within (fun m => m.pushScope scope) Machine.popScope) goesOn

/-- A round that does not go on ends the loop. -/
theorem comesTo_run_of_end (more : l.next? = some (scope, rest))
    (runs : ComesTo (fun fuel => runBlock env fuel l.body) (m.pushScope scope) o)
    (ends : (o.mapMachine Machine.popScope).endsLoop? = some o') :
    ComesTo (fun fuel => l.run env fuel) m o' := by
  rw [ComesTo.succ_iff]
  simp only [run_round more]
  exact comesTo_lastRound (runs.within (fun m => m.pushScope scope) Machine.popScope) ends

end Looping

/-! ## Section 2: The flows that a context allows -/

/-- Nothing is known of how a computation ends without looking at it. -/
theorem maintains_true {α : Type} (x : Exec α) :
    Maintains (fun _ => True) (fun _ => True) x := by
  refine fun m _ => ⟨fun _ _ _ => ⟨trivial, trivial⟩, ?_⟩
  cases (x m).outcome <;> trivial

/-- What comes last gives the result. -/
theorem Exec.Maintains.last {α β : Type} {x : Exec α} {f : α → Exec β} {V : β → Prop}
    (h : ∀ a, Maintains (fun _ => True) V (f a)) : Maintains (fun _ => True) V (x >>= f) :=
  .bind (maintains_true x) (fun a _ => h a)

theorem Exec.Maintains.inScope {α : Type} {x : Exec α} {V : α → Prop} (scope : NameMap Value)
    (h : Maintains (fun _ => True) V x) : Maintains (fun _ => True) V (inScope scope x) :=
  .within (fun _ _ => trivial) (fun _ _ => trivial) h

/-- How control may leave statements that stand in this context. -/
def Flow.AllowedIn (ctx : Parser.Context) : Flow → Prop
  | .next => True
  | .broke | .continued => ctx.inLoop = true
  | .returned none => ctx.returns = none
  | .returned (some _) => ctx.returns ≠ none

/-- Statements that only have something done and then go on, or fail. -/
def Statement.isPlain : Statement → Bool
  | .letVar _ _ _ _ | .static _ | .assign _ _ _ _ | .panic _ | .expr _ _ => true
  | _ => false

theorem maintains_plain (env : Env) (fuel : Nat) {s : Statement} (h : s.isPlain = true) :
    Maintains (fun _ => True) (· = Flow.next) (runStatement env fuel s) := by
  cases fuel with
  | zero => rw [runStatement]; exact .outOfFuel
  | succ fuel =>
    rw [runStatement.eq_def]
    refine .last (fun _ => ?_)
    cases s with
    | letVar pos name ty value =>
      exact .last (fun _ => .last (fun _ => .last (fun _ => .pure rfl)))
    | static decl => exact .pure rfl
    | assign pos op place value =>
      cases fuel with
      | zero => exact .outOfFuel
      | succ fuel =>
        dsimp only
        rw [runAssign_eq]
        exact .last (fun _ => .last (fun _ => .pure rfl))
    | panic pos => exact .last (fun _ => .last (fun _ => .fail))
    | expr pos value => cases value <;> exact .last (fun _ => .pure rfl)
    | _ => cases h

/-- A `return` gives a value just if one is written. -/
theorem maintains_ret (env : Env) (fuel : Nat) (pos : Position) (value : Option Expr) :
    Maintains (fun _ => True) (fun flow => ∃ v, flow = .returned v ∧ v.isSome = value.isSome)
      (runStatement env fuel (.ret pos value)) := by
  cases fuel with
  | zero => rw [runStatement]; exact .outOfFuel
  | succ fuel =>
    cases value with
    | none => rw [runStatement]; exact .last (fun _ => .pure ⟨none, rfl, rfl⟩)
    | some value =>
      rw [runStatement]
      exact .last (fun _ => .last (fun _ => .last (fun v => .pure ⟨some v, rfl, rfl⟩)))

/-- Well-formed code, in the contexts that the parser tells apart. -/
def Flow.discipline : Discipline Parser.Context where
  stmt ctx s := s.WellFormed ctx
  block ctx ss := AllWellFormed ctx ss
  inside ctx loop _ := if loop then { ctx with inLoop := true } else ctx
  flow ctx flow := flow.AllowedIn ctx
  knows := True

theorem Flow.lawful_discipline : discipline.Lawful where
  expr_parts _ :=
    Discipline.exprParts_of_forall (fun _ => trivial) (fun _ => trivial) (fun _ _ => trivial)
      (fun _ _ => trivial) _
  args_parts _ := ⟨trivial, trivial⟩
  stmt_parts {ctx s} h := by
    have h : s.WellFormed ctx := h
    cases s with
    | assign pos op place value => exact ⟨by cases place <;> trivial, trivial⟩
    | ifThen => exact ⟨trivial, trivial, h.2⟩
    | ifElse => exact ⟨trivial, trivial, h.2.1, h.2.2⟩
    | forRange => exact ⟨trivial, trivial, trivial, h.2.2.2.2⟩
    | loop => exact ⟨trivial, h⟩
    | breakLoop => exact h
    | continueLoop => exact h
    | ret pos value =>
      cases value with
      | none => exact h
      | some value => exact ⟨trivial, fun _ _ => h.1⟩
    | _ => trivial
  block_parts {ctx s ss} h := by
    refine ⟨h.1, ?_⟩
    cases s <;> exact h.2
  reads_of_assigns _ := trivial
  value_of_inRange _ := trivial
  value_element _ _ := trivial
  flow_next := trivial
  flow_branch h := h
  -- a `return` in a loop is one of the function
  flow_round {_ _ v} h := by cases v <;> exact h
  flow_bind h := h

/-- A judgment about the results of one run. -/
abbrev Flow.judgment : Judgment Parser.Context :=
  fun _ _ {_} x _ V _ => Maintains (fun _ => True) V x

theorem Flow.rules (env : Env) :
    FullRules discipline (.self env) judgment where
  lawful := lawful_discipline
  functions := Pairing.pairsFunctions_self env
  pure h := .pure (h trivial)
  fail _ _ _ := .fail
  outOfFuel _ _ := .outOfFuel
  succ hx := hx
  bind hx hf := hx.bind (fun a ha => hf a (fun _ => ha))
  weaken hx hV := hx.mono hV
  forget hx := hx
  read _ _ _ := maintains_true _
  operandHints _ _ _ _ := maintains_true _
  returnHint := maintains_true _
  applyOp _ _ _ _ _ _ := maintains_true _
  declare _ _ := maintains_true _
  inScope scope _ _ _ hx := hx.inScope scope
  enterStatement _ := maintains_true _
  runPanic _ := .last (fun _ => .last (fun _ => .fail))
  noFunction _ _ := .fail
  callWith _ _ _ _ _ _ _ := (maintains_true _).mono (fun _ _ _ _ => trivial)
  update _ _ _ _ := maintains_true _

section

variable (env : Env) (fuel : Nat) {ctx : Parser.Context}

/-- Well-formed code gives the flows that its context allows. -/
theorem allowed_runBlock {ss : List Statement} (h : AllWellFormed ctx ss) :
    Maintains (fun _ => True) (Flow.AllowedIn ctx) (runBlock env fuel ss) :=
  ((Flow.rules env).parts fuel).runBlock (Pairing.alike_relocateAll ss) h

theorem allowed_runStatement {s : Statement} (h : s.WellFormed ctx) :
    Maintains (fun _ => True) (Flow.AllowedIn ctx) (runStatement env fuel s) :=
  ((Flow.rules env).parts fuel).runStatement (Pairing.counterpart_relocate s) h

end

theorem Looping.run_zero (env : Env) (l : Looping) : l.run env 0 = outOfFuel := by
  cases l with
  | endless body => exact runLoop.eq_1 env body
  | counting var w i stop body => exact runFor.eq_1 env var w i stop body

/-- No loop lets a `break` or a `continue` out, whatever its body is. -/
theorem Looping.maintains_run (env : Env) (fuel : Nat) (l : Looping) :
    Maintains (fun _ => True) (fun flow => flow ≠ .broke ∧ flow ≠ .continued) (l.run env fuel) := by
  induction fuel generalizing l with
  | zero => rw [run_zero]; exact .outOfFuel
  | succ fuel ih =>
    cases hnext : l.next? with
    | none => rw [run_over hnext]; exact .pure ⟨nofun, nofun⟩
    | some round =>
      rw [run_round hnext]
      refine .last (fun flow => ?_)
      split
      · exact ih round.2
      · next hends =>
        refine .pure ?_
        cases flow with
        | continued => exact absurd rfl hends
        | _ => exact ⟨nofun, nofun⟩

/-! ## Section 3: The statements that a run comes to -/

/-- From the first state on, the statement runs the block in a scope opened in the second. -/
inductive Opens (env : Env) : Statement → Machine → List Statement → Machine → Prop where
  | ifThen {pos : Position} {cond : Expr} {yes : List Statement} {m m₁ : Machine} {w : Width}
      {n : Nat} (cond_runs : ComesTo (fun fuel => eval env fuel cond none)
        (m.emit (.statement pos m.depth)) (.done (.scalar w n) m₁)) (holds : n ≠ 0) :
      Opens env (.ifThen pos cond yes) m yes m₁
  | ifElse {pos : Position} {cond : Expr} {yes no : List Statement} {m m₁ : Machine} {w : Width}
      {n : Nat} (cond_runs : ComesTo (fun fuel => eval env fuel cond none)
        (m.emit (.statement pos m.depth)) (.done (.scalar w n) m₁)) :
      Opens env (.ifElse pos cond yes no) m (if n ≠ 0 then yes else no) m₁

/-- From the first state on, the statement runs the loop from the second on. -/
inductive Starts (env : Env) : Statement → Machine → Looping → Machine → Prop where
  | loop {pos : Position} {body : List Statement} {m : Machine} :
      Starts env (.loop pos body) m (.endless body) (m.emit (.statement pos m.depth))
  | forRange {pos : Position} {var : String} {ty : Ty} {start stop : Expr}
      {body : List Statement} {m m₁ m₂ : Machine} {first past : Nat}
      (start_runs : ComesTo (fun fuel => eval env fuel start (some ty.width))
        (m.emit (.statement pos m.depth)) (.done (.scalar ty.width first) m₁))
      (stop_runs : ComesTo (fun fuel => eval env fuel stop (some ty.width)) m₁
        (.done (.scalar ty.width past) m₂)) :
      Starts env (.forRange pos var ty start stop body) m
        (.counting var ty.width first past body) m₂

/-- Some rounds of the first loop go on, one after another, and leave it as the second. -/
inductive Looping.Passes (env : Env) : Looping → Machine → Looping → Machine → Prop where
  | none {l : Looping} {m : Machine} : Passes env l m l m
  | round {l rest l' : Looping} {scope : NameMap Value} {m m₁ m' : Machine} {flow : Flow}
      (more : l.next? = some (scope, rest))
      (runs : ComesTo (fun fuel => runBlock env fuel l.body) (m.pushScope scope) (.done flow m₁))
      (goesOn : flow.goesOn = true) (later : Passes env rest m₁.popScope l' m') :
      Passes env l m l' m'

/-- Running the block from the first state on comes to running the statement in the second.  The
    loop, if there is one, is the innermost of the block that is running then, with the state
    before its round. -/
inductive Executes (env : Env) :
    List Statement → Machine → Option (Looping × Machine) → Statement → Machine → Prop where
  | here {s : Statement} {rest : List Statement} {m : Machine} :
      Executes env (s :: rest) m none s m
  | after {s t : Statement} {rest : List Statement} {m m₁ q : Machine}
      {inner : Option (Looping × Machine)}
      (runs : ComesTo (fun fuel => runStatement env fuel s) m (.done .next m₁))
      (later : Executes env rest m₁ inner t q) : Executes env (s :: rest) m inner t q
  | inside {s t : Statement} {rest ss : List Statement} {m m₁ q : Machine}
      {inner : Option (Looping × Machine)} (opens : Opens env s m ss m₁)
      (within : Executes env ss (m₁.pushScope .empty) inner t q) :
      Executes env (s :: rest) m inner t q
  | round {s t : Statement} {rest : List Statement} {m m₁ m₂ q : Machine} {l l' after : Looping}
      {scope : NameMap Value} {inner : Option (Looping × Machine)} (starts : Starts env s m l m₁)
      (passes : l.Passes env m₁ l' m₂) (more : l'.next? = some (scope, after))
      (within : Executes env l'.body (m₂.pushScope scope) inner t q) :
      Executes env (s :: rest) m (some (inner.getD (l', m₂))) t q

section

variable {env : Env} {m m₁ : Machine} {o : Outcome Flow}

/-- A condition that is a word is taken as its number. -/
theorem comesTo_condition {β : Type} {x : Nat → Exec Value} {k : Nat → Width × Nat → Exec β}
    {w : Width} {n : Nat} {o : Outcome β} (h : ComesTo x m (.done (.scalar w n) m₁))
    (pos : Position) :
    ComesTo (fun fuel => x fuel >>= fun v => scalar pos v >>= k fuel) m o ↔
      ComesTo (fun fuel => k fuel (w, n)) m₁ o := by
  rw [ComesTo.bind_done_iff h]
  exact ComesTo.bind_done_iff (a := (w, n)) (.const (scalar pos (.scalar w n)) m₁)

theorem Opens.comesTo {s : Statement} {ss : List Statement} (h : Opens env s m ss m₁)
    (ho : ComesTo (fun fuel => runBlock env fuel ss) (m₁.pushScope .empty) o) :
    ComesTo (fun fuel => runStatement env fuel s) m (o.mapMachine Machine.popScope) := by
  rw [ComesTo.succ_iff]
  simp only [runStatement.eq_def]
  cases h with
  | ifThen cond_runs holds =>
    dsimp only
    rw [Statement.pos, comesTo_statement, comesTo_condition cond_runs]
    simp only [holds, ne_eq, not_false_eq_true, if_true]
    exact ho.within (fun m => m.pushScope .empty) Machine.popScope
  | ifElse cond_runs =>
    dsimp only
    rw [Statement.pos, comesTo_statement, comesTo_condition cond_runs]
    exact ho.within (fun m => m.pushScope .empty) Machine.popScope

theorem Starts.comesTo_iff {s : Statement} {l : Looping} (h : Starts env s m l m₁) :
    ComesTo (fun fuel => runStatement env fuel s) m o ↔
      ComesTo (fun fuel => l.run env fuel) m₁ o := by
  cases h with
  | loop =>
    rw [ComesTo.succ_iff]
    simp only [runStatement]
    rw [Statement.pos, comesTo_statement]
    exact Iff.rfl
  | forRange start_runs stop_runs => exact comesTo_forRange start_runs stop_runs

theorem Looping.Passes.comesTo_iff {l l' : Looping} (h : l.Passes env m l' m₁) :
    ComesTo (fun fuel => l.run env fuel) m o ↔ ComesTo (fun fuel => l'.run env fuel) m₁ o := by
  induction h with
  | none => exact Iff.rfl
  | round more runs goesOn later ih => exact (comesTo_run_of_pass more runs goesOn).trans ih

/-- A statement that does not just go on ends its block. -/
theorem comesTo_runBlock_of_end {s : Statement} {rest : List Statement}
    (ho : ComesTo (fun fuel => runStatement env fuel s) m o) (hends : ∀ m', o ≠ .done .next m') :
    ComesTo (fun fuel => runBlock env fuel (s :: rest)) m o := by
  rw [ComesTo.succ_iff]
  simp only [runBlock]
  cases o with
  | done flow m' =>
    refine .bind_done ho ?_
    cases flow with
    | next => exact absurd rfl (hends m')
    | _ => exact .const _ _
  | fault e m' => exact .bind_fault ho
  | outOfFuel => exact .bind_outOfFuel ho

theorem comesTo_runBlock_of_next {s : Statement} {rest : List Statement}
    (h : ComesTo (fun fuel => runStatement env fuel s) m (.done .next m₁)) :
    ComesTo (fun fuel => runBlock env fuel (s :: rest)) m o ↔
      ComesTo (fun fuel => runBlock env fuel rest) m₁ o := by
  rw [ComesTo.succ_iff]
  simp only [runBlock]
  exact ComesTo.bind_done_iff h

end

/-! ## Section 4: What an executed statement decides -/

theorem Outcome.mapMachine_mapMachine {α : Type} (f g : Machine → Machine) (o : Outcome α) :
    (o.mapMachine f).mapMachine g = o.mapMachine (fun m => g (f m)) := by
  cases o <;> rfl

theorem Outcome.endsLoop?_mapMachine (f : Machine → Machine) (o : Outcome Flow) :
    (o.mapMachine f).endsLoop? = o.endsLoop?.map (mapMachine f) := by
  cases o with
  | done flow m => cases flow <;> rfl
  | _ => rfl

theorem Outcome.mapMachine_ne_next {f : Machine → Machine} {o : Outcome Flow}
    (h : ∀ m, o ≠ .done .next m) (m : Machine) : o.mapMachine f ≠ .done .next m := by
  cases o with
  | done flow m' =>
    intro heq
    cases heq
    exact h m' rfl
  | _ => exact nofun

/-- The state after leaving so many blocks. -/
def Machine.popScopes (m : Machine) (n : Nat) : Machine := n.repeat popScope m

/-- Running the block from the first state on comes to a statement that starts a loop, and this to
    the loop in progress. -/
structure InProgress (env : Env) (ss : List Statement) (m : Machine) (s : Statement) (p : Machine)
    (l : Looping) (m₁ : Machine) : Prop where
  reached : ∃ outer, Executes env ss m outer s p
  started : ∃ first m₀, Starts env s p first m₀ ∧ first.Passes env m₀ l m₁

theorem InProgress.comesTo_iff {env : Env} {ss : List Statement} {m p m₁ : Machine}
    {s : Statement} {l : Looping} (h : InProgress env ss m s p l m₁) {o : Outcome Flow} :
    ComesTo (fun fuel => runStatement env fuel s) p o ↔
      ComesTo (fun fuel => l.run env fuel) m₁ o := by
  obtain ⟨first, m₀, starts, passes⟩ := h.started
  exact starts.comesTo_iff.trans passes.comesTo_iff

namespace Executes

variable {env : Env} {ss : List Statement} {m q : Machine} {t : Statement}
variable {inner : Option (Looping × Machine)}

/-- The block ends as the statement does, unless this just goes on or ends a loop around it. -/
theorem comesTo {o : Outcome Flow} (h : Executes env ss m inner t q)
    (ho : ComesTo (fun fuel => runStatement env fuel t) q o) (hends : ∀ m', o ≠ .done .next m')
    (hloops : inner ≠ none → o.endsLoop? = some o) :
    ∃ n, ComesTo (fun fuel => runBlock env fuel ss) m
      (o.mapMachine (fun m => m.popScopes n)) := by
  induction h with
  | here =>
    refine ⟨0, comesTo_runBlock_of_end ?_ (Outcome.mapMachine_ne_next hends)⟩
    cases o <;> exact ho
  | after runs later ih =>
    obtain ⟨n, hrest⟩ := ih ho hloops
    exact ⟨n, (comesTo_runBlock_of_next runs).mpr hrest⟩
  | inside opens within ih =>
    obtain ⟨n, hblock⟩ := ih ho hloops
    have hs := opens.comesTo hblock
    rw [Outcome.mapMachine_mapMachine] at hs
    exact ⟨n + 1, comesTo_runBlock_of_end hs (Outcome.mapMachine_ne_next hends)⟩
  | round starts passes more within ih =>
    have hpasses := hloops (Option.some_ne_none _)
    obtain ⟨n, hbody⟩ := ih ho (fun _ => hpasses)
    have hround : ((o.mapMachine (fun m => m.popScopes n)).mapMachine Machine.popScope).endsLoop? =
        some (o.mapMachine (fun m => m.popScopes (n + 1))) := by
      rw [Outcome.mapMachine_mapMachine, Outcome.endsLoop?_mapMachine, hpasses]
      rfl
    have hrun := Looping.comesTo_run_of_end more hbody hround
    have hs := starts.comesTo_iff.mpr (passes.comesTo_iff.mpr hrun)
    exact ⟨n + 1, comesTo_runBlock_of_end hs (Outcome.mapMachine_ne_next hends)⟩

/-- The block came to the statement that started the innermost loop, and within the round of this
    loop there is no other around what is executed. -/
theorem innermost {l : Looping} {m₁ : Machine} (h : Executes env ss m (some (l, m₁)) t q) :
    (∃ s p, InProgress env ss m s p l m₁) ∧ ∃ scope rest, l.next? = some (scope, rest) ∧
      Executes env l.body (m₁.pushScope scope) none t q := by
  generalize hinner : some (l, m₁) = inner at h
  induction h with
  | here => cases hinner
  | after runs later ih =>
    obtain ⟨⟨s, p, ⟨outer, reached⟩, started⟩, hround⟩ := ih hinner
    exact ⟨⟨s, p, ⟨outer, .after runs reached⟩, started⟩, hround⟩
  | inside opens within ih =>
    obtain ⟨⟨s, p, ⟨outer, reached⟩, started⟩, hround⟩ := ih hinner
    exact ⟨⟨s, p, ⟨outer, .inside opens reached⟩, started⟩, hround⟩
  | @round s t rest m _ m₂ q l₀ l' after scope inner starts passes more within ih =>
    cases inner with
    | none =>
      cases hinner
      exact ⟨⟨s, m, ⟨none, .here⟩, l₀, _, starts, passes⟩, scope, after, more, within⟩
    | some found =>
      obtain ⟨⟨s', p, ⟨outer, reached⟩, started⟩, hround⟩ := ih hinner
      exact ⟨⟨s', p, ⟨_, .round starts passes more reached⟩, started⟩, hround⟩

/-- Outside of loops, a statement stands in the context of the block. -/
theorem wellFormed {ctx : Parser.Context} (h : Executes env ss m none t q)
    (hss : AllWellFormed ctx ss) : t.WellFormed ctx := by
  generalize hinner : none = inner at h
  induction h with
  | here => exact hss.1
  | after runs later ih => exact ih hss.2 hinner
  | inside opens within ih =>
    refine ih ?_ hinner
    cases opens with
    | ifThen cond_runs holds => exact hss.1.2
    | ifElse cond_runs =>
      split
      · exact hss.1.2.1
      · exact hss.1.2.2
  | round starts passes more within ih => cases hinner

/-- A `break` ends the innermost loop around it, and the statement that started this loop just goes
    on. -/
theorem comesTo_of_break {l : Looping} {m₁ : Machine} {pos : Position}
    (h : Executes env ss m (some (l, m₁)) (.breakLoop pos) q) :
    ∃ s p n, InProgress env ss m s p l m₁ ∧ ComesTo (fun fuel => runStatement env fuel s) p
      (.done .next ((q.emit (.statement pos q.depth)).popScopes n)) := by
  obtain ⟨⟨s, p, hloop⟩, scope, rest, more, hround⟩ := h.innermost
  have hbreak : ComesTo (fun fuel => runStatement env fuel (.breakLoop pos)) q
      (.done .broke (q.emit (.statement pos q.depth))) :=
    comesTo_of_done (fun fuel => lasts_runStatement env fuel _)
      (show (runStatement env 1 (.breakLoop pos) q).outcome = _ from rfl)
  obtain ⟨n, hbody⟩ := hround.comesTo hbreak nofun (absurd rfl)
  exact ⟨s, p, n + 1, hloop, hloop.comesTo_iff.mpr (Looping.comesTo_run_of_end more hbody rfl)⟩

/-- After a `continue`, the innermost loop around it goes on with its next round. -/
theorem comesTo_of_continue {l : Looping} {m₁ : Machine} {pos : Position}
    (h : Executes env ss m (some (l, m₁)) (.continueLoop pos) q) :
    ∃ s p scope rest n, InProgress env ss m s p l m₁ ∧ l.next? = some (scope, rest) ∧ ∀ o,
      ComesTo (fun fuel => runStatement env fuel s) p o ↔
        ComesTo (fun fuel => rest.run env fuel)
          ((q.emit (.statement pos q.depth)).popScopes n) o := by
  obtain ⟨⟨s, p, hloop⟩, scope, rest, more, hround⟩ := h.innermost
  have hcontinue : ComesTo (fun fuel => runStatement env fuel (.continueLoop pos)) q
      (.done .continued (q.emit (.statement pos q.depth))) :=
    comesTo_of_done (fun fuel => lasts_runStatement env fuel _)
      (show (runStatement env 1 (.continueLoop pos) q).outcome = _ from rfl)
  obtain ⟨n, hbody⟩ := hround.comesTo hcontinue nofun (absurd rfl)
  refine ⟨s, p, scope, rest, n + 1, hloop, more, fun o => ?_⟩
  rw [hloop.comesTo_iff, Looping.comesTo_run_of_pass more hbody rfl]
  exact Iff.rfl

end Executes

/-- What becomes of a `break` and of a `continue` that are executed in this code. -/
structure JumpsContained (env : Env) (ss : List Statement) : Prop where
  /-- There is a loop around a `break`, and the statement that started the innermost one just goes
      on, in the state that the `break` left, but for the scopes of the blocks it was in. -/
  broke : ∀ {m inner pos q}, Executes env ss m inner (.breakLoop pos) q →
    ∃ l m₁ s p n, inner = some (l, m₁) ∧ InProgress env ss m s p l m₁ ∧
      ComesTo (fun fuel => runStatement env fuel s) p
        (.done .next ((q.emit (.statement pos q.depth)).popScopes n))
  /-- There is a loop around a `continue`, and the innermost one goes on with its next round. -/
  continued : ∀ {m inner pos q}, Executes env ss m inner (.continueLoop pos) q →
    ∃ l m₁ s p scope rest n, inner = some (l, m₁) ∧ InProgress env ss m s p l m₁ ∧
      l.next? = some (scope, rest) ∧ ∀ o,
        ComesTo (fun fuel => runStatement env fuel s) p o ↔
          ComesTo (fun fuel => rest.run env fuel)
            ((q.emit (.statement pos q.depth)).popScopes n) o

theorem jumpsContained {env : Env} {ss : List Statement} {ctx : Parser.Context}
    (hctx : ctx.inLoop = false) (hss : AllWellFormed ctx ss) : JumpsContained env ss := by
  constructor
  · intro m inner pos q h
    cases inner with
    | none =>
      have hloop : ctx.inLoop = true := h.wellFormed hss
      rw [hctx] at hloop
      cases hloop
    | some found =>
      obtain ⟨s, p, n, hprogress, hruns⟩ := h.comesTo_of_break
      exact ⟨found.1, found.2, s, p, n, rfl, hprogress, hruns⟩
  · intro m inner pos q h
    cases inner with
    | none =>
      have hloop : ctx.inLoop = true := h.wellFormed hss
      rw [hctx] at hloop
      cases hloop
    | some found =>
      obtain ⟨s, p, scope, rest, n, hprogress, more, hruns⟩ := h.comesTo_of_continue
      exact ⟨found.1, found.2, s, p, scope, rest, n, rfl, hprogress, more, hruns⟩

/-! ## Section 5: Where a return comes from -/

/-- Running the block from the state on comes to a `return` that belongs to it. -/
def ReturnsIn (env : Env) (ss : List Statement) (m : Machine) : Prop :=
  ∃ inner pos value q, Executes env ss m inner (.ret pos value) q

namespace ReturnsIn

variable {env : Env} {s : Statement} {ss rest : List Statement} {m m₁ m₂ : Machine}

theorem after (runs : ComesTo (fun fuel => runStatement env fuel s) m (.done .next m₁))
    (h : ReturnsIn env rest m₁) : ReturnsIn env (s :: rest) m := by
  obtain ⟨inner, pos, value, q, later⟩ := h
  exact ⟨inner, pos, value, q, .after runs later⟩

theorem inside (opens : Opens env s m ss m₁) (h : ReturnsIn env ss (m₁.pushScope .empty)) :
    ReturnsIn env (s :: rest) m := by
  obtain ⟨inner, pos, value, q, within⟩ := h
  exact ⟨inner, pos, value, q, .inside opens within⟩

theorem round {l l' next : Looping} {scope : NameMap Value} (starts : Starts env s m l m₁)
    (passes : l.Passes env m₁ l' m₂) (more : l'.next? = some (scope, next))
    (h : ReturnsIn env l'.body (m₂.pushScope scope)) : ReturnsIn env (s :: rest) m := by
  obtain ⟨inner, pos, value, q, within⟩ := h
  exact ⟨_, pos, value, q, .round starts passes more within⟩

/-- A block that comes to a `return` does not run to its end. -/
theorem not_comesTo_next (h : ReturnsIn env ss m) (m' : Machine) :
    ¬ ComesTo (fun fuel => runBlock env fuel ss) m (.done .next m') := by
  intro hnext
  obtain ⟨inner, pos, value, q, hret⟩ := h
  obtain ⟨o, ho⟩ :=
    exists_comesTo (fun fuel => lasts_runStatement env fuel (.ret pos value)) q
  have hreturned : ∀ flow m', o = .done flow m' → ∃ v, flow = .returned v := by
    rintro flow m' rfl
    obtain ⟨enough, hrun⟩ := ho
    obtain ⟨-, v, hv, -⟩ :=
      (maintains_ret env enough pos value q trivial).done (hrun enough (Nat.le_refl _))
    exact ⟨v, hv⟩
  -- whether it gives a value, fails or never ends, the block does so too
  have hends : ∀ m', o ≠ .done .next m' := by
    intro m' heq
    obtain ⟨v, hv⟩ := hreturned _ _ heq
    cases hv
  have hloops : o.endsLoop? = some o := by
    cases o with
    | done flow m' =>
      obtain ⟨v, rfl⟩ := hreturned _ _ rfl
      rfl
    | _ => rfl
  obtain ⟨n, hblock⟩ := hret.comesTo ho hends (fun _ => hloops)
  exact Outcome.mapMachine_ne_next hends m' (hblock.unique hnext)

end ReturnsIn

theorem outcome_within_eq_done {α : Type} {enter leave : Machine → Machine} {x : Exec α}
    {m m' : Machine} {a : α} :
    (within enter leave x m).outcome = .done a m' ↔
      ∃ m₁, (x (enter m)).outcome = .done a m₁ ∧ leave m₁ = m' := by
  show (x (enter m)).outcome.mapMachine leave = _ ↔ _
  cases (x (enter m)).outcome <;> simp [Outcome.mapMachine, and_assoc]

/-- A computation that goes on with a word of this width has been given one. -/
theorem outcome_word_eq_done {β : Type} {x : Exec Value} {pos : Position} {w : Width}
    {k : Nat → Exec β} {m m'' : Machine} {b : β} :
    ((x >>= fun v => wordOf pos w v >>= k) m).outcome = .done b m'' ↔
      ∃ n m', (x m).outcome = .done (.scalar w n) m' ∧ (k n m').outcome = .done b m'' := by
  rw [outcome_bind_eq_done]
  constructor
  · rintro ⟨v, m', hv, hk⟩
    obtain ⟨n, m₁, hword, hrest⟩ := outcome_bind_eq_done.mp hk
    obtain rfl := (still_wordOf pos w v).eq_of_done hword
    obtain rfl := eq_scalar_of_wordOf hword
    exact ⟨n, m₁, hv, hrest⟩
  · rintro ⟨n, m', hv, hk⟩
    exact ⟨_, m', hv, (outcome_bind_done (outcome_wordOf pos w n m')).trans hk⟩

/-- With this fuel, what ends by a `return` has come to one. -/
structure ReturnsFound (env : Env) (fuel : Nat) : Prop where
  runBlock : ∀ {ss m v m'}, (runBlock env fuel ss m).outcome = .done (.returned v) m' →
    ReturnsIn env ss m
  runStatement : ∀ {s m v m'}, (runStatement env fuel s m).outcome = .done (.returned v) m' →
    ∀ rest, ReturnsIn env (s :: rest) m
  run : ∀ {l : Looping} {m v m'}, (l.run env fuel m).outcome = .done (.returned v) m' →
    ∃ l' m₁ scope next, l.Passes env m l' m₁ ∧ l'.next? = some (scope, next) ∧
      ReturnsIn env l'.body (m₁.pushScope scope)

namespace ReturnsFound

variable {env : Env} {fuel : Nat} (ih : ReturnsFound env fuel)

include ih

theorem runBlock_succ {ss : List Statement} {m m' : Machine} {v : Option Value}
    (h : (WordLang.runBlock env (fuel + 1) ss m).outcome = .done (.returned v) m') :
    ReturnsIn env ss m := by
  cases ss with
  | nil => rw [WordLang.runBlock] at h; cases h
  | cons s rest =>
    rw [WordLang.runBlock, outcome_bind_eq_done] at h
    obtain ⟨flow, m₁, hs, hrest⟩ := h
    cases flow with
    | next =>
      have runs := comesTo_of_done (fun fuel => lasts_runStatement env fuel s) hs
      exact .after runs (ih.runBlock hrest)
    | returned value => exact ih.runStatement hs rest
    | _ => cases hrest

theorem run_succ {l : Looping} {m m' : Machine} {v : Option Value}
    (h : (l.run env (fuel + 1) m).outcome = .done (.returned v) m') :
    ∃ l' m₁ scope next, l.Passes env m l' m₁ ∧ l'.next? = some (scope, next) ∧
      ReturnsIn env l'.body (m₁.pushScope scope) := by
  cases hnext : l.next? with
  | none => rw [Looping.run_over hnext] at h; cases h
  | some round =>
    obtain ⟨scope, rest⟩ := round
    rw [Looping.run_round hnext, outcome_bind_eq_done] at h
    obtain ⟨flow, m₁, hround, hrest⟩ := h
    obtain ⟨m₁, hbody, rfl⟩ := outcome_within_eq_done.mp hround
    have runs := comesTo_of_done (fun fuel => lasts_runBlock env fuel l.body) hbody
    cases flow with
    | returned value => exact ⟨l, m, scope, rest, .none, hnext, ih.runBlock hbody⟩
    | broke => cases hrest
    | _ =>
      obtain ⟨l', m₂, scope', next, passes, more, hret⟩ := ih.run hrest
      exact ⟨l', m₂, scope', next, .round hnext runs rfl passes, more, hret⟩

theorem runStatement_succ {s : Statement} {m m' : Machine} {v : Option Value}
    (h : (WordLang.runStatement env (fuel + 1) s m).outcome = .done (.returned v) m')
    (rest : List Statement) : ReturnsIn env (s :: rest) m := by
  have hplain : s.isPlain = false := by
    refine Bool.eq_false_iff.mpr (fun hplain => ?_)
    have hnext := ((maintains_plain env (fuel + 1) hplain) m trivial).done h
    cases hnext.2
  cases s with
  | ifThen pos cond yes =>
    rw [WordLang.runStatement, outcome_bind_done rfl, outcome_scalar_eq_done] at h
    obtain ⟨w, n, m₁, hcond, hyes⟩ := h
    have cond_runs := comesTo_of_done (fun fuel => lasts_eval env fuel _ _) hcond
    by_cases hn : n = 0
    · simp only [hn, ne_eq, not_true_eq_false, if_false] at hyes
      cases hyes
    · simp only [ne_eq, hn, not_false_eq_true, if_true] at hyes
      obtain ⟨m₂, hblock, -⟩ := outcome_within_eq_done.mp hyes
      exact .inside (.ifThen cond_runs hn) (ih.runBlock hblock)
  | ifElse pos cond yes no =>
    rw [WordLang.runStatement, outcome_bind_done rfl, outcome_scalar_eq_done] at h
    obtain ⟨w, n, m₁, hcond, hbranch⟩ := h
    have cond_runs := comesTo_of_done (fun fuel => lasts_eval env fuel _ _) hcond
    obtain ⟨m₂, hblock, -⟩ := outcome_within_eq_done.mp hbranch
    exact .inside (.ifElse cond_runs) (ih.runBlock hblock)
  | forRange pos var ty start stop body =>
    rw [WordLang.runStatement, outcome_bind_done rfl, outcome_word_eq_done] at h
    obtain ⟨first, m₁, hstart, h⟩ := h
    rw [outcome_word_eq_done] at h
    obtain ⟨past, m₂, hstop, hrun⟩ := h
    have starts : Starts env (.forRange pos var ty start stop body) m
        (.counting var ty.width first past body) m₂ :=
      .forRange (comesTo_of_done (fun fuel => lasts_eval env fuel _ _) hstart)
        (comesTo_of_done (fun fuel => lasts_eval env fuel _ _) hstop)
    obtain ⟨l', m₃, scope, next, passes, more, hret⟩ :=
      ih.run (l := .counting var ty.width first past body) hrun
    exact .round starts passes more hret
  | loop pos body =>
    rw [WordLang.runStatement, outcome_bind_done rfl] at h
    obtain ⟨l', m₃, scope, next, passes, more, hret⟩ := ih.run (l := .endless body) h
    exact .round .loop passes more hret
  | breakLoop pos => cases h
  | continueLoop pos => cases h
  | ret pos value => exact ⟨none, pos, value, m, .here⟩
  | _ => cases hplain

end ReturnsFound

theorem returnsFound (env : Env) (fuel : Nat) : ReturnsFound env fuel := by
  induction fuel with
  | zero =>
    constructor
    · intro ss m v m' h
      rw [runBlock] at h
      cases h
    · intro s m v m' h
      rw [runStatement] at h
      cases h
    · intro l m v m' h
      rw [Looping.run_zero] at h
      cases h
  | succ fuel ih => exact ⟨ih.runBlock_succ, ih.runStatement_succ, ih.run_succ⟩

end WordLang
