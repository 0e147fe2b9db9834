import WordLang.Proofs.Declared
import WordLang.Proofs.Steps

/-! # Programs without `loop` end

    Three things bound a run without `loop`: the calls that the limit still
    lets through, the syntax that is left, and the rounds that are left of
    each `for`.  The calls come first.  What a function runs is no part of
    the call, but with one frame more there is room for one call less.

    `Halts` says that some fuel is enough, whatever the machine looks like
    apart from the number of its frames.  The number is all that the
    argument needs to know of a machine, and nothing that is evaluated or
    run leaves another one behind. -/

namespace WordLang

open Exec

/-! ## Section 1: Programs without `loop` -/

namespace Statement

mutual

/-- Whether a statement is a `loop` or has one inside. -/
def hasLoop : Statement → Bool
  | .loop _ _ => true
  | .ifThen _ _ yes => blockHasLoop yes
  | .ifElse _ _ yes no => blockHasLoop yes || blockHasLoop no
  | .forRange _ _ _ _ _ body => blockHasLoop body
  | .letVar _ _ _ _ | .static _ | .assign _ _ _ _ | .breakLoop _ | .continueLoop _ | .ret _ _
  | .panic _ | .expr _ _ => false

/-- Whether there is a `loop` anywhere in a block. -/
def blockHasLoop : List Statement → Bool
  | [] => false
  | s :: rest => hasLoop s || blockHasLoop rest

end

end Statement

/-- There is no `loop` in any function and none at the top level. -/
def Program.LoopFree (p : Program) : Prop :=
  (∀ f ∈ p.functions, Statement.blockHasLoop f.body = false) ∧
    Statement.blockHasLoop p.statements = false

instance (p : Program) : Decidable p.LoopFree :=
  inferInstanceAs (Decidable (_ ∧ _))

/-! ## Section 2: Computations for which some fuel is enough -/

/-- On this machine some fuel is enough for an answer, and more fuel gives the same one.  A result
    leaves as many frames as there were. -/
inductive Settles {α : Type} (x : Nat → Exec α) (m : Machine) : Prop where
  | done (a : α) (m' : Machine) (enough : Nat)
      (ends : ∀ fuel, enough ≤ fuel → (x fuel m).outcome = .done a m')
      (level : m'.frames.length = m.frames.length)
  | fault (e : RuntimeError) (m' : Machine) (enough : Nat)
      (ends : ∀ fuel, enough ≤ fuel → (x fuel m).outcome = .fault e m')

/-- Some fuel is enough on every machine with this number of frames. -/
def Halts {α : Type} (height : Nat) (x : Nat → Exec α) : Prop :=
  ∀ m, m.frames.length = height → Settles x m

namespace Halts

variable {α β : Type} {height : Nat} {x : Nat → Exec α}

theorem of_still {y : Exec α} (h : Still y) : Halts height (fun _ => y) := by
  intro m _
  rcases h.answer m with ⟨a, hdone⟩ | ⟨e, hfault⟩
  · exact .done a m 0 (fun _ _ => hdone) rfl
  · exact .fault e m 0 (fun _ _ => hfault)

theorem pure {a : α} : Halts height (fun _ => (Pure.pure a : Exec α)) := .of_still .pure

theorem modify {g : Machine → Machine}
    (h : ∀ m, (g m).frames.length = m.frames.length) :
    Halts height (fun _ => Exec.modify g) :=
  fun m _ => .done () (g m) 0 (fun _ _ => rfl) (h m)

theorem bind {f : Nat → α → Exec β} (hx : Halts height x)
    (hf : ∀ a, Halts height (fun fuel => f fuel a)) :
    Halts height (fun fuel => x fuel >>= f fuel) := by
  intro m hm
  cases hx m hm with
  | fault e m' enough ends =>
    exact .fault e m' enough (fun fuel hle => outcome_bind_fault (ends fuel hle))
  | done a m' first hfirst level =>
    -- what is enough for both parts is enough for the whole
    cases hf a m' (level.trans hm) with
    | done b m'' second hsecond level' =>
      refine .done b m'' (max first second) (fun fuel hle => ?_) (level'.trans level)
      rw [outcome_bind_done (hfirst fuel (by omega))]
      exact hsecond fuel (by omega)
    | fault e m'' second hsecond =>
      refine .fault e m'' (max first second) (fun fuel hle => ?_)
      rw [outcome_bind_done (hfirst fuel (by omega))]
      exact hsecond fuel (by omega)

/-- Between two parts, a look at what the first one gave. -/
theorem checked {γ : Type} {g : α → Exec β} {k : Nat → α → β → Exec γ} (hx : Halts height x)
    (hg : ∀ a, Still (g a)) (hk : ∀ a b, Halts height (fun fuel => k fuel a b)) :
    Halts height (fun fuel => x fuel >>= fun a => g a >>= k fuel a) :=
  .bind hx (fun a => .bind (.of_still (hg a)) (hk a))

theorem within {enter leave : Machine → Machine} {inside : Nat}
    (henter : ∀ m, m.frames.length = height → (enter m).frames.length = inside)
    (hleave : ∀ m, m.frames.length = inside → (leave m).frames.length = height)
    (h : Halts inside x) : Halts height (fun fuel => Exec.within enter leave (x fuel)) := by
  intro m hm
  have hinside := henter m hm
  cases h (enter m) hinside with
  | done a m' enough ends level =>
    refine .done a (leave m') enough (fun fuel hle => ?_) ?_
    · exact congrArg (Outcome.mapMachine leave) (ends fuel hle)
    · exact (hleave m' (level.trans hinside)).trans hm.symm
  | fault e m' enough ends =>
    refine .fault e (leave m') enough (fun fuel hle => ?_)
    exact congrArg (Outcome.mapMachine leave) (ends fuel hle)

theorem inScope (scope : NameMap Value) (h : Halts height x) :
    Halts height (fun fuel => Exec.inScope scope (x fuel)) :=
  h.within (fun m hm => (m.length_frames_mapScopes _).trans hm)
    (fun m hm => (m.length_frames_mapScopes _).trans hm)

theorem inFrame (frame : Frame) (h : Halts (height + 1) x) :
    Halts height (fun fuel => Exec.inFrame frame (x fuel)) := by
  refine h.within (fun m hm => congrArg (· + 1) hm) (fun m hm => ?_)
  show m.frames.tail.length = height
  rw [List.length_tail, hm]
  rfl

/-- What a part does with its fuel lowered by one is what it does. -/
theorem succ (h : Halts height (fun fuel => x (fuel + 1))) : Halts height x := by
  have hlower : ∀ {o : Outcome α} {m : Machine} {enough : Nat},
      (∀ fuel, enough ≤ fuel → (x (fuel + 1) m).outcome = o) →
      ∀ fuel, enough + 1 ≤ fuel → (x fuel m).outcome = o := by
    intro o m enough ends fuel hle
    obtain ⟨fuel, rfl⟩ := Nat.exists_eq_add_of_le' (Nat.le_trans (Nat.le_add_left 1 enough) hle)
    exact ends fuel (by omega)
  intro m hm
  cases h m hm with
  | done a m' enough ends level => exact .done a m' (enough + 1) (hlower ends) level
  | fault e m' enough ends => exact .fault e m' (enough + 1) (hlower ends)

end Halts

section

variable {height : Nat}

theorem halts_emit (e : Machine → Event) : Halts height (fun _ => modify fun m => m.emit (e m)) :=
  .modify (fun _ => rfl)

theorem halts_runPanic (pos : Position) : Halts height (fun _ => runPanic pos) :=
  .bind (.of_still .reads) (fun _ => .bind (halts_emit _) (fun _ => .of_still .fail))

theorem halts_finishCall (pos : Position) (f : Function) (flow : Flow) :
    Halts height (fun _ => finishCall pos f flow) := by
  unfold finishCall
  split
  · exact .bind (halts_emit _) (fun _ => .pure)
  · exact .bind (.of_still (still_expectType _ _ _)) (fun _ =>
      .bind (halts_emit _) (fun _ => .pure))
  · exact .of_still .fail

theorem halts_update (pos : Position) (name : String) (f : Value → Value) :
    Halts height (fun _ => update pos name f) := by
  refine .bind (.of_still .reads) (fun found => ?_)
  cases found with
  | error cause => exact .of_still .fail
  | ok c => exact .modify (fun m => m.length_frames_modifyCell c name f)

theorem halts_store (pos : Position) (name : String) (index : Option Nat) (v : Value) :
    Halts height (fun _ => store pos name index v) := by
  unfold store
  split
  · exact halts_update _ _ _
  · exact halts_update _ _ _
  · exact .bind (halts_update _ _ _) (fun _ => .of_still .fail)

end

/-! ## Section 3: Calls -/

section

variable {env : Env} {height : Nat}

/-- The bodies of all functions halt one frame further up, as far as a call may be made at all. -/
def BodiesHalt (env : Env) (height : Nat) : Prop :=
  height - 1 < env.config.maxDepth → ∀ name f, env.functions.get? name = some f →
    Halts (height + 1) (fun fuel => runBlock env fuel f.body)

/-- What comes after a call has been prepared has to halt only where there is room for the call. -/
theorem halts_of_prepareCall {β : Type} (pos : Position) (f : Function) (args : List Expr)
    (values : List Value) {k : Nat → NameMap Value → Exec β}
    (hk : height - 1 < env.config.maxDepth → ∀ params, Halts height (fun fuel => k fuel params)) :
    Halts height (fun fuel => prepareCall env pos f args values >>= k fuel) := by
  have hready := still_prepareCall env pos f args values
  by_cases hroom : height - 1 < env.config.maxDepth
  · exact .bind (.of_still hready) (hk hroom)
  · intro m hm
    rcases hready.answer m with ⟨params, hdone⟩ | ⟨e, hfault⟩
    · have hbelow : m.frames.length - 1 < env.config.maxDepth := depth_lt_of_prepareCall hdone
      rw [hm] at hbelow
      exact absurd hbelow hroom
    · exact .fault e m 0 (fun _ _ => outcome_bind_fault hfault)

theorem halts_call (hbodies : BodiesHalt env height) (pos : Position) (name : String)
    {args : List Expr} (hargs : ∀ ps, Halts height (fun fuel => evalArgs env fuel ps args)) :
    Halts height (fun fuel => call env fuel pos name args) := by
  apply Halts.succ
  simp only [call]
  cases hname : env.functions.get? name with
  | none => exact .of_still .fail
  | some f =>
    refine .bind (hargs f.params) (fun values => halts_of_prepareCall pos f args values ?_)
    intro hroom params
    have hbody := hbodies hroom name f hname
    exact .bind (.inFrame _ (.bind (halts_emit _) (fun _ => hbody)))
      (fun flow => halts_finishCall pos f flow)

/-! ## Section 4: Expressions -/

mutual

theorem halts_eval (hbodies : BodiesHalt env height) (e : Expr) (hint : Option Width) :
    Halts height (fun fuel => eval env fuel e hint) := by
  apply Halts.succ
  match e with
  | .literal pos value =>
    simp only [eval]
    exact .of_still (still_literal _ _ _)
  | .ident pos name =>
    simp only [eval]
    exact .of_still (still_read _ _)
  | .index pos offset array =>
    simp only [eval]
    exact .checked (halts_eval hbodies offset _) (still_scalar _)
      (fun _ _ => .of_still (still_readElement _ _ _))
  | .binary pos op left right =>
    simp only [eval]
    split
    · exact .checked (halts_eval hbodies left _) (still_scalar _) (fun _ _ =>
        .checked (halts_eval hbodies right _) (still_scalar _) (fun _ _ => .pure))
    · refine .bind (.of_still .reads) (fun hints => ?_)
      exact .checked (halts_eval hbodies left _) (still_scalar _) (fun _ _ =>
        .checked (halts_eval hbodies right _) (still_wordOf _ _) (fun _ _ =>
          .of_still (still_applyOp _ _ _ _ _ _ _)))
  | .call pos name args =>
    simp only [eval]
    refine .bind (halts_call hbodies pos name (fun ps => halts_evalArgs hbodies args ps)) ?_
    intro result
    cases result with
    | none => exact .of_still .fail
    | some v => exact .pure

theorem halts_evalArgs (hbodies : BodiesHalt env height) (es : List Expr) (ps : List Param) :
    Halts height (fun fuel => evalArgs env fuel ps es) := by
  apply Halts.succ
  match es with
  | [] =>
    simp only [evalArgs]
    exact .pure
  | e :: rest =>
    simp only [evalArgs]
    exact .bind (halts_eval hbodies e _) (fun _ =>
      .bind (halts_evalArgs hbodies rest _) (fun _ => .pure))

end

/-! ## Section 5: Statements -/

theorem halts_assign (hbodies : BodiesHalt env height) (pos : Position) (op : AssignOp)
    (place : Place) (value : Expr) :
    Halts height (fun fuel => runAssign env fuel pos op place value) := by
  apply Halts.succ
  simp only [runAssign]
  refine .bind ?_ (fun index => .bind (.of_still (still_target _ _ _)) (fun there => ?_))
  · cases place with
    | var name => exact .pure
    | elem offset array =>
      exact .checked (halts_eval hbodies offset _) (still_scalar _) (fun _ _ => .pure)
  · split
    · exact .checked (halts_eval hbodies value _) (still_expectType _ _) (fun _ _ =>
        .bind (halts_store _ _ _ _) (fun _ => .pure))
    · exact .checked (halts_eval hbodies value _) (still_wordOf _ _) (fun _ _ =>
        .bind (.of_still (still_applyOp _ _ _ _ _ _ _)) (fun _ =>
          .bind (halts_store _ _ _ _) (fun _ => .pure)))
    · exact .of_still .fail

/-- The bounds are numbers by now, so nothing that the body does changes how many rounds are
    left. -/
theorem halts_for {body : List Statement}
    (hbody : Halts height (fun fuel => runBlock env fuel body)) (var : String) (w : Width)
    (i stop : Nat) :
    Halts height (fun fuel => runFor env fuel var w i stop body) := by
  induction hleft : stop - i generalizing i with
  | zero =>
    apply Halts.succ
    simp only [runFor, if_neg (show ¬ i < stop by omega)]
    exact .pure
  | succ left ih =>
    have hrest := ih (i + 1) (by omega)
    apply Halts.succ
    simp only [runFor, if_pos (show i < stop by omega)]
    refine .bind (.inScope _ hbody) (fun flow => ?_)
    cases flow with
    | next => exact hrest
    | broke => exact .pure
    | continued => exact hrest
    | returned v => exact .pure

mutual

theorem halts_statement (hbodies : BodiesHalt env height) (s : Statement)
    (hfree : s.hasLoop = false) : Halts height (fun fuel => runStatement env fuel s) := by
  apply Halts.succ
  simp only [runStatement]
  refine .bind (halts_emit _) (fun _ => ?_)
  match s with
  | .letVar pos name ty value =>
    exact .checked (halts_eval hbodies value _) (still_expectType _ _) (fun _ _ =>
      .bind (.modify (fun m => m.length_frames_mapScopes _)) (fun _ => .pure))
  | .static decl => exact .pure
  | .assign pos op place value => exact halts_assign hbodies pos op place value
  | .ifThen pos cond yes =>
    have hyes := halts_block hbodies yes hfree
    refine .checked (halts_eval hbodies cond _) (still_scalar _) (fun _ word => ?_)
    obtain ⟨w, n⟩ := word
    dsimp only
    split
    · exact .inScope _ hyes
    · exact .pure
  | .ifElse pos cond yes no =>
    obtain ⟨hfreeYes, hfreeNo⟩ := Bool.or_eq_false_iff.mp hfree
    have hyes := halts_block hbodies yes hfreeYes
    have hno := halts_block hbodies no hfreeNo
    refine .checked (halts_eval hbodies cond _) (still_scalar _) (fun _ word => .inScope _ ?_)
    obtain ⟨w, n⟩ := word
    dsimp only
    split
    · exact hyes
    · exact hno
  | .forRange pos var ty start stop body =>
    have hbody := halts_block hbodies body hfree
    exact .checked (halts_eval hbodies start _) (still_wordOf _ _) (fun _ first =>
      .checked (halts_eval hbodies stop _) (still_wordOf _ _) (fun _ past =>
        halts_for hbody var _ first past))
  | .loop pos body => cases hfree
  | .breakLoop pos => exact .pure
  | .continueLoop pos => exact .pure
  | .ret pos none => exact .pure
  | .ret pos (some value) =>
    exact .bind (.of_still .reads) (fun _ => .bind (halts_eval hbodies value _) (fun _ => .pure))
  | .panic pos => exact halts_runPanic pos
  | .expr pos value =>
    cases value with
    | call pos name args =>
      exact .bind (halts_call hbodies pos name (fun ps => halts_evalArgs hbodies args ps))
        (fun _ => .pure)
    | _ => exact .bind (halts_eval hbodies _ _) (fun _ => .pure)

theorem halts_block (hbodies : BodiesHalt env height) (ss : List Statement)
    (hfree : Statement.blockHasLoop ss = false) :
    Halts height (fun fuel => runBlock env fuel ss) := by
  apply Halts.succ
  match ss with
  | [] =>
    simp only [runBlock]
    exact .pure
  | s :: rest =>
    obtain ⟨hs, hrest⟩ := Bool.or_eq_false_iff.mp hfree
    have hafter := halts_block hbodies rest hrest
    simp only [runBlock]
    refine .bind (halts_statement hbodies s hs) (fun flow => ?_)
    cases flow with
    | next => exact hafter
    | broke => exact .pure
    | continued => exact .pure
    | returned v => exact .pure

end

theorem halts_runTopLevel (hbodies : BodiesHalt env height) (ss : List Statement)
    (hfree : Statement.blockHasLoop ss = false) :
    Halts height (fun fuel => runTopLevel env fuel ss) := by
  induction ss with
  | nil =>
    apply Halts.succ
    simp only [runTopLevel]
    exact .pure
  | cons s rest ih =>
    obtain ⟨hs, hrest⟩ := Bool.or_eq_false_iff.mp hfree
    apply Halts.succ
    simp only [runTopLevel]
    refine .bind (halts_statement hbodies s hs) (fun flow => ?_)
    cases flow with
    | returned v => exact halts_emit _
    | _ => exact ih hrest

/-! ## Section 6: All functions -/

/-- By induction on the calls that the limit still lets through: the bodies that a call can run are
    those one frame further up. -/
theorem bodiesHalt
    (hfree : ∀ name f, env.functions.get? name = some f → Statement.blockHasLoop f.body = false)
    (height : Nat) : BodiesHalt env height := by
  induction hroom : env.config.maxDepth + 1 - height generalizing height with
  | zero =>
    intro hbelow
    omega
  | succ room ih =>
    have hdeeper := ih (height + 1) (by omega)
    intro _ name f hf
    exact halts_block hdeeper f.body (hfree name f hf)

end

namespace Program

/-- A program without `loop` ends: from every state of a machine, with every limit on calls and
    every overflow policy, its execution has an outcome that some fuel is enough for, and that is
    the outcome with any more fuel. -/
theorem halts_of_loopFree (p : Program) (hfree : p.LoopFree) (config : Config) (m : Machine) :
    ∃ outcome fuel, outcome ≠ .outOfFuel ∧ ∀ fuel', fuel ≤ fuel' →
      p.execute (p.env config) fuel' m = outcome := by
  obtain ⟨hfunctions, hstatements⟩ := hfree
  have hbodies : BodiesHalt (p.env config) m.frames.length := by
    apply bodiesHalt
    intro name f hf
    exact hfunctions f (function_declared hf).1
  cases halts_runTopLevel hbodies p.statements hstatements m rfl with
  | done a m' enough ends level => exact ⟨.done a m', enough, nofun, ends⟩
  | fault e m' enough ends => exact ⟨.fault e m', enough, nofun, ends⟩

/-- A function that calls itself for the bound of a `for`, and never returns before the limit on
    calls is reached. -/
def deepBound : Program :=
  ⟨[.function ⟨"f", [⟨"n", .uint .byte⟩], some (.uint .byte),
      [.forRange ⟨2, 1⟩ "i" (.uint .byte) (.literal ⟨2, 18⟩ 0)
          (.call ⟨2, 25⟩ "f" [.ident ⟨2, 27⟩ "n"])
        [.assign ⟨3, 1⟩ .add (.var "n") (.ident ⟨3, 6⟩ "i")],
       .ret ⟨4, 1⟩ (some (.ident ⟨4, 8⟩ "n"))],
      ⟨1, 1⟩⟩,
    .statement (.expr ⟨6, 1⟩ (.call ⟨6, 1⟩ "f" [.literal ⟨6, 3⟩ 200]))]⟩

/-- With room for a million calls, it ends too. -/
theorem halts_of_loopFree_deepBound :
    deepBound.LoopFree ∧
      ∃ outcome fuel, outcome ≠ .outOfFuel ∧ ∀ fuel', fuel ≤ fuel' →
        deepBound.execute (deepBound.env ⟨1000000, .trap⟩) fuel' deepBound.start = outcome := by
  have hfree : deepBound.LoopFree := by decide
  exact ⟨hfree, halts_of_loopFree deepBound hfree ⟨1000000, .trap⟩ _⟩

end Program

end WordLang
