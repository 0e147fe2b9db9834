import WordLang.Proofs.Bracketing
import WordLang.Proofs.Cells

/-! # Statics belong to their function

    A static of a function is a slot of the store that every call of the
    function shares and that nothing else can reach.  Its value changes at
    assignments in the body of the function only, while a call of the
    function is the innermost one that is active; a function that is never
    called finds its statics as they were at the start.

    The proof looks at single changes.  All that is not an assignment leaves
    the statics of functions alone, so the property is a composite one; an
    assignment stores once, at its very end, after all that it evaluates has
    left the frames as they were. -/

namespace WordLang

open Exec
open Statement (flatBlock)

/-! ## Section 1: Active calls and the code that runs -/

namespace Machine

/-- Every function that is being called is one of the program's, and the call was recorded. -/
def Accounted (env : Env) (m : Machine) : Prop :=
  ∀ f, some f ∈ m.functions →
    (∃ name, env.functions.get? name = some f) ∧ ∃ depth, .call f.name depth ∈ m.events

/-- A statement of the function that runs.  Of the top level nothing is asked. -/
def InBody (m : Machine) (s : Statement) : Prop :=
  ∀ f, m.function? = some f → s ∈ flatBlock f.body

variable {env : Env} {m m' : Machine}

theorem Accounted.later (h : m.Accounted env) (hfunctions : m'.functions ⊆ m.functions)
    (hevents : m.events ⊆ m'.events) : m'.Accounted env := by
  intro f hf
  obtain ⟨hdeclared, depth, hcall⟩ := h f (hfunctions hf)
  exact ⟨hdeclared, depth, hevents hcall⟩

/-- A call that has been recorded in its own frame. -/
theorem Accounted.entered (h : m.Accounted env) {name : String} {f : Function}
    (hf : env.functions.get? name = some f) (params : NameMap Value) (depth : Nat) :
    ((m.pushFrame (.call f params)).emit (.call f.name depth)).Accounted env := by
  intro g hg
  rcases List.mem_cons.mp (show some g ∈ some f :: m.functions from hg) with heq | hmem
  · obtain rfl := Option.some.inj heq
    exact ⟨⟨name, hf⟩, depth, List.mem_cons_self⟩
  · obtain ⟨hdeclared, depth', hcall⟩ := h g hmem
    exact ⟨hdeclared, depth', List.mem_cons_of_mem _ hcall⟩

theorem Accounted.mapScopes (h : m.Accounted env)
    (f : List (NameMap Value) → List (NameMap Value)) : (m.mapScopes f).Accounted env := by
  apply h.later
  · rw [m.functions_mapScopes]
    exact List.Subset.refl _
  · rw [m.events_mapScopes]
    exact List.Subset.refl _

theorem InBody.congr {s : Statement} (h : m.InBody s) (hfunctions : m'.functions = m.functions) :
    m'.InBody s := by
  intro f hf
  rw [function?_eq_head, hfunctions, ← function?_eq_head] at hf
  exact h f hf

end Machine

/-! ## Section 2: Changes that are made by an assignment -/

/-- No static of a function has another value after the change. -/
def KeepsStatics (a b : Machine) : Prop :=
  ∀ function name, b.store.local? function name = a.store.local? function name

theorem keepsStatics_of_store {a b : Machine} (h : b.store = a.store) : KeepsStatics a b := by
  intro function name
  rw [h]

/-- The execution carries out this assignment: it comes to it with the frames that there are at the
    change, makes all the changes that the assignment makes, and this change is the last of them. -/
inductive Execution.CarriesOut {α : Type} (env : Env) {start : Machine} (ex : Execution α start)
    (pos : Position) (op : AssignOp) (place : Place) (value : Expr) (a b : Machine) : Prop where
  | intro (fuel : Nat) (begun : Machine) (through : ex.Through begun)
      (frames : begun.frames = a.frames)
      (part : ∀ p q, (runAssign env fuel pos op place value begun).changes p q → ex.changes p q)
      (change : (runAssign env fuel pos op place value begun).changes a b)
      (last : (runAssign env fuel pos op place value begun).outcome = .done .next b)

/-- The change is made by an assignment of the function that runs, in the cell of its target. -/
inductive Execution.Assigns {α : Type} (env : Env) {start : Machine} (ex : Execution α start)
    (a b : Machine) : Prop where
  | intro (pos : Position) (op : AssignOp) (place : Place) (value : Expr)
      (accounted : a.Accounted env) (stands : a.InBody (.assign pos op place value))
      (carried : ex.CarriesOut env pos op place value a b)
      (stored : ∃ c f, a.cell place.name = .ok c ∧ b = a.modifyCell c place.name f)

/-- What is done in a part of an execution is done in the whole. -/
theorem Execution.Assigns.mono {α β : Type} {env : Env} {start start' a b : Machine}
    {ex : Execution α start} {ex' : Execution β start'} (h : ex.Assigns env a b)
    (hthrough : ∀ q, ex.Through q → ex'.Through q)
    (hchanges : ∀ p q, ex.changes p q → ex'.changes p q) : ex'.Assigns env a b := by
  obtain ⟨pos, op, place, value, haccounted, hstands, hcarried, hstored⟩ := h
  obtain ⟨fuel, begun, hbegun, hframes, hpart, hchange, hlast⟩ := hcarried
  have hpart' : ∀ p q, (runAssign env fuel pos op place value begun).changes p q →
      ex'.changes p q := fun p q hpq => hchanges p q (hpart p q hpq)
  exact ⟨pos, op, place, value, haccounted, hstands,
    ⟨fuel, begun, hthrough _ hbegun, hframes, hpart', hchange, hlast⟩, hstored⟩

/-- Changes to statics of functions are made by assignments of the function that runs, and active
    calls are accounted for at the end. -/
structure Owns {α : Type} (env : Env) (x : Exec α) (m : Machine) : Prop where
  changes : ∀ a b, (x m).changes a b → KeepsStatics a b ∨ (x m).Assigns env a b
  ends : ∀ m', (x m).outcome.machine? = some m' → m'.Accounted env ∧ m'.functions = m.functions

namespace Owns

variable {α β : Type} {env : Env} {x : Exec α} {m : Machine}

theorem of_still (h : Still x) (hm : m.Accounted env) : Owns env x m := by
  refine ⟨fun a b hab => ((h m).1.changes a b hab).elim, ?_⟩
  intro m' hm'
  have hsame : m = m' := by
    rcases h.answer m with ⟨a, hdone⟩ | ⟨e, hfault⟩
    · rw [hdone] at hm'
      exact Option.some.inj hm'
    · rw [hfault] at hm'
      exact Option.some.inj hm'
  exact hsame ▸ ⟨hm, rfl⟩

theorem outOfFuel : Owns env (Exec.outOfFuel : Exec α) m := ⟨fun _ _ hab => hab.elim, nofun⟩

theorem modify {f : Machine → Machine} (hstore : (f m).store = m.store)
    (hafter : (f m).Accounted env) (hfunctions : (f m).functions = m.functions) :
    Owns env (Exec.modify f) m := by
  constructor
  · intro a b hab
    obtain ⟨rfl, rfl⟩ := hab
    exact .inl (keepsStatics_of_store hstore)
  · intro m' hm'
    obtain rfl := Option.some.inj hm'
    exact ⟨hafter, hfunctions⟩

theorem emit (e : Machine → Event) (hm : m.Accounted env) :
    Owns env (Exec.modify fun m => m.emit (e m)) m :=
  .modify rfl (hm.later (List.Subset.refl _) (List.subset_cons_self _ _)) rfl

theorem bind {f : α → Exec β} (h : Owns env x m)
    (hf : ∀ a m', m'.Accounted env → m'.functions = m.functions → Owns env (f a) m') :
    Owns env (x >>= f) m := by
  have hsecond : ∀ {a m'}, (x m).outcome = .done a m' →
      m'.functions = m.functions ∧ Owns env (f a) m' := by
    intro a m' hdone
    obtain ⟨hm', hfunctions⟩ := h.ends m' (by rw [hdone]; rfl)
    exact ⟨hfunctions, hf a m' hm' hfunctions⟩
  constructor
  · intro p q hpq
    rcases changes_bind.mp hpq with hfirst | ⟨a, m', hdone, hchange⟩
    · refine (h.changes p q hfirst).imp_right (fun hassigns => ?_)
      exact hassigns.mono (fun _ => .bind_left) (fun _ _ hpq => changes_bind.mpr (.inl hpq))
    · refine ((hsecond hdone).2.changes p q hchange).imp_right (fun hassigns => ?_)
      exact hassigns.mono (fun _ => .bind_right hdone)
        (fun _ _ hpq => changes_bind.mpr (.inr ⟨a, m', hdone, hpq⟩))
  · intro m'' hm''
    rw [outcome_bind] at hm''
    cases hx : (x m).outcome with
    | done a m' =>
      rw [hx] at hm''
      obtain ⟨hfunctions, howns⟩ := hsecond hx
      obtain ⟨hend, hfunctions'⟩ := howns.ends m'' hm''
      exact ⟨hend, hfunctions'.trans hfunctions⟩
    | fault e m' =>
      rw [hx] at hm''
      exact h.ends m'' (by rw [hx]; exact hm'')
    | outOfFuel => rw [hx] at hm''; cases hm''

/-- Neither entering nor leaving touches the store. -/
theorem within {enter leave : Machine → Machine} (henter : (enter m).store = m.store)
    (hleave : ∀ p : Machine, (leave p).store = p.store) (h : Owns env x (enter m))
    (hback : ∀ p : Machine, p.Accounted env → p.functions = (enter m).functions →
      (leave p).Accounted env ∧ (leave p).functions = m.functions) :
    Owns env (Exec.within enter leave x) m := by
  constructor
  · intro p q hpq
    rcases hpq with ⟨rfl, rfl⟩ | hinside | ⟨-, rfl⟩
    · exact .inl (keepsStatics_of_store henter)
    · refine (h.changes p q hinside).imp_right (fun hassigns => ?_)
      exact hassigns.mono (fun _ => .within) (fun _ _ hpq => .inr (.inl hpq))
    · exact .inl (keepsStatics_of_store (hleave p))
  · intro m' hm'
    have hinner : (x (enter m)).outcome.machine?.map leave = some m' := by
      rw [← Outcome.machine?_mapMachine]
      exact hm'
    obtain ⟨last, hlast, rfl⟩ := Option.map_eq_some_iff.mp hinner
    obtain ⟨hinside, hfunctions⟩ := h.ends last hlast
    exact hback last hinside hfunctions

end Owns

/-! ## Section 3: All parts of the semantics -/

section

variable {env : Env} {m : Machine}

theorem owns_finishCall (hm : m.Accounted env) (pos : Position) (f : Function) (flow : Flow) :
    Owns env (finishCall pos f flow) m := by
  have hret : ∀ v (n : Machine), n.Accounted env →
      Owns env (modify fun m => m.emit (.ret f.name v)) n := fun v _ hn => .emit _ hn
  unfold finishCall
  split
  · exact .bind (hret none m hm) (fun _ m' hm' _ => .of_still .pure hm')
  · next ty v _ =>
    apply Owns.bind (.of_still (still_expectType pos ty v) hm)
    intro _ m' hm' _
    exact .bind (hret (some v) m' hm') (fun _ m'' hm'' _ => .of_still .pure hm'')
  · exact .of_still .fail hm

/-- The body of a function runs in a frame of its own, after the call has been recorded. -/
theorem owns_inFrame (hm : m.Accounted env) {name : String} {f : Function}
    (hf : env.functions.get? name = some f) (params : NameMap Value) {body : Exec Flow}
    (hbody : ∀ n : Machine, n.Accounted env → (∀ s ∈ flatBlock f.body, n.InBody s) →
      Owns env body n) :
    Owns env (inFrame (.call f params) (do
      modify (fun m => m.emit (.call f.name m.depth))
      body)) m := by
  refine .within rfl (fun _ => rfl) ?_ ?_
  · apply Owns.bind (.modify rfl (hm.entered hf params _) rfl)
    intro _ n hn hfunctions
    refine hbody n hn (fun s hs g hg => ?_)
    rw [Machine.function?_eq_head, hfunctions] at hg
    obtain rfl := Option.some.inj (show some f = some g from hg)
    exact hs
  · intro p hp hfunctions
    have htail : p.popFrame.functions = p.functions.tail := List.map_tail
    refine ⟨hp.later ?_ (List.Subset.refl _), ?_⟩
    · rw [htail]
      exact fun _ => List.mem_of_mem_tail
    · rw [htail, hfunctions]
      rfl

end

/-- The property of computations that is inherited: it is about states in which the active calls
    are accounted for and the statements are those of the function that runs. -/
def Owning (env : Env) (T : Statement → Prop) {α : Type} (x : Exec α) : Prop :=
  ∀ m : Machine, m.Accounted env → (∀ s, T s → m.InBody s) → Owns env x m

theorem composite_owning (env : Env) : Composite env (Owning env) where
  pure _ := fun _ hm _ => .of_still .pure hm
  fail _ _ _ := fun _ hm _ => .of_still .fail hm
  outOfFuel := fun _ _ _ => .outOfFuel
  reads _ _ := fun _ hm _ => .of_still .reads hm
  bind h hf := by
    intro m hm hT
    apply (h m hm hT).bind
    intro a m' hm' hfunctions
    exact hf a m' hm' (fun s hs => (hT s hs).congr hfunctions)
  declare _ _ := fun m hm _ =>
    .modify (m.store_mapScopes _) (hm.mapScopes _) (m.functions_mapScopes _)
  inScope scope _ h := by
    intro m hm hT
    have hfunctions := m.functions_mapScopes (fun scopes => scope :: scopes)
    refine .within (m.store_mapScopes _) (fun p => p.store_mapScopes _) ?_ ?_
    · exact h _ (hm.mapScopes _) (fun s hs => (hT s hs).congr hfunctions)
    · intro p hp hp'
      exact ⟨hp.mapScopes _, (p.functions_mapScopes _).trans (hp'.trans hfunctions)⟩
  enterStatement _ := fun _ hm _ => .emit _ hm
  runPanic pos := by
    intro m hm _
    apply Owns.bind (.of_still .reads hm)
    intro function m' hm' _
    exact .bind (.emit _ hm') (fun _ _ hm'' _ => .of_still .fail hm'')
  callWith {_ _ f} pos args values {_} hf hbody := by
    intro m hm _
    apply Owns.bind (.of_still (still_prepareCall _ pos f args values) hm)
    intro params m' hm' _
    apply Owns.bind (owns_inFrame hm' hf params hbody)
    intro flow m'' hm'' _
    exact owns_finishCall hm'' pos f flow

/-! ## Section 4: Assignments store last -/

/-- Looking for the cell is no change, so there is at most one: that of the value found there. -/
theorem changes_update {pos : Position} {name : String} {f : Value → Value} {m a b : Machine}
    (h : (update pos name f m).changes a b) :
    a = m ∧ (update pos name f m).outcome = .done () b ∧
      ∃ c, a.cell name = .ok c ∧ b = a.modifyCell c name f := by
  rcases changes_bind.mp h with hreads | ⟨found, m', hfound, hchange⟩
  · exact hreads.elim
  · obtain ⟨hcell, rfl⟩ := Outcome.done.inj hfound
    cases found with
    | error cause => exact hchange.elim
    | ok c =>
      obtain ⟨rfl, rfl⟩ := hchange
      refine ⟨rfl, ?_, c, hcell, rfl⟩
      rw [update, outcome_bind_done hfound]
      rfl

/-- From states with these frames, the only change to the statics of functions that is not made by
    another assignment is the last one, to the cell of the name. -/
def StoresLast (env : Env) (T : Statement → Prop) (name : String) (frames : List Frame)
    (x : Exec Flow) : Prop :=
  ∀ m : Machine, m.Accounted env → (∀ s, T s → m.InBody s) → m.frames = frames →
    ∀ a b, (x m).changes a b → KeepsStatics a b ∨ (x m).Assigns env a b ∨
      a.frames = frames ∧ a.Accounted env ∧ (∀ s, T s → a.InBody s) ∧
        (x m).outcome = .done .next b ∧ ∃ c f, a.cell name = .ok c ∧ b = a.modifyCell c name f

section

variable {env : Env} {T : Statement → Prop} {name : String} {frames : List Frame}

/-- What is evaluated before has other assignments only, and leaves the frames. -/
theorem StoresLast.bind {α : Type} {x : Exec α} {f : α → Exec Flow} (hx : Owning env T x)
    (hkept : Moves (Kept Eq) x) (hf : ∀ a, StoresLast env T name frames (f a)) :
    StoresLast env T name frames (x >>= f) := by
  intro m hm hT hframes a b hab
  have howns := hx m hm hT
  rcases changes_bind.mp hab with hfirst | ⟨v, m', hdone, hchange⟩
  · refine (howns.changes a b hfirst).imp_right (fun hassigns => .inl ?_)
    exact hassigns.mono (fun _ => .bind_left) (fun _ _ h => changes_bind.mpr (.inl h))
  · obtain ⟨hm', hfunctions⟩ := howns.ends m' (by rw [hdone]; rfl)
    have hframes' : m'.frames = frames := ((hkept m).done hdone).frames_eq.trans hframes
    have hT' : ∀ s, T s → m'.InBody s := fun s hs => (hT s hs).congr hfunctions
    rcases hf v m' hm' hT' hframes' a b hchange with
      hkeeps | hassigns | ⟨ha, ha', haT, hlast, hcell⟩
    · exact .inl hkeeps
    · refine .inr (.inl ?_)
      exact hassigns.mono (fun _ => .bind_right hdone)
        (fun _ _ h => changes_bind.mpr (.inr ⟨v, m', hdone, h⟩))
    · refine .inr (.inr ⟨ha, ha', haT, ?_, hcell⟩)
      rw [outcome_bind_done hdone]
      exact hlast

theorem storesLast_fail (pos : Position) (cause : RuntimeCause) :
    StoresLast env T name frames (fail pos cause) :=
  fun _ _ _ _ _ _ hab => hab.elim

theorem storesLast_update (pos : Position) (f : Value → Value) :
    StoresLast env T name frames (update pos name f >>= fun _ => pure .next) := by
  intro m hm hT hframes a b hab
  rcases changes_bind.mp hab with hupdate | ⟨_, m', -, hpure⟩
  · obtain ⟨rfl, hend, c, hcell, hb⟩ := changes_update hupdate
    refine .inr (.inr ⟨hframes, hm, hT, ?_, c, f, hcell, hb⟩)
    rw [outcome_bind_done hend]
    rfl
  · exact hpure.elim

theorem KeepsStatics.modifyCell_id (m : Machine) (c : Machine.Cell) (name : String) :
    KeepsStatics m (m.modifyCell c name id) := by
  intro function other
  cases c with
  | scope index =>
    show (m.mapScopes _).store.local? function other = _
    rw [m.store_mapScopes]
  | static owner =>
    show (m.store.modifyLocal owner name id).local? function other = _
    rw [Store.local?_modifyLocal, Option.map_id, id, ite_self]
  | global => rfl

theorem storesLast_store (pos : Position) (index : Option Nat) (v : Value) :
    StoresLast env T name frames (store pos name index v >>= fun _ => pure .next) := by
  unfold store
  split
  · exact storesLast_update pos _
  · exact storesLast_update pos _
  -- an array is refused as an element, after the cell has been given the value that it has
  · intro m _ _ _ a b hab
    rcases changes_bind.mp hab with hrefused | ⟨_, m', -, hpure⟩
    · rcases changes_bind.mp hrefused with hupdate | ⟨_, m', -, hfail⟩
      · obtain ⟨rfl, -, c, -, rfl⟩ := changes_update hupdate
        exact .inl (.modifyCell_id a c name)
      · exact hfail.elim
    · exact hpure.elim

end

theorem storesLast_runAssign {env : Env} {fuel : Nat} (ih : AllParts env (Owning env) fuel)
    {T : Statement → Prop} (frames : List Frame) (pos : Position) (op : AssignOp) (place : Place)
    (value : Expr) :
    StoresLast env T place.name frames (runAssign env (fuel + 1) pos op place value) := by
  have h := composite_owning env
  rw [runAssign.eq_def]
  apply StoresLast.bind
  · cases place with
    | var name => exact h.pure _
    | elem offset array =>
      exact h.bind (ih.eval _ _) (fun v => h.bind (h.scalar _ v) (fun word => h.pure _))
  · cases place with
    | var name => exact .pure
    | elem offset array =>
      exact .bind (kept_eval env fuel _ _) (fun v => .bind (moves_scalar _ _) (fun word => .pure))
  · intro index
    apply StoresLast.bind (h.target _ _ _) (moves_target _ _ _)
    intro there
    dsimp only
    split
    · apply StoresLast.bind (ih.eval _ _) (kept_eval env fuel _ _)
      intro v
      exact .bind (h.expectType _ _ v) (moves_expectType _ _ v) (fun _ => storesLast_store _ _ v)
    · apply StoresLast.bind (ih.eval _ _) (kept_eval env fuel _ _)
      intro v
      apply StoresLast.bind (h.wordOf _ _ v) (moves_wordOf _ _ v)
      intro n
      apply StoresLast.bind (h.applyOp _ _ _ _ _ _ _) (moves_applyOp _ _ _ _ _ _ _)
      intro result
      exact storesLast_store _ _ result
    · exact storesLast_fail _ _

theorem owning_runAssign {env : Env} {fuel : Nat} (ih : AllParts env (Owning env) fuel)
    {T : Statement → Prop} (pos : Position) (op : AssignOp) (place : Place) (value : Expr)
    (hT : T (.assign pos op place value)) :
    Owning env T (runAssign env (fuel + 1) pos op place value) := by
  intro m hm hbody
  constructor
  · intro a b hab
    rcases storesLast_runAssign ih m.frames pos op place value m hm hbody rfl a b hab with
      hkeeps | hassigns | ⟨hframes, ha, ha', hlast, hstored⟩
    · exact .inl hkeeps
    · exact .inr hassigns
    · exact .inr ⟨pos, op, place, value, ha, ha' _ hT,
        ⟨fuel + 1, m, .start, hframes.symm, fun _ _ h => h, hab, hlast⟩, hstored⟩
  · intro m' hm'
    have hsteady : Steady env.config.maxDepth (fun _ => True) := fun _ _ _ _ => trivial
    have hwalks : Walks env.config.maxDepth (fun _ => True) _ :=
      ((inherited_walks hsteady).parts (fuel + 1)).runAssign (T := fun _ => True) pos op place
        value trivial
    have hevents : Extends m m' := ((runAssign env (fuel + 1) pos op place value m).linked m'
      hm').moved (fun a b hab => ((hwalks m trivial).changes a b hab).1.extends)
    have hfunctions : m'.functions = m.functions := Machine.functions_of_kept
      ((kept_runAssign env (fuel + 1) pos op place value).ends hm')
    exact ⟨hm.later (hfunctions ▸ List.Subset.refl _) hevents.subset, hfunctions⟩

theorem owning_runTopLevel (env : Env) (fuel : Nat) (ss : List Statement) :
    Owning env (fun _ => True) (runTopLevel env fuel ss) := by
  have h := composite_owning env
  apply h.runTopLevel (h.judged (fun _ => owning_runAssign))
  intro T pos m hm _
  exact .emit _ hm

/-! ## Section 5: Statics of functions are private -/

/-- The change is made at an assignment to a static of the function, which stands in the body of
    the function, while a recorded call of it is the innermost one that is active. -/
inductive Program.WritesStatic (p : Program) (env : Env) {start : Machine}
    (ex : Execution Unit start) (function name : String) (a b : Machine) : Prop where
  | intro (f : Function) (pos : Position) (op : AssignOp) (place : Place) (value : Expr)
      (declared : f ∈ p.functions) (named : f.name = function) (running : a.function? = some f)
      (recorded : ∃ depth, .call function depth ∈ a.events)
      (stands : .assign pos op place value ∈ flatBlock f.body) (target : place.name = name)
      (carried : ex.CarriesOut env pos op place value a b)

/-- A static of a function changes only in its own cell. -/
theorem Machine.static_of_modifyCell {m : Machine} {c : Cell} {name function other : String}
    {f : Value → Value}
    (h : (m.modifyCell c name f).store.local? function other ≠ m.store.local? function other) :
    c = .static function ∧ name = other := by
  cases c with
  | scope index => exact absurd (congrArg (fun s => s.local? function other)
      (m.store_mapScopes _)) h
  | static owner =>
    by_cases hsame : function = owner ∧ other = name
    · exact ⟨by rw [hsame.1], hsame.2.symm⟩
    · refine absurd ?_ h
      show (m.store.modifyLocal owner name f).local? function other = _
      rw [Store.local?_modifyLocal, if_neg hsame]
  | global => exact absurd rfl h

namespace Program

variable {p : Program} {config : Config}

theorem owns_execution (fuel : Nat) {m : Machine} (hm : m.functions = [none]) :
    Owns (p.env config) (p.execution (p.env config) fuel) m := by
  apply owning_runTopLevel
  -- at the top level no call is active
  · intro f hf
    rw [hm] at hf
    cases List.mem_singleton.mp hf
  · intro s _ f hf
    rw [Machine.function?_eq_head, hm] at hf
    cases hf

theorem writesStatic_of_change {fuel : Nat} {m a b : Machine} {function name : String}
    (hm : m.functions = [none]) (hab : (p.execution (p.env config) fuel m).changes a b)
    (hne : b.store.local? function name ≠ a.store.local? function name) :
    p.WritesStatic (p.env config) (p.execution (p.env config) fuel m) function name a b := by
  rcases (owns_execution fuel hm).changes a b hab with hkeeps | hassigns
  · exact absurd (hkeeps function name) hne
  · obtain ⟨pos, op, place, value, haccounted, hstands, hcarried, c, f, hcell, rfl⟩ := hassigns
    obtain ⟨rfl, rfl⟩ := Machine.static_of_modifyCell hne
    obtain ⟨fn, hfn, hname⟩ := Option.map_eq_some_iff.mp (Machine.functionName?_of_cell hcell)
    have hmem : some fn ∈ a.functions := by
      rw [Machine.function?_eq_head] at hfn
      exact List.mem_of_head? (Option.join_eq_some_iff.mp hfn)
    obtain ⟨⟨declaredName, hdeclared⟩, hrecorded⟩ := haccounted fn hmem
    rw [hname] at hrecorded
    exact ⟨fn, pos, op, place, value, (function_declared hdeclared).1, hname, hfn, hrecorded,
      hstands fn hfn, rfl, hcarried⟩

/-- A function whose call is not recorded by the end has not written to its statics. -/
theorem local?_of_execute {fuel : Nat} {m m' : Machine} {function : String}
    (hm : m.functions = [none]) (hend : (p.execute (p.env config) fuel m).machine? = some m')
    (hcalls : ∀ depth, .call function depth ∉ m'.events) (name : String) :
    m'.store.local? function name = m.store.local? function name := by
  by_cases hsame : m'.store.local? function name = m.store.local? function name
  · exact hsame
  · obtain ⟨a, b, hab, hdiffer, hthrough⟩ :=
      Execution.crosses (fun n => n.store.local? function name) hend hsame
    obtain ⟨-, -, -, -, -, -, -, -, ⟨depth, hcall⟩, -⟩ := writesStatic_of_change hm hab hdiffer
    -- what is recorded at the change is still there at the end
    exact absurd ((extends_of_through hthrough hend).subset hcall) (hcalls depth)

/-- The statics of a function are private to it.  As long as no call of the function has been
    recorded, over any number of executions, they have the values of the start.  A static has
    another value after a change only if an assignment in the body of its function makes the change,
    while the innermost active call is one of that function.  And wherever the function runs, in
    whichever of its calls, its static is what the name is read from and written to, unless a
    variable of that call has the name. -/
theorem function_statics_private (p : Program) (config : Config) (function : String) :
    (∀ m, p.Reaches (p.env config) p.start m → (∀ depth, .call function depth ∉ m.events) →
      ∀ name, m.store.local? function name = p.start.store.local? function name) ∧
    (∀ m, p.Reaches (p.env config) p.start m → ∀ fuel a b name,
      (p.execution (p.env config) fuel m).changes a b →
      b.store.local? function name ≠ a.store.local? function name →
      p.WritesStatic (p.env config) (p.execution (p.env config) fuel m) function name a b) ∧
    ∀ (m : Machine) name v, m.functionName? = some function → m.bound? name = none →
      m.store.local? function name = some v →
      m.read? name = some v ∧ m.cell name = .ok (.static function) ∧
        ∀ f, (m.modifyCell (.static function) name f).store.local? function name = some (f v) := by
  refine ⟨?_, ?_, ?_⟩
  · intro m hm
    induction hm with
    | start => exact fun _ _ => rfl
    | @execute m m' fuel before ends ih =>
      intro hcalls name
      have hextends := extends_of_through .start ends
      have hearlier : ∀ depth, .call function depth ∉ m.events :=
        fun depth hcall => hcalls depth (hextends.subset hcall)
      rw [local?_of_execute before.functions_eq ends hcalls, ih hearlier]
  · intro m hm fuel a b name hab hne
    exact writesStatic_of_change hm.functions_eq hab hne
  · intro m name v hfunction hbound hv
    obtain ⟨hread, hcell⟩ := Machine.own_static_found hfunction hbound hv
    refine ⟨hread, hcell, ?_⟩
    intro f
    show (m.store.modifyLocal function name f).local? function name = _
    rw [Store.local?_modifyLocal, if_pos ⟨rfl, rfl⟩, hv]
    rfl

/-- Counts its calls in a static while it calls itself. -/
def countsCalls : Function :=
  ⟨"f", [⟨"n", .uint .byte⟩], none,
    [.static ⟨"S", .uint .byte, ⟨1, 15⟩⟩, .assign ⟨2, 3⟩ .add (.var "S") (.literal ⟨2, 8⟩ 1),
      .ifThen ⟨3, 3⟩ (.ident ⟨3, 6⟩ "n") [.expr ⟨3, 10⟩ (.call ⟨3, 10⟩ "f"
        [.binary ⟨3, 14⟩ .sub (.ident ⟨3, 12⟩ "n") (.literal ⟨3, 16⟩ 1)])]], ⟨1, 1⟩⟩

/-- One function that is called and one that is not, each with a static of the same name. -/
def countedCalls : Program :=
  ⟨[.function countsCalls,
    .function ⟨"g", [], none, [.static ⟨"S", .uint .byte, ⟨5, 10⟩⟩,
      .assign ⟨6, 3⟩ .set (.var "S") (.literal ⟨6, 7⟩ 9)], ⟨5, 1⟩⟩,
    .statement (.expr ⟨8, 1⟩ (.call ⟨8, 1⟩ "f" [.literal ⟨8, 3⟩ 1]))]⟩

/-- What the first execution leaves: two calls of the one function, none of the other. -/
def afterCounting : Machine :=
  ⟨⟨.empty, (NameMap.singleton "f" (.singleton "S" (.scalar .byte 2))).insert "g"
      (.singleton "S" (.scalar .byte 0)), .empty⟩,
    [.topLevel],
    [.ret "f" none, .ret "f" none, .statement ⟨3, 3⟩ 2, .statement ⟨2, 3⟩ 2, .statement ⟨1, 15⟩ 2,
      .call "f" 2, .statement ⟨3, 10⟩ 1, .statement ⟨3, 3⟩ 1, .statement ⟨2, 3⟩ 1,
      .statement ⟨1, 15⟩ 1, .call "f" 1, .statement ⟨8, 1⟩ 0]⟩

/-- Both calls of the one have counted in its static, in an assignment of its own, and the static of
    the other is as it was. -/
theorem function_statics_private_countedCalls :
    countedCalls.Reaches (countedCalls.env .default) countedCalls.start afterCounting ∧
    afterCounting.store.local? "f" "S" = some (.scalar .byte 2) ∧
    afterCounting.store.local? "g" "S" = countedCalls.start.store.local? "g" "S" ∧
    (∃ a b, (countedCalls.execution (countedCalls.env .default) 20 countedCalls.start).changes a b ∧
      b.store.local? "f" "S" ≠ a.store.local? "f" "S" ∧
      countedCalls.WritesStatic (countedCalls.env .default)
        (countedCalls.execution (countedCalls.env .default) 20 countedCalls.start) "f" "S" a b) ∧
    (afterCounting.pushFrame (.call countsCalls .empty)).read? "S" = some (.scalar .byte 2) := by
  obtain ⟨-, hwrites, hshared⟩ := function_statics_private countedCalls .default "f"
  obtain ⟨huncalled, -⟩ := function_statics_private countedCalls .default "g"
  have hend : (countedCalls.execute (countedCalls.env .default) 20 countedCalls.start).machine? =
      some afterCounting := rfl
  have hreaches := Reaches.execute (p := countedCalls) .start hend
  have hnone : ∀ depth, Event.call "g" depth ∉ afterCounting.events := by
    intro depth hcall
    simp [afterCounting] at hcall
  have hcounted : afterCounting.store.local? "f" "S" ≠ countedCalls.start.store.local? "f" "S" :=
    show some (Value.scalar .byte 2) ≠ some (Value.scalar .byte 0) by decide
  obtain ⟨a, b, hab, hdiffer, -⟩ :=
    Execution.crosses (fun n => n.store.local? "f" "S") hend hcounted
  exact ⟨hreaches, rfl, huncalled _ hreaches hnone "S",
    ⟨a, b, hab, hdiffer, hwrites _ .start 20 a b "S" hab hdiffer⟩, (hshared _ "S" _ rfl rfl rfl).1⟩

end Program

end WordLang
