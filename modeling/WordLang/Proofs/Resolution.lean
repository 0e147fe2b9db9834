import WordLang.Proofs.Cells
import WordLang.Proofs.Declared

/-! # Checked programs find their names

    The check looks at names with lists of names for scopes; a run looks at
    them with the scopes of the current frame.  `Scoped` relates the two at
    a point of the program: scope by scope, the names that the check takes
    for bound are bound.

    Nothing that runs can break this, so at every point that is reached each
    name means something and each target of an assignment can be assigned
    to.  It also holds when a program is executed again: the variables that
    an earlier execution left in the outermost scope do no harm. -/

namespace WordLang

open Exec

/-! ## Section 1: Scopes of the check and scopes of a frame -/

/-- Scope by scope, the names that the check knows are bound. -/
inductive Covers : Scopes → List (NameMap Value) → Prop where
  | nil : Covers [] []
  | cons {names : List String} {scope : NameMap Value} {scopes : Scopes} {ss : List (NameMap Value)}
      (first : names ⊆ scope.keys) (rest : Covers scopes ss) :
      Covers (names :: scopes) (scope :: ss)

namespace Covers

variable {scopes : Scopes} {ss ss' : List (NameMap Value)}

theorem sameNames (h : Covers scopes ss) (hss : SameNames ss ss') : Covers scopes ss' := by
  induction h generalizing ss' with
  | nil =>
    cases List.map_eq_nil_iff.mp hss
    exact .nil
  | cons first _ ih =>
    cases ss' with
    | nil => cases hss
    | cons scope ss' =>
      obtain ⟨hkeys, hrest⟩ := List.cons.inj hss
      exact .cons (hkeys ▸ first) (ih hrest)

theorem moreNames (h : Covers scopes ss) (hss : MoreNames ss ss') : Covers scopes ss' := by
  cases h with
  | nil =>
    cases hss
    exact .nil
  | cons first rest =>
    obtain ⟨s', ss'', rfl, hkeys, hnames⟩ := hss
    exact .cons (fun _ hn => hkeys (first hn)) (rest.sameNames hnames)

theorem bindInnermost (h : Covers scopes ss) (name : String) (v : Value) :
    Covers (scopes.bind name) (Machine.bindInnermost name v ss) := by
  cases h with
  | nil => exact .nil
  -- only the innermost scope is touched, on both sides
  | @cons names scope scopes ss first rest =>
    refine .cons (fun other hother => ?_) rest
    rcases List.mem_cons.mp hother with rfl | hother
    · rw [NameMap.mem_keys_iff, NameMap.get?_insert_self]
      rfl
    · exact scope.keys_subset_insert name v (first hother)

/-- With one name more, the names from before are still there. -/
theorem of_bind {name : String} (h : Covers (scopes.bind name) ss) : Covers scopes ss := by
  cases scopes with
  | nil => exact h
  | cons names scopes =>
    cases h with
    | cons first rest => exact .cons (fun _ hn => first (List.mem_cons_of_mem _ hn)) rest

/-- A name that the check takes for bound is in a scope. -/
theorem findIdx? (h : Covers scopes ss) {name : String} (hname : scopes.binds name) :
    (ss.findIdx? (fun s => s.contains name)).isSome := by
  rw [List.findIdx?_isSome]
  induction h with
  | nil => cases hname
  | @cons names scope scopes ss first _ ih =>
    rw [List.any_cons, Bool.or_eq_true]
    rw [Scopes.binds, List.any_cons, Bool.or_eq_true] at hname
    rcases hname with hname | hname
    · exact Or.inl (NameMap.mem_keys_iff.mp (first (List.contains_iff_mem.mp hname)))
    · exact Or.inr (ih hname)

end Covers

/-! ## Section 2: The names at a point of a run -/

/-- The names known inside a function, or at the top level. -/
def Names.inside (names : Names) : Option Function → Names
  | none => names
  | some f => { names with own := f.statics.map StaticDecl.name }

/-- What the check has made sure of: slots and functions for all names, and that bodies of
    functions hold no faulty name. -/
structure Vetted (names : Names) (env : Env) (start : Store) : Prop where
  own : names.own = []
  statics : ∀ name ∈ names.statics, (start.global? name).isSome
  consts : ∀ name ∈ names.consts, (start.const? name).isSome
  functions : ∀ name ∈ names.functions, (env.functions.get? name).isSome
  locals : ∀ name f, env.functions.get? name = some f →
    ∀ d ∈ f.statics, (start.local? f.name d.name).isSome
  bodies : ∀ name f, env.functions.get? name = some f →
    Statement.blockNameErrors (names.inside (some f)) [f.paramScope] f.body = []

/-- A state in which `function` runs above the frames `below`, and the names that the check takes
    for bound in `scopes` are bound. -/
structure Scoped (env : Env) (start : Store) (function : Option Function) (below : List Frame)
    (scopes : Scopes) (m : Machine) : Prop where
  slots : Store.SameSlots start m.store
  known : ∀ f, function = some f → ∃ name, env.functions.get? name = some f
  frames : ∃ ss, m.frames = ⟨function, ss⟩ :: below ∧ Covers scopes ss

namespace Scoped

variable {env : Env} {start : Store} {function : Option Function} {below : List Frame}
variable {scopes : Scopes} {m m' : Machine} {names : Names}

/-- Whatever keeps the frames keeps the names. -/
theorem kept (h : Scoped env start function below scopes m) (hm : Kept MoreNames m m') :
    Scoped env start function below scopes m' := by
  obtain ⟨ss, hframes, hcovers⟩ := h.frames
  refine ⟨h.slots.trans hm.slots, h.known, ?_⟩
  have hkept := hm.frames
  rw [hframes] at hkept
  obtain ⟨ss', hframes', hmore⟩ := hkept
  exact ⟨ss', hframes', hcovers.moreNames hmore⟩

theorem emit (h : Scoped env start function below scopes m) (e : Event) :
    Scoped env start function below scopes (m.emit e) :=
  h.kept (m.kept_emit e).names.more

theorem declare (h : Scoped env start function below scopes m) (name : String) (v : Value) :
    Scoped env start function below (scopes.bind name) (m.declare name v) := by
  obtain ⟨ss, hframes, hcovers⟩ := h.frames
  rcases m with ⟨store, _ | ⟨frame, rest⟩, events⟩
  · cases hframes
  · cases hframes
    exact ⟨h.slots, h.known, _, rfl, hcovers.bindInnermost name v⟩

theorem pushScope (h : Scoped env start function below scopes m) {names : List String}
    {scope : NameMap Value} (hnames : names ⊆ scope.keys) :
    Scoped env start function below (names :: scopes) (m.pushScope scope) := by
  obtain ⟨ss, hframes, hcovers⟩ := h.frames
  rcases m with ⟨store, _ | ⟨frame, rest⟩, events⟩
  · cases hframes
  · cases hframes
    exact ⟨h.slots, h.known, _, rfl, .cons hnames hcovers⟩

theorem popScope {names : List String}
    (h : Scoped env start function below (names :: scopes) m) :
    Scoped env start function below scopes m.popScope := by
  obtain ⟨ss, hframes, hcovers⟩ := h.frames
  rcases m with ⟨store, _ | ⟨frame, rest⟩, events⟩
  · cases hframes
  · cases hframes
    cases hcovers with
    | cons first rest => exact ⟨h.slots, h.known, _, rfl, rest⟩

theorem of_bind {name : String} (h : Scoped env start function below (scopes.bind name) m) :
    Scoped env start function below scopes m := by
  obtain ⟨ss, hframes, hcovers⟩ := h.frames
  exact ⟨h.slots, h.known, ss, hframes, hcovers.of_bind⟩

theorem frame? {ss : List (NameMap Value)} (hframes : m.frames = ⟨function, ss⟩ :: below) :
    m.frame? = some ⟨function, ss⟩ := by
  rw [Machine.frame?, hframes]
  rfl

/-- A static of the function that runs has a slot. -/
theorem own (h : Scoped env start function below scopes m) (hv : Vetted names env start)
    {name : String} (hname : name ∈ (names.inside function).own) :
    ∃ f, m.functionName? = some f ∧ (m.store.local? f name).isSome := by
  obtain ⟨ss, hframes, -⟩ := h.frames
  cases function with
  | none =>
    rw [Names.inside, hv.own] at hname
    cases hname
  | some f =>
    obtain ⟨d, hd, rfl⟩ := List.mem_map.mp hname
    obtain ⟨called, hcalled⟩ := h.known f rfl
    refine ⟨f.name, ?_, ?_⟩
    · rw [Machine.functionName?, Machine.function?, frame? hframes]
      rfl
    · rw [h.slots.locals]
      exact hv.locals called f hcalled d hd

/-- A name that means something to the check has a value. -/
theorem isSome_read? (h : Scoped env start function below scopes m) (hv : Vetted names env start)
    {name : String} (hname : ((names.inside function).resolve scopes name).isSome) :
    (m.read? name).isSome := by
  obtain ⟨ss, hframes, hcovers⟩ := h.frames
  rw [Machine.read?, Option.isSome_or, Option.isSome_or, Option.isSome_or]
  unfold Names.resolve at hname
  split at hname
  -- variables first, then statics of the function, global statics, constant tables
  · next hbound =>
    obtain ⟨i, hi⟩ := Option.isSome_iff_exists.mp (hcovers.findIdx? hbound)
    have hvalue : (m.bound? name).isSome := by
      rw [Machine.bound?, frame? hframes, Option.bind_some, Machine.scopesGet?_eq_find, hi]
      exact Machine.isSome_get?_of_findIdx? hi
    rw [hvalue, Bool.true_or]
  · split at hname
    · next hstatic =>
      rcases Bool.or_eq_true _ _ ▸ hstatic with hown | hglobal
      · obtain ⟨f, hf, hslot⟩ := h.own hv (List.contains_iff_mem.mp hown)
        rw [Machine.ownStatic?, hf, Option.bind_some, hslot, Bool.true_or, Bool.or_true]
      · have hslot := hv.statics name
          (List.contains_iff_mem.mp (by cases function <;> exact hglobal))
        rw [h.slots.globals, hslot, Bool.true_or, Bool.or_true, Bool.or_true]
    · split at hname
      · next hconst =>
        have hslot := hv.consts name (List.contains_iff_mem.mp (by cases function <;> exact hconst))
        rw [Store.const?, h.slots.consts, ← Store.const?, hslot, Bool.or_true, Bool.or_true,
          Bool.or_true]
      · cases hname

/-- A name that the check takes for a variable or a static has a cell. -/
theorem exists_cell (h : Scoped env start function below scopes m) (hv : Vetted names env start)
    {name : String} (hname : ((names.inside function).resolve scopes name).isSome)
    (hconst : (names.inside function).resolve scopes name ≠ some .const) :
    ∃ c, m.cell name = .ok c := by
  obtain ⟨ss, hframes, hcovers⟩ := h.frames
  unfold Machine.cell
  split
  · next i _ => exact ⟨.scope i, rfl⟩
  · next hnone =>
    split
    · next f _ => exact ⟨.static f, rfl⟩
    · next hlocal =>
      unfold Names.resolve at hname hconst
      split at hname
      -- what the check found in a scope, the run has not missed
      · next hbound =>
        rw [frame? hframes, Option.bind_some] at hnone
        have hsome := hcovers.findIdx? hbound
        rw [hnone] at hsome
        cases hsome
      · next hbound =>
        rw [if_neg hbound] at hconst
        split at hname
        · next hstatic =>
          rcases Bool.or_eq_true _ _ ▸ hstatic with hown | hglobal
          · obtain ⟨f, hf, hslot⟩ := h.own hv (List.contains_iff_mem.mp hown)
            rw [hf] at hlocal
            exact absurd hslot (Option.filter_eq_none_iff.mp hlocal f rfl)
          · have hslot :=
              hv.statics name (List.contains_iff_mem.mp (by cases function <;> exact hglobal))
            rw [← h.slots.globals] at hslot
            exact ⟨.global, if_pos hslot⟩
        · next hstatic =>
          rw [if_neg hstatic] at hconst
          split at hname
          · next hin => exact absurd (if_pos hin) hconst
          · cases hname

end Scoped

/-! ## Section 3: Computations that blame no name -/

/-- From every state with `P` on, a failure does not blame a name, and a result comes with `Q`. -/
def Harmless {α : Type} (P : Machine → Prop) (x : Exec α) (Q : α → Machine → Prop) : Prop :=
  ∀ m, P m → Ensures (fun _ _ => True) Q (fun e _ => e.item.isNameFault = false) x m

namespace Harmless

variable {α β : Type} {P P' : Machine → Prop} {x : Exec α} {Q Q' : α → Machine → Prop}

theorem mono (h : Harmless P x Q) (hQ : ∀ a m, Q a m → Q' a m) : Harmless P x Q' :=
  fun m hm => (h m hm).mono (fun _ _ h => h) hQ (fun _ _ h => h)

theorem pure {a : α} (h : ∀ m, P m → Q a m) : Harmless P (Pure.pure a : Exec α) Q :=
  fun m hm => .pure (h m hm)

theorem outOfFuel : Harmless P (Exec.outOfFuel : Exec α) Q := fun _ _ => .outOfFuel

theorem reads {f : Machine → α} (h : ∀ m, P m → Q (f m) m) : Harmless P (Exec.reads f) Q :=
  fun m hm => .reads (h m hm)

theorem modify {f : Machine → Machine} {Q : Unit → Machine → Prop} (h : ∀ m, P m → Q () (f m)) :
    Harmless P (Exec.modify f) Q :=
  fun m hm => .modify trivial (h m hm)

theorem bind {f : α → Exec β} {R : β → Machine → Prop} (h : Harmless P x Q)
    (hf : ∀ a, Harmless (Q a) (f a) R) : Harmless P (x >>= f) R :=
  fun m hm => .bind ((h m hm).mono (fun _ _ h => h) (fun a m' hq => hf a m' hq) (fun _ _ h => h))

theorem within {enter leave : Machine → Machine} (henter : ∀ m, P m → P' (enter m))
    (h : Harmless P' x (fun a m => Q a (leave m))) : Harmless P (Exec.within enter leave x) Q := by
  intro m hm
  exact .within trivial ((h (enter m) (henter m hm)).mono (fun _ _ h => h)
    (fun _ _ h => ⟨trivial, h⟩) (fun _ _ h => ⟨trivial, h⟩))

end Harmless

section parts

variable {P : Machine → Prop}

theorem harmless_applyOp (pos : Position) (symbol : String) (op : BinOp) (w : Width) (a b : Nat)
    (policy : Overflow) : Harmless P (applyOp pos symbol op w a b policy) (fun _ => P) :=
  fun _ hm => ensures_applyOp pos symbol op w a b policy (fun _ he => he) (fun _ _ _ => hm)

end parts

section names

variable {env : Env} {start : Store} {function : Option Function} {below : List Frame}
variable {scopes : Scopes} {names : Names}

theorem isSome_of_referenceErrors {name : String} {pos : Position}
    (h : names.referenceErrors scopes name pos = []) : (names.resolve scopes name).isSome := by
  unfold Names.referenceErrors at h
  split at h
  · cases h
  · next hb => rw [hb]; rfl

theorem resolve_of_assignErrors {name : String} {pos : Position}
    (h : names.assignErrors scopes name pos = []) :
    (names.resolve scopes name).isSome ∧ names.resolve scopes name ≠ some .const := by
  unfold Names.assignErrors at h
  split at h
  · cases h
  · cases h
  · next b hconst hb =>
    rw [hb]
    exact ⟨rfl, fun heq => hconst (Option.some.inj heq)⟩

theorem harmless_read (hv : Vetted names env start) (pos : Position) (name : String)
    (h : (names.inside function).referenceErrors scopes name pos = []) :
    Harmless (Scoped env start function below scopes) (read pos name)
      (fun _ => Scoped env start function below scopes) := by
  intro m hm
  refine ensures_read pos name (fun hnone => ?_) (fun _ _ => hm)
  have hsome := hm.isSome_read? hv (isSome_of_referenceErrors h)
  rw [hnone] at hsome
  cases hsome

theorem harmless_update (hv : Vetted names env start) (pos : Position) (name : String)
    (f : Value → Value) (h : (names.inside function).assignErrors scopes name pos = []) :
    Harmless (Scoped env start function below scopes) (update pos name f)
      (fun _ => Scoped env start function below scopes) := by
  intro m hm
  obtain ⟨hsome, hconst⟩ := resolve_of_assignErrors h
  refine ensures_update pos name f (fun cause hcause => ?_) (fun c _ => ⟨trivial, ?_⟩)
  · obtain ⟨c, hc⟩ := hm.exists_cell hv hsome hconst
    rw [hc] at hcause
    cases hcause
  · exact hm.kept (m.kept_modifyCell c name f).more

end names

/-! ## Section 4: Scopes and frames that are entered -/

section entering

variable {α : Type} {env : Env} {start : Store} {function : Option Function} {below : List Frame}
variable {scopes : Scopes} {x : Exec α}

theorem harmless_inScope {names : List String} {scope : NameMap Value} {V : α → Prop}
    (hnames : names ⊆ scope.keys)
    (h : Harmless (Scoped env start function below (names :: scopes)) x
      (fun a m => Scoped env start function below (names :: scopes) m ∧ V a)) :
    Harmless (Scoped env start function below scopes) (inScope scope x)
      (fun a m => Scoped env start function below scopes m ∧ V a) :=
  .within (fun _ hm => hm.pushScope hnames) (h.mono (fun _ _ hm => ⟨hm.1.popScope, hm.2⟩))

/-- The parameters of a function are bound when there is a value for each. -/
theorem keys_boundParams (scope : NameMap Value) (ps : List Param) (vs : List Value)
    (hlen : vs.length = ps.length) {name : String}
    (hname : name ∈ scope.keys ∨ name ∈ ps.map Param.name) :
    name ∈ (boundParams scope ps vs).keys := by
  induction ps generalizing scope vs with
  | nil =>
    rcases hname with hname | hname
    · exact hname
    · cases hname
  | cons p ps ih =>
    obtain ⟨v, vs, rfl⟩ := List.exists_cons_of_length_eq_add_one hlen
    refine ih (scope.insert p.name v) vs (Nat.succ.inj hlen) ?_
    rcases hname with hname | hname
    · exact Or.inl (scope.keys_subset_insert p.name v hname)
    · rcases List.mem_cons.mp hname with rfl | hname
      · refine Or.inl (NameMap.mem_keys_iff.mpr ?_)
        rw [NameMap.get?_insert_self]
        rfl
      · exact Or.inr hname

/-- A call leaves the frames of its caller alone, so the caller finds its names again. -/
theorem harmless_inFrame {f : Function} {params : NameMap Value} {called : String}
    (hcalled : env.functions.get? called = some f) (hparams : f.paramScope ⊆ params.keys)
    (h : ∀ frames, Harmless (Scoped env start (some f) frames [f.paramScope]) x
      (fun _ => Scoped env start (some f) frames [f.paramScope])) :
    Harmless (Scoped env start function below scopes) (inFrame (.call f params) x)
      (fun _ => Scoped env start function below scopes) := by
  intro m hm
  have hentered : Scoped env start (some f) m.frames [f.paramScope]
      (m.pushFrame (.call f params)) := by
    refine ⟨hm.slots, fun g hg => ⟨called, ?_⟩, [params], rfl, .cons hparams .nil⟩
    cases hg
    exact hcalled
  refine .within trivial ((h m.frames _ hentered).mono (fun _ _ h => h) ?_
    (fun _ _ h => ⟨trivial, h⟩))
  intro _ m' hm'
  -- below the frame of the call are the frames from before it, unchanged
  obtain ⟨ss, hframes, -⟩ := hm'.frames
  refine ⟨trivial, hm'.slots, hm.known, ?_⟩
  show ∃ ss, m'.frames.tail = ⟨function, ss⟩ :: below ∧ Covers scopes ss
  rw [hframes]
  exact hm.frames

end entering

/-! ## Section 5: All parts of the semantics -/

theorem RuntimeCause.isNameFault_of_isAboutValue {cause : RuntimeCause}
    (h : cause.isAboutValue = true) : cause.isNameFault = false := by
  cases cause with
  | unresolved name => cases h
  | constAssignment name => cases h
  | _ => rfl

theorem mem_functions_of_callErrors {names : Names} {function : Option Function} {name : String}
    {pos : Position} (h : (names.inside function).callErrors name pos = []) :
    name ∈ names.functions := by
  unfold Names.callErrors at h
  split at h
  · next hin =>
    refine List.contains_iff_mem.mp ?_
    cases function <;> exact hin
  · cases h

/-- Where code stands in a run, and which names the check takes for bound there. -/
structure Standpoint where
  function : Option Function
  below : List Frame
  scopes : Scopes

/-- Code without faulty names. -/
def Names.discipline (names : Names) : Discipline Standpoint where
  expr c e := e.nameErrors (names.inside c.function) c.scopes = []
  args c es := Expr.argsNameErrors (names.inside c.function) c.scopes es = []
  stmt c s := s.nameErrors (names.inside c.function) c.scopes = []
  block c ss := Statement.blockNameErrors (names.inside c.function) c.scopes ss = []
  reads c pos name := (names.inside c.function).referenceErrors c.scopes name pos = []
  calls c pos name := (names.inside c.function).callErrors name pos = []
  assigns c pos name := (names.inside c.function).assignErrors c.scopes name pos = []
  inside c _ vars := { c with scopes := vars :: c.scopes }
  bind c name := { c with scopes := c.scopes.bind name }
  knows := True

/-- Code has no faulty name if none of its parts has one. -/
theorem Names.lawful_discipline (names : Names) : names.discipline.Lawful where
  expr_parts {c e} h := by
    have h : e.nameErrors (names.inside c.function) c.scopes = [] := h
    cases e with
    | literal => trivial
    | ident pos name =>
      rw [Expr.nameErrors] at h
      exact h
    | _ =>
      rw [Expr.nameErrors] at h
      exact List.append_eq_nil_iff.mp h
  args_parts {c e es} h := by
    have h : Expr.argsNameErrors (names.inside c.function) c.scopes (e :: es) = [] := h
    rw [Expr.argsNameErrors] at h
    exact List.append_eq_nil_iff.mp h
  stmt_parts {c s} h := by
    have h : s.nameErrors (names.inside c.function) c.scopes = [] := h
    cases s with
    | letVar pos name ty value =>
      rw [Statement.nameErrors] at h
      exact (List.append_eq_nil_iff.mp h).1
    | assign pos op place value =>
      rw [Statement.nameErrors] at h
      obtain ⟨hplace, hvalue⟩ := List.append_eq_nil_iff.mp h
      refine ⟨?_, hvalue⟩
      cases place with
      | var name => exact hplace
      | elem offset array => exact List.append_eq_nil_iff.mp hplace
    | ifThen pos cond yes =>
      rw [Statement.nameErrors] at h
      obtain ⟨hcond, hyes⟩ := List.append_eq_nil_iff.mp h
      exact ⟨hcond, trivial, hyes⟩
    | ifElse pos cond yes no =>
      rw [Statement.nameErrors] at h
      obtain ⟨hfirst, hno⟩ := List.append_eq_nil_iff.mp h
      obtain ⟨hcond, hyes⟩ := List.append_eq_nil_iff.mp hfirst
      exact ⟨hcond, trivial, hyes, hno⟩
    | forRange pos var ty first past body =>
      rw [Statement.nameErrors] at h
      obtain ⟨hbounds, hbody⟩ := List.append_eq_nil_iff.mp h
      obtain ⟨hfirst, hpast⟩ := List.append_eq_nil_iff.mp hbounds
      exact ⟨hfirst, hpast, trivial, hbody⟩
    | loop pos body =>
      rw [Statement.nameErrors] at h
      exact ⟨trivial, h⟩
    | ret pos value =>
      cases value with
      | none => trivial
      | some value =>
        rw [Statement.nameErrors] at h
        exact ⟨h, fun _ _ => trivial⟩
    | expr pos value =>
      rw [Statement.nameErrors] at h
      exact h
    | _ => trivial
  block_parts {c s ss} h := by
    have h : Statement.blockNameErrors (names.inside c.function) c.scopes (s :: ss) = [] := h
    rw [Statement.blockNameErrors] at h
    obtain ⟨hfirst, hrest⟩ := List.append_eq_nil_iff.mp h
    refine ⟨hfirst, ?_⟩
    cases s <;> exact hrest
  reads_of_assigns {c pos name} h := by
    have hsome := (resolve_of_assignErrors h).1
    show Names.referenceErrors _ c.scopes name pos = []
    unfold Names.referenceErrors
    split
    · next hnone => rw [hnone] at hsome; cases hsome
    · rfl
  value_of_inRange _ := trivial
  value_element _ _ := trivial
  flow_next := trivial
  flow_branch _ := trivial
  flow_round _ := trivial
  flow_bind _ := trivial

section

variable {names : Names} {env : Env} {start : Store}

/-- The names of the standpoint are bound. -/
abbrev Standpoint.Holds (env : Env) (start : Store) (c : Standpoint) (m : Machine) : Prop :=
  Scoped env start c.function c.below c.scopes m

/-- A judgment about one run, which blames no name. -/
abbrev Harmless.judgment (env : Env) (start : Store) : Judgment Standpoint :=
  fun _ c {_} x _ V c' => Harmless (c.Holds env start) x (fun a m => c'.Holds env start m ∧ V a)

theorem harmless_callWith {function : Option Function} {below : List Frame} {scopes : Scopes}
    {called : String} {f : Function} (hf : env.functions.get? called = some f) (pos : Position)
    (args : List Expr) {values : List Value} (hlength : values.length = args.length)
    {body : Exec Flow}
    (hbody : ∀ frames, Harmless (Scoped env start (some f) frames [f.paramScope]) body
      (fun _ => Scoped env start (some f) frames [f.paramScope])) :
    Harmless (Scoped env start function below scopes) (callWith env pos f args values body)
      (fun _ => Scoped env start function below scopes) := by
  intro m hm
  unfold callWith
  refine .bind (ensures_prepareCall env pos f args values (fun _ he => he) (fun hlen => .bind ?_))
  -- there is a value for each parameter, so the body starts with the scope the check gave it
  have hparams : f.paramScope ⊆ (boundParams .empty f.params (values.take args.length)).keys := by
    intro other hother
    refine keys_boundParams _ _ _ ?_ (Or.inr (List.mem_reverse.mp hother))
    rw [← hlength, List.take_length, hlen]
  have hcalled : ∀ frames, Harmless (Scoped env start (some f) frames [f.paramScope])
      (do modify (fun m => m.emit (.call f.name m.depth)); body)
      (fun _ => Scoped env start (some f) frames [f.paramScope]) := fun frames =>
    .bind (.modify (Q := fun _ => Scoped env start (some f) frames [f.paramScope])
      (fun _ hm => hm.emit _)) (fun _ => hbody frames)
  refine (harmless_inFrame hf hparams hcalled m hm).mono (fun _ _ h => h) ?_ (fun _ _ h => h)
  intro flow m' hm'
  exact ensures_finishCall pos f flow (fun _ he => he) (fun _ => trivial)
    (fun _ ev _ => hm'.emit ev)

theorem harmlessRules (hv : Vetted names env start) :
    FullRules names.discipline (.self env) (Harmless.judgment env start) where
  lawful := names.lawful_discipline
  functions := Pairing.pairsFunctions_self env
  pure h := .pure (fun _ hm => ⟨hm, h trivial⟩)
  fail _ _ hcause := fun _ _ => .fail (RuntimeCause.isNameFault_of_isAboutValue hcause)
  outOfFuel _ _ := .outOfFuel
  succ hx := hx
  bind hx hf := hx.bind (fun a m hm => hf a (fun _ => hm.2) m hm.1)
  weaken hx hV := hx.mono (fun a _ hm => ⟨hm.1, hV a hm.2⟩)
  forget hx := hx.mono (fun _ _ hm => ⟨hm.1.of_bind, hm.2⟩)
  read pos name h := (harmless_read hv pos name h).mono (fun _ _ hm => ⟨hm, trivial⟩)
  operandHints _ _ _ _ := .reads (fun _ hm => ⟨hm, trivial⟩)
  returnHint := .reads (fun _ hm => ⟨hm, trivial⟩)
  applyOp pos symbol op w a b :=
    (harmless_applyOp pos symbol op w a b _).mono (fun _ _ hm => ⟨hm, trivial⟩)
  declare _ _ := .modify (fun _ hm => ⟨hm.declare _ _, trivial⟩)
  inScope _ _ hnames _ hx := harmless_inScope hnames hx
  enterStatement _ := .modify (fun _ hm => ⟨hm.emit _, trivial⟩)
  runPanic pos := fun _ _ => ensures_runPanic pos (fun _ => trivial) (fun _ _ he => he)
  noFunction hcalls hnone := by
    have hsome := hv.functions _ (mem_functions_of_callErrors hcalls)
    rw [show env.functions.get? _ = none from hnone] at hsome
    cases hsome
  callWith args values _ hf _ hvalues hbody := by
    refine (harmless_callWith hf _ args (hvalues trivial).1 (fun frames => ?_)).mono
      (fun _ _ hm => ⟨hm, fun _ _ => trivial⟩)
    exact (hbody ⟨some _, frames, [_]⟩ (hv.bodies _ _ hf)).mono (fun _ _ hm => hm.1)
  update pos name f h := (harmless_update hv pos name f h).mono (fun _ _ hm => ⟨hm, trivial⟩)

/-- A run of checked statements blames no name. -/
theorem harmless_runTopLevel {scopes : Scopes} (hv : Vetted names env start) (fuel : Nat)
    (ss : List Statement) (h : Statement.blockNameErrors names scopes ss = []) :
    Harmless (Scoped env start none [] scopes) (runTopLevel env fuel ss) (fun _ _ => True) := by
  have R := harmlessRules hv
  have hrun := R.runTopLevel R.parts (fun _ _ _ => .modify (fun _ hm => ⟨hm.emit _, trivial⟩))
    Pairing.counterpart_relocate fuel (c := ⟨none, [], scopes⟩) ss h
  exact hrun.mono (fun _ _ _ => trivial)

end

/-! ## Section 6: Checked programs -/

namespace Program

/-- What the check of a program makes sure of. -/
theorem vetted {p : Program} {decls : Declarations} (h : p.check = .ok decls) (config : Config) :
    Vetted p.names (p.env config) p.declarations.1.store := by
  obtain ⟨-, hlimits, herrors, hnames⟩ := check_eq_ok h
  refine ⟨rfl, fun _ hname => isSome_global? hlimits herrors hname,
    fun _ hname => isSome_const? hlimits herrors hname, fun _ hname => isSome_function? hname,
    fun _ f hf d hd => isSome_local? hlimits hf hd, fun _ f hf => ?_⟩
  exact body_nameErrors hnames (function_declared hf).1

/-- However often a checked program is executed, and whether or not earlier executions failed, no
    execution fails because a name means nothing or because a constant table is assigned to. -/
theorem checked_names_resolve (p : Program) (decls : Declarations) (config : Config)
    (hcheck : p.check = .ok decls) (m : Machine)
    (hm : p.Reaches (p.env config) p.start m) (fuel : Nat)
    (e : RuntimeError) (m' : Machine)
    (hfault : p.execute (p.env config) fuel m = .fault e m') (name : String) :
    e.item ≠ .unresolved name ∧ e.item ≠ .constAssignment name := by
  have hv := vetted hcheck config
  have hstart : Scoped (p.env config) p.declarations.1.store none [] [[]] p.start :=
    ⟨.refl _, fun _ hf => (nomatch hf), [.empty], rfl, .cons (List.nil_subset _) .nil⟩
  -- earlier executions can only have left more names in the outermost scope
  have hscoped := hstart.kept (hm.moved (fun fuel => kept_runTopLevel _ fuel p.statements))
  have hnames : Statement.blockNameErrors p.names [[]] p.statements = [] :=
    (List.append_eq_nil_iff.mp (check_eq_ok hcheck).2.2.2).2
  have hharmless := (harmless_runTopLevel hv fuel p.statements hnames m hscoped).fault hfault
  refine ⟨fun hcause => ?_, fun hcause => ?_⟩
  · rw [hcause] at hharmless
    cases hharmless
  · rw [hcause] at hharmless
    cases hharmless

/-- A function with a static that the block declaring it never runs, a shadowing variable, and then
    a division by zero. -/
def divideByStatic : Program :=
  ⟨[.function ⟨"f", [⟨"a", .uint .byte⟩], some (.uint .byte),
      [.ifThen ⟨2, 1⟩ (.ident ⟨2, 4⟩ "zero") [.static ⟨"zero", .uint .byte, ⟨3, 1⟩⟩],
       .ret ⟨4, 1⟩ (some (.binary ⟨4, 8⟩ .div (.ident ⟨4, 11⟩ "a") (.ident ⟨4, 13⟩ "zero")))],
      ⟨1, 1⟩⟩,
    .statement (.letVar ⟨6, 1⟩ "zero" (.uint .byte) (.literal ⟨6, 16⟩ 3)),
    .statement (.expr ⟨7, 1⟩ (.call ⟨7, 1⟩ "f" [.ident ⟨7, 3⟩ "zero"]))]⟩

/-- The second execution after a failed first one. -/
theorem checked_names_resolve_again :
    ∃ decls m e m', divideByStatic.check = .ok decls ∧
      divideByStatic.Reaches (divideByStatic.env .default) divideByStatic.start m ∧
      divideByStatic.execute (divideByStatic.env .default) 20 m = .fault e m' ∧
      e.item = .divisionByZero ∧ e.item ≠ .unresolved "zero" ∧
      e.item ≠ .constAssignment "zero" := by
  have hcheck : divideByStatic.check = .ok divideByStatic.declarations.1 := rfl
  have hreaches := Reaches.execute (p := divideByStatic) .start (show
    (divideByStatic.execute (divideByStatic.env .default) 20
      divideByStatic.start).machine? = some _ from rfl)
  exact ⟨_, _, _, _, hcheck, hreaches, rfl, rfl,
    checked_names_resolve divideByStatic _ .default hcheck _ hreaches 20 _ _ rfl "zero"⟩

end Program

end WordLang
