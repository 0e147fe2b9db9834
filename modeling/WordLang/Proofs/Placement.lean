import Mathlib.Data.List.Forall2
import WordLang.Proofs.Acceptance
import WordLang.Proofs.BareCode

/-! # Where a function declares its statics

    A function's statics are collected from its whole body before anything
    runs, so it makes no difference where in the body they stand, nor whether
    they are ever reached.

    Two functions with one bare body and the same statics are a rearrangement
    of each other.  Every pass of the check looks at the one or at the other,
    and a run at the bare body alone. -/

namespace WordLang

/-! ## Section 1: Rearrangements -/

/-- What a static declares, wherever it stands. -/
def StaticDecl.signature (d : StaticDecl) : String × Ty := (d.name, d.ty)

/-- The second function declares the statics of the first one, each at any place of its body, and
    is the same otherwise. -/
structure Function.Rearranged (f g : Function) : Prop where
  code : g.bare = f.bare
  statics : (g.statics.map StaticDecl.signature).Perm (f.statics.map StaticDecl.signature)

/-- The second item is the first one, or a rearrangement of it if it is a function. -/
inductive Item.Rearranged : Item → Item → Prop where
  | function {f g : Function} (h : f.Rearranged g) : Rearranged (.function f) (.function g)
  | same (item : Item) : Rearranged item item

/-- The second program has the items of the first one, with functions rearranged. -/
def Program.Rearranged (p q : Program) : Prop := List.Forall₂ Item.Rearranged p.items q.items

/-! Statics can be hoisted to the start of the body. -/

namespace Statement

theorem bareBlock_append (ss ts : List Statement) :
    bareBlock (ss ++ ts) = bareBlock ss ++ bareBlock ts := by
  induction ss with
  | nil => rfl
  | cons s rest ih => rw [List.cons_append, bareBlock, bareBlock, ih, List.append_assoc]

theorem blockStatics_append (ss ts : List Statement) :
    blockStatics (ss ++ ts) = blockStatics ss ++ blockStatics ts := by
  induction ss with
  | nil => rfl
  | cons s rest ih => rw [List.cons_append, blockStatics, blockStatics, ih, List.append_assoc]

theorem bareBlock_map_static (ds : List StaticDecl) : bareBlock (ds.map static) = [] := by
  induction ds with
  | nil => rfl
  | cons d rest ih => exact ih

theorem blockStatics_map_static (ds : List StaticDecl) : blockStatics (ds.map static) = ds := by
  induction ds with
  | nil => rfl
  | cons d rest ih =>
    show d :: blockStatics (rest.map static) = d :: rest
    rw [ih]

mutual

theorem bare_bare : (s : Statement) → bareBlock s.bare = s.bare ∧ blockStatics s.bare = []
  | .static _ => ⟨rfl, rfl⟩
  | .ifThen _ _ yes => by simp [bare, bareBlock, blockStatics, statics, bareBlock_bareBlock yes]
  | .ifElse _ _ yes no => by
    simp [bare, bareBlock, blockStatics, statics, bareBlock_bareBlock yes, bareBlock_bareBlock no]
  | .forRange _ _ _ _ _ body => by
    simp [bare, bareBlock, blockStatics, statics, bareBlock_bareBlock body]
  | .loop _ body => by simp [bare, bareBlock, blockStatics, statics, bareBlock_bareBlock body]
  | .letVar _ _ _ _ => ⟨rfl, rfl⟩
  | .assign _ _ _ _ => ⟨rfl, rfl⟩
  | .breakLoop _ => ⟨rfl, rfl⟩
  | .continueLoop _ => ⟨rfl, rfl⟩
  | .ret _ _ => ⟨rfl, rfl⟩
  | .panic _ => ⟨rfl, rfl⟩
  | .expr _ _ => ⟨rfl, rfl⟩

/-- There are no statics in a bare block, and nothing more can be left out of it. -/
theorem bareBlock_bareBlock : (ss : List Statement) →
    bareBlock (bareBlock ss) = bareBlock ss ∧ blockStatics (bareBlock ss) = []
  | [] => ⟨rfl, rfl⟩
  | s :: rest => by
    simp [bareBlock, bareBlock_append, blockStatics_append, bare_bare s, bareBlock_bareBlock rest]

end

end Statement

/-- A function with all its statics at the start of its body. -/
def Function.hoisted (f : Function) : Function :=
  { f with body := f.statics.map .static ++ Statement.bareBlock f.body }

/-- An item with its statics hoisted if it is a function. -/
def Item.hoisted : Item → Item
  | .function f => .function f.hoisted
  | item => item

/-- A program with the statics of its functions hoisted. -/
def Program.hoisted (p : Program) : Program := ⟨p.items.map Item.hoisted⟩

theorem Function.rearranged_hoisted (f : Function) : f.Rearranged f.hoisted := by
  obtain ⟨hbare, hnone⟩ := Statement.bareBlock_bareBlock f.body
  have hbody : Statement.bareBlock f.hoisted.body = Statement.bareBlock f.body := by
    rw [hoisted, Statement.bareBlock_append, Statement.bareBlock_map_static, hbare]
    rfl
  have hstatics : f.hoisted.statics = f.statics := by
    rw [Function.statics, hoisted, Statement.blockStatics_append,
      Statement.blockStatics_map_static, hnone, List.append_nil]
  constructor
  · show Function.mk _ _ _ (Statement.bareBlock f.hoisted.body) _ = f.bare
    rw [hbody]
    rfl
  · rw [hstatics]

theorem Program.rearranged_hoisted (p : Program) : p.Rearranged p.hoisted := by
  apply List.forall₂_map_right_iff.mpr
  apply List.forall₂_same.mpr
  intro item _
  cases item with
  | function f => exact .function f.rearranged_hoisted
  | _ => exact .same _

/-! ## Section 2: The passes over bare code -/

theorem Ty.limitErrors_eq_nil_iff {ty : Ty} {pos : Position} :
    ty.limitErrors pos = [] ↔ ty.Sized := by
  rw [← withinLimits_iff]
  cases ty with
  | uint w => simp [limitErrors, withinLimits]
  | array element len => simp [limitErrors]

namespace Statement

theorem blockLimitErrors_append (ss ts : List Statement) :
    blockLimitErrors (ss ++ ts) = blockLimitErrors ss ++ blockLimitErrors ts := by
  induction ss with
  | nil => rfl
  | cons s rest ih =>
    rw [List.cons_append, blockLimitErrors, blockLimitErrors, ih, List.append_assoc]

mutual

theorem limitErrors_eq_nil_iff : (s : Statement) →
    (s.limitErrors = [] ↔ blockLimitErrors s.bare = [] ∧ ∀ d ∈ s.statics, d.ty.Sized)
  | .static d => by
    simp [limitErrors, bare, blockLimitErrors, statics, Ty.limitErrors_eq_nil_iff]
  | .ifThen _ _ yes => by
    simp [limitErrors, bare, blockLimitErrors, statics, blockLimitErrors_eq_nil_iff yes]
  | .ifElse _ _ yes no => by
    simp only [limitErrors, bare, blockLimitErrors, statics, List.append_nil,
      List.append_eq_nil_iff, List.forall_mem_append, blockLimitErrors_eq_nil_iff yes,
      blockLimitErrors_eq_nil_iff no, and_and_and_comm]
  | .forRange _ _ _ _ _ body => by
    simp only [limitErrors, bare, blockLimitErrors, statics, List.append_nil,
      List.append_eq_nil_iff, blockLimitErrors_eq_nil_iff body, and_assoc]
  | .loop _ body => by
    simp [limitErrors, bare, blockLimitErrors, statics, blockLimitErrors_eq_nil_iff body]
  | .letVar _ _ _ _ => by simp [bare, blockLimitErrors, statics]
  | .assign _ _ _ _ => by simp [bare, blockLimitErrors, statics]
  | .breakLoop _ => by simp [bare, blockLimitErrors, statics]
  | .continueLoop _ => by simp [bare, blockLimitErrors, statics]
  | .ret _ _ => by simp [bare, blockLimitErrors, statics]
  | .panic _ => by simp [bare, blockLimitErrors, statics]
  | .expr _ _ => by simp [bare, blockLimitErrors, statics]

/-- A block is within the limits if its statics and what is left without them are. -/
theorem blockLimitErrors_eq_nil_iff : (ss : List Statement) →
    (blockLimitErrors ss = [] ↔
      blockLimitErrors (bareBlock ss) = [] ∧ ∀ d ∈ blockStatics ss, d.ty.Sized)
  | [] => by simp [bareBlock, blockLimitErrors, blockStatics]
  | s :: rest => by
    simp only [bareBlock, blockLimitErrors, blockStatics, blockLimitErrors_append,
      List.append_eq_nil_iff, List.forall_mem_append, limitErrors_eq_nil_iff s,
      blockLimitErrors_eq_nil_iff rest, and_and_and_comm]

end

mutual

/-- A `static` has no faulty names and binds none; of any other statement the bare form has the
    same ones. -/
theorem nameErrors_bare (names : Names) (scopes : Scopes) (ss : List Statement) :
    (s : Statement) → blockNameErrors names scopes (s.bare ++ ss) =
      nameErrors names scopes s ++ blockNameErrors names (scopesAfter scopes s) ss
  | .static _ => rfl
  | .ifThen _ _ yes => by
    simp [bare, blockNameErrors, nameErrors, scopesAfter, blockNameErrors_bare names _ yes]
  | .ifElse _ _ yes no => by
    simp [bare, blockNameErrors, nameErrors, scopesAfter, blockNameErrors_bare names _ yes,
      blockNameErrors_bare names _ no]
  | .forRange _ _ _ _ _ body => by
    simp [bare, blockNameErrors, nameErrors, scopesAfter, blockNameErrors_bare names _ body]
  | .loop _ body => by
    simp [bare, blockNameErrors, nameErrors, scopesAfter, blockNameErrors_bare names _ body]
  | .letVar _ _ _ _ => rfl
  | .assign _ _ _ _ => rfl
  | .breakLoop _ => rfl
  | .continueLoop _ => rfl
  | .ret _ _ => rfl
  | .panic _ => rfl
  | .expr _ _ => rfl

theorem blockNameErrors_bare (names : Names) (scopes : Scopes) : (ss : List Statement) →
    blockNameErrors names scopes (bareBlock ss) = blockNameErrors names scopes ss
  | [] => rfl
  | s :: rest => by
    rw [bareBlock, nameErrors_bare names scopes _ s, blockNameErrors_bare names _ rest,
      blockNameErrors]

end

end Statement

namespace Function.Rearranged

variable {f g : Function} (h : f.Rearranged g)

include h

theorem symm : g.Rearranged f := ⟨h.code.symm, h.statics.symm⟩

theorem header_eq : g.header = f.header := header_of_bare h.code

theorem name_eq : g.name = f.name := (Function.mk.inj h.header_eq).1

theorem body_eq : Statement.bareBlock g.body = Statement.bareBlock f.body := body_of_bare h.code

theorem mem_statics {d : StaticDecl} (hd : d ∈ g.statics) :
    ∃ d' ∈ f.statics, d'.name = d.name ∧ d'.ty = d.ty := by
  obtain ⟨d', hd', heq⟩ := List.mem_map.mp (h.statics.mem_iff.mp (List.mem_map_of_mem hd))
  exact ⟨d', hd', congrArg Prod.fst heq, congrArg Prod.snd heq⟩

theorem names_perm :
    (g.statics.map StaticDecl.name).Perm (f.statics.map StaticDecl.name) := by
  have hperm := h.statics.map Prod.fst
  rw [List.map_map, List.map_map] at hperm
  exact hperm

theorem limitErrors_eq_nil (hf : f.limitErrors = []) : g.limitErrors = [] := by
  obtain ⟨hname, hparams, hret, -, hpos⟩ := Function.mk.inj h.header_eq
  rw [Function.limitErrors, List.append_eq_nil_iff, Statement.blockLimitErrors_eq_nil_iff] at hf ⊢
  obtain ⟨hheader, hbare, hsized⟩ := hf
  rw [hname, hparams, hret, hpos, h.body_eq]
  refine ⟨hheader, hbare, ?_⟩
  intro d hd
  obtain ⟨d', hd', -, hty⟩ := h.mem_statics hd
  exact hty ▸ hsized d' hd'

theorem hiddenStaticErrors_eq_nil (hf : f.hiddenStaticErrors = []) :
    g.hiddenStaticErrors = [] := by
  obtain ⟨-, hparams, -⟩ := Function.mk.inj h.header_eq
  unfold hiddenStaticErrors at hf ⊢
  rw [List.filterMap_eq_nil_iff] at hf ⊢
  intro d hd
  obtain ⟨d', hd', hname, -⟩ := h.mem_statics hd
  have hclear := hf d' hd'
  rw [hparams, ← hname]
  split at hclear
  · cases hclear
  · next hnone => rw [if_neg hnone]

theorem nameErrors_eq_nil {names : Names} (hf : f.nameErrors names = []) :
    g.nameErrors names = [] := by
  obtain ⟨-, hparams, -, -, hpos⟩ := Function.mk.inj h.header_eq
  have hscope : g.paramScope = f.paramScope := by rw [paramScope, paramScope, hparams]
  have hown : Names.Same { names with own := f.statics.map StaticDecl.name }
      { names with own := g.statics.map StaticDecl.name } := by
    refine ⟨fun _ => Iff.rfl, fun _ => Iff.rfl, fun _ => Iff.rfl, ?_⟩
    intro name
    exact h.names_perm.mem_iff
  rw [nameErrors, List.append_eq_nil_iff, List.append_eq_nil_iff] at hf ⊢
  obtain ⟨⟨hparamErrors, hhidden⟩, hbody⟩ := hf
  refine ⟨⟨?_, h.hiddenStaticErrors_eq_nil hhidden⟩, ?_⟩
  · rw [hparams, hpos]
    exact hparamErrors
  · -- the bare body is the same, and so are the names that are known in it
    rw [← Statement.blockNameErrors_bare, h.body_eq, Statement.blockNameErrors_bare, hscope,
      Statement.blockNameErrors_congr hown]
    exact hbody

end Function.Rearranged

/-! ## Section 3: Acceptance and declarations -/

theorem Item.Rearranged.symm {i j : Item} (h : i.Rearranged j) : j.Rearranged i := by
  cases h with
  | function h => exact .function h.symm
  | same => exact .same _

theorem Item.Rearranged.limitErrors_eq_nil {i j : Item} (h : i.Rearranged j)
    (hi : i.limitErrors = []) : j.limitErrors = [] := by
  cases h with
  | function h => exact h.limitErrors_eq_nil hi
  | same => exact hi

namespace Program

variable {p q : Program} {decls decls' : Declarations}

namespace Rearranged

theorem symm (h : p.Rearranged q) : q.Rearranged p :=
  List.Forall₂.flip (h.imp (fun _ _ => Item.Rearranged.symm))

/-- What does not depend on how functions are arranged is the same for both programs. -/
theorem map_eq {α : Type} {view : Item → α} (h : p.Rearranged q)
    (hview : ∀ f g : Function, f.Rearranged g → view (.function g) = view (.function f)) :
    q.items.map view = p.items.map view := by
  have heach : ∀ i j : Item, i.Rearranged j → view i = view j := by
    intro i j hij
    cases hij with
    | function hfg => exact (hview _ _ hfg).symm
    | same => rfl
  have hall : List.Forall₂ Eq (p.items.map view) (q.items.map view) :=
    List.rel_map (fun i j hij => heach i j hij) h
  rw [List.forall₂_eq_eq_eq] at hall
  exact hall.symm

theorem filterMap_eq {α : Type} {view : Item → Option α} (h : p.Rearranged q)
    (hview : ∀ f g : Function, f.Rearranged g → view (.function g) = view (.function f)) :
    q.items.filterMap view = p.items.filterMap view := by
  have hsame : ∀ items : List Item, items.filterMap view = (items.map view).filterMap id :=
    fun items => by rw [List.filterMap_map]; rfl
  rw [hsame, hsame, h.map_eq hview]

theorem mem_items {j : Item} (h : p.Rearranged q) (hj : j ∈ q.items) :
    ∃ i ∈ p.items, i.Rearranged j := by
  unfold Rearranged at h
  generalize p.items = is, q.items = js at h hj
  induction h with
  | nil => cases hj
  | cons hfirst _ ih =>
    rcases List.mem_cons.mp hj with rfl | hj
    · exact ⟨_, List.mem_cons_self, hfirst⟩
    · obtain ⟨i, hi, hrearranged⟩ := ih hj
      exact ⟨i, List.mem_cons_of_mem _ hi, hrearranged⟩

theorem mem_functions {g : Function} (h : p.Rearranged q) (hg : g ∈ q.functions) :
    ∃ f ∈ p.functions, f.Rearranged g := by
  obtain ⟨i, hi, hrearranged⟩ := h.mem_items (mem_functions_iff.mp hg)
  cases hrearranged with
  | function hfg => exact ⟨_, mem_functions_iff.mpr hi, hfg⟩
  | same => exact ⟨g, mem_functions_iff.mpr hi, rfl, .refl _⟩

theorem functionNames_eq (h : p.Rearranged q) :
    q.functions.map Function.name = p.functions.map Function.name := by
  rw [functions, functions, List.map_filterMap, List.map_filterMap]
  exact h.filterMap_eq (fun _ _ hfg => congrArg some hfg.name_eq)

theorem statics_eq (h : p.Rearranged q) : q.statics = p.statics :=
  h.filterMap_eq (fun _ _ _ => rfl)

theorem consts_eq (h : p.Rearranged q) : q.consts = p.consts :=
  h.filterMap_eq (fun _ _ _ => rfl)

theorem statements_eq (h : p.Rearranged q) : q.statements = p.statements :=
  h.filterMap_eq (fun _ _ _ => rfl)

theorem names_eq (h : p.Rearranged q) : q.names = p.names := by
  rw [names, names, h.functionNames_eq, h.statics_eq, h.consts_eq]

theorem acceptable (h : p.Rearranged q) (hp : p.Acceptable) : q.Acceptable := by
  have hnames := h.names_eq
  constructor
  · intro j hj
    obtain ⟨i, hi, hrearranged⟩ := h.mem_items hj
    exact hrearranged.limitErrors_eq_nil (hp.limits i hi)
  · rw [h.functionNames_eq]
    exact hp.functions
  · intro g hg
    obtain ⟨f, hf, hrearranged⟩ := h.mem_functions hg
    exact hrearranged.names_perm.nodup_iff.mpr (hp.statics f hf)
  · have hdeclared : q.items.map (fun i name => i.declares name) =
        p.items.map (fun i name => i.declares name) := h.map_eq (fun _ _ _ => rfl)
    have hglobals : (p.items.map (fun i name => i.declares name)).Pairwise
        (fun d d' => ∀ name, d name = true → ¬ d' name = true) :=
      List.pairwise_map.mpr hp.globals
    rw [← hdeclared] at hglobals
    exact List.pairwise_map.mp hglobals
  · rw [h.consts_eq]
    exact hp.consts
  · intro g hg
    obtain ⟨f, hf, hrearranged⟩ := h.mem_functions hg
    rw [hnames]
    exact hrearranged.nameErrors_eq_nil (hp.bodies f hf)
  · rw [hnames, h.statements_eq]
    exact hp.topLevel

theorem accepted (h : p.Rearranged q) (hp : ∃ decls, p.check = .ok decls) :
    ∃ decls, q.check = .ok decls := by
  obtain ⟨decls, hp⟩ := hp
  exact ⟨_, check_of_acceptable (h.acceptable (acceptable_of_check hp))⟩

/-- Both programs give the same slots, as these come from which statics each function has. -/
theorem store_eq (h : p.Rearranged q) (hp : p.check = .ok decls) (hq : q.check = .ok decls') :
    decls'.store = decls.store := by
  apply store_eq_of_check hq hp
  · rw [h.statics_eq]
  · rw [h.consts_eq]
  · intro g hg
    obtain ⟨f, hf, hrearranged⟩ := h.mem_functions hg
    refine ⟨f, hf, hrearranged.name_eq.symm, ?_⟩
    have hperm := hrearranged.statics.map (fun d => (d.1, Value.zero d.2))
    rw [List.map_map, List.map_map] at hperm
    rw [← g.statics_eq_bodyStatics, ← f.statics_eq_bodyStatics]
    exact hperm
  · intro f hf
    obtain ⟨g, hg, hrearranged⟩ := h.symm.mem_functions hf
    exact ⟨g, hg, hrearranged.name_eq.symm⟩

theorem start_eq (h : p.Rearranged q) (hp : p.check = .ok decls) (hq : q.check = .ok decls') :
    q.start = p.start := by
  obtain ⟨rfl, -⟩ := check_eq_ok hp
  obtain ⟨rfl, -⟩ := check_eq_ok hq
  exact congrArg Machine.initial (h.store_eq hp hq)

end Rearranged

/-! ## Section 4: Runs -/

theorem Rearranged.sameCode (h : p.Rearranged q) (hp : p.check = .ok decls)
    (hq : q.check = .ok decls') (config : Config) :
    Env.SameCode (p.env config) (q.env config) := by
  obtain ⟨rfl, -⟩ := check_eq_ok hp
  obtain ⟨rfl, -⟩ := check_eq_ok hq
  refine ⟨rfl, ?_⟩
  intro name
  show (q.declarations.1.functions.get? name).map Function.bare =
    (p.declarations.1.functions.get? name).map Function.bare
  cases hfound' : q.declarations.1.functions.get? name with
  | some g =>
    obtain ⟨hg, rfl⟩ := (functions_get?_iff hq).mp hfound'
    obtain ⟨f, hf, hrearranged⟩ := h.mem_functions hg
    have hname : f.name = g.name := hrearranged.name_eq.symm
    rw [(functions_get?_iff hp).mpr ⟨hf, hname⟩]
    exact congrArg some hrearranged.code
  | none =>
    cases hfound : p.declarations.1.functions.get? name with
    | none => rfl
    | some f =>
      obtain ⟨hf, rfl⟩ := (functions_get?_iff hp).mp hfound
      obtain ⟨g, hg, hrearranged⟩ := h.symm.mem_functions hf
      have hname : g.name = f.name := hrearranged.name_eq.symm
      rw [(functions_get?_iff hq).mpr ⟨hg, hname⟩] at hfound'
      cases hfound'

theorem run_of_check (hcheck : p.check = .ok decls) (config : Config) (fuel : Nat) :
    p.run config fuel =
      match p.execute (p.env config) fuel p.start with
      | .done () m => some (.ok (.ofStore m.store))
      | .fault e _ => some (.error (.runtime e))
      | .outOfFuel => none := by
  unfold run
  rw [trace_of_check hcheck]
  cases p.execute (p.env config) fuel p.start <;> rfl

/-- What a run gives, the run of the rearranged program gives with enough fuel. -/
theorem Rearranged.run_some (h : p.Rearranged q) (hp : p.check = .ok decls)
    (hq : q.check = .ok decls') {config : Config} {fuel : Nat} {result : Except Error Memory}
    (hrun : p.run config fuel = some result) : ∃ fuel', q.run config fuel' = some result := by
  have hmatches := matches_runTopLevel (h.sameCode hp hq config) fuel p.statements
    p.start q.start (by rw [Rearranged.start_eq h hp hq])
  have hend := run_of_check hp config fuel
  rw [execute, execution] at hend
  cases hmatches with
  | starved first =>
    rw [first, hrun] at hend
    cases hend
  | @done _ last last' first enough second like =>
    rw [first, hrun] at hend
    refine ⟨enough, ?_⟩
    have hstore : last'.store = last.store := (Machine.mk.inj like).1
    rw [run_of_check hq, execute, execution, h.statements_eq, second enough (Nat.le_refl _), hend]
    dsimp only
    rw [hstore]
  | fault first enough second like =>
    rw [first, hrun] at hend
    refine ⟨enough, ?_⟩
    rw [run_of_check hq, execute, execution, h.statements_eq, second enough (Nat.le_refl _), hend]

/-- A run never ends just if it has no result. -/
theorem never_ends_iff {config : Config} : (∀ fuel, p.run config fuel = none) ↔
    ∀ result, ¬ ∃ fuel, p.run config fuel = some result := by
  constructor
  · intro hnone result hends
    obtain ⟨fuel, hrun⟩ := hends
    rw [hnone fuel] at hrun
    cases hrun
  · intro hnone fuel
    rw [Option.eq_none_iff_forall_ne_some]
    intro result hrun
    exact hnone result ⟨fuel, hrun⟩

/-- The placement of a function's statics is irrelevant.  If the statics of some functions of a
    program are taken out of their bodies, nested blocks included, and put back at any places of
    the same bodies, then both programs are accepted or both are rejected.  If they are accepted
    then with every configuration both end with the same result, a memory or a failure, or neither
    of them ever ends. -/
theorem static_placement_irrelevant (p q : Program) (h : p.Rearranged q) :
    ((∃ decls, p.check = .ok decls) ↔ ∃ decls, q.check = .ok decls) ∧
    ∀ decls, p.check = .ok decls → ∀ config,
      (∀ result, (∃ fuel, p.run config fuel = some result) ↔
        ∃ fuel, q.run config fuel = some result) ∧
      ((∀ fuel, p.run config fuel = none) ↔ ∀ fuel, q.run config fuel = none) := by
  refine ⟨⟨h.accepted, h.symm.accepted⟩, ?_⟩
  intro decls hp config
  obtain ⟨decls', hq⟩ := h.accepted ⟨decls, hp⟩
  have hresults : ∀ result, (∃ fuel, p.run config fuel = some result) ↔
      ∃ fuel, q.run config fuel = some result := by
    intro result
    constructor
    · intro hends
      obtain ⟨fuel, hrun⟩ := hends
      exact h.run_some hp hq hrun
    · intro hends
      obtain ⟨fuel, hrun⟩ := hends
      exact h.symm.run_some hq hp hrun
  refine ⟨hresults, ?_⟩
  rw [never_ends_iff, never_ends_iff]
  exact forall_congr' (fun result => not_congr (hresults result))

/-- A function that uses a static declared in a branch that is never run. -/
def hiddenStatic : Program :=
  ⟨[.static ⟨"R", .uint .byte, ⟨1, 1⟩⟩,
    .function ⟨"f", [], some (.uint .byte),
      [.ifThen ⟨3, 5⟩ (.literal ⟨3, 8⟩ 0) [.static ⟨"S", .uint .byte, ⟨4, 9⟩⟩],
        .assign ⟨6, 5⟩ .add (.var "S") (.literal ⟨6, 11⟩ 5),
        .ret ⟨7, 5⟩ (some (.ident ⟨7, 12⟩ "S"))], ⟨2, 1⟩⟩,
    .statement (.assign ⟨9, 1⟩ .set (.var "R") (.call ⟨9, 6⟩ "f" []))]⟩

/-- With the static hoisted, where it is reached, the program gives the same memory. -/
theorem static_placement_irrelevant_hiddenStatic :
    (∃ decls, hiddenStatic.check = .ok decls) ∧ (∃ decls, hiddenStatic.hoisted.check = .ok decls) ∧
    ∃ memory, hiddenStatic.run .default 12 = some (.ok memory) ∧
      (∃ fuel, hiddenStatic.hoisted.run .default fuel = some (.ok memory)) ∧
      memory.toList = [("R", .scalar .byte 5), ("f::S", .scalar .byte 5)] := by
  obtain ⟨hchecks, hruns⟩ :=
    static_placement_irrelevant hiddenStatic hiddenStatic.hoisted hiddenStatic.rearranged_hoisted
  have hcheck : hiddenStatic.check = .ok hiddenStatic.declarations.1 := rfl
  obtain ⟨hresults, -⟩ := hruns _ hcheck .default
  refine ⟨⟨_, hcheck⟩, hchecks.mp ⟨_, hcheck⟩, _, rfl, ?_, ?_⟩
  · exact (hresults _).mp ⟨12, rfl⟩
  · rfl

end Program

end WordLang
