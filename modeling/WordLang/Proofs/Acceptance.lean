import WordLang.Proofs.Slots

/-! # What the check asks for

    The passes of the check go through the items in order, and each item is
    held against those before it.  Whether any of them finds a fault has
    nothing to do with the order, though: `Acceptable` says what they ask for
    in terms of which items there are, and `check_eq_ok_iff` that a program
    is accepted just if this is so.

    With the faults goes what is declared.  A map has one representation, so
    two programs with the same declarations have equal stores
    (`store_eq_of_check`). -/

namespace WordLang

/-! ## Section 1: The names pass asks which names are known -/

/-- The same names are known, in whatever order and however often they are listed. -/
structure Names.Same (names names' : Names) : Prop where
  functions : ∀ name, name ∈ names'.functions ↔ name ∈ names.functions
  statics : ∀ name, name ∈ names'.statics ↔ name ∈ names.statics
  consts : ∀ name, name ∈ names'.consts ↔ name ∈ names.consts
  own : ∀ name, name ∈ names'.own ↔ name ∈ names.own

theorem contains_congr {xs ys : List String} (h : ∀ name, name ∈ ys ↔ name ∈ xs)
    (name : String) : ys.contains name = xs.contains name := by
  rw [Bool.eq_iff_iff, List.contains_iff_mem, List.contains_iff_mem]
  exact h name

section

variable {names names' : Names}

namespace Names.Same

variable (h : names.Same names') (scopes : Scopes)

include h

theorem resolve_eq (name : String) : names'.resolve scopes name = names.resolve scopes name := by
  simp only [resolve, contains_congr h.own, contains_congr h.statics, contains_congr h.consts]

theorem referenceErrors_eq (name : String) (pos : Position) :
    names'.referenceErrors scopes name pos = names.referenceErrors scopes name pos := by
  simp only [referenceErrors, h.resolve_eq]

theorem assignErrors_eq (name : String) (pos : Position) :
    names'.assignErrors scopes name pos = names.assignErrors scopes name pos := by
  simp only [assignErrors, h.resolve_eq]

theorem callErrors_eq (function : String) (pos : Position) :
    names'.callErrors function pos = names.callErrors function pos := by
  simp only [callErrors, contains_congr h.functions]

end Names.Same

mutual

theorem Expr.nameErrors_congr (h : names.Same names') (scopes : Scopes) : (e : Expr) →
    e.nameErrors names' scopes = e.nameErrors names scopes
  | .literal _ _ => rfl
  | .ident pos name => h.referenceErrors_eq scopes name pos
  | .index pos offset array => by
    rw [nameErrors, nameErrors, nameErrors_congr h scopes offset, h.referenceErrors_eq]
  | .binary _ _ left right => by
    rw [nameErrors, nameErrors, nameErrors_congr h scopes left, nameErrors_congr h scopes right]
  | .call pos function args => by
    rw [nameErrors, nameErrors, argsNameErrors_congr h scopes args, h.callErrors_eq]

theorem Expr.argsNameErrors_congr (h : names.Same names') (scopes : Scopes) : (es : List Expr) →
    argsNameErrors names' scopes es = argsNameErrors names scopes es
  | [] => rfl
  | e :: rest => by
    rw [argsNameErrors, argsNameErrors, nameErrors_congr h scopes e,
      argsNameErrors_congr h scopes rest]

end

theorem Place.nameErrors_congr (h : names.Same names') (scopes : Scopes) (pos : Position)
    (place : Place) : place.nameErrors names' scopes pos = place.nameErrors names scopes pos := by
  cases place with
  | var name => exact h.assignErrors_eq scopes name pos
  | elem offset array =>
    rw [nameErrors, nameErrors, offset.nameErrors_congr h, h.assignErrors_eq]

mutual

theorem Statement.nameErrors_congr (h : names.Same names') (scopes : Scopes) : (s : Statement) →
    s.nameErrors names' scopes = s.nameErrors names scopes
  | .letVar pos name _ value => by rw [nameErrors, nameErrors, value.nameErrors_congr h]
  | .static _ => rfl
  | .assign pos _ place value => by
    rw [nameErrors, nameErrors, place.nameErrors_congr h, value.nameErrors_congr h]
  | .ifThen _ cond yes => by
    rw [nameErrors, nameErrors, cond.nameErrors_congr h, blockNameErrors_congr h _ yes]
  | .ifElse _ cond yes no => by
    rw [nameErrors, nameErrors, cond.nameErrors_congr h, blockNameErrors_congr h _ yes,
      blockNameErrors_congr h _ no]
  | .forRange _ var _ start stop body => by
    rw [nameErrors, nameErrors, start.nameErrors_congr h, stop.nameErrors_congr h,
      blockNameErrors_congr h _ body]
  | .loop _ body => blockNameErrors_congr h _ body
  | .breakLoop _ => rfl
  | .continueLoop _ => rfl
  | .panic _ => rfl
  | .ret _ none => rfl
  | .ret _ (some value) => value.nameErrors_congr h scopes
  | .expr _ value => value.nameErrors_congr h scopes

/-- What the names pass finds in a block depends on which names are known only. -/
theorem Statement.blockNameErrors_congr (h : names.Same names') (scopes : Scopes) :
    (ss : List Statement) → blockNameErrors names' scopes ss = blockNameErrors names scopes ss
  | [] => rfl
  | s :: rest => by
    rw [blockNameErrors, blockNameErrors, nameErrors_congr h scopes s,
      blockNameErrors_congr h _ rest]

end

theorem Function.nameErrors_congr (h : names.Same names') (f : Function) :
    f.nameErrors names' = f.nameErrors names := by
  have hown : Names.Same { names with own := f.statics.map StaticDecl.name }
      { names' with own := f.statics.map StaticDecl.name } :=
    ⟨h.functions, h.statics, h.consts, fun _ => Iff.rfl⟩
  rw [nameErrors, nameErrors, Statement.blockNameErrors_congr hown]

end

/-! ## Section 2: The declarations pass asks for distinct names -/

/-- Statics of a function with distinct names are declared without faults. -/
theorem declareStatics_faultless {function : String} {seen : List String} {slots : NameMap Value}
    {ds : List StaticDecl} (hnodup : (ds.map StaticDecl.name).Nodup)
    (hseen : ∀ d ∈ ds, d.name ∉ seen) : (declareStatics function seen slots ds).2 = [] := by
  induction ds generalizing seen slots with
  | nil => rfl
  | cons d rest ih =>
    obtain ⟨hfirst, hrest⟩ := List.nodup_cons.mp (List.map_cons ▸ hnodup)
    rw [declareStatics, if_neg (hseen d List.mem_cons_self)]
    apply ih hrest
    intro e he hmem
    rcases List.mem_cons.mp hmem with heq | hmem
    · exact hfirst (heq ▸ List.mem_map_of_mem he)
    · exact hseen e (List.mem_cons_of_mem _ he) hmem

/-- Items are added without faults if each of them is, after those before it. -/
theorem Collected.addItems_faultless {c : Collected} {items : List Item}
    (h : ∀ before item after, items = before ++ item :: after →
      ((c.addItems before).1.addItem item).2 = []) : (c.addItems items).2 = [] := by
  induction items generalizing c with
  | nil => rfl
  | cons item rest ih =>
    have hrest : ((c.addItem item).1.addItems rest).2 = [] := by
      apply ih
      intro before other after hsplit
      exact h (item :: before) other after (by rw [hsplit]; rfl)
    have hfirst : (c.addItem item).2 = [] := h [] item rest rfl
    show (c.addItem item).2 ++ ((c.addItem item).1.addItems rest).2 = []
    rw [hfirst, hrest]
    rfl

namespace Program

/-- What the check asks of a program. -/
structure Acceptable (p : Program) : Prop where
  limits : ∀ item ∈ p.items, item.limitErrors = []
  functions : (p.functions.map Function.name).Nodup
  statics : ∀ f ∈ p.functions, (f.statics.map StaticDecl.name).Nodup
  globals : p.items.Pairwise (fun i j => ∀ name, i.declares name = true → ¬ j.declares name = true)
  consts : ∀ d ∈ p.consts, d.Complete
  bodies : ∀ f ∈ p.functions, f.nameErrors p.names = []
  topLevel : Statement.blockNameErrors p.names [[]] p.statements = []

variable {p q : Program} {decls decls' : Declarations}

theorem Acceptable.declarations_faultless (h : p.Acceptable) : p.declarations.2 = [] := by
  apply Collected.addItems_faultless
  intro before item after hsplit
  have hdescribes := Collected.Describes.empty.addItems before
  rw [List.nil_append] at hdescribes
  have hglobals := h.globals
  rw [hsplit] at hglobals
  have hitem : item ∈ p.items := by
    rw [hsplit]
    exact List.mem_append_right _ List.mem_cons_self
  -- a static or constant table of a name comes after none of that name
  have hunseen : ∀ name, item.declares name = true →
      name ∉ (Collected.empty.addItems before).1.globals := by
    intro name hname hmem
    obtain ⟨i, hi, hdeclares⟩ := List.find?_isSome.mp ((hdescribes.globals name).mp hmem)
    exact (List.pairwise_append.mp hglobals).2.2 i hi item List.mem_cons_self name hdeclares hname
  cases item with
  | function f =>
    have hnew : (Collected.empty.addItems before).1.decls.functions.contains f.name = false := by
      rw [NameMap.contains, hdescribes.functions, Option.isSome_eq_false_iff,
        Option.isNone_iff_eq_none]
      apply List.find?_eq_none.mpr
      intro g hg heq
      have hnames : ((p.items.filterMap Item.function?).map Function.name).Nodup := h.functions
      rw [hsplit, List.filterMap_append, List.map_append] at hnames
      exact (List.nodup_append.mp hnames).2.2 g.name (List.mem_map_of_mem hg) f.name
        List.mem_cons_self (by simpa using heq)
    show (Collected.addFunction _ f).2 = []
    rw [Collected.addFunction, hnew]
    exact declareStatics_faultless (h.statics f (mem_functions_iff.mpr hitem)) (by simp)
  | static d =>
    show (Collected.addStatic _ d).2 = []
    rw [Collected.addStatic, if_neg (hunseen d.name (by simp [Item.declares]))]
  | const d =>
    show (Collected.addConst _ d).2 = []
    rw [Collected.addConst, if_neg (hunseen d.name (by simp [Item.declares]))]
    obtain ⟨-, hvalue⟩ | ⟨cause, hfault, -⟩ := d.value_cases
    · by_cases hsized : d.ty.withinLimits <;> simp [hvalue, hsized]
    · exact absurd (h.consts d (mem_consts_iff.mpr hitem)) hfault.not_complete
  | statement s => rfl

theorem Acceptable.limitErrors_eq_nil (h : p.Acceptable) : p.limitErrors = [] :=
  List.flatMap_eq_nil_iff.mpr h.limits

theorem Acceptable.nameErrors_eq_nil (h : p.Acceptable) : p.nameErrors = [] := by
  rw [nameErrors, h.topLevel, List.append_nil]
  exact List.flatMap_eq_nil_iff.mpr h.bodies

theorem acceptable_of_check (h : p.check = .ok decls) : p.Acceptable := by
  obtain ⟨-, hlimits, herrors, hnames⟩ := check_eq_ok h
  obtain ⟨hbodies, htopLevel⟩ := List.append_eq_nil_iff.mp hnames
  constructor
  · exact List.flatMap_eq_nil_iff.mp hlimits
  · exact nodup_functions herrors
  · intro f hf
    rw [f.statics_eq_bodyStatics]
    exact nodup_bodyStatics herrors hf
  · exact pairwise_declares herrors
  · exact fun d hd => complete_of_errors herrors (mem_consts_iff.mp hd)
  · exact List.flatMap_eq_nil_iff.mp hbodies
  · exact htopLevel

theorem check_of_acceptable (h : p.Acceptable) : p.check = .ok p.declarations.1 := by
  have hnone : p.passes.errors = [] := by
    show p.limitErrors ++ p.declarations.2 ++ p.nameErrors = []
    rw [h.limitErrors_eq_nil, h.declarations_faultless, h.nameErrors_eq_nil]
    rfl
  show (if p.passes.errors.isEmpty then _ else _) = _
  rw [hnone]
  rfl

/-- A program is accepted just if it is acceptable. -/
theorem check_eq_ok_iff : p.check = .ok decls ↔ p.Acceptable ∧ p.declarations.1 = decls := by
  constructor
  · intro h
    exact ⟨acceptable_of_check h, (check_eq_ok h).1.symm⟩
  · intro h
    rw [check_of_acceptable h.1, h.2]

end Program

/-! ## Section 3: Equal tables -/

namespace NameMap

variable {α : Type} {m m' : NameMap α}

/-- A map is known by its entries, in whatever order they are listed. -/
theorem eq_of_toList_perm (h : m.toList.Perm m'.toList) : m = m' := by
  have hentries : m.entries = m'.entries := by
    apply h.eq_of_pairwise _ m.sorted m'.sorted
    intro a b _ _ hab hba
    exact absurd (String.lt_trans hab hba) (String.lt_irrefl _)
  obtain ⟨entries, sorted⟩ := m
  obtain ⟨entries', sorted'⟩ := m'
  obtain rfl : entries = entries' := hentries
  rfl

/-- A map is known by what is found in it. -/
theorem ext_get? (h : ∀ name, m.get? name = m'.get? name) : m = m' := by
  apply eq_of_toList_perm
  apply (List.perm_ext_iff_of_nodup m.nodup_toList m'.nodup_toList).mpr
  intro entry
  obtain ⟨name, v⟩ := entry
  rw [mem_toList_iff, mem_toList_iff, h name]

end NameMap

/-- The slot of a static, as the store lists it. -/
def StaticDecl.entry (d : StaticDecl) : String × Value := (d.name, .zero d.ty)

/-- There are statics, maybe none, for just the functions that there are. -/
def Collected.Covers (c : Collected) : Prop :=
  ∀ name, (c.decls.store.locals.get? name).isSome = (c.decls.functions.get? name).isSome

namespace Collected

variable {c : Collected}

theorem Covers.addItem (h : c.Covers) (item : Item) : (c.addItem item).1.Covers := by
  cases item with
  | function f =>
    show (c.addFunction f).1.Covers
    unfold addFunction
    split
    · exact h
    · intro name
      show ((c.decls.store.locals.insert f.name _).get? name).isSome =
        ((c.decls.functions.insert f.name f).get? name).isSome
      rw [NameMap.get?_insert, NameMap.get?_insert]
      split
      · rfl
      · exact h name
  | static d =>
    show (c.addStatic d).1.Covers
    unfold addStatic
    split
    · exact h
    · intro name
      dsimp only
      split
      · exact h name
      · exact h name
  | const d =>
    show (c.addConst d).1.Covers
    unfold addConst
    split
    · exact h
    · dsimp only
      split <;> exact h
  | statement s => exact h

theorem Covers.addItems (h : c.Covers) (items : List Item) : (c.addItems items).1.Covers := by
  induction items generalizing c with
  | nil => exact h
  | cons item rest ih => exact ih (h.addItem item)

end Collected

namespace Program

variable {p q : Program} {decls decls' : Declarations}

/-- A function that was accepted has its statics under its name. -/
theorem locals_get? (h : p.check = .ok decls) (name : String) :
    decls.store.locals.get? name =
      (decls.functions.get? name).map (fun _ => decls.store.slotsOf name) := by
  obtain ⟨rfl, -⟩ := check_eq_ok h
  have hcovers : (p.declarations.1.store.locals.get? name).isSome =
      (p.declarations.1.functions.get? name).isSome :=
    Collected.Covers.addItems (c := .empty) (fun _ => rfl) p.items name
  unfold Store.slotsOf
  cases hslots : p.declarations.1.store.locals.get? name <;>
    cases hfound : p.declarations.1.functions.get? name <;> simp_all

/-- A function that was accepted is found under its name, and nothing else is. -/
theorem functions_get?_iff (h : p.check = .ok decls) {name : String} {f : Function} :
    decls.functions.get? name = some f ↔ f ∈ p.functions ∧ f.name = name := by
  have hperm := (oneSlotEach_of_check h).functions
  rw [← NameMap.mem_toList_iff, hperm.mem_iff, List.mem_map]
  constructor
  · rintro ⟨g, hg, heq⟩
    cases heq
    exact ⟨hg, rfl⟩
  · rintro ⟨hf, rfl⟩
    exact ⟨f, hf, rfl⟩

/-- Two accepted programs that declare the same have the same store.  Of the functions it matters
    which there are and which statics each of them has. -/
theorem store_eq_of_check (h : p.check = .ok decls) (h' : q.check = .ok decls')
    (hstatics : p.statics.Perm q.statics) (hconsts : p.consts.Perm q.consts)
    (hfunctions : ∀ f ∈ p.functions, ∃ g ∈ q.functions, g.name = f.name ∧
      (f.bodyStatics.map StaticDecl.entry).Perm (g.bodyStatics.map StaticDecl.entry))
    (hfunctions' : ∀ g ∈ q.functions, ∃ f ∈ p.functions, f.name = g.name) :
    decls.store = decls'.store := by
  have heach := oneSlotEach_of_check h
  have heach' := oneSlotEach_of_check h'
  have hglobals : decls.store.globals = decls'.store.globals :=
    NameMap.eq_of_toList_perm
      (heach.globals.trans ((hstatics.map StaticDecl.entry).trans heach'.globals.symm))
  have htables : decls.store.consts = decls'.store.consts :=
    NameMap.eq_of_toList_perm (heach.consts.trans ((hconsts.map _).trans heach'.consts.symm))
  have hlocals : decls.store.locals = decls'.store.locals := by
    apply NameMap.ext_get?
    intro name
    rw [locals_get? h, locals_get? h']
    cases hfound : decls.functions.get? name with
    | some f =>
      obtain ⟨hf, rfl⟩ := (functions_get?_iff h).mp hfound
      obtain ⟨g, hg, hname, hperm⟩ := hfunctions f hf
      have hslots : decls.store.slotsOf f.name = decls'.store.slotsOf f.name := by
        have hlist' := heach'.locals g hg
        rw [hname] at hlist'
        exact NameMap.eq_of_toList_perm ((heach.locals f hf).trans (hperm.trans hlist'.symm))
      rw [(functions_get?_iff h').mpr ⟨hg, hname⟩, hslots]
      rfl
    | none =>
      cases hfound' : decls'.functions.get? name with
      | none => rfl
      | some g =>
        obtain ⟨hg, rfl⟩ := (functions_get?_iff h').mp hfound'
        obtain ⟨f, hf, hname⟩ := hfunctions' g hg
        rw [(functions_get?_iff h).mpr ⟨hf, hname⟩] at hfound
        cases hfound
  calc decls.store
    _ = ⟨decls.store.globals, decls.store.locals, decls.store.consts⟩ := rfl
    _ = ⟨decls'.store.globals, decls'.store.locals, decls'.store.consts⟩ := by
      rw [hglobals, hlocals, htables]
    _ = decls'.store := rfl

end Program

end WordLang
