import WordLang.Proofs.Declared
import WordLang.Proofs.WellFormed

/-! # Slots and declarations

    Which functions and slots a program has follows from its declarations:
    of several declarations of one name the first decides, and it gets a slot
    just if its type is within the limits and, for a constant table, if it is
    complete.  This is what `Registered` says; it speaks of first elements of
    lists only, not of the table or the order in which it is filled.

    A first declaration without a slot is reported by one of the passes
    (`Reported`), so that in a program that passes the check nothing is left
    without one (`OneSlotEach`).

    A static among the top-level statements is neither an item nor part of a
    function and declares nothing; no text is read as a program that has
    one. -/

namespace WordLang

/-! ## Section 1: First elements -/

/-- An element of a list that has a property, when none before it has. -/
def IsFirst {α : Type} (P : α → Prop) (x : α) (xs : List α) : Prop :=
  P x ∧ ∃ before after, xs = before ++ x :: after ∧ ∀ y ∈ before, ¬ P y

section First

variable {α : Type} {P : α → Prop} {x : α} {xs : List α}

theorem IsFirst.mem (h : IsFirst P x xs) : x ∈ xs := by
  obtain ⟨-, before, after, rfl, -⟩ := h
  exact List.mem_append_right _ List.mem_cons_self

theorem find?_eq_some_iff_isFirst {test : α → Bool} (htest : ∀ y, test y = true ↔ P y) :
    xs.find? test = some x ↔ IsFirst P x xs := by
  rw [List.find?_eq_some_iff_append, htest]
  simp only [Bool.not_eq_true', ← Bool.not_eq_true, htest]
  exact Iff.rfl

/-- A relation holds along a list if it holds between every element and those before it. -/
theorem pairwise_of_splits {R : α → α → Prop}
    (h : ∀ before x after, xs = before ++ x :: after → ∀ y ∈ before, R y x) : xs.Pairwise R := by
  induction xs with
  | nil => exact List.Pairwise.nil
  | cons first rest ih =>
    apply List.pairwise_cons.mpr
    constructor
    · intro x hx
      obtain ⟨before, after, rfl⟩ := List.append_of_mem hx
      exact h (first :: before) x after rfl first List.mem_cons_self
    · apply ih
      intro before x after hsplit y hy
      exact h (first :: before) x after (by rw [hsplit]; rfl) y (List.mem_cons_of_mem _ hy)

/-- Where no two elements have one name, each is the first of its name. -/
theorem isFirst_of_nodup {key : α → String} (hkeys : (xs.map key).Nodup) (hx : x ∈ xs) :
    IsFirst (fun y => key y = key x) x xs := by
  obtain ⟨before, after, rfl⟩ := List.append_of_mem hx
  refine ⟨rfl, before, after, rfl, ?_⟩
  intro y hy heq
  rw [List.map_append, List.map_cons] at hkeys
  have hdisjoint := (List.nodup_append.mp hkeys).2.2
  exact hdisjoint _ (List.mem_map_of_mem hy) _ List.mem_cons_self heq

end First

/-! ## Section 2: Listing a map -/

namespace NameMap

variable {α : Type}

theorem find_eq_some_iff {name : String} {v : α} {es : List (String × α)}
    (h : es.Pairwise (fun a b => a.1 < b.1)) : find name es = some v ↔ (name, v) ∈ es := by
  induction es with
  | nil => simp [find]
  | cons head rest ih =>
    obtain ⟨key, value⟩ := head
    obtain ⟨hhead, hrest⟩ := List.pairwise_cons.mp h
    rw [find, List.mem_cons]
    by_cases hkey : key = name
    · subst hkey
      -- all names behind this one are greater
      have habsent : (key, v) ∉ rest := fun hmem => String.lt_irrefl key (hhead (key, v) hmem)
      simp [habsent, eq_comm]
    · have hne : (name, v) ≠ (key, value) := fun heq => hkey (congrArg Prod.fst heq).symm
      rw [if_neg hkey, ih hrest]
      simp [hne]

theorem mem_toList_iff {m : NameMap α} {name : String} {v : α} :
    (name, v) ∈ m.toList ↔ m.get? name = some v :=
  (find_eq_some_iff m.sorted).symm

theorem nodup_toList (m : NameMap α) : m.toList.Nodup := by
  apply m.sorted.imp
  intro a b hlt heq
  rw [heq] at hlt
  exact String.lt_irrefl _ hlt

/-- A map lists what it holds: entries for distinct things that are just those to be found. -/
theorem toList_perm {β : Type} {m : NameMap α} {xs : List β} {key : β → String} {value : β → α}
    (hkeys : (xs.map key).Nodup)
    (hget : ∀ name v, m.get? name = some v ↔ ∃ x ∈ xs, key x = name ∧ value x = v) :
    m.toList.Perm (xs.map fun x => (key x, value x)) := by
  have hnodup : (xs.map fun x => (key x, value x)).Nodup := by
    apply List.pairwise_map.mpr
    apply (List.pairwise_map.mp hkeys).imp
    intro x y hne heq
    exact hne (congrArg Prod.fst heq)
  apply (List.perm_ext_iff_of_nodup m.nodup_toList hnodup).mpr
  rintro ⟨name, v⟩
  rw [mem_toList_iff, hget, List.mem_map]
  simp

end NameMap

/-- The slots of a function's statics. -/
def Store.slotsOf (s : Store) (function : String) : NameMap Value :=
  (s.locals.get? function).getD .empty

theorem Store.get?_slotsOf (s : Store) (function name : String) :
    (s.slotsOf function).get? name = s.local? function name := by
  unfold slotsOf local?
  cases s.locals.get? function <;> rfl

namespace Program

/-! ## Section 3: What the first declaration of a name calls for -/

/-- For every name there is just what its first declaration calls for. -/
structure Registered (p : Program) (decls : Declarations) : Prop where
  functions : ∀ name f, decls.functions.get? name = some f ↔
    IsFirst (fun g : Function => g.name = name) f p.functions
  globals : ∀ name v, decls.store.global? name = some v ↔
    ∃ d, IsFirst (fun i : Item => i.declares name) (.static d) p.items ∧
      d.ty.Sized ∧ v = .zero d.ty
  consts : ∀ name v, decls.store.const? name = some v ↔
    ∃ d, IsFirst (fun i : Item => i.declares name) (.const d) p.items ∧
      d.ty.Sized ∧ d.Complete ∧ v = d.literal
  locals : ∀ function name v, decls.store.local? function name = some v ↔
    ∃ f d, IsFirst (fun g : Function => g.name = function) f p.functions ∧
      IsFirst (fun e : StaticDecl => e.name = name) d f.bodyStatics ∧
      d.ty.Sized ∧ v = .zero d.ty

theorem firstFunction?_eq_some_iff {p : Program} {name : String} {f : Function} :
    firstFunction? p.items name = some f ↔
      IsFirst (fun g : Function => g.name = name) f p.functions :=
  find?_eq_some_iff_isFirst fun g => by simp

theorem find?_declares_eq_some_iff {p : Program} {name : String} {item : Item} :
    p.items.find? (Item.declares name) = some item ↔
      IsFirst (fun i : Item => i.declares name) item p.items :=
  find?_eq_some_iff_isFirst fun _ => Iff.rfl

theorem find?_bodyStatics_eq_some_iff {f : Function} {name : String} {d : StaticDecl} :
    f.statics.find? (fun e => e.name == name) = some d ↔
      IsFirst (fun e : StaticDecl => e.name = name) d f.bodyStatics := by
  rw [f.statics_eq_bodyStatics]
  exact find?_eq_some_iff_isFirst fun e => by simp

theorem registered (p : Program) : p.Registered p.declarations.1 := by
  constructor
  · intro name f
    rw [← firstFunction?_eq_some_iff, ← (declarations_describes p).functions name]
    exact Iff.rfl
  · intro name v
    simp only [global?_eq_some_iff, find?_declares_eq_some_iff, StaticDecl.slot?_eq_some_iff]
  · intro name v
    simp only [const?_eq_some_iff, find?_declares_eq_some_iff, ConstDecl.slot?_eq_some_iff]
  · intro function name v
    simp only [local?_eq_some_iff, firstFunction?_eq_some_iff, find?_bodyStatics_eq_some_iff,
      StaticDecl.slot?_eq_some_iff]

/-- No slot is of a type outside the limits, whatever the program. -/
theorem sized_of_mem_slots (p : Program) {slot : String × Value}
    (hslot : slot ∈ p.declarations.1.store.slots) : slot.2.ty.Sized := by
  obtain ⟨name, v⟩ := slot
  have hregistered := p.registered
  rcases List.mem_append.mp hslot with hslot | hslot
  · rcases List.mem_append.mp hslot with hslot | hslot
    · obtain ⟨d, -, hsized, rfl⟩ :=
        (hregistered.globals name v).mp (NameMap.mem_toList_iff.mp hslot)
      rw [Value.ty_zero]
      exact hsized
    · obtain ⟨d, -, hsized, hcomplete, rfl⟩ :=
        (hregistered.consts name v).mp (NameMap.mem_toList_iff.mp hslot)
      rw [hcomplete.ty_literal]
      exact hsized
  · obtain ⟨⟨function, slots⟩, hfunction, hslot⟩ := List.mem_flatMap.mp hslot
    obtain ⟨⟨local', v'⟩, hlocal, heq⟩ := List.mem_map.mp hslot
    cases heq
    have hget : p.declarations.1.store.local? function local' = some v := by
      rw [Store.local?, NameMap.mem_toList_iff.mp hfunction]
      exact NameMap.mem_toList_iff.mp hlocal
    obtain ⟨f, d, -, -, hsized, rfl⟩ := (hregistered.locals function local' v).mp hget
    rw [Value.ty_zero]
    exact hsized

/-! ## Section 4: Declarations without a slot are reported -/

/-- The limits pass reports the type of a declaration. -/
def LimitReported (p : Program) (ty : Ty) (pos : Position) : Prop :=
  ∃ element len, ty = .array element len ∧ ⟨pos, .arrayLength len⟩ ∈ p.limitErrors

/-- A first declaration without a slot is reported where it stands. -/
structure Reported (p : Program) (decls : Declarations) : Prop where
  globals : ∀ d, IsFirst (fun i : Item => i.declares d.name) (.static d) p.items →
    decls.store.global? d.name = none → p.LimitReported d.ty d.pos
  consts : ∀ d, IsFirst (fun i : Item => i.declares d.name) (.const d) p.items →
    decls.store.const? d.name = none →
      p.LimitReported d.ty d.pos ∨ ∃ cause, d.Fault cause ∧ ⟨d.pos, cause⟩ ∈ p.declarations.2
  locals : ∀ f d, IsFirst (fun g : Function => g.name = f.name) f p.functions →
    IsFirst (fun e : StaticDecl => e.name = d.name) d f.bodyStatics →
    decls.store.local? f.name d.name = none → p.LimitReported d.ty d.pos

variable {p : Program}

/-- What a type outside the limits breaks, if all of it is reported. -/
theorem limitReported_of_subset {ty : Ty} {pos : Position} (hty : ¬ ty.Sized)
    (hsubset : ty.limitErrors pos ⊆ p.limitErrors) : p.LimitReported ty pos := by
  cases ty with
  | uint w => exact absurd trivial hty
  | array element len =>
    refine ⟨element, len, rfl, hsubset ?_⟩
    rw [Ty.limitErrors, if_neg (mt Ty.withinLimits_iff.mp hty)]
    exact List.mem_singleton.mpr rfl

theorem limitErrors_subset_of_item {item : Item} (hitem : item ∈ p.items) :
    item.limitErrors ⊆ p.limitErrors :=
  fun _ he => List.mem_flatMap.mpr ⟨item, hitem, he⟩

theorem limitErrors_subset_of_bodyStatic {f : Function} (hf : f ∈ p.functions) {d : StaticDecl}
    (hd : d ∈ f.bodyStatics) : d.ty.limitErrors d.pos ⊆ p.limitErrors := by
  intro e he
  apply limitErrors_subset_of_item (mem_functions_iff.mp hf)
  apply List.mem_append_right
  exact Statement.limitErrors_subset_of_static (Statement.mem_filterMap_static?.mp hd) he

/-- The items before an item decide how it is added, and the faults found there are reported. -/
theorem declarations_split {before after : List Item} {item : Item}
    (hsplit : p.items = before ++ item :: after) :
    ∃ c, Collected.Describes c before ∧ (c.addItem item).2 ⊆ p.declarations.2 := by
  have hdescribes := Collected.Describes.empty.addItems before
  rw [List.nil_append] at hdescribes
  refine ⟨_, hdescribes, ?_⟩
  have herrors : p.declarations.2 = (Collected.empty.addItems before).2 ++
      ((Collected.empty.addItems before).1.addItems (item :: after)).2 := by
    show (Collected.empty.addItems p.items).2 = _
    rw [hsplit, Collected.errors_addItems_append]
  rw [herrors]
  intro e he
  exact List.mem_append_right _ (List.mem_append_left _ he)

/-- The fault of the first constant table of a name is reported. -/
theorem mem_errors_of_fault {d : ConstDecl}
    (hfirst : IsFirst (fun i : Item => i.declares d.name) (.const d) p.items) {cause : DeclCause}
    (hvalue : d.value = .error cause) : ⟨d.pos, cause⟩ ∈ p.declarations.2 := by
  obtain ⟨-, before, after, hsplit, hbefore⟩ := hfirst
  obtain ⟨c, hdescribes, hsubset⟩ := declarations_split hsplit
  have hunseen : d.name ∉ c.globals := by
    rw [hdescribes.globals, List.find?_isSome]
    rintro ⟨i, hi, hdeclares⟩
    exact hbefore i hi hdeclares
  apply hsubset
  show _ ∈ (c.addConst d).2
  simp [Collected.addConst, hunseen, hvalue]

theorem reported (p : Program) : p.Reported p.declarations.1 := by
  have hregistered := p.registered
  constructor
  · intro d hfirst hnone
    have hsized : ¬ d.ty.Sized := by
      intro hsized
      have hslot := (hregistered.globals d.name _).mpr ⟨d, hfirst, hsized, rfl⟩
      rw [hnone] at hslot
      cases hslot
    exact limitReported_of_subset hsized (limitErrors_subset_of_item hfirst.mem)
  · intro d hfirst hnone
    obtain ⟨hcomplete, -⟩ | ⟨cause, hfault, hvalue⟩ := d.value_cases
    · have hsized : ¬ d.ty.Sized := by
        intro hsized
        have hslot := (hregistered.consts d.name _).mpr ⟨d, hfirst, hsized, hcomplete, rfl⟩
        rw [hnone] at hslot
        cases hslot
      exact Or.inl (limitReported_of_subset hsized (limitErrors_subset_of_item hfirst.mem))
    · exact Or.inr ⟨cause, hfault, mem_errors_of_fault hfirst hvalue⟩
  · intro f d hf hd hnone
    have hsized : ¬ d.ty.Sized := by
      intro hsized
      have hslot := (hregistered.locals f.name d.name _).mpr ⟨f, d, hf, hd, hsized, rfl⟩
      rw [hnone] at hslot
      cases hslot
    exact limitReported_of_subset hsized (limitErrors_subset_of_bodyStatic hf.mem hd.mem)

/-! ## Section 5: A program that passes the check -/

/-- Every function and every declared static and constant table is there once, with the value it
    starts with, and there is nothing else. -/
structure OneSlotEach (p : Program) (decls : Declarations) : Prop where
  functions : decls.functions.toList.Perm (p.functions.map fun f => (f.name, f))
  globals : decls.store.globals.toList.Perm (p.statics.map fun d => (d.name, .zero d.ty))
  consts : decls.store.consts.toList.Perm (p.consts.map fun d => (d.name, d.literal))
  locals : ∀ f ∈ p.functions,
    (decls.store.slotsOf f.name).toList.Perm (f.bodyStatics.map fun d => (d.name, .zero d.ty))
  constTypes : ∀ d ∈ p.consts, d.literal.ty = d.ty

/-- Without faults no two statics of a function have one name. -/
theorem nodup_of_declareStatics {function : String} {seen : List String} {slots : NameMap Value}
    {ds : List StaticDecl} (h : (declareStatics function seen slots ds).2 = []) :
    (ds.map StaticDecl.name).Nodup ∧ ∀ d ∈ ds, d.name ∉ seen := by
  induction ds generalizing seen slots with
  | nil => simp
  | cons d rest ih =>
    unfold declareStatics at h
    split at h
    · cases h
    · next hseen =>
      obtain ⟨hnodup, hrest⟩ := ih h
      constructor
      · rw [List.map_cons, List.nodup_cons]
        refine ⟨fun hmem => ?_, hnodup⟩
        obtain ⟨e, he, hname⟩ := List.mem_map.mp hmem
        exact hrest e he (hname ▸ List.mem_cons_self)
      · intro e he
        rcases List.mem_cons.mp he with rfl | he
        · exact hseen
        · exact fun hmem => hrest e he (List.mem_cons_of_mem _ hmem)

section Faultless

variable (herrors : p.declarations.2 = [])

include herrors

/-- Each item of a program without faults was added without one. -/
theorem addItem_of_split {before after : List Item} {item : Item}
    (hsplit : p.items = before ++ item :: after) :
    ∃ c, Collected.Describes c before ∧ (c.addItem item).2 = [] := by
  obtain ⟨c, hdescribes, hsubset⟩ := declarations_split hsplit
  rw [herrors] at hsubset
  exact ⟨c, hdescribes, List.subset_nil.mp hsubset⟩

/-- No two items of a program without faults declare one name. -/
theorem pairwise_declares :
    p.items.Pairwise (fun i j => ∀ name, i.declares name = true → ¬ j.declares name = true) := by
  apply pairwise_of_splits
  intro before item after hsplit i hi name hdeclares hagain
  obtain ⟨c, hdescribes, hnone⟩ := addItem_of_split herrors hsplit
  have hunseen := (Collected.addItem_errors hnone hagain).1
  apply hunseen
  rw [hdescribes.globals, List.find?_isSome]
  exact ⟨i, hi, hdeclares⟩

/-- No two declarations of one kind have one name. -/
theorem nodup_declared {α : Type} {view : Item → Option α} {key : α → String}
    (hview : ∀ item x, view item = some x → item.declares (key x) = true) :
    ((p.items.filterMap view).map key).Nodup := by
  apply List.pairwise_map.mpr
  apply List.pairwise_filterMap.mpr
  apply (pairwise_declares herrors).imp
  intro i j hdistinct x hx y hy heq
  apply hdistinct (key x) (hview i x hx)
  rw [heq]
  exact hview j y hy

theorem nodup_statics : (p.statics.map StaticDecl.name).Nodup := by
  apply nodup_declared herrors
  intro item d hd
  rw [Item.static?_eq_some_iff.mp hd]
  simp [Item.declares]

theorem nodup_consts : (p.consts.map ConstDecl.name).Nodup := by
  apply nodup_declared herrors
  intro item d hd
  rw [Item.const?_eq_some_iff.mp hd]
  simp [Item.declares]

/-- A function of a program without faults is the first of its name, and so are its statics. -/
theorem function_of_split {before after : List Item} {f : Function}
    (hsplit : p.items = before ++ .function f :: after) :
    (∀ g ∈ before.filterMap Item.function?, g.name ≠ f.name) ∧
      (f.bodyStatics.map StaticDecl.name).Nodup := by
  obtain ⟨c, hdescribes, hnone⟩ := addItem_of_split herrors hsplit
  change (c.addFunction f).2 = [] at hnone
  unfold Collected.addFunction at hnone
  split at hnone
  · cases hnone
  · next hnew =>
    constructor
    · intro g hg heq
      have hfirst : firstFunction? before f.name = none := by
        rw [← hdescribes.functions]
        exact Option.not_isSome_iff_eq_none.mp hnew
      exact List.find?_eq_none.mp hfirst g hg (by simp [heq])
    · rw [← f.statics_eq_bodyStatics]
      exact (nodup_of_declareStatics hnone).1

theorem nodup_functions : (p.functions.map Function.name).Nodup := by
  apply List.pairwise_map.mpr
  apply List.pairwise_filterMap.mpr
  apply pairwise_of_splits
  intro before item after hsplit i hi f hf g hg
  rw [Item.function?_eq_some_iff.mp hg] at hsplit
  exact (function_of_split herrors hsplit).1 f (List.mem_filterMap.mpr ⟨i, hi, hf⟩)

theorem nodup_bodyStatics {f : Function} (hf : f ∈ p.functions) :
    (f.bodyStatics.map StaticDecl.name).Nodup := by
  obtain ⟨before, after, hsplit⟩ := List.append_of_mem (mem_functions_iff.mp hf)
  exact (function_of_split herrors hsplit).2

/-- An item that declares a name is the first to do so. -/
theorem isFirst_of_declares {item : Item} (hitem : item ∈ p.items) {name : String}
    (hname : item.declares name) : IsFirst (fun i : Item => i.declares name) item p.items := by
  have hfind := (Collected.Describes.empty.addItems_errors p.items herrors hitem name hname).1
  rw [List.nil_append] at hfind
  exact find?_declares_eq_some_iff.mp hfind

end Faultless

theorem sized_of_limitErrors {ty : Ty} {pos : Position} (h : ty.limitErrors pos = []) : ty.Sized :=
  Ty.withinLimits_iff.mp (withinLimits_of_limitErrors h)

/-- The constant tables of a program without faults are complete. -/
theorem complete_of_errors (herrors : p.declarations.2 = []) {d : ConstDecl}
    (hitem : .const d ∈ p.items) : d.Complete := by
  obtain ⟨v, hv⟩ := (Collected.Describes.empty.addItems_errors p.items herrors hitem d.name
    (by simp [Item.declares])).2 d rfl
  obtain ⟨hcomplete, -⟩ | ⟨cause, -, hvalue⟩ := d.value_cases
  · exact hcomplete
  · rw [hvalue] at hv
    cases hv

theorem oneSlotEach_of_check {decls : Declarations} (h : p.check = .ok decls) :
    p.OneSlotEach decls := by
  obtain ⟨rfl, hlimits, herrors, -⟩ := check_eq_ok h
  have hregistered := p.registered
  have hlimit : ∀ item ∈ p.items, item.limitErrors = [] := fun _ => limitErrors_of_mem hlimits
  constructor
  · apply NameMap.toList_perm (nodup_functions herrors)
    intro name f
    rw [hregistered.functions]
    constructor
    · intro hfirst
      exact ⟨f, hfirst.mem, hfirst.1, rfl⟩
    · rintro ⟨g, hg, rfl, rfl⟩
      exact isFirst_of_nodup (nodup_functions herrors) hg
  · apply NameMap.toList_perm (nodup_statics herrors)
    intro name v
    apply (hregistered.globals name v).trans
    constructor
    · rintro ⟨d, hfirst, -, rfl⟩
      have hname : d.name = name := by simpa [Item.declares] using hfirst.1
      exact ⟨d, mem_statics_iff.mpr hfirst.mem, hname, rfl⟩
    · rintro ⟨d, hd, rfl, rfl⟩
      have hitem := mem_statics_iff.mp hd
      exact ⟨d, isFirst_of_declares herrors hitem (by simp [Item.declares]),
        sized_of_limitErrors (hlimit _ hitem), rfl⟩
  · apply NameMap.toList_perm (nodup_consts herrors)
    intro name v
    apply (hregistered.consts name v).trans
    constructor
    · rintro ⟨d, hfirst, -, -, rfl⟩
      have hname : d.name = name := by simpa [Item.declares] using hfirst.1
      exact ⟨d, mem_consts_iff.mpr hfirst.mem, hname, rfl⟩
    · rintro ⟨d, hd, rfl, rfl⟩
      have hitem := mem_consts_iff.mp hd
      exact ⟨d, isFirst_of_declares herrors hitem (by simp [Item.declares]),
        sized_of_limitErrors (hlimit _ hitem), complete_of_errors herrors hitem, rfl⟩
  · intro f hf
    have hfirst := isFirst_of_nodup (nodup_functions herrors) hf
    apply NameMap.toList_perm (nodup_bodyStatics herrors hf)
    intro name v
    rw [Store.get?_slotsOf, hregistered.locals]
    constructor
    · rintro ⟨g, d, hg, hd, -, rfl⟩
      -- only one function has the name
      have hsame : some g = some f :=
        ((hregistered.functions _ _).mpr hg).symm.trans ((hregistered.functions _ _).mpr hfirst)
      cases hsame
      exact ⟨d, hd.mem, hd.1, rfl⟩
    · rintro ⟨d, hd, rfl, rfl⟩
      have hlimitErrors := limitErrors_subset_of_bodyStatic hf hd
      rw [hlimits] at hlimitErrors
      exact ⟨f, d, hfirst, isFirst_of_nodup (nodup_bodyStatics herrors hf) hd,
        sized_of_limitErrors (List.subset_nil.mp hlimitErrors), rfl⟩
  · intro d hd
    exact (complete_of_errors herrors (mem_consts_iff.mp hd)).ty_literal

end Program

/-! ## Section 6: Statics elsewhere -/

theorem Statement.allWellFormed_iff {ctx : Parser.Context} {ss : List Statement} :
    Statement.AllWellFormed ctx ss ↔ ∀ s ∈ ss, s.WellFormed ctx := by
  induction ss with
  | nil => simp [Statement.AllWellFormed]
  | cons s rest ih => simp [Statement.AllWellFormed, ih]

mutual

/-- A well-formed statement outside functions declares no static. -/
theorem Statement.WellFormed.statics_eq_nil {ctx : Parser.Context}
    (hctx : ctx.inFunction = false) : (s : Statement) → s.WellFormed ctx → s.statics = []
  | .static _, h => absurd h.1 (by simp [hctx])
  | .ifThen _ _ yes, h => AllWellFormed.statics_eq_nil hctx yes h.2
  | .ifElse _ _ yes no, h => by
    rw [Statement.statics, AllWellFormed.statics_eq_nil hctx yes h.2.1,
      AllWellFormed.statics_eq_nil hctx no h.2.2]
    rfl
  | .forRange _ _ _ _ _ body, h =>
    have hbody : ({ ctx with inLoop := true } : Parser.Context).inFunction = false := hctx
    AllWellFormed.statics_eq_nil hbody body h.2.2.2.2
  | .loop _ body, h =>
    have hbody : ({ ctx with inLoop := true } : Parser.Context).inFunction = false := hctx
    AllWellFormed.statics_eq_nil hbody body h
  | .letVar _ _ _ _, _ => rfl
  | .assign _ _ _ _, _ => rfl
  | .breakLoop _, _ => rfl
  | .continueLoop _, _ => rfl
  | .ret _ _, _ => rfl
  | .panic _, _ => rfl
  | .expr _ _, _ => rfl

theorem Statement.AllWellFormed.statics_eq_nil {ctx : Parser.Context}
    (hctx : ctx.inFunction = false) :
    (ss : List Statement) → Statement.AllWellFormed ctx ss → Statement.blockStatics ss = []
  | [], _ => rfl
  | s :: rest, h => by
    rw [Statement.blockStatics, WellFormed.statics_eq_nil hctx s h.1,
      AllWellFormed.statics_eq_nil hctx rest h.2]
    rfl

end

namespace Program

theorem wellFormed_statement {source : String} {p : Program} (h : parse source = .ok p)
    {s : Statement} (hs : s ∈ p.statements) :
    s.WellFormed { inFunction := false, returns := none, inLoop := false } := by
  obtain ⟨item, hitem, hstatement⟩ := List.mem_filterMap.mp hs
  cases item with
  | statement s' =>
    cases hstatement
    exact wellFormed_of_parse h _ hitem
  | _ => cases hstatement

/-- No text is read as a program with a static among its top-level statements. -/
theorem static_not_mem_statements {source : String} {p : Program} (h : parse source = .ok p)
    (d : StaticDecl) : .static d ∉ Statement.flatBlock p.statements := by
  have hnone := Statement.AllWellFormed.statics_eq_nil rfl p.statements
    (Statement.allWellFormed_iff.mpr (fun _ hs => wellFormed_statement h hs))
  intro hd
  have hmem := Statement.mem_filterMap_static?.mpr hd
  rw [← Statement.blockStatics_eq_flat, hnone] at hmem
  cases hmem

/-- The slots of a program match its declarations.  Each name has what its first declaration calls
    for, and nothing else is there; a first declaration that gets no slot is reported; in a program
    that passes the check every function, static and constant table is there once; and no slot of
    any program has a type outside the limits.  A program that was read from a text has no statics
    besides its items and those in its functions. -/
theorem slots_match_declarations (p : Program) :
    p.Registered p.declarations.1 ∧ p.Reported p.declarations.1 ∧
    (∀ decls, p.check = .ok decls → p.OneSlotEach decls) ∧
    (∀ slot ∈ p.declarations.1.store.slots, slot.2.ty.Sized) ∧
    ∀ source, parse source = .ok p → ∀ d, .static d ∉ Statement.flatBlock p.statements :=
  ⟨p.registered, p.reported, fun _ => oneSlotEach_of_check, fun _ => p.sized_of_mem_slots,
    fun _ => static_not_mem_statements⟩

/-- A static, a constant table, and a function with a static in an inner block. -/
def nestedStatic : Program :=
  ⟨[.static ⟨"G", .uint .byte, ⟨1, 1⟩⟩,
    .const ⟨"T", .array .byte 2, [1, 2], ⟨2, 1⟩⟩,
    .function ⟨"f", [], none,
      [.ifThen ⟨3, 8⟩ (.ident ⟨3, 11⟩ "G") [.static ⟨"S", .array .byte 3, ⟨3, 15⟩⟩]], ⟨3, 1⟩⟩]⟩

/-- The first of two declarations of one name asks for an array without elements. -/
def emptyFirst : Program :=
  ⟨[.static ⟨"A", .array .byte 0, ⟨1, 1⟩⟩, .static ⟨"A", .uint .byte, ⟨2, 1⟩⟩]⟩

/-- Each declaration of the first program is there once.  In the second the first declaration gets
    no slot and is reported, and the other does not take its place.  A text with a static inside a
    function is read, and has none elsewhere. -/
theorem slots_match_declarations_nestedStatic :
    (∃ decls, nestedStatic.check = .ok decls ∧ nestedStatic.OneSlotEach decls) ∧
    (emptyFirst.declarations.1.store.global? "A" = none ∧
      emptyFirst.LimitReported (.array .byte 0) ⟨1, 1⟩) ∧
    ∃ p, parse "fn f { if 1 { static S:[u8 3] } }" = .ok p ∧
      ∀ d, .static d ∉ Statement.flatBlock p.statements := by
  have hcheck : nestedStatic.check = .ok nestedStatic.declarations.1 := rfl
  obtain ⟨-, -, heach, -⟩ := slots_match_declarations nestedStatic
  have hfirst : IsFirst (fun i : Item => i.declares "A")
      (.static ⟨"A", .array .byte 0, ⟨1, 1⟩⟩) emptyFirst.items := by
    refine ⟨rfl, [], _, rfl, ?_⟩
    intro i hi
    cases hi
  obtain ⟨-, hreported, -⟩ := slots_match_declarations emptyFirst
  have hread : (parse "fn f { if 1 { static S:[u8 3] } }").isOk = true := by decide +kernel
  refine ⟨⟨_, hcheck, heach _ hcheck⟩, ⟨rfl, hreported.globals _ hfirst rfl⟩, ?_⟩
  cases hparse : parse "fn f { if 1 { static S:[u8 3] } }" with
  | error e =>
    rw [hparse] at hread
    cases hread
  | ok p =>
    obtain ⟨-, -, -, -, helsewhere⟩ := slots_match_declarations p
    exact ⟨p, rfl, helsewhere _ hparse⟩

end Program

end WordLang
