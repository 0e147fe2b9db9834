import WordLang.Declaration.Check
import WordLang.Proofs.Frames

/-! # What a program declares

    Going through the items one by one gives, for every name, what the first
    declaration of the name calls for: `declarations_describes` says so for
    functions, global statics, constant tables and statics of functions.

    A program that passes the check has no second declaration of a name and
    no type outside the limits, so every name that is declared has its
    slot. -/

namespace WordLang

/-! ## Section 1: What a single declaration calls for -/

/-- The slot that a static calls for; a type outside the limits gets none. -/
def StaticDecl.slot? (d : StaticDecl) : Option Value :=
  if d.ty.withinLimits then some (.zero d.ty) else none

/-- The slot that a constant table calls for; a faulty one gets none. -/
def ConstDecl.slot? (d : ConstDecl) : Option Value :=
  match d.value with
  | .ok v => v
  | .error _ => none

/-- A type that may be declared: a word, or an array of 1 to 65536 elements. -/
def Ty.Sized : Ty → Prop
  | .uint _ => True
  | .array _ len => 1 ≤ len ∧ len ≤ 65536

theorem Ty.withinLimits_iff {ty : Ty} : ty.withinLimits = true ↔ ty.Sized := by
  cases ty with
  | uint w => simp [withinLimits, Sized]
  | array element len =>
    rw [withinLimits, Bool.and_eq_true, decide_eq_true_eq, decide_eq_true_eq]
    exact Iff.rfl

theorem StaticDecl.slot?_eq_some_iff {d : StaticDecl} {v : Value} :
    d.slot? = some v ↔ d.ty.Sized ∧ v = .zero d.ty := by
  by_cases hlim : d.ty.withinLimits = true
  · simp [slot?, hlim, Ty.withinLimits_iff.mp hlim, eq_comm]
  · simp [slot?, hlim, mt Ty.withinLimits_iff.mpr hlim]

namespace ConstDecl

/-- The array of a constant table's elements. -/
def literal (d : ConstDecl) : Value := .array d.ty.width d.values.toArray

/-- A constant table of array type, with as many elements as declared and all of them fitting. -/
def Complete (d : ConstDecl) : Prop :=
  ∃ element len, d.ty = .array element len ∧ d.values.length = len ∧
    ∀ n ∈ d.values, element.fits n = true

theorem Complete.ty_literal {d : ConstDecl} (h : d.Complete) : d.literal.ty = d.ty := by
  obtain ⟨element, len, hty, hlen, -⟩ := h
  simp [literal, Value.ty, Ty.width, hty, hlen]

theorem Complete.inRange_literal {d : ConstDecl} (h : d.Complete) : d.literal.InRange := by
  obtain ⟨element, len, hty, -, hfits⟩ := h
  intro n hn
  rw [hty]
  exact hfits n (List.mem_toArray.mp hn)

/-- What is wrong with a constant table that is not complete. -/
inductive Fault (d : ConstDecl) : DeclCause → Prop where
  | notArray {w : Width} (hty : d.ty = .uint w) : Fault d (.constNotArray d.name)
  | length {element : Width} {len : Nat} (hty : d.ty = .array element len)
      (hlen : d.values.length ≠ len) : Fault d (.constLength d.name len d.values.length)
  | outOfRange {element : Width} {len n : Nat} (hty : d.ty = .array element len)
      (hn : n ∈ d.values) (hfits : ¬ element.fits n = true) :
      Fault d (.constValueOutOfRange d.name n element)

theorem Fault.not_complete {d : ConstDecl} {cause : DeclCause} (h : d.Fault cause) :
    ¬ d.Complete := by
  rintro ⟨element, len, hty, hlen, hfits⟩
  cases h with
  | notArray hty' =>
    rw [hty] at hty'
    cases hty'
  | length hty' hlen' =>
    rw [hty] at hty'
    cases hty'
    exact hlen' hlen
  | outOfRange hty' hn hfits' =>
    rw [hty] at hty'
    cases hty'
    exact hfits' (hfits _ hn)

/-- The value of a constant table: that of a complete one is its literal if its type is within
    the limits, and any other has a fault. -/
theorem value_cases (d : ConstDecl) :
    (d.Complete ∧ d.value = .ok (if d.ty.withinLimits then some d.literal else none)) ∨
    ∃ cause, d.Fault cause ∧ d.value = .error cause := by
  unfold value literal
  cases hty : d.ty with
  | uint w => exact Or.inr ⟨_, .notArray hty, rfl⟩
  | array element len =>
    dsimp only
    by_cases hlen : d.values.length = len
    · rw [if_neg (not_not_intro hlen)]
      cases hfind : d.values.find? (fun n => !element.fits n) with
      | some n =>
        have hfits : ¬ element.fits n = true := by simpa using List.find?_some hfind
        exact Or.inr ⟨_, .outOfRange hty (List.mem_of_find?_eq_some hfind) hfits, rfl⟩
      | none =>
        have hfits : ∀ n ∈ d.values, element.fits n = true := by
          simpa using List.find?_eq_none.mp hfind
        apply Or.inl
        constructor
        · exact ⟨element, len, hty, hlen, hfits⟩
        · dsimp only
          split <;> rfl
    · rw [if_pos hlen]
      exact Or.inr ⟨_, .length hty hlen, rfl⟩

theorem slot?_eq_some_iff {d : ConstDecl} {v : Value} :
    d.slot? = some v ↔ d.ty.Sized ∧ d.Complete ∧ v = d.literal := by
  obtain ⟨hcomplete, hvalue⟩ | ⟨cause, hfault, hvalue⟩ := d.value_cases
  · by_cases hlim : d.ty.withinLimits = true
    · simp [slot?, hvalue, hlim, Ty.withinLimits_iff.mp hlim, hcomplete, eq_comm]
    · simp [slot?, hvalue, hlim, mt Ty.withinLimits_iff.mpr hlim]
  · simp [slot?, hvalue, hfault.not_complete]

end ConstDecl

/-- The slot of a function's static of this name. -/
def Function.slot? (f : Function) (name : String) : Option Value :=
  (f.statics.find? (fun d => d.name == name)).bind StaticDecl.slot?

namespace Item

/-- Whether an item is a static or a constant table of this name. -/
def declares (name : String) : Item → Bool
  | .static d => d.name == name
  | .const d => d.name == name
  | .function _ | .statement _ => false

/-- The slot among the global statics that an item calls for. -/
def globalSlot? : Item → Option Value
  | .static d => d.slot?
  | _ => none

/-- The slot among the constant tables that an item calls for. -/
def constSlot? : Item → Option Value
  | .const d => d.slot?
  | _ => none

theorem function?_eq_some_iff {item : Item} {f : Function} :
    item.function? = some f ↔ item = .function f := by
  cases item <;> simp [function?]

theorem static?_eq_some_iff {item : Item} {d : StaticDecl} :
    item.static? = some d ↔ item = .static d := by
  cases item <;> simp [static?]

theorem const?_eq_some_iff {item : Item} {d : ConstDecl} :
    item.const? = some d ↔ item = .const d := by
  cases item <;> simp [const?]

end Item

namespace Program

variable {p : Program}

theorem mem_functions_iff {f : Function} : f ∈ p.functions ↔ .function f ∈ p.items := by
  simp [functions, List.mem_filterMap, Item.function?_eq_some_iff]

theorem mem_statics_iff {d : StaticDecl} : d ∈ p.statics ↔ .static d ∈ p.items := by
  simp [statics, List.mem_filterMap, Item.static?_eq_some_iff]

theorem mem_consts_iff {d : ConstDecl} : d ∈ p.consts ↔ .const d ∈ p.items := by
  simp [consts, List.mem_filterMap, Item.const?_eq_some_iff]

end Program

/-- The first function of a name. -/
def firstFunction? (items : List Item) (name : String) : Option Function :=
  (items.filterMap Item.function?).find? (fun f => f.name == name)

/-! ## Section 2: The table describes the items -/

/-- The statics of a function: the first one of a name decides about the slot. -/
theorem get?_declareStatics (function : String) (seen : List String) (slots : NameMap Value)
    (ds : List StaticDecl) (name : String) :
    (declareStatics function seen slots ds).1.get? name =
      if name ∈ seen then slots.get? name
      else ((ds.find? (fun d => d.name == name)).bind StaticDecl.slot?).or (slots.get? name) := by
  induction ds generalizing seen slots with
  | nil => simp [declareStatics]
  | cons d rest ih =>
    unfold declareStatics
    split
    -- a second static of the name is passed over
    · next hseen =>
      rw [ih]
      by_cases hname : name ∈ seen
      · simp [hname]
      · have hne : d.name ≠ name := fun h => hname (h ▸ hseen)
        simp [hname, hne]
    · next hseen =>
      rw [ih]
      by_cases heq : d.name = name
      -- the first of the name: it counts as seen even where it gets no slot
      · subst heq
        by_cases hlim : d.ty.withinLimits <;> simp [hseen, hlim, StaticDecl.slot?]
      · have hget :
            (if d.ty.withinLimits then slots.insert d.name (.zero d.ty) else slots).get? name =
              slots.get? name := by
          split
          · exact NameMap.get?_insert_ne _ (Ne.symm heq) _
          · rfl
        simp [hget, heq, Ne.symm heq]

namespace Collected

/-- What has been declared is what the items so far call for. -/
structure Describes (c : Collected) (items : List Item) : Prop where
  globals : ∀ name, name ∈ c.globals ↔ (items.find? (Item.declares name)).isSome
  functions : ∀ name, c.decls.functions.get? name = firstFunction? items name
  statics : ∀ name,
    c.decls.store.global? name = (items.find? (Item.declares name)).bind Item.globalSlot?
  consts : ∀ name,
    c.decls.store.const? name = (items.find? (Item.declares name)).bind Item.constSlot?
  locals : ∀ function name,
    c.decls.store.local? function name =
      (firstFunction? items function).bind (fun f => f.slot? name)

namespace Describes

variable {c : Collected} {items : List Item}

theorem empty : Describes Collected.empty [] :=
  ⟨fun _ => by simp [Collected.empty], fun _ => rfl, fun _ => rfl, fun _ => rfl, fun _ _ => rfl⟩

/-- The first function of a name stays the first when items follow. -/
theorem firstFunction?_append (items : List Item) (item : Item) (name : String) :
    firstFunction? (items ++ [item]) name =
      (firstFunction? items name).or (firstFunction? [item] name) := by
  unfold firstFunction?
  rw [List.filterMap_append, List.find?_append]

theorem addFunction (h : Describes c items) (f : Function) :
    Describes (c.addFunction f).1 (items ++ [.function f]) := by
  have hfind : ∀ name, (items ++ [Item.function f]).find? (Item.declares name)
      = items.find? (Item.declares name) := by
    intro name
    simp [List.find?_append, Item.declares]
  have hlast : ∀ name, firstFunction? [.function f] name =
      if f.name = name then some f else none := by
    intro name
    by_cases hname : f.name = name <;> simp [firstFunction?, Item.function?, hname]
  unfold Collected.addFunction
  split
  · next hseen =>
    have hsome : (firstFunction? items f.name).isSome := by
      rw [← h.functions]
      exact hseen
    -- there is a function of the name already, and it stays the first
    have hsame : ∀ name,
        firstFunction? (items ++ [.function f]) name = firstFunction? items name := by
      intro name
      rw [firstFunction?_append, hlast]
      split
      · next hname =>
        subst hname
        obtain ⟨g, hg⟩ := Option.isSome_iff_exists.mp hsome
        rw [hg]
        rfl
      · exact Option.or_none
    refine ⟨fun name => ?_, fun name => ?_, fun name => ?_, fun name => ?_, fun function name => ?_⟩
    · rw [hfind]; exact h.globals name
    · rw [hsame]; exact h.functions name
    · rw [hfind]; exact h.statics name
    · rw [hfind]; exact h.consts name
    · rw [hsame]; exact h.locals function name
  · next hseen =>
    have hnone : firstFunction? items f.name = none := by
      rw [← h.functions]
      exact Option.not_isSome_iff_eq_none.mp hseen
    have hnew : ∀ name, firstFunction? (items ++ [.function f]) name =
        if name = f.name then some f else firstFunction? items name := by
      intro name
      rw [firstFunction?_append, hlast]
      by_cases hname : f.name = name
      · subst hname
        simp [hnone]
      · simp [hname, Ne.symm hname]
    refine ⟨fun name => ?_, fun name => ?_, fun name => ?_, fun name => ?_, fun function name => ?_⟩
    · rw [hfind]; exact h.globals name
    · rw [hnew, ← h.functions]; exact NameMap.get?_insert _ _ _ _
    · rw [hfind]; exact h.statics name
    · rw [hfind]; exact h.consts name
    · rw [hnew]
      have hlocal := h.locals function name
      unfold Store.local? at hlocal ⊢
      dsimp only
      rw [NameMap.get?_insert]
      split
      -- its statics are declared together with it, none of them seen before
      · show (declareStatics f.name [] .empty f.statics).1.get? name = f.slot? name
        rw [get?_declareStatics]
        simp [Function.slot?]
      · exact hlocal

/-- An item that is no function: a name that it declares counts as seen, and if it was not seen
    before, it gets the slots that the item calls for. -/
theorem add {c' : Collected} {item : Item} (h : Describes c items)
    (hfunction : item.function? = none)
    (hglobals : ∀ name, name ∈ c'.globals ↔ name ∈ c.globals ∨ item.declares name)
    (hfunctions : c'.decls.functions = c.decls.functions)
    (hlocals : c'.decls.store.locals = c.decls.store.locals)
    (hstatics : ∀ name, c'.decls.store.global? name =
      if item.declares name ∧ name ∉ c.globals then item.globalSlot?
      else c.decls.store.global? name)
    (hconsts : ∀ name, c'.decls.store.const? name =
      if item.declares name ∧ name ∉ c.globals then item.constSlot?
      else c.decls.store.const? name) :
    Describes c' (items ++ [item]) := by
  have hfirst : ∀ name, firstFunction? (items ++ [item]) name = firstFunction? items name := by
    intro name
    rw [firstFunction?_append]
    simp [firstFunction?, hfunction]
  -- the new item is found just for names that no item before it declares
  have hfind : ∀ name, (items ++ [item]).find? (Item.declares name)
      = if item.declares name ∧ name ∉ c.globals then some item
        else items.find? (Item.declares name) := by
    intro name
    have hseen := h.globals name
    rw [List.find?_append]
    cases hfind : items.find? (Item.declares name) with
    | none =>
      rw [hfind] at hseen
      by_cases hdecl : item.declares name <;> simp [hdecl, hseen]
    | some i =>
      rw [hfind] at hseen
      simp [hseen]
  refine ⟨fun name => ?_, fun name => ?_, fun name => ?_, fun name => ?_, fun function name => ?_⟩
  · rw [hglobals, hfind]
    split
    · next hnew => simp [hnew.1]
    · next hold =>
      rw [← h.globals]
      refine ⟨fun hor => hor.elim id (fun hdecl => ?_), Or.inl⟩
      by_cases hseen : name ∈ c.globals
      · exact hseen
      · exact absurd ⟨hdecl, hseen⟩ hold
  · rw [hfirst, hfunctions]
    exact h.functions name
  · rw [hstatics, hfind]
    split
    · rfl
    · exact h.statics name
  · rw [hconsts, hfind]
    split
    · rfl
    · exact h.consts name
  · rw [hfirst]
    unfold Store.local?
    rw [hlocals]
    exact h.locals function name

/-- A second declaration of a name changes nothing. -/
theorem addAgain {item : Item} {name : String} (h : Describes c items)
    (hfunction : item.function? = none) (hdecl : ∀ other, item.declares other = true ↔ name = other)
    (hseen : name ∈ c.globals) : Describes c (items ++ [item]) := by
  have hnot : ∀ other, ¬ (item.declares other ∧ other ∉ c.globals) := by
    rintro other ⟨hother, hnew⟩
    exact hnew ((hdecl other).mp hother ▸ hseen)
  refine h.add hfunction (fun other => ?_) rfl rfl (fun other => ?_) (fun other => ?_)
  · refine ⟨Or.inl, fun hor => hor.elim id (fun hother => ?_)⟩
    exact (hdecl other).mp hother ▸ hseen
  · exact (if_neg (hnot other)).symm
  · exact (if_neg (hnot other)).symm

theorem find_unseen (h : Describes c items) {name : String} (hname : name ∉ c.globals) :
    items.find? (Item.declares name) = none :=
  Option.not_isSome_iff_eq_none.mp (fun hsome => hname ((h.globals name).mpr hsome))

theorem global_unseen (h : Describes c items) {name : String} (hname : name ∉ c.globals) :
    c.decls.store.global? name = none := by
  rw [h.statics, h.find_unseen hname]
  rfl

theorem const_unseen (h : Describes c items) {name : String} (hname : name ∉ c.globals) :
    c.decls.store.const? name = none := by
  rw [h.consts, h.find_unseen hname]
  rfl

theorem addStatic (h : Describes c items) (d : StaticDecl) :
    Describes (c.addStatic d).1 (items ++ [.static d]) := by
  have hdecl : ∀ name, (Item.static d).declares name = true ↔ d.name = name := by
    simp [Item.declares]
  unfold Collected.addStatic
  split
  · next hseen => exact h.addAgain rfl hdecl hseen
  · next hseen =>
    refine h.add rfl (fun name => ?_) rfl ?_ (fun name => ?_) (fun name => ?_)
    · rw [hdecl, List.mem_cons, or_comm, eq_comm]
    · dsimp only
      split <;> rfl
    · by_cases hname : d.name = name
      · subst hname
        have hold := h.global_unseen hseen
        by_cases hlim : d.ty.withinLimits
        · simp [hdecl, hseen, hlim, Store.global?, Item.globalSlot?, StaticDecl.slot?]
        · simp [hdecl, hseen, hlim, hold, Item.globalSlot?, StaticDecl.slot?]
      · rw [if_neg (fun hnew => hname ((hdecl name).mp hnew.1))]
        dsimp only
        split
        · exact NameMap.get?_insert_ne _ (Ne.symm hname) _
        · rfl
    · refine Eq.trans (b := c.decls.store.const? name) ?_ ?_
      · dsimp only
        split <;> rfl
      · split
        · next hnew => exact h.const_unseen hnew.2
        · rfl

theorem addConst (h : Describes c items) (d : ConstDecl) :
    Describes (c.addConst d).1 (items ++ [.const d]) := by
  have hdecl : ∀ name, (Item.const d).declares name = true ↔ d.name = name := by
    simp [Item.declares]
  have hglobal : ∀ name, c.decls.store.global? name =
      if (Item.const d).declares name ∧ name ∉ c.globals then (Item.const d).globalSlot?
      else c.decls.store.global? name := by
    intro name
    split
    · next hnew => exact h.global_unseen hnew.2
    · rfl
  have hnone : d.slot? = none → ∀ name, c.decls.store.const? name =
      if (Item.const d).declares name ∧ name ∉ c.globals then (Item.const d).constSlot?
      else c.decls.store.const? name := by
    intro hslot name
    split
    · next hnew => rw [h.const_unseen hnew.2]; exact hslot.symm
    · rfl
  unfold Collected.addConst
  split
  · next hseen => exact h.addAgain rfl hdecl hseen
  · next hseen =>
    have hseen' : ∀ name, name ∈ d.name :: c.globals ↔
        name ∈ c.globals ∨ (Item.const d).declares name := by
      intro name
      rw [hdecl, List.mem_cons, or_comm, eq_comm]
    dsimp only
    split
    -- a table with a fault, one outside the limits, and one that gets a slot
    · next cause hvalue =>
      exact h.add rfl hseen' rfl rfl hglobal (hnone (by simp [ConstDecl.slot?, hvalue]))
    · next hvalue =>
      exact h.add rfl hseen' rfl rfl hglobal (hnone (by simp [ConstDecl.slot?, hvalue]))
    · next v hvalue =>
      refine h.add rfl hseen' rfl rfl hglobal (fun name => ?_)
      show (c.decls.store.consts.insert d.name v).get? name = _
      rw [NameMap.get?_insert]
      by_cases hname : name = d.name
      · subst hname
        simp [hdecl, hseen, Item.constSlot?, ConstDecl.slot?, hvalue]
      · rw [if_neg hname, if_neg (fun hnew => hname ((hdecl name).mp hnew.1).symm)]
        rfl

/-- One more item. -/
theorem addItem (h : Describes c items) (item : Item) :
    Describes (c.addItem item).1 (items ++ [item]) := by
  cases item with
  | function f => exact h.addFunction f
  | static d => exact h.addStatic d
  | const d => exact h.addConst d
  | statement s =>
    refine h.add rfl (fun name => ?_) rfl rfl (fun name => ?_) (fun name => ?_) <;>
      simp [Collected.addItem, Item.declares]

/-- All items in order. -/
theorem addItems (h : Describes c items) (more : List Item) :
    Describes (c.addItems more).1 (items ++ more) := by
  induction more generalizing c items with
  | nil => simpa [Collected.addItems] using h
  | cons item rest ih =>
    have hrest := ih (h.addItem item)
    rw [List.append_assoc] at hrest
    exact hrest

end Describes

theorem errors_addItems_append (c : Collected) (first second : List Item) :
    (c.addItems (first ++ second)).2 =
      (c.addItems first).2 ++ ((c.addItems first).1.addItems second).2 := by
  induction first generalizing c with
  | nil => rfl
  | cons item rest ih =>
    show (c.addItem item).2 ++ ((c.addItem item).1.addItems (rest ++ second)).2 = _
    rw [ih, ← List.append_assoc]
    rfl

end Collected

/-- What a program declares is what its items call for. -/
theorem declarations_describes (p : Program) :
    Collected.Describes (Collected.empty.addItems p.items).1 p.items :=
  Collected.Describes.empty.addItems p.items

namespace Program

variable {p : Program}

/-- The global statics that have a slot. -/
theorem global?_eq_some_iff {name : String} {v : Value} :
    p.declarations.1.store.global? name = some v ↔
      ∃ d, p.items.find? (Item.declares name) = some (.static d) ∧ d.slot? = some v := by
  rw [show p.declarations.1.store.global? name = _ from (declarations_describes p).statics name,
    Option.bind_eq_some_iff]
  constructor
  · rintro ⟨item, hitem, hv⟩
    cases item with
    | static d => exact ⟨d, hitem, hv⟩
    | _ => cases hv
  · rintro ⟨d, hitem, hv⟩
    exact ⟨_, hitem, hv⟩

/-- The constant tables that have a slot. -/
theorem const?_eq_some_iff {name : String} {v : Value} :
    p.declarations.1.store.const? name = some v ↔
      ∃ d, p.items.find? (Item.declares name) = some (.const d) ∧ d.slot? = some v := by
  rw [show p.declarations.1.store.const? name = _ from (declarations_describes p).consts name,
    Option.bind_eq_some_iff]
  constructor
  · rintro ⟨item, hitem, hv⟩
    cases item with
    | const d => exact ⟨d, hitem, hv⟩
    | _ => cases hv
  · rintro ⟨d, hitem, hv⟩
    exact ⟨_, hitem, hv⟩

/-- The statics of functions that have a slot. -/
theorem local?_eq_some_iff {function name : String} {v : Value} :
    p.declarations.1.store.local? function name = some v ↔
      ∃ f d, firstFunction? p.items function = some f ∧
        f.statics.find? (fun d => d.name == name) = some d ∧ d.slot? = some v := by
  rw [show p.declarations.1.store.local? function name = _ from
    (declarations_describes p).locals function name, Option.bind_eq_some_iff]
  constructor
  · rintro ⟨f, hf, hv⟩
    obtain ⟨d, hd, hv⟩ := Option.bind_eq_some_iff.mp hv
    exact ⟨f, d, hf, hd, hv⟩
  · rintro ⟨f, d, hf, hd, hv⟩
    exact ⟨f, hf, Option.bind_eq_some_iff.mpr ⟨d, hd, hv⟩⟩

end Program

/-! ## Section 3: Statements anywhere in a block -/

namespace Statement

/-- The static that a statement declares. -/
def static? : Statement → Option StaticDecl
  | .static decl => some decl
  | _ => none

mutual

/-- A statement and all statements in its blocks, in source order. -/
def flat : Statement → List Statement
  | .ifThen pos cond yes => .ifThen pos cond yes :: flatBlock yes
  | .ifElse pos cond yes no => .ifElse pos cond yes no :: (flatBlock yes ++ flatBlock no)
  | .forRange pos var ty start stop body =>
    .forRange pos var ty start stop body :: flatBlock body
  | .loop pos body => .loop pos body :: flatBlock body
  | s => [s]

/-- All statements anywhere in a block, in source order. -/
def flatBlock : List Statement → List Statement
  | [] => []
  | s :: rest => flat s ++ flatBlock rest

end

mutual

theorem statics_eq_flat : (s : Statement) → s.statics = s.flat.filterMap static?
  | .ifThen _ _ yes => by
    simp only [statics, flat, List.filterMap_cons, static?, blockStatics_eq_flat yes]
  | .ifElse _ _ yes no => by
    simp only [statics, flat, List.filterMap_cons, static?, blockStatics_eq_flat yes,
      blockStatics_eq_flat no, List.filterMap_append]
  | .forRange _ _ _ _ _ body => by
    simp only [statics, flat, List.filterMap_cons, static?, blockStatics_eq_flat body]
  | .loop _ body => by
    simp only [statics, flat, List.filterMap_cons, static?, blockStatics_eq_flat body]
  | .static _ => rfl
  | .letVar _ _ _ _ => rfl
  | .assign _ _ _ _ => rfl
  | .breakLoop _ => rfl
  | .continueLoop _ => rfl
  | .ret _ _ => rfl
  | .panic _ => rfl
  | .expr _ _ => rfl

/-- The statics of a block are those among all statements anywhere in it. -/
theorem blockStatics_eq_flat :
    (ss : List Statement) → blockStatics ss = (flatBlock ss).filterMap static?
  | [] => rfl
  | s :: rest => by
    simp only [blockStatics, flatBlock, List.filterMap_append, statics_eq_flat s,
      blockStatics_eq_flat rest]

end

theorem mem_filterMap_static? {ss : List Statement} {d : StaticDecl} :
    d ∈ ss.filterMap static? ↔ .static d ∈ ss := by
  constructor
  · intro h
    obtain ⟨s, hs, hstatic⟩ := List.mem_filterMap.mp h
    cases s with
    | static d' =>
      cases hstatic
      exact hs
    | _ => cases hstatic
  · intro h
    exact List.mem_filterMap.mpr ⟨_, h, rfl⟩

/-- What the type that a statement declares breaks. -/
def ownLimitErrors : Statement → List DeclError
  | .letVar pos _ ty _ => ty.limitErrors pos
  | .static decl => decl.ty.limitErrors decl.pos
  | .forRange pos _ ty _ _ _ => ty.limitErrors pos
  | _ => []

mutual

theorem limitErrors_eq_flat : (s : Statement) → s.limitErrors = s.flat.flatMap ownLimitErrors
  | .ifThen _ _ yes => by
    simp only [limitErrors, flat, List.flatMap_cons, ownLimitErrors, List.nil_append,
      blockLimitErrors_eq_flat yes]
  | .ifElse _ _ yes no => by
    simp only [limitErrors, flat, List.flatMap_cons, ownLimitErrors, List.nil_append,
      blockLimitErrors_eq_flat yes, blockLimitErrors_eq_flat no, List.flatMap_append]
  | .forRange _ _ _ _ _ body => by
    simp only [limitErrors, flat, List.flatMap_cons, ownLimitErrors, blockLimitErrors_eq_flat body]
  | .loop _ body => by
    simp only [limitErrors, flat, List.flatMap_cons, ownLimitErrors, List.nil_append,
      blockLimitErrors_eq_flat body]
  | .static _ => by simp [limitErrors, flat, ownLimitErrors]
  | .letVar _ _ _ _ => by simp [limitErrors, flat, ownLimitErrors]
  | .assign _ _ _ _ => rfl
  | .breakLoop _ => rfl
  | .continueLoop _ => rfl
  | .ret _ _ => rfl
  | .panic _ => rfl
  | .expr _ _ => rfl

/-- The limits pass visits all statements anywhere in a block. -/
theorem blockLimitErrors_eq_flat :
    (ss : List Statement) → blockLimitErrors ss = (flatBlock ss).flatMap ownLimitErrors
  | [] => rfl
  | s :: rest => by
    simp only [blockLimitErrors, flatBlock, List.flatMap_append, limitErrors_eq_flat s,
      blockLimitErrors_eq_flat rest]

end

/-- What a static anywhere in a block breaks is reported by the limits pass. -/
theorem limitErrors_subset_of_static {ss : List Statement} {d : StaticDecl}
    (hd : .static d ∈ flatBlock ss) : d.ty.limitErrors d.pos ⊆ blockLimitErrors ss := by
  intro e he
  rw [blockLimitErrors_eq_flat]
  exact List.mem_flatMap.mpr ⟨_, hd, he⟩

end Statement

/-- The statics among all statements anywhere in the body of a function, in source order. -/
def Function.bodyStatics (f : Function) : List StaticDecl :=
  (Statement.flatBlock f.body).filterMap Statement.static?

theorem Function.statics_eq_bodyStatics (f : Function) : f.statics = f.bodyStatics :=
  Statement.blockStatics_eq_flat f.body

/-! ## Section 4: What passing the check means -/

theorem withinLimits_of_limitErrors {pos : Position} {ty : Ty} (h : ty.limitErrors pos = []) :
    ty.withinLimits = true := by
  cases ty with
  | uint w => rfl
  | array element len =>
    by_cases hlim : (Ty.array element len).withinLimits
    · exact hlim
    · rw [Ty.limitErrors, if_neg hlim] at h
      cases h

theorem StaticDecl.isSome_slot? {d : StaticDecl} (h : d.ty.limitErrors d.pos = []) :
    d.slot?.isSome := by
  unfold slot?
  rw [if_pos (withinLimits_of_limitErrors h)]
  rfl

theorem ConstDecl.isSome_slot? {d : ConstDecl} {v : Option Value} (h : d.ty.limitErrors d.pos = [])
    (hvalue : d.value = .ok v) : d.slot?.isSome := by
  obtain ⟨-, hok⟩ | ⟨cause, -, herror⟩ := d.value_cases
  · rw [slot?, hok, if_pos (withinLimits_of_limitErrors h)]
    rfl
  · rw [herror] at hvalue
    cases hvalue

/-- The limits hold for the statics in a block if they hold for the block. -/
theorem Statement.blockStatics_withinLimits (ss : List Statement)
    (h : Statement.blockLimitErrors ss = []) :
    ∀ d ∈ Statement.blockStatics ss, d.ty.limitErrors d.pos = [] := by
  intro d hd
  rw [Statement.blockStatics_eq_flat] at hd
  have hsubset := Statement.limitErrors_subset_of_static (Statement.mem_filterMap_static?.mp hd)
  rw [h] at hsubset
  exact List.subset_nil.mp hsubset

namespace Collected

/-- Without faults an item is the first to declare its name, and a constant table has a value. -/
theorem addItem_errors {c : Collected} {item : Item}
    (herrors : (c.addItem item).2 = []) {name : String} (hname : item.declares name) :
    name ∉ c.globals ∧ ∀ d, item = .const d → ∃ v, d.value = .ok v := by
  cases item with
  | function f => cases hname
  | statement s => cases hname
  | static d =>
    have hdecl : d.name = name := by simpa [Item.declares] using hname
    subst hdecl
    change (c.addStatic d).2 = [] at herrors
    unfold Collected.addStatic at herrors
    split at herrors
    · cases herrors
    · next hseen => exact ⟨hseen, fun d' hd' => nomatch hd'⟩
  | const d =>
    have hdecl : d.name = name := by simpa [Item.declares] using hname
    subst hdecl
    change (c.addConst d).2 = [] at herrors
    unfold Collected.addConst at herrors
    split at herrors
    · cases herrors
    · next hseen =>
      refine ⟨hseen, fun d' hd' => ?_⟩
      cases hd'
      dsimp only at herrors
      cases hvalue : d.value with
      | ok v => exact ⟨v, rfl⟩
      | error cause => rw [hvalue] at herrors; cases herrors

theorem Describes.addItems_errors {c : Collected} {items : List Item} (h : Describes c items)
    (more : List Item) (herrors : (c.addItems more).2 = []) {item : Item} (hitem : item ∈ more)
    (name : String) (hname : item.declares name) :
    (items ++ more).find? (Item.declares name) = some item ∧
      ∀ d, item = .const d → ∃ v, d.value = .ok v := by
  induction more generalizing c items with
  | nil => cases hitem
  | cons first rest ih =>
    obtain ⟨hfirst, hrest⟩ := List.append_eq_nil_iff.mp herrors
    rcases List.mem_cons.mp hitem with rfl | hitem
    -- the declaration is without fault only if the name is new at this point
    · obtain ⟨hunseen, hconst⟩ := addItem_errors hfirst hname
      refine ⟨?_, hconst⟩
      rw [List.find?_append, h.find_unseen hunseen, List.find?_cons_of_pos hname]
      rfl
    · have hih := ih (h.addItem first) hrest hitem
      rw [List.append_assoc] at hih
      exact hih

end Collected

namespace Program

/-- A program passes the check if none of the passes finds a fault. -/
theorem check_eq_ok {p : Program} {decls : Declarations} (h : p.check = .ok decls) :
    decls = p.declarations.1 ∧ p.limitErrors = [] ∧ p.declarations.2 = [] ∧ p.nameErrors = [] := by
  unfold check at h
  dsimp only at h
  split at h
  · next hempty =>
    obtain ⟨hfirst, hnames⟩ := List.append_eq_nil_iff.mp (List.isEmpty_iff.mp hempty)
    obtain ⟨hlimits, hdecls⟩ := List.append_eq_nil_iff.mp hfirst
    exact ⟨(Except.ok.inj h).symm, hlimits, hdecls, hnames⟩
  · cases h

/-- The trace of a program that passes the check is that of one execution. -/
theorem trace_of_check {p : Program} {decls : Declarations} (hcheck : p.check = .ok decls)
    {config : Config} {fuel : Nat} :
    p.trace config fuel =
      match p.execute (p.env config) fuel p.start with
      | .done () m => some (m.events.reverse, .ok (.ofStore m.store))
      | .fault e m => some (m.events.reverse, .error (.runtime e))
      | .outOfFuel => none := by
  unfold trace
  rw [hcheck, (check_eq_ok hcheck).1]
  rfl

variable {p : Program}

theorem limitErrors_of_mem (h : p.limitErrors = []) {item : Item} (hitem : item ∈ p.items) :
    item.limitErrors = [] :=
  List.flatMap_eq_nil_iff.mp h item hitem

/-- Every static of a checked program has its slot. -/
theorem isSome_global? (hlimits : p.limitErrors = []) (herrors : p.declarations.2 = [])
    {name : String} (hname : name ∈ p.names.statics) :
    (p.declarations.1.store.global? name).isSome := by
  obtain ⟨d, hd, rfl⟩ := List.mem_map.mp hname
  have hitem := mem_statics_iff.mp hd
  -- nothing else declares the name, so its slot is the one this static calls for
  have hfind := (Collected.Describes.empty.addItems_errors p.items herrors hitem d.name
    (by simp [Item.declares])).1
  rw [show p.declarations.1.store.global? d.name = _ from
    (declarations_describes p).statics d.name]
  rw [List.nil_append] at hfind
  rw [hfind]
  exact StaticDecl.isSome_slot? (limitErrors_of_mem hlimits hitem)

/-- Every constant table of a checked program has its slot. -/
theorem isSome_const? (hlimits : p.limitErrors = []) (herrors : p.declarations.2 = [])
    {name : String} (hname : name ∈ p.names.consts) :
    (p.declarations.1.store.const? name).isSome := by
  obtain ⟨d, hd, rfl⟩ := List.mem_map.mp hname
  have hitem := mem_consts_iff.mp hd
  obtain ⟨hfind, hvalue⟩ := Collected.Describes.empty.addItems_errors p.items herrors hitem d.name
    (by simp [Item.declares])
  obtain ⟨v, hv⟩ := hvalue d rfl
  rw [show p.declarations.1.store.const? d.name = _ from
    (declarations_describes p).consts d.name]
  rw [List.nil_append] at hfind
  rw [hfind]
  exact ConstDecl.isSome_slot? (limitErrors_of_mem hlimits hitem) hv

/-- The function that a name stands for is one of the program's, and has that name. -/
theorem function_declared {name : String} {f : Function}
    (h : p.declarations.1.functions.get? name = some f) : f ∈ p.functions ∧ f.name = name := by
  have hfirst := ((declarations_describes p).functions name).symm.trans h
  refine ⟨List.mem_of_find?_eq_some hfirst, ?_⟩
  have hname := List.find?_some hfirst
  simpa using hname

theorem isSome_function? {name : String} (hname : name ∈ p.names.functions) :
    (p.declarations.1.functions.get? name).isSome := by
  obtain ⟨f, hf, rfl⟩ := List.mem_map.mp hname
  rw [show p.declarations.1.functions.get? f.name = _ from
    (declarations_describes p).functions f.name]
  exact List.find?_isSome.mpr ⟨f, hf, by simp⟩

/-- Every static of a function of a checked program has its slot. -/
theorem isSome_local? (hlimits : p.limitErrors = []) {name : String} {f : Function}
    (hf : p.declarations.1.functions.get? name = some f) {d : StaticDecl} (hd : d ∈ f.statics) :
    (p.declarations.1.store.local? f.name d.name).isSome := by
  obtain ⟨hmem, rfl⟩ := function_declared hf
  have hfirst := ((declarations_describes p).functions f.name).symm.trans hf
  have hbody : Statement.blockLimitErrors f.body = [] :=
    (List.append_eq_nil_iff.mp (limitErrors_of_mem hlimits (mem_functions_iff.mp hmem))).2
  -- the first static of the name decides, and it is within the limits like all others
  obtain ⟨d', hd'⟩ := Option.isSome_iff_exists.mp
    (List.find?_isSome (p := fun d' => d'.name == d.name).mpr ⟨d, hd, by simp⟩)
  have hslot := StaticDecl.isSome_slot?
    (Statement.blockStatics_withinLimits f.body hbody d' (List.mem_of_find?_eq_some hd'))
  rw [show p.declarations.1.store.local? f.name d.name = _ from
    (declarations_describes p).locals f.name d.name,
    hfirst, Option.bind_some, Function.slot?, hd']
  exact hslot

/-- The names in the body of a checked program's function are all right. -/
theorem body_nameErrors (hnames : p.nameErrors = []) {f : Function} (hf : f ∈ p.functions) :
    Statement.blockNameErrors { p.names with own := f.statics.map StaticDecl.name }
      [f.paramScope] f.body = [] := by
  have hfunctions := (List.append_eq_nil_iff.mp hnames).1
  exact (List.append_eq_nil_iff.mp (List.flatMap_eq_nil_iff.mp hfunctions f hf)).2

end Program

end WordLang
