import WordLang.Proofs.Frames

/-! # Names and their cells

    A name is read in one way and its cell is found in another.  Both mean
    the same place: the cell that is found for a name holds the value that is
    read under it (`cellValue?_of_cell`).

    Two stores may have slots of the same types, whatever these hold.  With
    the same frames, every name then stands for a value of the same type
    (`ty_read?_of_sameTypes`), and it stays so if a cell gets a value of the
    type that it had. -/

namespace WordLang

/-! ## Section 1: The cell of a name -/

namespace Machine

/-- The value under a name in a cell. -/
def cellValue? (m : Machine) (c : Cell) (name : String) : Option Value :=
  match c with
  | .scope i => m.frame?.bind (fun f => f.scopes[i]?.bind (fun s => s.get? name))
  | .static function => m.store.local? function name
  | .global => m.store.global? name

/-- The innermost scope that has a name decides its value. -/
theorem scopesGet?_eq_find (name : String) (ss : List (NameMap Value)) :
    scopesGet? name ss =
      (ss.findIdx? (fun s => s.contains name)).bind
        (fun i => ss[i]?.bind (fun s => s.get? name)) := by
  induction ss with
  | nil => rfl
  | cons s rest ih =>
    rw [scopesGet?, List.findIdx?_cons, ih]
    cases hs : s.get? name with
    | some v => simp [NameMap.contains, hs]
    | none =>
      simp only [NameMap.contains, hs, Option.isSome_none, Bool.false_eq_true, if_false,
        Option.none_or]
      cases rest.findIdx? (fun s => (s.get? name).isSome) <;> simp

/-- Without a scope that has a name, the name is no variable. -/
theorem bound?_of_findIdx?_eq_none {m : Machine} {name : String}
    (h : m.frame?.bind (fun f => f.scopes.findIdx? (fun s => s.contains name)) = none) :
    m.bound? name = none := by
  unfold bound?
  cases hf : m.frame? with
  | none => rfl
  | some f =>
    rw [hf] at h
    show scopesGet? name f.scopes = none
    rw [scopesGet?_eq_find, show f.scopes.findIdx? _ = none from h]
    rfl

/-- A scope that has the name gives it a value. -/
theorem isSome_get?_of_findIdx? {ss : List (NameMap Value)} {name : String} {i : Nat}
    (h : ss.findIdx? (fun s => s.contains name) = some i) :
    (ss[i]?.bind (fun s => s.get? name)).isSome = true := by
  obtain ⟨hi, hc, -⟩ := List.findIdx?_eq_some_iff_getElem.mp h
  rw [List.getElem?_eq_getElem hi]
  exact hc

/-- A name that is no variable is in no scope. -/
theorem findIdx?_eq_none_of_bound? {m : Machine} {name : String} (h : m.bound? name = none) :
    m.frame?.bind (fun f => f.scopes.findIdx? (fun s => s.contains name)) = none := by
  unfold bound? at h
  cases hf : m.frame? with
  | none => rfl
  | some f =>
    rw [hf] at h
    cases hfind : f.scopes.findIdx? (fun s => s.contains name) with
    | none => exact hfind
    | some i =>
      have hsome := isSome_get?_of_findIdx? hfind
      rw [Option.bind_some, scopesGet?_eq_find, hfind, Option.bind_some] at h
      rw [h] at hsome
      cases hsome

/-- A static is found for a name only where its function runs. -/
theorem functionName?_of_cell {m : Machine} {name function : String}
    (h : m.cell name = .ok (.static function)) : m.functionName? = some function := by
  unfold cell at h
  split at h
  · cases h
  · split at h
    · next found hfound =>
      obtain rfl := Cell.static.inj (Except.ok.inj h)
      exact (Option.filter_eq_some_iff.mp hfound).1
    · split at h
      · cases h
      · split at h <;> cases h

/-- A static of the function that runs is what its name stands for, unless there is a variable of
    that name, and it is found both for reading and for writing. -/
theorem own_static_found {m : Machine} {name function : String} {v : Value}
    (hfunction : m.functionName? = some function) (hbound : m.bound? name = none)
    (hv : m.store.local? function name = some v) :
    m.read? name = some v ∧ m.cell name = .ok (.static function) := by
  constructor
  · rw [read?, hbound, ownStatic?, hfunction, Option.bind_some, hv]
    rfl
  · have hown : m.functionName?.filter (fun f => (m.store.local? f name).isSome) =
        some function := by
      rw [hfunction, Option.filter_some, hv]
      rfl
    rw [cell, findIdx?_eq_none_of_bound? hbound, hown]

/-- The cell found for a name holds the value that is read under the name. -/
theorem cellValue?_of_cell {m : Machine} {name : String} {c : Cell} (h : m.cell name = .ok c) :
    m.cellValue? c name = m.read? name := by
  unfold cell at h
  split at h
  · next i hi =>
    cases h
    obtain ⟨f, hf, hfind⟩ := Option.bind_eq_some_iff.mp hi
    obtain ⟨v, hv⟩ := Option.isSome_iff_exists.mp (isSome_get?_of_findIdx? hfind)
    have hbound : m.bound? name = some v := by
      rw [bound?, hf, Option.bind_some, scopesGet?_eq_find, hfind]
      exact hv
    rw [read?, hbound, cellValue?, hf]
    exact hv
  · next hnone =>
    have hbound := bound?_of_findIdx?_eq_none hnone
    split at h
    · next function hfunction =>
      cases h
      obtain ⟨hname, hsome⟩ := Option.filter_eq_some_iff.mp hfunction
      obtain ⟨v, hv⟩ := Option.isSome_iff_exists.mp hsome
      rw [read?, hbound, ownStatic?, hname, Option.bind_some, hv]
      exact hv
    · next hfunction =>
      have hown : m.ownStatic? name = none := by
        rw [ownStatic?]
        cases hn : m.functionName? with
        | none => rfl
        | some function =>
          rw [hn] at hfunction
          have := Option.filter_eq_none_iff.mp hfunction function rfl
          exact Option.not_isSome_iff_eq_none.mp this
      split at h
      · next hglobal =>
        cases h
        obtain ⟨v, hv⟩ := Option.isSome_iff_exists.mp hglobal
        rw [read?, hbound, hown, hv]
        exact hv
      · split at h <;> cases h

end Machine

/-! ## Section 2: Slots that keep their types -/

/-- Two stores with the same slots, of the same types, and the same constant tables. -/
structure Store.SameTypes (s s' : Store) : Prop where
  globals : ∀ name, (s'.global? name).map Value.ty = (s.global? name).map Value.ty
  locals : ∀ function name,
    (s'.local? function name).map Value.ty = (s.local? function name).map Value.ty
  consts : s'.consts = s.consts

namespace Store.SameTypes

variable {s s' s'' : Store}

theorem refl (s : Store) : SameTypes s s := ⟨fun _ => rfl, fun _ _ => rfl, rfl⟩

theorem symm (h : SameTypes s s') : SameTypes s' s :=
  ⟨fun name => (h.globals name).symm, fun function name => (h.locals function name).symm,
   h.consts.symm⟩

theorem trans (h : SameTypes s s') (h' : SameTypes s' s'') : SameTypes s s'' :=
  ⟨fun name => (h'.globals name).trans (h.globals name),
   fun function name => (h'.locals function name).trans (h.locals function name),
   h'.consts.trans h.consts⟩

end Store.SameTypes

namespace Machine

variable {m m' : Machine}

/-- The type under a name is the same in two states that differ in the values of slots only. -/
theorem ty_read?_of_sameTypes (h : Store.SameTypes m.store m'.store)
    (hframes : m'.frames = m.frames) (name : String) :
    (m'.read? name).map Value.ty = (m.read? name).map Value.ty := by
  have hframe : m'.frame? = m.frame? := by rw [frame?, hframes, frame?]
  have hfunction : m'.functionName? = m.functionName? := by
    rw [functionName?, function?, hframe, functionName?, function?]
  have hbound : m'.bound? name = m.bound? name := by rw [bound?, hframe, bound?]
  have hown : (m'.ownStatic? name).map Value.ty = (m.ownStatic? name).map Value.ty := by
    rw [ownStatic?, ownStatic?, hfunction]
    cases m.functionName? with
    | none => rfl
    | some function => exact h.locals function name
  have hconst : m'.store.const? name = m.store.const? name := by
    rw [Store.const?, h.consts, Store.const?]
  -- the four places that a name is looked for in, one after the other
  simp only [read?, Option.map_or, hbound, hown, h.globals name, hconst]

/-- A value may take the place of one of the same type. -/
theorem sameTypes_modifyCell {c : Cell} {name : String} {f : Value → Value}
    (hf : ∀ v, m.cellValue? c name = some v → (f v).ty = v.ty) :
    Store.SameTypes m.store (m.modifyCell c name f).store := by
  cases c with
  | scope i =>
    show Store.SameTypes m.store (m.mapScopes _).store
    rw [store_mapScopes]
    exact .refl _
  | static function =>
    refine ⟨fun _ => rfl, fun function' name' => ?_, rfl⟩
    show ((m.store.modifyLocal function name f).local? function' name').map Value.ty = _
    rw [Store.local?_modifyLocal]
    split
    · next heq =>
      obtain ⟨rfl, rfl⟩ := heq
      cases hv : m.store.local? function' name' with
      | none => rfl
      | some v => exact congrArg some (hf v hv)
    · rfl
  | global =>
    refine ⟨fun name' => ?_, fun _ _ => rfl, rfl⟩
    show ((m.store.modifyGlobal name f).global? name').map Value.ty = _
    rw [Store.global?_modifyGlobal]
    split
    · next heq =>
      subst heq
      cases hv : m.store.global? name' with
      | none => rfl
      | some v => exact congrArg some (hf v hv)
    · rfl

end Machine

end WordLang
