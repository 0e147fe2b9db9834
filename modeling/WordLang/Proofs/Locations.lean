import WordLang.Proofs.Cells

/-! # Locations

    A location names a place in a machine that keeps a value: a variable of
    some scope of some frame, a static, or a constant table.  What a machine
    holds is given by what stands at every location, beside the events and
    the shape of the frames.

    A name is looked for in several locations, one after the other, and the
    first that holds a value is where it is read (`read?_eq`).  The cell that
    an assignment changes is found in another way, and yet it is always the
    same location (`cell_eq`), unless this is a constant table.  Changing the
    cell changes what stands there and nothing else (`valueAt?_modifyCell`). -/

namespace WordLang

/-! ## Section 1: What stands where -/

/-- A place that keeps a value. -/
inductive Location where
  /-- The variable of this name in a scope of a frame.  Frames are counted from the current one,
      scopes from the innermost. -/
  | binding (frame scope : Nat) (name : String)
  /-- The static of this name of a function. -/
  | static (function name : String)
  | global (name : String)
  | const (name : String)
deriving DecidableEq

/-- The location of the value that a name has in a cell. -/
def Machine.Cell.location (name : String) : Cell → Location
  | .scope index => .binding 0 index name
  | .static function => .static function name
  | .global => .global name

namespace Machine

/-- The value at a location, if there is one. -/
def valueAt? (m : Machine) : Location → Option Value
  | .binding frame scope name =>
    m.frames[frame]?.bind (fun f => f.scopes[scope]?.bind (fun s => s.get? name))
  | .static function name => m.store.local? function name
  | .global name => m.store.global? name
  | .const name => m.store.const? name

/-- Where a name is looked for: in the scopes of the current frame from the innermost out, among the
    statics of the function that runs, among the global ones, and among the constant tables. -/
def lookupOrder (m : Machine) (name : String) : List Location :=
  (List.range (m.frame?.elim 0 (fun f => f.scopes.length))).map (fun i => .binding 0 i name) ++
    (m.functionName?.toList.map (fun f => .static f name) ++ [.global name, .const name])

/-- The location that a name stands for: the first that holds a value. -/
def locate? (m : Machine) (name : String) : Option Location :=
  (m.lookupOrder name).find? (fun loc => (m.valueAt? loc).isSome)

/-! ## Section 2: A name is read at its location -/

/-- To read at the first location with a value is to read the first value. -/
theorem find?_bind_valueAt? (m : Machine) (locs : List Location) :
    (locs.find? (fun loc => (m.valueAt? loc).isSome)).bind m.valueAt? =
      locs.findSome? m.valueAt? := by
  induction locs with
  | nil => rfl
  | cons loc rest ih =>
    rw [List.find?_cons, List.findSome?_cons]
    cases hloc : m.valueAt? loc with
    | none => exact ih
    | some v => exact hloc

theorem findSome?_scopes (name : String) (ss : List (NameMap Value)) :
    (List.range ss.length).findSome? (fun i => ss[i]?.bind (fun s => s.get? name)) =
      scopesGet? name ss := by
  induction ss with
  | nil => rfl
  | cons s rest ih =>
    rw [List.length_cons, List.range_succ_eq_map, List.findSome?_cons, List.findSome?_map,
      scopesGet?, ← ih, List.getElem?_cons_zero, Option.bind_some]
    cases s.get? name <;> rfl

/-- A name has the value of the location that it stands for. -/
theorem read?_eq (m : Machine) (name : String) :
    m.read? name = (m.locate? name).bind m.valueAt? := by
  have hframe : m.frames[0]? = m.frame? := List.head?_eq_getElem?.symm
  -- each part of the order of lookup finds what the corresponding part of a read does
  have hbound : ((List.range (m.frame?.elim 0 (fun f => f.scopes.length))).map
      (fun i => Location.binding 0 i name)).findSome? m.valueAt? = m.bound? name := by
    rw [List.findSome?_map]
    simp only [Function.comp_def, valueAt?, hframe, bound?]
    cases m.frame? with
    | none => rfl
    | some f => exact findSome?_scopes name f.scopes
  have hown : (m.functionName?.toList.map (fun f => Location.static f name)).findSome? m.valueAt? =
      m.ownStatic? name := by
    rw [List.findSome?_map, ownStatic?]
    cases m.functionName? with
    | none => rfl
    | some f => exact List.findSome?_singleton
  have hshared : [Location.global name, .const name].findSome? m.valueAt? =
      (m.store.global? name).or (m.store.const? name) := by
    simp only [List.findSome?_cons, List.findSome?_nil, valueAt?]
    cases m.store.global? name <;> cases m.store.const? name <;> rfl
  rw [locate?, find?_bind_valueAt?, lookupOrder, List.findSome?_append, List.findSome?_append,
    hbound, hown, hshared, read?]

/-! ## Section 3: The cell of a name is its location -/

theorem find?_range_eq_findIdx? {α : Type} (p : α → Bool) (xs : List α) :
    (List.range xs.length).find? (fun i => xs[i]?.any p) = xs.findIdx? p := by
  induction xs with
  | nil => rfl
  | cons x xs ih =>
    rw [List.length_cons, List.range_succ_eq_map, List.find?_cons, List.findIdx?_cons,
      List.getElem?_cons_zero, Option.any_some]
    cases p x with
    | true => rfl
    | false =>
      rw [← ih, List.find?_map]
      rfl

variable (m : Machine) (name : String)

/-- The first variable of a name in the order of lookup is that of the first scope which has it. -/
theorem find?_variables :
    ((List.range (m.frame?.elim 0 (fun f => f.scopes.length))).map
        (fun i => Location.binding 0 i name)).find? (fun loc => (m.valueAt? loc).isSome) =
      (m.frame?.bind (fun f => f.scopes.findIdx? (fun s => s.contains name))).map
        (fun i => .binding 0 i name) := by
  rw [List.find?_map]
  congr 1
  have hframe : m.frames[0]? = m.frame? := List.head?_eq_getElem?.symm
  cases hf : m.frame? with
  | none => rfl
  | some f =>
    show (List.range f.scopes.length).find? _ = f.scopes.findIdx? _
    rw [← find?_range_eq_findIdx?]
    congr 1
    funext i
    show (m.valueAt? (.binding 0 i name)).isSome = _
    rw [valueAt?, hframe, hf, Option.bind_some]
    cases f.scopes[i]? <;> rfl

/-- The location of a name, by the places in which it is looked for. -/
theorem locate?_eq :
    m.locate? name =
      ((m.frame?.bind (fun f => f.scopes.findIdx? (fun s => s.contains name))).map
          (fun i => .binding 0 i name)).or
        (((m.functionName?.filter (fun f => (m.store.local? f name).isSome)).map
            (fun f => .static f name)).or
          (if (m.store.global? name).isSome then some (.global name)
            else if (m.store.const? name).isSome then some (.const name) else none)) := by
  rw [locate?, lookupOrder, List.find?_append, find?_variables, List.find?_append]
  congr 2
  · cases m.functionName? with
    | none => rfl
    | some f =>
      show [Location.static f name].find? _ = _
      rw [List.find?_singleton, Option.filter_some]
      show (if (m.store.local? f name).isSome = true then _ else _) = _
      split <;> rfl
  · simp only [List.find?_cons, List.find?_nil, valueAt?]
    cases m.store.global? name <;> cases m.store.const? name <;> rfl

/-- An assignment to a name changes the location that the name stands for.  A constant table is
    refused, and so is a name that stands for nothing. -/
theorem cell_eq :
    m.cell name =
      match m.locate? name with
      | some (.binding _ index _) => .ok (.scope index)
      | some (.static function _) => .ok (.static function)
      | some (.global _) => .ok .global
      | some (.const _) => .error (.constAssignment name)
      | none => .error (.unresolved name) := by
  -- the search for a cell asks the same questions in the same order, one after the other
  rw [locate?_eq, cell]
  cases m.frame?.bind (fun f => f.scopes.findIdx? (fun s => s.contains name)) with
  | some index => rfl
  | none =>
    cases m.functionName?.filter (fun f => (m.store.local? f name).isSome) with
    | some function => rfl
    | none =>
      by_cases hglobal : (m.store.global? name).isSome = true
      · simp [hglobal]
      · by_cases hconst : (m.store.const? name).isSome = true
        · simp [hglobal, hconst]
        · simp [hglobal, hconst]

variable {m : Machine} {name : String}

/-- Where a name stands for something, it does so under its own name. -/
theorem locate?_cases {loc : Location} (h : m.locate? name = some loc) :
    (∃ c, m.cell name = .ok c ∧ loc = c.location name) ∨
      m.cell name = .error (.constAssignment name) ∧ loc = .const name := by
  -- the order of lookup has locations of this name alone
  have hmem := List.mem_of_find?_eq_some h
  have hcell := m.cell_eq name
  rw [h] at hcell
  simp only [lookupOrder, List.mem_append, List.mem_map, List.mem_cons, List.not_mem_nil,
    or_false] at hmem
  rcases hmem with ⟨i, -, rfl⟩ | ⟨f, -, rfl⟩ | rfl | rfl
  · exact .inl ⟨_, hcell, rfl⟩
  · exact .inl ⟨_, hcell, rfl⟩
  · exact .inl ⟨_, hcell, rfl⟩
  · exact .inr ⟨hcell, rfl⟩

/-! ## Section 4: Changing a cell -/

/-- A name gets another value in one of the scopes. -/
theorem get?_modify_scopes (ss : List (NameMap Value)) (index : Nat) (name : String)
    (f : Value → Value) (i : Nat) (name' : String) :
    (ss.modify index (fun s => s.modify name f))[i]?.bind (fun s => s.get? name') =
      if i = index ∧ name' = name then (ss[i]?.bind (fun s => s.get? name')).map f
      else ss[i]?.bind (fun s => s.get? name') := by
  rw [List.getElem?_modify]
  by_cases hi : index = i
  · subst hi
    cases ss[index]? with
    | none => simp
    | some s =>
      by_cases hname : name' = name
      · subst hname
        simp
      · simp [hname, s.get?_modify_ne hname]
  · simp [hi, Ne.symm hi]

/-- What a cell gets is at its location afterwards, and all other locations are as they were. -/
theorem valueAt?_modifyCell (m : Machine) (c : Cell) (name : String) (f : Value → Value)
    (loc : Location) :
    (m.modifyCell c name f).valueAt? loc =
      if loc = c.location name then (m.valueAt? loc).map f else m.valueAt? loc := by
  cases c with
  | scope index =>
    cases loc with
    | binding frame scope name' =>
      obtain ⟨store, frames, events⟩ := m
      cases frames with
      | nil => simp [valueAt?, modifyCell, mapScopes]
      | cons fr below =>
        cases frame with
        -- the frames below are not looked at
        | succ frame => simp [valueAt?, modifyCell, mapScopes, Cell.location]
        | zero =>
          simp only [Cell.location, Location.binding.injEq, true_and]
          exact get?_modify_scopes fr.scopes index name f scope name'
    | static function name' => exact congrArg (Store.local? · _ _) (m.store_mapScopes _)
    | global name' => exact congrArg (Store.global? · _) (m.store_mapScopes _)
    | const name' => exact congrArg (Store.const? · _) (m.store_mapScopes _)
  | static function =>
    cases loc with
    | static function' name' =>
      simp only [valueAt?, modifyCell, Cell.location, Location.static.injEq]
      exact Store.local?_modifyLocal _ _ _ _ _ _
    | _ => rfl
  | global =>
    cases loc with
    | global name' =>
      simp only [valueAt?, modifyCell, Cell.location, Location.global.injEq]
      exact Store.global?_modifyGlobal _ _ _ _
    | _ => rfl

/-- The functions of the frames, and how many scopes each frame has. -/
def shape (m : Machine) : List (Option Function × Nat) :=
  m.frames.map (fun f => (f.function, f.scopes.length))

/-- The second state is the first with this value at one location, and with nothing else changed. -/
structure ChangedAt (loc : Location) (v : Value) (m m' : Machine) : Prop where
  there : m'.valueAt? loc = some v
  elsewhere : ∀ loc', loc' ≠ loc → m'.valueAt? loc' = m.valueAt? loc'
  shape : m'.shape = m.shape
  events : m'.events = m.events

theorem changedAt_modifyCell {m : Machine} {c : Cell} {name : String} {held : Value}
    (h : m.valueAt? (c.location name) = some held) (f : Value → Value) :
    ChangedAt (c.location name) (f held) m (m.modifyCell c name f) := by
  refine ⟨?_, fun loc' hne => ?_, ?_, ?_⟩
  · rw [valueAt?_modifyCell, if_pos rfl, h]
    rfl
  · rw [valueAt?_modifyCell, if_neg hne]
  · cases c with
    | scope index =>
      obtain ⟨store, frames, events⟩ := m
      cases frames with
      | nil => rfl
      | cons fr below => simp [shape, modifyCell, mapScopes]
    | static function => rfl
    | global => rfl
  · cases c with
    | scope index => exact m.events_mapScopes _
    | static function => rfl
    | global => rfl

/-! ## Section 5: A name keeps its location -/

/-- A name stands for the same location as long as the frames and the slots are the same. -/
theorem locate?_of_kept {m m' : Machine} (h : Kept Eq m m') (name : String) :
    m'.locate? name = m.locate? name := by
  have hframe : m'.frame? = m.frame? := by rw [frame?, h.frames_eq, frame?]
  have hfunction : m'.functionName? = m.functionName? := by
    rw [functionName?, function?, hframe, functionName?, function?]
  have hconst : m'.store.const? name = m.store.const? name := by
    rw [Store.const?, h.slots.consts, Store.const?]
  simp only [locate?_eq, hframe, hfunction, h.slots.locals, h.slots.globals, hconst]

end Machine

end WordLang
