import WordLang.Proofs.Assigned
import WordLang.Proofs.Locations

/-! # Reading and writing find the same place

    A name is read by asking scopes, statics and constant tables for a value,
    and written by asking for the first of them that has the name.  These are
    two searches.  Both come to the location that the name stands for, and
    they refuse a name for reasons that can be told from this location alone:
    there is none, or it is a constant table.

    A write changes the value of that location.  It makes no location come or
    go, so that every name stands for what it stood for before, and only the
    name that was written gives another value from then on. -/

namespace WordLang

open Exec

/-! ## Section 1: Locations and their names -/

/-- The name that a location is looked for under. -/
def Location.name : Location → String
  | .binding _ _ name => name
  | .static _ name => name
  | .global name => name
  | .const name => name

namespace Machine

theorem Cell.name_location (c : Cell) (name : String) : (c.location name).name = name := by
  cases c <;> rfl

theorem name_of_locate? {m : Machine} {name : String} {loc : Location}
    (h : m.locate? name = some loc) : loc.name = name := by
  rcases locate?_cases h with ⟨c, -, rfl⟩ | ⟨-, rfl⟩
  · exact c.name_location name
  · rfl

/-- Two names do not stand for one location. -/
theorem locate?_ne {m : Machine} {name other : String} {loc : Location}
    (h : m.locate? name = some loc) (hne : other ≠ name) : m.locate? other ≠ some loc := by
  intro hother
  exact hne ((name_of_locate? hother).symm.trans (name_of_locate? h))

/-- Where a name is looked for depends on the function that runs and on the number of scopes. -/
theorem lookupOrder_of_shape {m m' : Machine} (h : m'.shape = m.shape) (name : String) :
    m'.lookupOrder name = m.lookupOrder name := by
  have hhead : m'.frame?.map (fun f => (f.function, f.scopes.length)) =
      m.frame?.map (fun f => (f.function, f.scopes.length)) := by
    have hshapes := congrArg List.head? h
    rwa [shape, shape, List.head?_map, List.head?_map] at hshapes
  have hscopes : m'.frame?.elim 0 (fun f => f.scopes.length) =
      m.frame?.elim 0 (fun f => f.scopes.length) := by
    have hcounts := congrArg (Option.elim · 0 Prod.snd) hhead
    simp only [Option.elim_map] at hcounts
    exact hcounts
  have hfunction : m'.functionName? = m.functionName? := by
    have hfunctions := congrArg (fun o => (o.bind Prod.fst).map Function.name) hhead
    simp only [Option.bind_map] at hfunctions
    exact hfunctions
  rw [lookupOrder, lookupOrder, hscopes, hfunction]

/-! ## Section 2: Names after a write -/

namespace ChangedAt

variable {m m' : Machine} {loc : Location} {held v : Value}

/-- A location does not get its first value by a write, nor lose its last one. -/
theorem isSome_valueAt? (h : m.ChangedAt loc v m') (hheld : m.valueAt? loc = some held)
    (loc' : Location) : (m'.valueAt? loc').isSome = (m.valueAt? loc').isSome := by
  by_cases hloc : loc' = loc
  · rw [hloc, h.there, hheld]
    rfl
  · rw [h.elsewhere loc' hloc]

/-- Every name stands for the location that it stood for. -/
theorem locate?_eq (h : m.ChangedAt loc v m') (hheld : m.valueAt? loc = some held)
    (name : String) : m'.locate? name = m.locate? name := by
  -- the same locations are asked in the same order, and the same of them have a value
  rw [locate?, locate?, lookupOrder_of_shape h.shape]
  congr 1
  funext loc'
  exact h.isSome_valueAt? hheld loc'

/-- A name that stands for the location gives the new value. -/
theorem read?_there (h : m.ChangedAt loc v m') (hheld : m.valueAt? loc = some held)
    {name : String} (hname : m.locate? name = some loc) : m'.read? name = some v := by
  rw [read?_eq, h.locate?_eq hheld, hname]
  exact h.there

/-- A name that does not gives what it gave. -/
theorem read?_elsewhere (h : m.ChangedAt loc v m') (hheld : m.valueAt? loc = some held)
    {name : String} (hname : m.locate? name ≠ some loc) : m'.read? name = m.read? name := by
  rw [read?_eq, h.locate?_eq hheld, read?_eq]
  cases hfound : m.locate? name with
  | none => rfl
  | some loc' =>
    have hne : loc' ≠ loc := fun heq => hname (heq ▸ hfound)
    exact h.elsewhere loc' hne

end ChangedAt

/-! ## Section 3: How reads and writes end -/

/-- The location of a name holds a value. -/
theorem exists_valueAt?_of_locate? {m : Machine} {name : String} {loc : Location}
    (h : m.locate? name = some loc) : ∃ held, m.valueAt? loc = some held := by
  rw [locate?] at h
  have hsome := List.find?_some h
  exact Option.isSome_iff_exists.mp hsome

/-- The second state is the first after a write to a name, by which the value of the name was
    changed like this. -/
structure Written (name : String) (f : Value → Value) (m m' : Machine) : Prop where
  /-- The location that the name was read at has changed, and nothing else has. -/
  changed : ∃ loc held, m.locate? name = some loc ∧ m.read? name = some held ∧
    m.ChangedAt loc (f held) m'
  /-- The new value is read under the name. -/
  readBack : m'.read? name = (m.read? name).map f
  /-- Under any other name the same value is read as before. -/
  others : ∀ other, other ≠ name → m'.read? other = m.read? other
  /-- Every name stands for the location that it stood for. -/
  located : ∀ other, m'.locate? other = m.locate? other

variable {m : Machine} {name : String}

theorem written_modifyCell {c : Cell} (h : m.locate? name = some (c.location name))
    (f : Value → Value) : m.Written name f (m.modifyCell c name f) := by
  obtain ⟨held, hheld⟩ := exists_valueAt?_of_locate? h
  have hread : m.read? name = some held := by
    rw [read?_eq, h]
    exact hheld
  have hchanged := changedAt_modifyCell hheld f
  refine ⟨⟨_, held, h, hread, hchanged⟩, ?_, fun other hne => ?_, hchanged.locate?_eq hheld⟩
  · rw [hread]
    exact hchanged.read?_there hheld h
  · exact hchanged.read?_elsewhere hheld (locate?_ne h hne)

/-- Reading and writing a name agree: both go by the location that the name stands for. -/
structure AccessedAlike (m : Machine) (name : String) (pos : Position) : Prop where
  /-- A read gives what is at the location. -/
  read : ∀ v, (Exec.read pos name m).outcome = .done v m ↔
    ∃ loc, m.locate? name = some loc ∧ m.valueAt? loc = some v
  /-- A read fails just if there is no location, and then the name is unresolved. -/
  unread : (Exec.read pos name m).outcome = .fault ⟨pos, .unresolved name⟩ m ↔
    m.locate? name = none
  /-- A write succeeds just if a read does, and not from a constant table. -/
  writes : ∀ f, (∃ m', (update pos name f m).outcome = .done () m') ↔
    (∃ v, (Exec.read pos name m).outcome = .done v m) ∧ m.locate? name ≠ some (.const name)
  /-- A write is refused just if a read would be from a constant table. -/
  refused : ∀ f, (update pos name f m).outcome = .fault ⟨pos, .constAssignment name⟩ m ↔
    m.locate? name = some (.const name)
  /-- A write finds the name unresolved just if a read does. -/
  unwritten : ∀ f, (update pos name f m).outcome = .fault ⟨pos, .unresolved name⟩ m ↔
    (Exec.read pos name m).outcome = .fault ⟨pos, .unresolved name⟩ m
  /-- A write that succeeds changes what a read gives, and nothing else. -/
  written : ∀ f m', (update pos name f m).outcome = .done () m' → m.Written name f m'

theorem Cell.location_ne_const (c : Cell) (name other : String) :
    c.location name ≠ .const other := by
  cases c <;> nofun

/-- Nothing has the name, or the first that has it is a constant table, or it is a cell.  Both
    searches find out which. -/
theorem locate?_split (m : Machine) (name : String) :
    (m.locate? name = none ∧ m.cell name = .error (.unresolved name)) ∨
    (m.locate? name = some (.const name) ∧ m.cell name = .error (.constAssignment name)) ∨
    ∃ c, m.locate? name = some (c.location name) ∧ m.cell name = .ok c := by
  cases hloc : m.locate? name with
  | none =>
    have hcell := m.cell_eq name
    rw [hloc] at hcell
    exact .inl ⟨rfl, hcell⟩
  | some loc =>
    rcases locate?_cases hloc with ⟨c, hcell, rfl⟩ | ⟨hcell, rfl⟩
    · exact .inr (.inr ⟨c, rfl, hcell⟩)
    · exact .inr (.inl ⟨rfl, hcell⟩)

/-- In every state, reached by a run or not, reading and writing a name agree.  Both find the name
    unresolved, or both find the same location.  There a write that is not refused changes the
    value; this is the value that is read under the name then, and all other locations and what is
    read under all other names are as they were.  It is refused just if a read would be from a
    constant table. -/
theorem reads_and_writes_agree (m : Machine) (name : String) (pos : Position) :
    m.AccessedAlike name pos := by
  have hread := m.read?_eq name
  rcases m.locate?_split name with ⟨hloc, hcell⟩ | ⟨hloc, hcell⟩ | ⟨c, hloc, hcell⟩
  · rw [hloc] at hread
    have hfault := outcome_read_none hread pos
    have hupdate := outcome_update_error hcell pos
    constructor <;> simp [hfault, hupdate, hloc]
  · obtain ⟨held, hheld⟩ := exists_valueAt?_of_locate? hloc
    rw [hloc, Option.bind_some, hheld] at hread
    have hdone := outcome_read_some hread pos
    have hupdate := outcome_update_error hcell pos
    constructor <;> simp [hdone, hupdate, hloc, hheld]
  · obtain ⟨held, hheld⟩ := exists_valueAt?_of_locate? hloc
    rw [hloc, Option.bind_some, hheld] at hread
    have hdone := outcome_read_some hread pos
    have hupdate := outcome_update_ok hcell pos
    have hne := c.location_ne_const name name
    refine ⟨?_, ?_, ?_, ?_, ?_, fun f m' hm' => ?_⟩
    case refine_6 =>
      rw [hupdate] at hm'
      cases hm'
      exact written_modifyCell hloc f
    all_goals simp [hdone, hupdate, hloc, hheld, hne]

/-- A static and a constant table. -/
def staticAndTable : Program :=
  ⟨[.static ⟨"X", .uint .byte, ⟨1, 1⟩⟩, .const ⟨"C", .array .byte 1, [9], ⟨2, 1⟩⟩]⟩

/-- A variable with the name of the static, and another one with it in a scope further in. -/
def shadowedTwice : Machine :=
  (staticAndTable.start.declare "X" (.scalar .byte 5)).pushScope
    (.singleton "X" (.scalar .byte 7))

/-- Of the three places of the name the innermost is written, and the two others keep what they
    have.  The constant table is refused, and so is a name that stands for nothing. -/
theorem reads_and_writes_agree_shadowedTwice :
    (∃ m', (update ⟨3, 1⟩ "X" (fun _ => .scalar .byte 8) shadowedTwice).outcome = .done () m' ∧
      m'.read? "X" = some (.scalar .byte 8) ∧ m'.read? "C" = some (.array .byte #[9]) ∧
      m'.valueAt? (.binding 0 1 "X") = some (.scalar .byte 5) ∧
      m'.valueAt? (.global "X") = some (.scalar .byte 0)) ∧
    (update ⟨3, 1⟩ "C" id shadowedTwice).outcome =
      .fault ⟨⟨3, 1⟩, .constAssignment "C"⟩ shadowedTwice ∧
    (update ⟨3, 1⟩ "Y" id shadowedTwice).outcome =
      .fault ⟨⟨3, 1⟩, .unresolved "Y"⟩ shadowedTwice := by
  have hX := shadowedTwice.reads_and_writes_agree "X" ⟨3, 1⟩
  have hC := shadowedTwice.reads_and_writes_agree "C" ⟨3, 1⟩
  have hY := shadowedTwice.reads_and_writes_agree "Y" ⟨3, 1⟩
  refine ⟨?_, (hC.refused id).mpr rfl, (hY.unwritten id).mpr rfl⟩
  have hwritten := hX.written (fun _ => .scalar .byte 8) _ rfl
  obtain ⟨loc, held, hloc, -, hchanged⟩ := hwritten.changed
  obtain rfl : Location.binding 0 0 "X" = loc := Option.some.inj hloc
  refine ⟨_, rfl, hwritten.readBack, ?_, ?_, ?_⟩
  · rw [hwritten.others "C" (by decide)]
    rfl
  · rw [hchanged.elsewhere _ (by decide)]
    rfl
  · rw [hchanged.elsewhere _ (by decide)]
    rfl

end Machine

end WordLang
