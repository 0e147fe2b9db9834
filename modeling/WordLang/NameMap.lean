/-! # Finite maps keyed by names

    Scopes, storage and the table of functions are finite maps from names.
    A `NameMap` is an association list whose keys strictly increase in
    code-point order.  The order is part of the type: a map has one
    representation only, and listing it needs no sorting.

    `get?` is the view: each operation is described by what it does to it. -/

namespace WordLang

/-- A finite map from names, its entries in strictly increasing order of name. -/
structure NameMap (α : Type) where
  entries : List (String × α)
  sorted  : entries.Pairwise (fun a b => a.1 < b.1)

namespace NameMap

variable {α β : Type}

/-! ## Section 1: Operations on entry lists -/

/-- The value of the first entry with this name. -/
def find (name : String) : List (String × α) → Option α
  | [] => none
  | (key, value) :: rest => if key = name then some value else find name rest

/-- Puts an entry in its place, replacing the value of an equal name. -/
def place (name : String) (value : α) : List (String × α) → List (String × α)
  | [] => [(name, value)]
  | (key, old) :: rest =>
    if key = name then (name, value) :: rest
    else if name < key then (name, value) :: (key, old) :: rest
    else (key, old) :: place name value rest

/-- Changes the value of the first entry with this name. -/
def adjust (name : String) (f : α → α) : List (String × α) → List (String × α)
  | [] => []
  | (key, old) :: rest =>
    if key = name then (key, f old) :: rest else (key, old) :: adjust name f rest

theorem mem_place {name : String} {value : α} {e : String × α} {es : List (String × α)}
    (h : e ∈ place name value es) : e = (name, value) ∨ e ∈ es := by
  induction es with
  | nil => simpa [place] using h
  | cons head rest ih =>
    obtain ⟨key, old⟩ := head
    unfold place at h
    split at h
    · rcases List.mem_cons.mp h with h | h
      · exact Or.inl h
      · exact Or.inr (List.mem_cons_of_mem _ h)
    · split at h
      · exact List.mem_cons.mp h
      · rcases List.mem_cons.mp h with h | h
        · exact Or.inr (h ▸ List.mem_cons_self)
        · exact (ih h).imp id (List.mem_cons_of_mem _)

theorem lt_of_ne_of_not_lt {a b : String} (hne : b ≠ a) (hlt : ¬ a < b) : b < a :=
  String.not_le.mp fun hle => hne (String.le_antisymm (String.not_lt.mp hlt) hle)

theorem sorted_place {name : String} {value : α} {es : List (String × α)}
    (h : es.Pairwise (fun a b => a.1 < b.1)) :
    (place name value es).Pairwise (fun a b => a.1 < b.1) := by
  induction es with
  | nil => simp [place]
  | cons head rest ih =>
    obtain ⟨key, old⟩ := head
    obtain ⟨hhead, hrest⟩ := List.pairwise_cons.mp h
    unfold place
    split
    · next heq => exact List.pairwise_cons.mpr ⟨fun e he => heq ▸ hhead e he, hrest⟩
    · next hne =>
      split
      · next hlt =>
        refine List.pairwise_cons.mpr ⟨fun e he => ?_, h⟩
        rcases List.mem_cons.mp he with rfl | he
        · exact hlt
        · exact String.lt_trans hlt (hhead e he)
      · next hlt =>
        refine List.pairwise_cons.mpr ⟨fun e he => ?_, ih hrest⟩
        rcases mem_place he with rfl | he
        · exact lt_of_ne_of_not_lt hne hlt
        · exact hhead e he

theorem map_fst_adjust (name : String) (f : α → α) (es : List (String × α)) :
    (adjust name f es).map Prod.fst = es.map Prod.fst := by
  induction es with
  | nil => rfl
  | cons head rest ih =>
    obtain ⟨key, old⟩ := head
    unfold adjust
    split <;> simp [ih]

theorem sorted_adjust {name : String} {f : α → α} {es : List (String × α)}
    (h : es.Pairwise (fun a b => a.1 < b.1)) :
    (adjust name f es).Pairwise (fun a b => a.1 < b.1) := by
  have h' : (es.map Prod.fst).Pairwise (· < ·) := List.pairwise_map.mpr h
  rw [← map_fst_adjust name f es] at h'
  exact List.pairwise_map.mp h'

/-! ## Section 2: The maps -/

/-- The map with no entries. -/
def empty : NameMap α := ⟨[], List.Pairwise.nil⟩

instance : EmptyCollection (NameMap α) := ⟨empty⟩

instance : Inhabited (NameMap α) := ⟨empty⟩

/-- The value under a name. -/
def get? (m : NameMap α) (name : String) : Option α := find name m.entries

/-- Whether a name has a value. -/
def contains (m : NameMap α) (name : String) : Bool := (m.get? name).isSome

/-- Gives a name a value, in place of any it had. -/
def insert (m : NameMap α) (name : String) (value : α) : NameMap α :=
  ⟨place name value m.entries, sorted_place m.sorted⟩

/-- Changes the value under a name; a map without that name stays as it is. -/
def modify (m : NameMap α) (name : String) (f : α → α) : NameMap α :=
  ⟨adjust name f m.entries, sorted_adjust m.sorted⟩

/-- The map with this single entry. -/
def singleton (name : String) (value : α) : NameMap α :=
  (empty : NameMap α).insert name value

/-- The entries in increasing order of name. -/
def toList (m : NameMap α) : List (String × α) := m.entries

/-- The names in increasing order. -/
def keys (m : NameMap α) : List String := m.entries.map Prod.fst

/-- The number of entries. -/
def size (m : NameMap α) : Nat := m.entries.length

/-- Whether there is no entry. -/
def isEmpty (m : NameMap α) : Bool := m.entries.isEmpty

/-- The entries of a list, a later one replacing an earlier one of the same name. -/
def ofList (es : List (String × α)) : NameMap α :=
  es.foldl (fun m e => m.insert e.1 e.2) empty

/-! ## Section 3: What the operations do to the view -/

@[simp] theorem find_place_self (name : String) (value : α) (es : List (String × α)) :
    find name (place name value es) = some value := by
  induction es with
  | nil => simp [place, find]
  | cons head rest ih =>
    obtain ⟨key, old⟩ := head
    unfold place
    split
    · simp [find]
    · next hne => split <;> simp [find, hne, ih]

theorem find_place_ne {name other : String} (hne : other ≠ name) (value : α)
    (es : List (String × α)) : find other (place name value es) = find other es := by
  induction es with
  | nil => simp [place, find, Ne.symm hne]
  | cons head rest ih =>
    obtain ⟨key, old⟩ := head
    unfold place
    split
    · next heq => subst heq; simp [find, Ne.symm hne]
    · split
      · simp [find, Ne.symm hne]
      · simp [find, ih]

theorem find_adjust_self (name : String) (f : α → α) (es : List (String × α)) :
    find name (adjust name f es) = (find name es).map f := by
  induction es with
  | nil => rfl
  | cons head rest ih =>
    obtain ⟨key, old⟩ := head
    unfold adjust
    split
    · next heq => simp [find, heq]
    · next hne => simp [find, hne, ih]

theorem find_adjust_ne {name other : String} (hne : other ≠ name) (f : α → α)
    (es : List (String × α)) : find other (adjust name f es) = find other es := by
  induction es with
  | nil => rfl
  | cons head rest ih =>
    obtain ⟨key, old⟩ := head
    unfold adjust
    split
    · next heq => subst heq; simp [find, Ne.symm hne]
    · simp [find, ih]

@[simp] theorem get?_empty (name : String) : (empty : NameMap α).get? name = none := rfl

@[simp] theorem get?_insert_self (m : NameMap α) (name : String) (value : α) :
    (m.insert name value).get? name = some value :=
  find_place_self name value m.entries

theorem get?_insert_ne (m : NameMap α) {name other : String} (hne : other ≠ name) (value : α) :
    (m.insert name value).get? other = m.get? other :=
  find_place_ne hne value m.entries

@[simp] theorem get?_modify_self (m : NameMap α) (name : String) (f : α → α) :
    (m.modify name f).get? name = (m.get? name).map f :=
  find_adjust_self name f m.entries

theorem get?_modify_ne (m : NameMap α) {name other : String} (hne : other ≠ name) (f : α → α) :
    (m.modify name f).get? other = m.get? other :=
  find_adjust_ne hne f m.entries

@[simp] theorem keys_modify (m : NameMap α) (name : String) (f : α → α) :
    (m.modify name f).keys = m.keys :=
  map_fst_adjust name f m.entries

theorem mem_keys_iff {m : NameMap α} {name : String} :
    name ∈ m.keys ↔ (m.get? name).isSome = true := by
  unfold keys get?
  induction m.entries with
  | nil => simp [find]
  | cons head rest ih =>
    obtain ⟨key, value⟩ := head
    by_cases h : key = name
    · simp [find, h]
    · simp only [List.map_cons, List.mem_cons, find, if_neg h, ← ih]
      exact ⟨fun hn => hn.resolve_left (fun heq => h heq.symm), Or.inr⟩

theorem get?_insert (m : NameMap α) (name other : String) (value : α) :
    (m.insert name value).get? other = if other = name then some value else m.get? other := by
  split
  · next h => rw [h]; exact get?_insert_self _ _ _
  · next h => exact get?_insert_ne _ h _

theorem keys_subset_insert (m : NameMap α) (name : String) (value : α) :
    m.keys ⊆ (m.insert name value).keys := by
  intro other h
  rw [mem_keys_iff] at h ⊢
  rw [get?_insert]
  split
  · rfl
  · exact h

@[simp] theorem keys_singleton (name : String) (value : α) :
    (singleton name value).keys = [name] := rfl

theorem eq_of_get?_singleton {name other : String} {value v : α}
    (h : (singleton name value).get? other = some v) : v = value := by
  rw [singleton, get?_insert] at h
  split at h
  · exact (Option.some.inj h).symm
  · cases h

end NameMap

end WordLang
