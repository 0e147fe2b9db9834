import WordLang.Store

/-! # The result of a run

    All slots of a store in one map, the statics of a function under their
    qualified names. -/

namespace WordLang

/-- What the slots of a run hold at its end. -/
structure Memory where
  slots : NameMap Value

namespace Memory

/-- The memory of a store. -/
def ofStore (s : Store) : Memory := ⟨.ofList s.slots⟩

/-- The value of a slot. -/
def get? (m : Memory) (name : String) : Option Value := m.slots.get? name

/-- The number in a slot that holds a word, or in an element of one that holds an array. -/
def read? (m : Memory) (name : String) (index : Option Nat) : Option Nat := do
  let v ← m.get? name
  let v ← match index with
    | none => some v
    | some i => v.element? i
  return (← v.scalar?).2

/-- The slots in order of name. -/
def toList (m : Memory) : List (String × Value) := m.slots.toList

/-- The number of slots. -/
def size (m : Memory) : Nat := m.slots.size

/-- A line for each slot. -/
protected def toString (m : Memory) : String :=
  String.join (m.toList.map fun (name, value) => s!"{name} = {value}\n")

instance : ToString Memory := ⟨Memory.toString⟩

end Memory

end WordLang
