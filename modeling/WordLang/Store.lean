import WordLang.NameMap
import WordLang.Value

/-! # Storage that lasts for a run

    Global statics, the statics of each function and the constant tables.
    The statics of a function belong to its name and not to any call, so all
    calls of it share them.  A run changes values only: it has no means to
    change a constant table, or to add or remove a slot. -/

namespace WordLang

/-- The slots of a run: global statics, statics of functions, constant tables. -/
structure Store where
  globals : NameMap Value
  locals  : NameMap (NameMap Value)
  consts  : NameMap Value

namespace Store

/-- The store without slots. -/
def empty : Store := ⟨.empty, .empty, .empty⟩

instance : Inhabited Store := ⟨empty⟩

/-! ## Section 1: Reading and writing slots -/

/-- A global static. -/
def global? (s : Store) (name : String) : Option Value := s.globals.get? name

/-- A static of a function. -/
def local? (s : Store) (function name : String) : Option Value :=
  (s.locals.get? function).bind (fun slots => slots.get? name)

/-- A constant table. -/
def const? (s : Store) (name : String) : Option Value := s.consts.get? name

/-- Changes a global static; without such a slot nothing changes. -/
def modifyGlobal (s : Store) (name : String) (f : Value → Value) : Store :=
  { s with globals := s.globals.modify name f }

/-- Changes a static of a function; without such a slot nothing changes. -/
def modifyLocal (s : Store) (function name : String) (f : Value → Value) : Store :=
  { s with locals := s.locals.modify function (fun slots => slots.modify name f) }

/-! ## Section 2: All slots -/

/-- The name of a function's static among all slots. -/
def qualified (function name : String) : String := function ++ "::" ++ name

/-- The statics of all functions under their qualified names. -/
def localSlots (s : Store) : List (String × Value) :=
  s.locals.toList.flatMap fun (function, slots) =>
    slots.toList.map fun (name, value) => (qualified function name, value)

/-- Every slot: global statics, constant tables, statics of functions, each in order of name. -/
def slots (s : Store) : List (String × Value) :=
  s.globals.toList ++ s.consts.toList ++ s.localSlots

/-- The number of slots. -/
def size (s : Store) : Nat := s.slots.length

end Store

end WordLang
