import WordLang.Declaration.Limits
import WordLang.Store

/-! # What a program declares

    Going once through the items gives the table of functions and the
    initial store.  Of several declarations of one name the first counts and
    the others are faults.  Statics start as zero.  A slot is made only for
    a type within the limits, so that no program can ask for a huge one. -/

namespace WordLang

/-- What there is before a program runs: its functions and its slots. -/
structure Declarations where
  functions : NameMap Function
  store     : Store

namespace Declarations

/-- No functions and no slots. -/
def empty : Declarations := ⟨.empty, .empty⟩

end Declarations

/-! ## Section 1: One declaration -/

/-- The slots of a function's statics, added to those `slots` there are.  `seen` holds the names
    that came before, whether they got a slot or not. -/
def declareStatics (function : String) (seen : List String) (slots : NameMap Value) :
    List StaticDecl → NameMap Value × List DeclError
  | [] => (slots, [])
  | d :: rest =>
    if d.name ∈ seen then
      let (slots, errors) := declareStatics function seen slots rest
      (slots, ⟨d.pos, .duplicateStatic function d.name⟩ :: errors)
    else
      -- the name counts as seen even if its type gets no slot
      let slots := if d.ty.withinLimits then slots.insert d.name (.zero d.ty) else slots
      declareStatics function (d.name :: seen) slots rest

namespace ConstDecl

/-- The value of a constant table.  One that is too long has none, but is no fault here. -/
def value (c : ConstDecl) : Except DeclCause (Option Value) :=
  match c.ty with
  | .uint _ => .error (.constNotArray c.name)
  | .array element len =>
    if c.values.length ≠ len then .error (.constLength c.name len c.values.length)
    else
      match c.values.find? (fun v => !element.fits v) with
      | some v => .error (.constValueOutOfRange c.name v element)
      | none =>
        if c.ty.withinLimits then .ok (some (.array element c.values.toArray)) else .ok none

end ConstDecl

/-! ## Section 2: All declarations -/

/-- What has been declared up to some item. -/
structure Collected where
  decls : Declarations
  /-- The names of statics and constant tables so far, whether they got a slot or not. -/
  globals : List String

namespace Collected

/-- Nothing declared yet. -/
def empty : Collected := ⟨.empty, []⟩

/-- Adds a function and its statics. -/
def addFunction (c : Collected) (f : Function) : Collected × List DeclError :=
  if c.decls.functions.contains f.name then
    (c, [⟨f.pos, .duplicateFunction f.name⟩])
  else
    let (slots, errors) := declareStatics f.name [] .empty f.statics
    let store := { c.decls.store with locals := c.decls.store.locals.insert f.name slots }
    ({ c with decls := ⟨c.decls.functions.insert f.name f, store⟩ }, errors)

/-- Adds a global static. -/
def addStatic (c : Collected) (d : StaticDecl) : Collected × List DeclError :=
  if d.name ∈ c.globals then
    (c, [⟨d.pos, .duplicateGlobal d.name⟩])
  else
    let store := c.decls.store
    let store :=
      if d.ty.withinLimits then { store with globals := store.globals.insert d.name (.zero d.ty) }
      else store
    (⟨{ c.decls with store }, d.name :: c.globals⟩, [])

/-- Adds a constant table. -/
def addConst (c : Collected) (d : ConstDecl) : Collected × List DeclError :=
  if d.name ∈ c.globals then
    (c, [⟨d.pos, .duplicateGlobal d.name⟩])
  else
    let seen := d.name :: c.globals
    match d.value with
    | .error cause => (⟨c.decls, seen⟩, [⟨d.pos, cause⟩])
    | .ok none => (⟨c.decls, seen⟩, [])
    | .ok (some v) =>
      let store := { c.decls.store with consts := c.decls.store.consts.insert d.name v }
      (⟨{ c.decls with store }, seen⟩, [])

/-- Adds an item; a statement declares nothing. -/
def addItem (c : Collected) : Item → Collected × List DeclError
  | .function f => c.addFunction f
  | .static d => c.addStatic d
  | .const d => c.addConst d
  | .statement _ => (c, [])

/-- Adds items in order. -/
def addItems (c : Collected) : List Item → Collected × List DeclError
  | [] => (c, [])
  | item :: rest =>
    let (c, errors) := c.addItem item
    let (c, more) := c.addItems rest
    (c, errors ++ more)

end Collected

namespace Program

/-- What a program declares, and the faults found on the way. -/
def declarations (p : Program) : Declarations × List DeclError :=
  let (c, errors) := Collected.empty.addItems p.items
  (c.decls, errors)

end Program

end WordLang
