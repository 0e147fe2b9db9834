import WordLang.Declaration.Check
import WordLang.Proofs.Relocation

/-! # Checking a program whose places have moved

    The three passes look at names, types and numbers, and at a place only
    to report it.  So moving the places of a program moves the places in
    what the passes report, and changes nothing else: the faults are the
    same and come in the same order, and without faults the same slots are
    declared.

    Each pass goes through the tree on its own, so there is one lemma for
    each kind of node and pass. -/

namespace WordLang

variable (move : Position → Position)

/-! ## Section 1: Items and programs -/

/-- A constant table with its place moved. -/
def ConstDecl.relocate (c : ConstDecl) : ConstDecl := { c with pos := move c.pos }

/-- An item with its places moved. -/
def Item.relocate : Item → Item
  | .function f => .function (f.relocate move)
  | .static decl => .static (decl.relocate move)
  | .const decl => .const (decl.relocate move)
  | .statement s => .statement (s.relocate move)

theorem Item.relocate_id : Item.relocate id = id := by
  funext item
  cases item with
  | function f => exact congrArg Item.function (congrFun Function.relocate_id f)
  | static decl => rfl
  | const decl => rfl
  | statement s => exact congrArg Item.statement s.relocate_id

/-- A program with its places moved. -/
def Program.relocate (p : Program) : Program := ⟨p.items.map (Item.relocate move)⟩

theorem Statement.relocateAll_eq_map (ss : List Statement) :
    relocateAll move ss = ss.map (·.relocate move) := by
  induction ss with
  | nil => rfl
  | cons s rest ih => rw [relocateAll, ih, List.map_cons]

/-- Picking things out of items and moving their places can be done in either order. -/
theorem Item.filterMap_relocate {α : Type} {pick : Item → Option α} {moved : α → α}
    (h : ∀ item : Item, pick (item.relocate move) = (pick item).map moved) (items : List Item) :
    (items.map (Item.relocate move)).filterMap pick = (items.filterMap pick).map moved := by
  rw [List.filterMap_map, List.map_filterMap]
  exact congrArg (fun g => items.filterMap g) (funext h)

namespace Program

variable (p : Program)

theorem functions_relocate : (p.relocate move).functions = p.functions.map (·.relocate move) :=
  Item.filterMap_relocate move (fun item => by cases item <;> rfl) p.items

theorem statics_relocate : (p.relocate move).statics = p.statics.map (·.relocate move) :=
  Item.filterMap_relocate move (fun item => by cases item <;> rfl) p.items

theorem consts_relocate : (p.relocate move).consts = p.consts.map (·.relocate move) :=
  Item.filterMap_relocate move (fun item => by cases item <;> rfl) p.items

theorem statements_relocate :
    (p.relocate move).statements = Statement.relocateAll move p.statements := by
  rw [Statement.relocateAll_eq_map]
  exact Item.filterMap_relocate move (fun item => by cases item <;> rfl) p.items

end Program

mutual

theorem Statement.statics_relocate :
    (s : Statement) → (s.relocate move).statics = s.statics.map (·.relocate move)
  | .letVar _ _ _ _ => rfl
  | .static _ => rfl
  | .assign _ _ _ _ => rfl
  | .ifThen _ _ yes => by simp only [relocate, statics, blockStatics_relocate yes]
  | .ifElse _ _ yes no => by
    simp only [relocate, statics, blockStatics_relocate yes, blockStatics_relocate no,
      List.map_append]
  | .forRange _ _ _ _ _ body => by simp only [relocate, statics, blockStatics_relocate body]
  | .loop _ body => by simp only [relocate, statics, blockStatics_relocate body]
  | .breakLoop _ => rfl
  | .continueLoop _ => rfl
  | .ret _ none => rfl
  | .ret _ (some _) => rfl
  | .panic _ => rfl
  | .expr _ _ => rfl

theorem Statement.blockStatics_relocate :
    (ss : List Statement) →
      blockStatics (relocateAll move ss) = (blockStatics ss).map (·.relocate move)
  | [] => rfl
  | s :: rest => by
    simp only [relocateAll, blockStatics, statics_relocate s, blockStatics_relocate rest,
      List.map_append]

end

/-! ## Section 2: Limits -/

theorem Ty.limitErrors_relocate (ty : Ty) (pos : Position) :
    ty.limitErrors (move pos) = (ty.limitErrors pos).map (Located.relocate move) := by
  cases ty with
  | uint w => rfl
  | array element len =>
    simp only [limitErrors, apply_ite (List.map (Located.relocate move))]
    rfl

mutual

theorem Statement.limitErrors_relocate :
    (s : Statement) → (s.relocate move).limitErrors = s.limitErrors.map (Located.relocate move)
  | .letVar pos _ ty _ => ty.limitErrors_relocate move pos
  | .static decl => decl.ty.limitErrors_relocate move decl.pos
  | .assign _ _ _ _ => rfl
  | .ifThen _ _ yes => by simp only [relocate, limitErrors, blockLimitErrors_relocate yes]
  | .ifElse _ _ yes no => by
    simp only [relocate, limitErrors, blockLimitErrors_relocate yes, blockLimitErrors_relocate no,
      List.map_append]
  | .forRange pos _ ty _ _ body => by
    simp only [relocate, limitErrors, ty.limitErrors_relocate, blockLimitErrors_relocate body,
      List.map_append]
  | .loop _ body => by simp only [relocate, limitErrors, blockLimitErrors_relocate body]
  | .breakLoop _ => rfl
  | .continueLoop _ => rfl
  | .ret _ none => rfl
  | .ret _ (some _) => rfl
  | .panic _ => rfl
  | .expr _ _ => rfl

theorem Statement.blockLimitErrors_relocate :
    (ss : List Statement) →
      blockLimitErrors (relocateAll move ss) = (blockLimitErrors ss).map (Located.relocate move)
  | [] => rfl
  | s :: rest => by
    simp only [relocateAll, blockLimitErrors, limitErrors_relocate s,
      blockLimitErrors_relocate rest, List.map_append]

end

theorem Function.limitErrors_relocate (f : Function) :
    (f.relocate move).limitErrors = f.limitErrors.map (Located.relocate move) := by
  simp only [limitErrors, relocate, Ty.limitErrors_relocate, Statement.blockLimitErrors_relocate,
    List.map_append, List.map_flatMap, apply_ite (List.map (Located.relocate move))]
  rfl

theorem Item.limitErrors_relocate (item : Item) :
    (item.relocate move).limitErrors = item.limitErrors.map (Located.relocate move) := by
  cases item with
  | function f => exact f.limitErrors_relocate move
  | static decl => exact decl.ty.limitErrors_relocate move decl.pos
  | const decl => exact decl.ty.limitErrors_relocate move decl.pos
  | statement s => exact s.limitErrors_relocate move

theorem Program.limitErrors_relocate (p : Program) :
    (p.relocate move).limitErrors = p.limitErrors.map (Located.relocate move) := by
  simp only [limitErrors, relocate, List.flatMap_map, List.map_flatMap, Item.limitErrors_relocate]

/-! ## Section 3: Names -/

section

variable (names : Names) (scopes : Scopes) (name : String) (pos : Position)

theorem Scopes.bindErrors_relocate :
    scopes.bindErrors name (move pos) =
      (scopes.bindErrors name pos).map (Located.relocate move) := by
  cases scopes with
  | nil => rfl
  | cons scope rest =>
    unfold bindErrors
    dsimp only
    split <;> rfl

theorem Names.referenceErrors_relocate :
    names.referenceErrors scopes name (move pos) =
      (names.referenceErrors scopes name pos).map (Located.relocate move) := by
  unfold referenceErrors
  split <;> rfl

theorem Names.assignErrors_relocate :
    names.assignErrors scopes name (move pos) =
      (names.assignErrors scopes name pos).map (Located.relocate move) := by
  unfold assignErrors
  split <;> rfl

theorem Names.callErrors_relocate :
    names.callErrors name (move pos) =
      (names.callErrors name pos).map (Located.relocate move) := by
  unfold callErrors
  split <;> rfl

end

mutual

theorem Expr.nameErrors_relocate (names : Names) (scopes : Scopes) :
    (e : Expr) → (e.relocate move).nameErrors names scopes =
      (e.nameErrors names scopes).map (Located.relocate move)
  | .literal _ _ => rfl
  | .ident pos name => names.referenceErrors_relocate move scopes name pos
  | .index _ offset _ => by
    simp only [relocate, nameErrors, nameErrors_relocate names scopes offset,
      names.referenceErrors_relocate, List.map_append]
  | .binary _ _ left right => by
    simp only [relocate, nameErrors, nameErrors_relocate names scopes left,
      nameErrors_relocate names scopes right, List.map_append]
  | .call _ _ args => by
    simp only [relocate, nameErrors, argsNameErrors_relocate names scopes args,
      names.callErrors_relocate, List.map_append]

theorem Expr.argsNameErrors_relocate (names : Names) (scopes : Scopes) :
    (es : List Expr) → argsNameErrors names scopes (relocateAll move es) =
      (argsNameErrors names scopes es).map (Located.relocate move)
  | [] => rfl
  | e :: rest => by
    simp only [relocateAll, argsNameErrors, nameErrors_relocate names scopes e,
      argsNameErrors_relocate names scopes rest, List.map_append]

end

theorem Place.nameErrors_relocate (names : Names) (scopes : Scopes) (pos : Position)
    (place : Place) : (place.relocate move).nameErrors names scopes (move pos) =
      (place.nameErrors names scopes pos).map (Located.relocate move) := by
  cases place with
  | var name => exact names.assignErrors_relocate move scopes name pos
  | elem offset array =>
    simp only [relocate, nameErrors, offset.nameErrors_relocate, names.assignErrors_relocate,
      List.map_append]

theorem Statement.scopesAfter_relocate (scopes : Scopes) (s : Statement) :
    scopesAfter scopes (s.relocate move) = scopesAfter scopes s := by
  cases s with
  | ret pos value => cases value <;> rfl
  | _ => rfl

mutual

theorem Statement.nameErrors_relocate (names : Names) (scopes : Scopes) :
    (s : Statement) → (s.relocate move).nameErrors names scopes =
      (s.nameErrors names scopes).map (Located.relocate move)
  | .letVar _ _ _ value => by
    simp only [relocate, nameErrors, value.nameErrors_relocate, scopes.bindErrors_relocate,
      List.map_append]
  | .static _ => rfl
  | .assign _ _ place value => by
    simp only [relocate, nameErrors, place.nameErrors_relocate, value.nameErrors_relocate,
      List.map_append]
  | .ifThen _ cond yes => by
    simp only [relocate, nameErrors, cond.nameErrors_relocate,
      blockNameErrors_relocate names ([] :: scopes) yes, List.map_append]
  | .ifElse _ cond yes no => by
    simp only [relocate, nameErrors, cond.nameErrors_relocate,
      blockNameErrors_relocate names ([] :: scopes) yes,
      blockNameErrors_relocate names ([] :: scopes) no, List.map_append]
  | .forRange _ var _ start stop body => by
    simp only [relocate, nameErrors, start.nameErrors_relocate, stop.nameErrors_relocate,
      blockNameErrors_relocate names ([var] :: scopes) body, List.map_append]
  | .loop _ body => by
    simp only [relocate, nameErrors, blockNameErrors_relocate names ([] :: scopes) body]
  | .breakLoop _ => rfl
  | .continueLoop _ => rfl
  | .ret _ none => rfl
  | .ret _ (some value) => value.nameErrors_relocate move names scopes
  | .panic _ => rfl
  | .expr _ value => value.nameErrors_relocate move names scopes

theorem Statement.blockNameErrors_relocate (names : Names) (scopes : Scopes) :
    (ss : List Statement) → blockNameErrors names scopes (relocateAll move ss) =
      (blockNameErrors names scopes ss).map (Located.relocate move)
  | [] => rfl
  | s :: rest => by
    simp only [relocateAll, blockNameErrors, nameErrors_relocate names scopes s,
      scopesAfter_relocate, blockNameErrors_relocate names (scopesAfter scopes s) rest,
      List.map_append]

end

namespace Function

theorem paramErrors_relocate (pos : Position) (scope : List String) (ps : List Param) :
    paramErrors (move pos) scope ps = (paramErrors pos scope ps).map (Located.relocate move) := by
  induction ps generalizing scope with
  | nil => rfl
  | cons p rest ih =>
    unfold paramErrors
    rw [ih, List.map_append]
    split <;> rfl

theorem statics_relocate (f : Function) :
    (f.relocate move).statics = f.statics.map (·.relocate move) :=
  Statement.blockStatics_relocate move f.body

theorem hiddenStaticErrors_relocate (f : Function) :
    (f.relocate move).hiddenStaticErrors =
      f.hiddenStaticErrors.map (Located.relocate move) := by
  unfold hiddenStaticErrors
  rw [statics_relocate, List.filterMap_map, List.map_filterMap]
  congr 1
  funext d
  rw [apply_ite (Option.map (Located.relocate move))]
  rfl

theorem nameErrors_relocate (f : Function) (names : Names) :
    (f.relocate move).nameErrors names = (f.nameErrors names).map (Located.relocate move) := by
  have hown : (f.relocate move).statics.map StaticDecl.name = f.statics.map StaticDecl.name := by
    rw [statics_relocate, List.map_map]
    rfl
  have hparams := paramErrors_relocate move f.pos [] f.params
  have hbody := Statement.blockNameErrors_relocate move
    { names with own := f.statics.map StaticDecl.name } [f.paramScope] f.body
  unfold nameErrors
  rw [hown, hiddenStaticErrors_relocate, List.map_append, List.map_append, ← hparams, ← hbody]
  rfl

end Function

namespace Program

theorem names_relocate (p : Program) : (p.relocate move).names = p.names := by
  simp only [names, functions_relocate, statics_relocate, consts_relocate, List.map_map]
  rfl

theorem nameErrors_relocate (p : Program) :
    (p.relocate move).nameErrors = p.nameErrors.map (Located.relocate move) := by
  simp only [nameErrors, names_relocate, functions_relocate, statements_relocate,
    List.flatMap_map, Function.nameErrors_relocate, Statement.blockNameErrors_relocate,
    List.map_append, List.map_flatMap]

end Program

/-! ## Section 4: The table of functions -/

namespace NameMap

variable {α β : Type} (f : α → β)

/-- The same names, each with its value changed. -/
def map (m : NameMap α) : NameMap β :=
  ⟨m.entries.map (fun e => (e.1, f e.2)), List.pairwise_map.mpr m.sorted⟩

theorem find_map (name : String) (es : List (String × α)) :
    find name (es.map (fun e => (e.1, f e.2))) = (find name es).map f := by
  induction es with
  | nil => rfl
  | cons head rest ih =>
    by_cases h : head.1 = name
    · simp [find, h]
    · simp [find, h, ih]

theorem place_map (name : String) (value : α) (es : List (String × α)) :
    place name (f value) (es.map (fun e => (e.1, f e.2))) =
      (place name value es).map (fun e => (e.1, f e.2)) := by
  induction es with
  | nil => rfl
  | cons head rest ih =>
    simp only [List.map_cons, place]
    split
    · rfl
    · split
      · rfl
      · rw [ih, List.map_cons]

@[simp] theorem get?_map (m : NameMap α) (name : String) :
    (m.map f).get? name = (m.get? name).map f :=
  find_map f name m.entries

@[simp] theorem contains_map (m : NameMap α) (name : String) :
    (m.map f).contains name = m.contains name := by
  simp [contains]

theorem map_insert (m : NameMap α) (name : String) (value : α) :
    (m.map f).insert name (f value) = (m.insert name value).map f := by
  have hentries := place_map f name value m.entries
  simp only [insert, map, hentries]

end NameMap

/-! ## Section 5: Declarations -/

/-- What there is before a program runs, with the places in its functions moved. -/
def Declarations.relocate (d : Declarations) : Declarations :=
  ⟨d.functions.map (Function.relocate move), d.store⟩

/-- What has been declared up to some item, with the places in its functions moved. -/
def Collected.relocate (c : Collected) : Collected := ⟨c.decls.relocate move, c.globals⟩

theorem declareStatics_relocate (function : String) (seen : List String) (slots : NameMap Value)
    (ds : List StaticDecl) :
    declareStatics function seen slots (ds.map (·.relocate move)) =
      (declareStatics function seen slots ds).map id (List.map (Located.relocate move)) := by
  fun_induction declareStatics function seen slots ds with
  | case1 seen slots => rfl
  | case2 seen slots d rest hseen slots' errors heq ih =>
    have hname : (d.relocate move).name ∈ seen := hseen
    rw [List.map_cons, declareStatics, if_pos hname, ih, heq]
    rfl
  | case3 seen slots d rest hseen slots' ih =>
    have hname : (d.relocate move).name ∉ seen := hseen
    rw [List.map_cons, declareStatics, if_neg hname]
    exact ih

namespace Collected

variable (c : Collected)

theorem addFunction_relocate (f : Function) :
    (c.relocate move).addFunction (f.relocate move) =
      (c.addFunction f).map (relocate move) (List.map (Located.relocate move)) := by
  have hknown : (c.relocate move).decls.functions.contains (f.relocate move).name =
      c.decls.functions.contains f.name := NameMap.contains_map _ _ _
  have hstatics := declareStatics_relocate move f.name [] .empty f.statics
  rw [← f.statics_relocate move] at hstatics
  unfold addFunction
  rw [hknown]
  split
  · rfl
  · have hinsert := c.decls.functions.map_insert (Function.relocate move) f.name f
    simp only [Prod.map, relocate, Declarations.relocate, ← hinsert]
    dsimp only [Function.relocate] at hstatics ⊢
    rw [hstatics]
    rfl

theorem addStatic_relocate (d : StaticDecl) :
    (c.relocate move).addStatic (d.relocate move) =
      (c.addStatic d).map (relocate move) (List.map (Located.relocate move)) := by
  unfold addStatic
  rw [apply_ite (Prod.map (relocate move) (List.map (Located.relocate move)))]
  rfl

theorem addConst_relocate (d : ConstDecl) :
    (c.relocate move).addConst (d.relocate move) =
      (c.addConst d).map (relocate move) (List.map (Located.relocate move)) := by
  have hvalue : (d.relocate move).value = d.value := rfl
  unfold addConst
  rw [apply_ite (Prod.map (relocate move) (List.map (Located.relocate move))), hvalue]
  rcases d.value with cause | _ | v <;> rfl

theorem addItem_relocate (item : Item) :
    (c.relocate move).addItem (item.relocate move) =
      (c.addItem item).map (relocate move) (List.map (Located.relocate move)) := by
  cases item with
  | function f => exact c.addFunction_relocate move f
  | static d => exact c.addStatic_relocate move d
  | const d => exact c.addConst_relocate move d
  | statement s => rfl

theorem addItems_relocate (items : List Item) :
    (c.relocate move).addItems (items.map (Item.relocate move)) =
      (c.addItems items).map (relocate move) (List.map (Located.relocate move)) := by
  induction items generalizing c with
  | nil => rfl
  | cons item rest ih =>
    simp only [List.map_cons, addItems, addItem_relocate, Prod.map, ih, List.map_append]

end Collected

namespace Program

theorem declarations_relocate (p : Program) :
    (p.relocate move).declarations =
      p.declarations.map (Declarations.relocate move) (List.map (Located.relocate move)) := by
  have hitems := Collected.empty.addItems_relocate move p.items
  rw [show Collected.empty.relocate move = .empty from rfl] at hitems
  simp only [declarations, relocate, hitems]
  rfl

/-- A program with its places moved is checked with the same result: its faults are the same but
    for their places, and without faults it declares the same. -/
theorem check_relocate (p : Program) :
    (p.relocate move).check =
      match p.check with
      | .ok decls => .ok (decls.relocate move)
      | .error errors => .error (errors.map (Located.relocate move)) := by
  have herrors : (p.relocate move).passes.errors = p.passes.errors.map (Located.relocate move) := by
    simp only [passes, Passes.errors, limitErrors_relocate, declarations_relocate,
      nameErrors_relocate, Prod.map, List.map_append]
  have hdeclared : (p.relocate move).passes.declared = p.passes.declared.relocate move := by
    simp only [passes, declarations_relocate, Prod.map]
  unfold check
  simp only [herrors, hdeclared, List.isEmpty_map]
  split <;> rfl

end Program

end WordLang
