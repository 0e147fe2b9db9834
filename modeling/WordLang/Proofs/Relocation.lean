import WordLang.Machine.Semantics

/-! # Programs and states with their places moved

    `relocate move` sends every place in a tree, a state or an error through
    the function `move` and leaves all else as it is.  With the identity
    nothing changes; with a constant function the places are forgotten.

    What the machine looks at has no places in it.  So looking at a state
    that has been relocated gives what the state itself gives, and changing
    it is the same before and after. -/

namespace WordLang

variable (move : Position → Position)

/-! ## Section 1: Trees -/

/-- The same thing at the place where its own one goes. -/
def Located.relocate {α : Type} (x : Located α) : Located α := ⟨move x.pos, x.item⟩

mutual

/-- An expression with its places moved. -/
def Expr.relocate : Expr → Expr
  | .literal pos value => .literal (move pos) value
  | .ident pos name => .ident (move pos) name
  | .index pos offset array => .index (move pos) (Expr.relocate offset) array
  | .binary pos op left right => .binary (move pos) op (Expr.relocate left) (Expr.relocate right)
  | .call pos function args => .call (move pos) function (Expr.relocateAll args)

/-- Expressions with their places moved. -/
def Expr.relocateAll : List Expr → List Expr
  | [] => []
  | e :: rest => Expr.relocate e :: Expr.relocateAll rest

end

/-- A target with its places moved. -/
def Place.relocate : Place → Place
  | .var name => .var name
  | .elem offset array => .elem (offset.relocate move) array

/-- A static with its place moved. -/
def StaticDecl.relocate (d : StaticDecl) : StaticDecl := { d with pos := move d.pos }

mutual

/-- A statement with its places moved. -/
def Statement.relocate : Statement → Statement
  | .letVar pos name ty value => .letVar (move pos) name ty (value.relocate move)
  | .static decl => .static (decl.relocate move)
  | .assign pos op place value =>
    .assign (move pos) op (place.relocate move) (value.relocate move)
  | .ifThen pos cond yes =>
    .ifThen (move pos) (cond.relocate move) (Statement.relocateAll yes)
  | .ifElse pos cond yes no =>
    .ifElse (move pos) (cond.relocate move) (Statement.relocateAll yes) (Statement.relocateAll no)
  | .forRange pos var ty start stop body =>
    .forRange (move pos) var ty (start.relocate move) (stop.relocate move)
      (Statement.relocateAll body)
  | .loop pos body => .loop (move pos) (Statement.relocateAll body)
  | .breakLoop pos => .breakLoop (move pos)
  | .continueLoop pos => .continueLoop (move pos)
  | .ret pos none => .ret (move pos) none
  | .ret pos (some value) => .ret (move pos) (some (value.relocate move))
  | .panic pos => .panic (move pos)
  | .expr pos value => .expr (move pos) (value.relocate move)

/-- Statements with their places moved. -/
def Statement.relocateAll : List Statement → List Statement
  | [] => []
  | s :: rest => Statement.relocate s :: Statement.relocateAll rest

end

/-- A function with its places moved. -/
def Function.relocate (f : Function) : Function :=
  { f with body := Statement.relocateAll move f.body, pos := move f.pos }

@[simp] theorem Expr.pos_relocate (e : Expr) : (e.relocate move).pos = move e.pos := by
  cases e <;> rfl

@[simp] theorem Statement.pos_relocate (s : Statement) : (s.relocate move).pos = move s.pos := by
  cases s with
  | ret pos value => cases value <;> rfl
  | _ => rfl

@[simp] theorem Place.name_relocate (p : Place) : (p.relocate move).name = p.name := by
  cases p <;> rfl

theorem Expr.map_pos_relocateAll (es : List Expr) :
    (relocateAll move es).map pos = (es.map pos).map move := by
  induction es with
  | nil => rfl
  | cons e rest ih => simp [relocateAll, ih]

/-! ## Section 2: States -/

/-- A frame with the places of its function moved. -/
def Frame.relocate (f : Frame) : Frame := ⟨f.function.map (Function.relocate move), f.scopes⟩

/-- An event with its place moved. -/
def Event.relocate : Event → Event
  | .statement pos depth => .statement (move pos) depth
  | .call function depth => .call function depth
  | .ret function value => .ret function value
  | .panic pos function depth => .panic (move pos) function depth
  | .topLevelReturn pos => .topLevelReturn (move pos)

/-- A state with the places of its frames and events moved. -/
def Machine.relocate (m : Machine) : Machine :=
  ⟨m.store, m.frames.map (Frame.relocate move), m.events.map (Event.relocate move)⟩

namespace Machine

variable (m : Machine)

@[simp] theorem store_relocate : (m.relocate move).store = m.store := rfl

@[simp] theorem frames_relocate :
    (m.relocate move).frames = m.frames.map (Frame.relocate move) := rfl

@[simp] theorem events_relocate :
    (m.relocate move).events = m.events.map (Event.relocate move) := rfl

@[simp] theorem relocate_initial (store : Store) :
    (initial store).relocate move = initial store := rfl

/-! ## Section 3: Looking at a state -/

@[simp] theorem depth_relocate : (m.relocate move).depth = m.depth := by
  simp [depth]

@[simp] theorem frame?_relocate :
    (m.relocate move).frame? = m.frame?.map (Frame.relocate move) := by
  simp [frame?]

@[simp] theorem function?_relocate :
    (m.relocate move).function? = m.function?.map (Function.relocate move) := by
  rw [function?, function?, frame?_relocate]
  cases m.frame? <;> rfl

@[simp] theorem functionName?_relocate : (m.relocate move).functionName? = m.functionName? := by
  rw [functionName?, functionName?, function?_relocate]
  cases m.function? <;> rfl

@[simp] theorem read?_relocate (name : String) :
    (m.relocate move).read? name = m.read? name := by
  have hbound : (m.relocate move).bound? name = m.bound? name := by
    rw [bound?, bound?, frame?_relocate]
    cases m.frame? <;> rfl
  have hown : (m.relocate move).ownStatic? name = m.ownStatic? name := by
    rw [ownStatic?, ownStatic?, functionName?_relocate, store_relocate]
  rw [read?, read?, hbound, hown, store_relocate]

@[simp] theorem cell_relocate (name : String) : (m.relocate move).cell name = m.cell name := by
  have hscope : ((m.relocate move).frame?.bind fun f =>
      f.scopes.findIdx? fun scope => scope.contains name) =
      m.frame?.bind fun f => f.scopes.findIdx? fun scope => scope.contains name := by
    rw [frame?_relocate]
    cases m.frame? <;> rfl
  unfold cell
  rw [hscope, functionName?_relocate]
  rfl

/-! ## Section 4: Changing a state -/

theorem mapScopes_relocate (f : List (NameMap Value) → List (NameMap Value)) :
    (m.relocate move).mapScopes f = (m.mapScopes f).relocate move := by
  rcases m with ⟨store, _ | ⟨frame, rest⟩, events⟩ <;> rfl

theorem modifyCell_relocate (c : Cell) (name : String) (f : Value → Value) :
    (m.relocate move).modifyCell c name f = (m.modifyCell c name f).relocate move := by
  cases c with
  | scope index => exact m.mapScopes_relocate move _
  | static function => rfl
  | global => rfl

theorem pushFrame_relocate (f : Frame) :
    (m.relocate move).pushFrame (f.relocate move) = (m.pushFrame f).relocate move := rfl

theorem popFrame_relocate : (m.relocate move).popFrame = m.popFrame.relocate move := by
  simp [popFrame, relocate]

end Machine

/-! ## Section 5: Moving nothing -/

mutual

theorem Expr.relocate_id : (e : Expr) → e.relocate id = e
  | .literal _ _ => rfl
  | .ident _ _ => rfl
  | .index _ offset _ => by simp only [relocate, relocate_id offset, id]
  | .binary _ _ left right => by simp only [relocate, relocate_id left, relocate_id right, id]
  | .call _ _ args => by simp only [relocate, relocateAll_id args, id]

theorem Expr.relocateAll_id : (es : List Expr) → relocateAll id es = es
  | [] => rfl
  | e :: rest => by simp only [relocateAll, relocate_id e, relocateAll_id rest]

end

theorem Place.relocate_id (p : Place) : p.relocate id = p := by
  cases p with
  | var name => rfl
  | elem offset array => rw [relocate, offset.relocate_id]

mutual

theorem Statement.relocate_id : (s : Statement) → s.relocate id = s
  | .letVar _ _ _ value => by simp only [relocate, value.relocate_id, id]
  | .static _ => rfl
  | .assign _ _ place value => by simp only [relocate, place.relocate_id, value.relocate_id, id]
  | .ifThen _ cond yes => by simp only [relocate, cond.relocate_id, relocateAll_id yes, id]
  | .ifElse _ cond yes no => by
    simp only [relocate, cond.relocate_id, relocateAll_id yes, relocateAll_id no, id]
  | .forRange _ _ _ start stop body => by
    simp only [relocate, start.relocate_id, stop.relocate_id, relocateAll_id body, id]
  | .loop _ body => by simp only [relocate, relocateAll_id body, id]
  | .breakLoop _ => rfl
  | .continueLoop _ => rfl
  | .ret _ none => rfl
  | .ret _ (some value) => by simp only [relocate, value.relocate_id, id]
  | .panic _ => rfl
  | .expr _ value => by simp only [relocate, value.relocate_id, id]

theorem Statement.relocateAll_id : (ss : List Statement) → relocateAll id ss = ss
  | [] => rfl
  | s :: rest => by simp only [relocateAll, relocate_id s, relocateAll_id rest]

end

theorem Function.relocate_id : Function.relocate id = id := by
  funext f
  simp only [relocate, Statement.relocateAll_id, id]

theorem Event.relocate_id : Event.relocate id = id := by
  funext e
  cases e <;> rfl

theorem Machine.relocate_id (m : Machine) : m.relocate id = m := by
  have hframe : Frame.relocate id = id := by
    funext f
    simp [Frame.relocate, Function.relocate_id]
  rw [relocate, hframe, Event.relocate_id, List.map_id, List.map_id]

end WordLang
