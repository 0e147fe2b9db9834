import WordLang.Machine.Failure
import WordLang.Program
import WordLang.Store

/-! # The state of a run

    A machine holds the store, a frame for every active call above the one
    of the top level, and the events so far.  A frame has its own scopes: a
    name is looked up in those, then in the statics of the frame's function,
    then among the global statics, then among the constant tables.

    Reading a name (`read?`) and finding the cell to write (`cell`) are two
    functions; they agree on where a name lives. -/

namespace WordLang

/-! ## Section 1: Configuration, frames, events -/

/-- What can be chosen for a run. -/
structure Config where
  /-- The greatest number of calls active at one time. -/
  maxDepth : Nat
  overflow : Overflow

namespace Config

/-- At most 1024 active calls; results that do not fit are cut. -/
def default : Config := ⟨1024, .wrap⟩

instance : Inhabited Config := ⟨default⟩

end Config

/-- What stays the same during a run. -/
structure Env where
  functions : NameMap Function
  config    : Config

/-- An active call, or the top level, with its scopes from the innermost out. -/
structure Frame where
  function : Option Function
  scopes   : List (NameMap Value)

namespace Frame

/-- The frame of the top level before the first statement. -/
def topLevel : Frame := ⟨none, [.empty]⟩

/-- The frame of a call whose parameters have been bound. -/
def call (f : Function) (params : NameMap Value) : Frame := ⟨some f, [params]⟩

/-- The name of the function that runs. -/
def functionName? (f : Frame) : Option String := f.function.map Function.name

end Frame

/-- Something that a trace of a run shows. -/
inductive Event where
  /-- A statement is about to be run, with this many calls active. -/
  | statement (pos : Position) (depth : Nat)
  /-- A call has begun; it counts as active. -/
  | call (function : String) (depth : Nat)
  /-- A call has ended. -/
  | ret (function : String) (value : Option Value)
  | panic (pos : Position) (function : Option String) (depth : Nat)
  /-- The statement at this place ended the run. -/
  | topLevelReturn (pos : Position)
deriving DecidableEq

/-- The state of a run: the current frame is the first, the latest event too. -/
structure Machine where
  store  : Store
  frames : List Frame
  events : List Event

namespace Machine

/-- The state before the first statement. -/
def initial (store : Store) : Machine := ⟨store, [.topLevel], []⟩

/-- The number of active calls. -/
def depth (m : Machine) : Nat := m.frames.length - 1

/-- The current frame. -/
def frame? (m : Machine) : Option Frame := m.frames.head?

/-- The function that runs, if a call is active. -/
def function? (m : Machine) : Option Function := m.frame?.bind Frame.function

/-- The name of the function that runs. -/
def functionName? (m : Machine) : Option String := m.function?.map Function.name

/-! ## Section 2: Reading names -/

/-- The value of a name in the innermost scope that has it. -/
def scopesGet? (name : String) : List (NameMap Value) → Option Value
  | [] => none
  | scope :: rest => (scope.get? name).or (scopesGet? name rest)

/-- A variable of the current frame. -/
def bound? (m : Machine) (name : String) : Option Value :=
  m.frame?.bind (fun f => scopesGet? name f.scopes)

/-- A static of the function that runs. -/
def ownStatic? (m : Machine) (name : String) : Option Value :=
  m.functionName?.bind (fun f => m.store.local? f name)

/-- What a name stands for: a variable, else a static of the function that runs, else a global
    static, else a constant table. -/
def read? (m : Machine) (name : String) : Option Value :=
  (m.bound? name).or <| (m.ownStatic? name).or <|
    (m.store.global? name).or (m.store.const? name)

/-! ## Section 3: Writing names -/

/-- Where a value that can be changed is kept. -/
inductive Cell where
  /-- In this scope of the current frame, counted from the innermost. -/
  | scope (index : Nat)
  /-- Among the statics of this function. -/
  | static (function : String)
  | global
deriving DecidableEq

/-- The cell that an assignment to a name changes. -/
def cell (m : Machine) (name : String) : Except RuntimeCause Cell :=
  match m.frame?.bind (fun f => f.scopes.findIdx? (fun scope => scope.contains name)) with
  | some index => .ok (.scope index)
  | none =>
    match m.functionName?.filter (fun f => (m.store.local? f name).isSome) with
    | some function => .ok (.static function)
    | none =>
      if (m.store.global? name).isSome then .ok .global
      else if (m.store.const? name).isSome then .error (.constAssignment name)
      else .error (.unresolved name)

/-- Changes the scopes of the current frame. -/
@[inline] def mapScopes (m : Machine) (f : List (NameMap Value) → List (NameMap Value)) :
    Machine :=
  match m with
  | ⟨store, [], events⟩ => ⟨store, [], events⟩
  | ⟨store, frame :: rest, events⟩ =>
    ⟨store, { frame with scopes := f frame.scopes } :: rest, events⟩

/-- Changes the value that a name has in a cell. -/
def modifyCell (m : Machine) (c : Cell) (name : String) (f : Value → Value) : Machine :=
  match c with
  | .scope index => m.mapScopes (fun scopes => scopes.modify index (fun s => s.modify name f))
  | .static function => { m with store := m.store.modifyLocal function name f }
  | .global => { m with store := m.store.modifyGlobal name f }

/-! ## Section 4: Scopes, frames and events -/

/-- Opens a scope in the current frame. -/
def pushScope (m : Machine) (scope : NameMap Value) : Machine :=
  m.mapScopes (fun scopes => scope :: scopes)

/-- Closes the innermost scope of the current frame. -/
def popScope (m : Machine) : Machine := m.mapScopes List.tail

/-- Binds a name in a list of scopes, in the innermost one. -/
def bindInnermost (name : String) (v : Value) : List (NameMap Value) → List (NameMap Value)
  | [] => []
  | scope :: rest => scope.insert name v :: rest

/-- Binds a variable in the innermost scope, in place of one of the same name. -/
def declare (m : Machine) (name : String) (v : Value) : Machine :=
  m.mapScopes (bindInnermost name v)

/-- Begins a call. -/
def pushFrame (m : Machine) (f : Frame) : Machine := { m with frames := f :: m.frames }

/-- Ends a call. -/
def popFrame (m : Machine) : Machine := { m with frames := m.frames.tail }

/-- Records an event. -/
def emit (m : Machine) (e : Event) : Machine := { m with events := e :: m.events }

end Machine

end WordLang
