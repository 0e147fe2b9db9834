import WordLang.Machine.Exec

/-! # Running programs

    Expressions give values and statements say how control goes on.  A
    literal takes its width from the place it stands in: from the other
    operand if its width is known beforehand, else from what the surroundings
    expect, else it is a byte.

    A program may run forever, so the functions that call each other take a
    fuel that each call lowers.  Running out of it is an outcome of its own;
    any other outcome stays the same with more fuel. -/

namespace WordLang

open Exec

/-- How control leaves a statement. -/
inductive Flow where
  | next
  | broke
  | continued
  /-- Leaves all enclosing blocks up to the call. -/
  | returned (value : Option Value)

/-- The width that an expression is known to have before it is evaluated. -/
def staticWidth (env : Env) (m : Machine) : Expr → Option Width
  | .literal _ _ => none
  | .ident _ name => (m.read? name).bind (fun v => v.ty.scalarWidth?)
  | .index _ _ array =>
    match m.read? array with
    | some (.array element _) => some element
    | _ => none
  | .binary _ op left right =>
    if op.yieldsBool then some .bool
    else (staticWidth env m left).or (staticWidth env m right)
  | .call _ function _ =>
    (env.functions.get? function).bind (fun f => f.ret.bind Ty.scalarWidth?)

/-- The widths expected of the two operands: each takes the known width of the other one, else
    what is expected of the result, unless the result is a truth value. -/
def operandHints (env : Env) (op : BinOp) (left right : Expr) (hint : Option Width)
    (m : Machine) : Option Width × Option Width :=
  let outer := if op.yieldsBool then none else hint
  ((staticWidth env m right).or outer, (staticWidth env m left).or outer)

/-- The width expected of the value of a `return`. -/
def returnHint (m : Machine) : Option Width :=
  m.function?.bind (fun f => f.ret.bind Ty.scalarWidth?)

/-- Records that a statement is about to run. -/
def enterStatement (pos : Position) : Exec Unit :=
  modify (fun m => m.emit (.statement pos m.depth))

/-- Records the explicit end of a run and ends it. -/
def runPanic (pos : Position) : Exec Flow := do
  let function ← reads Machine.functionName?
  modify (fun m => m.emit (.panic pos function m.depth))
  fail pos (.explicitPanic function)

/-- What a call gives after its body: the value if there has to be one. -/
def finishCall (pos : Position) (f : Function) (flow : Flow) : Exec (Option Value) := do
  match f.ret, flow with
  | none, _ =>
    modify (fun m => m.emit (.ret f.name none))
    return none
  | some ty, .returned (some v) =>
    expectType pos ty v
    modify (fun m => m.emit (.ret f.name (some v)))
    return some v
  | some _, _ => fail f.pos (.missingReturn f.name)

/-- The parameters of a call bound to its arguments, if number and types are right and one more
    call may be active. -/
def prepareCall (env : Env) (pos : Position) (f : Function) (args : List Expr)
    (values : List Value) : Exec (NameMap Value) := do
  if values.length ≠ f.params.length then
    fail pos (.arityMismatch f.name f.params.length values.length)
  else
    let params ← bindParams .empty f.params (args.map Expr.pos) values
    let depth ← reads Machine.depth
    if env.config.maxDepth ≤ depth then fail pos (.stackExhausted env.config.maxDepth)
    else return params

mutual

/-- The value of an expression, of which `hint` is the width expected. -/
def eval (env : Env) : Nat → Expr → Option Width → Exec Value
  | 0, _, _ => outOfFuel
  | fuel + 1, e, hint =>
    match e with
    | .literal pos value => literal pos value (hint.getD .byte)
    | .ident pos name => read pos name
    | .index pos offset array => do
      let (_, i) ← scalar offset.pos (← eval env fuel offset (some .word))
      readElement pos array i
    | .binary pos op left right => do
      if op.isLogical then
        -- both sides are evaluated, whatever the first one gives
        let (_, a) ← scalar left.pos (← eval env fuel left none)
        let (_, b) ← scalar right.pos (← eval env fuel right none)
        return .wrapped .bool (op.raw .bool a b)
      else
        -- both hints are taken before either operand is evaluated
        let (leftHint, rightHint) ← reads (operandHints env op left right hint)
        let (w, a) ← scalar left.pos (← eval env fuel left leftHint)
        let b ← wordOf right.pos w (← eval env fuel right rightHint)
        applyOp pos op.symbol op w a b env.config.overflow
    | .call pos function args => do
      match ← call env fuel pos function args with
      | some v => return v
      | none => fail pos (.noValue function)

/-- The values of arguments from left to right; each expects the width of its parameter. -/
def evalArgs (env : Env) : Nat → List Param → List Expr → Exec (List Value)
  | 0, _, _ => outOfFuel
  | _ + 1, _, [] => pure []
  | fuel + 1, params, e :: rest => do
    let v ← eval env fuel e (params.head?.bind (fun p => p.ty.scalarWidth?))
    let vs ← evalArgs env fuel params.tail rest
    return v :: vs

/-- Calls a function: the arguments in the caller's frame, the body in one of its own. -/
def call (env : Env) : Nat → Position → String → List Expr → Exec (Option Value)
  | 0, _, _, _ => outOfFuel
  | fuel + 1, pos, name, args => do
    match env.functions.get? name with
    | none => fail pos (.unresolved name)
    | some f =>
      let values ← evalArgs env fuel f.params args
      let params ← prepareCall env pos f args values
      -- the body runs in the scope of the parameters
      let flow ← inFrame (.call f params) (do
        modify (fun m => m.emit (.call f.name m.depth))
        runBlock env fuel f.body)
      finishCall pos f flow

/-- Runs statements in the current scope up to the first that does not just go on. -/
def runBlock (env : Env) : Nat → List Statement → Exec Flow
  | 0, _ => outOfFuel
  | _ + 1, [] => pure .next
  | fuel + 1, s :: rest => do
    match ← runStatement env fuel s with
    | .next => runBlock env fuel rest
    | flow => return flow

/-- Runs a statement. -/
def runStatement (env : Env) : Nat → Statement → Exec Flow
  | 0, _ => outOfFuel
  | fuel + 1, s => do
    enterStatement s.pos
    match s with
    | .letVar pos name ty value =>
      let v ← eval env fuel value ty.scalarWidth?
      expectType pos ty v
      modify (fun m => m.declare name v)
      return .next
    -- its slot has been there since before the run
    | .static _ => return .next
    | .assign pos op place value => runAssign env fuel pos op place value
    | .ifThen _ cond yes =>
      let (_, n) ← scalar cond.pos (← eval env fuel cond none)
      if n ≠ 0 then inScope .empty (runBlock env fuel yes) else return .next
    | .ifElse _ cond yes no =>
      let (_, n) ← scalar cond.pos (← eval env fuel cond none)
      inScope .empty (runBlock env fuel (if n ≠ 0 then yes else no))
    | .forRange _ var ty start stop body =>
      let first ← wordOf start.pos ty.width (← eval env fuel start (some ty.width))
      let past ← wordOf stop.pos ty.width (← eval env fuel stop (some ty.width))
      runFor env fuel var ty.width first past body
    | .loop _ body => runLoop env fuel body
    | .breakLoop _ => return .broke
    | .continueLoop _ => return .continued
    | .ret _ none => return .returned none
    | .ret _ (some value) =>
      let v ← eval env fuel value (← reads returnHint)
      return .returned (some v)
    | .panic pos => runPanic pos
    -- a call on its own may be of a function without a value
    | .expr _ (.call pos function args) =>
      let _ ← call env fuel pos function args
      return .next
    | .expr _ value =>
      let _ ← eval env fuel value none
      return .next

/-- Runs an assignment: the index, then a look at what is there, then the right-hand side. -/
def runAssign (env : Env) : Nat → Position → AssignOp → Place → Expr → Exec Flow
  | 0, _, _, _, _ => outOfFuel
  | fuel + 1, pos, op, place, value => do
    let index ← (match place with
      | .var _ => pure none
      | .elem offset _ => do
        let (_, i) ← scalar offset.pos (← eval env fuel offset (some .word))
        return some i : Exec (Option Nat))
    -- a wrong target is reported before the right-hand side is evaluated
    let there ← target pos place.name index
    match op.binOp?, there.current with
    | none, _ =>
      let v ← eval env fuel value there.ty.scalarWidth?
      expectType value.pos there.ty v
      store pos place.name index v
      return .next
    | some bin, some current =>
      let w := there.ty.width
      let n ← wordOf value.pos w (← eval env fuel value (some w))
      let v ← applyOp pos op.symbol bin w current n env.config.overflow
      store pos place.name index v
      return .next
    | some _, none => fail pos (.scalarExpected there.ty)

/-- Runs the body of a `for` with the loop variable at `i` and on, up to but not at `stop`. -/
def runFor (env : Env) : Nat → String → Width → Nat → Nat → List Statement → Exec Flow
  | 0, _, _, _, _, _ => outOfFuel
  | fuel + 1, var, w, i, stop, body => do
    if i < stop then
      match ← inScope (.singleton var (.wrapped w i)) (runBlock env fuel body) with
      | .next | .continued => runFor env fuel var w (i + 1) stop body
      | .broke => return .next
      | .returned v => return .returned v
    else
      return .next

/-- Runs the body of a `loop` until it is left. -/
def runLoop (env : Env) : Nat → List Statement → Exec Flow
  | 0, _ => outOfFuel
  | fuel + 1, body => do
    match ← inScope .empty (runBlock env fuel body) with
    | .next | .continued => runLoop env fuel body
    | .broke => return .next
    | .returned v => return .returned v

end

/-- Runs the top-level statements in order; a `return` among them ends the run. -/
def runTopLevel (env : Env) : Nat → List Statement → Exec Unit
  | 0, _ => outOfFuel
  | _ + 1, [] => pure ()
  | fuel + 1, s :: rest => do
    match ← runStatement env fuel s with
    | .returned _ => modify (fun m => m.emit (.topLevelReturn s.pos))
    | _ => runTopLevel env fuel rest

end WordLang
