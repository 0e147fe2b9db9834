import WordLang.Proofs.Parts
import WordLang.Proofs.Relocation

/-! # Judgments about all runs

    Much of what is said about all runs is proved by one and the same
    induction: on the fuel, and for all eight functions that call each other
    at once.  It is carried out here, for a judgment that is left open.

    A judgment is about two computations.  The first one takes the fuel that
    is counted, the second one is given for every amount of fuel.  Together
    with them it has what is known of a result, and the contexts before and
    after.  What is said of one run does not look at the second computation,
    and what compares two runs has mostly one context and knows nothing of
    results; what is known of a single run while it is compared with another
    one is not lost either.

    * A `Discipline` says which code may stand in which context.  It has to
      come with a law for each kind of code, from the whole to its parts.
    * A `Pairing` says which code the second run has for that of the first.
    * `Rules` says how the judgment follows for a computation from its parts.

    From these, `Rules.parts` has the judgment for every part of the
    semantics, whatever the fuel. -/

namespace WordLang

open Exec

/-- Failures over a value that is missing or not of the kind that is needed. -/
def RuntimeCause.isAboutValue : RuntimeCause → Bool
  | .scalarExpected _ | .typeMismatch _ _ | .literalOutOfRange _ _ | .notAnArray _
  | .indexOutOfBounds _ _ _ | .noValue _ => true
  | _ => false

/-- A call from its evaluated arguments on: checks, then the body in a frame of its own, then what
    the call gives. -/
def callWith (env : Env) (pos : Position) (f : Function) (args : List Expr)
    (values : List Value) (body : Exec Flow) : Exec (Option Value) := do
  let params ← prepareCall env pos f args values
  let flow ← inFrame (.call f params) (do
    modify (fun m => m.emit (.call f.name m.depth))
    body)
  finishCall pos f flow

instance : Nonempty Flow := ⟨.next⟩

instance : Nonempty Target := ⟨⟨.uint .byte, none⟩⟩

/-! ## Section 1: Code in its context -/

/-- Which code may stand in which context, and what this tells of the results.  Where nothing else
    is said, any code may stand anywhere, contexts do not change, and nothing is told. -/
structure Discipline (Γ : Type) where
  expr : Γ → Expr → Prop := fun _ _ => True
  args : Γ → List Expr → Prop := fun _ _ => True
  stmt : Γ → Statement → Prop := fun _ _ => True
  block : Γ → List Statement → Prop := fun _ _ => True
  reads : Γ → Position → String → Prop := fun _ _ _ => True
  calls : Γ → Position → String → Prop := fun _ _ _ => True
  assigns : Γ → Position → String → Prop := fun _ _ _ => True
  /-- A scope may be opened here. -/
  opens : Γ → Prop := fun _ => True
  /-- The context of a block that starts with these names, and whether it is a round of a loop. -/
  inside : Γ → Bool → List String → Γ := fun c _ _ => c
  /-- The context after a name has been bound. -/
  bind : Γ → String → Γ := fun c _ => c
  value : Value → Prop := fun _ => True
  /-- How control may leave the code that stands here. -/
  flow : Γ → Flow → Prop := fun _ _ => True
  /-- Whether anything is known of results. -/
  knows : Prop

namespace Discipline

variable {Γ : Type} (D : Discipline Γ) (c : Γ)

/-- The context after a statement. -/
def after : Statement → Γ
  | .letVar _ name _ _ => D.bind c name
  | _ => c

/-- What an expression asks of its parts. -/
def ExprParts : Expr → Prop
  | .literal _ _ => True
  | .ident pos name => D.reads c pos name
  | .index pos offset array => D.expr c offset ∧ D.reads c pos array
  | .binary _ _ left right => D.expr c left ∧ D.expr c right
  | .call pos name args => D.calls c pos name ∧ D.args c args

/-- What a target at this position asks of its parts. -/
def PlaceParts (pos : Position) : Place → Prop
  | .var name => D.assigns c pos name
  | .elem offset array => D.expr c offset ∧ D.assigns c pos array

/-- What a statement asks of its parts. -/
def StatementParts : Statement → Prop
  | .letVar _ _ _ value => D.expr c value
  | .static _ | .panic _ => True
  | .assign pos _ place value => D.PlaceParts c pos place ∧ D.expr c value
  | .ifThen _ cond yes => D.expr c cond ∧ D.opens c ∧ D.block (D.inside c false []) yes
  | .ifElse _ cond yes no => D.expr c cond ∧ D.opens c ∧ D.block (D.inside c false []) yes ∧
      D.block (D.inside c false []) no
  | .forRange _ var _ start stop body => D.expr c start ∧ D.expr c stop ∧ D.opens c ∧
      D.block (D.inside c true [var]) body
  | .loop _ body => D.opens c ∧ D.block (D.inside c true []) body
  | .breakLoop _ => D.flow c .broke
  | .continueLoop _ => D.flow c .continued
  | .ret _ none => D.flow c (.returned none)
  | .ret _ (some value) => D.expr c value ∧ ∀ v, D.value v → D.flow c (.returned (some v))
  | .expr _ value => D.expr c value

/-- From code to its parts, and from results to those that come of them. -/
structure Lawful (D : Discipline Γ) : Prop where
  expr_parts : ∀ {c e}, D.expr c e → D.ExprParts c e
  args_parts : ∀ {c e es}, D.args c (e :: es) → D.expr c e ∧ D.args c es
  stmt_parts : ∀ {c s}, D.stmt c s → D.StatementParts c s
  block_parts : ∀ {c s ss}, D.block c (s :: ss) → D.stmt c s ∧ D.block (D.after c s) ss
  reads_of_assigns : ∀ {c pos name}, D.assigns c pos name → D.reads c pos name
  value_of_inRange : ∀ {v}, v.InRange → D.value v
  value_element : ∀ {element n} {items : Array Nat} {i : Nat}, D.value (.array element items) →
    items[i]? = some n → D.value (.scalar element n)
  flow_next : ∀ {c}, D.flow c .next
  flow_branch : ∀ {c names flow}, D.flow (D.inside c false names) flow → D.flow c flow
  flow_round : ∀ {c names v}, D.flow (D.inside c true names) (.returned v) →
    D.flow c (.returned v)
  flow_bind : ∀ {c name flow}, D.flow (D.bind c name) flow → D.flow c flow

variable {D c}

/-- Where nothing is asked of expressions, nothing is asked of their parts. -/
theorem exprParts_of_forall (hexpr : ∀ e, D.expr c e) (hargs : ∀ es, D.args c es)
    (hreads : ∀ pos name, D.reads c pos name) (hcalls : ∀ pos name, D.calls c pos name)
    (e : Expr) : D.ExprParts c e := by
  cases e with
  | literal pos value => trivial
  | ident pos name => exact hreads pos name
  | index pos offset array => exact ⟨hexpr offset, hreads pos array⟩
  | binary pos op left right => exact ⟨hexpr left, hexpr right⟩
  | call pos name args => exact ⟨hcalls pos name, hargs args⟩

variable (D c)

theorem after_cases (s : Statement) :
    D.after c s = c ∨ ∃ name, D.after c s = D.bind c name := by
  cases s with
  | letVar pos name ty value => exact .inr ⟨name, rfl⟩
  | _ => exact .inl rfl

variable {D c}

theorem Lawful.flow_after (h : D.Lawful) (s : Statement) {flow : Flow}
    (hflow : D.flow (D.after c s) flow) : D.flow c flow := by
  cases s with
  | letVar pos name ty value => exact h.flow_bind hflow
  | _ => exact hflow

/-- Any code may stand anywhere, and its values are of some kind. -/
def free (value : Value → Prop) (knows : Prop) : Discipline Unit where
  value := value
  flow _ flow := ∀ v, flow = .returned (some v) → value v
  knows := knows

theorem lawful_free {value : Value → Prop} {knows : Prop} (hvalue : ∀ v, v.InRange → value v)
    (helement : ∀ element (items : Array Nat) (i n : Nat), value (.array element items) →
      items[i]? = some n → value (.scalar element n)) : (free value knows).Lawful where
  expr_parts _ :=
    exprParts_of_forall (fun _ => trivial) (fun _ => trivial) (fun _ _ => trivial)
      (fun _ _ => trivial) _
  args_parts _ := ⟨trivial, trivial⟩
  stmt_parts {_ s} _ := by
    cases s with
    | assign pos op place value =>
      cases place with
      | var name => exact ⟨trivial, trivial⟩
      | elem offset array => exact ⟨⟨trivial, trivial⟩, trivial⟩
    | ifThen => exact ⟨trivial, trivial, trivial⟩
    | ifElse => exact ⟨trivial, trivial, trivial, trivial⟩
    | forRange => exact ⟨trivial, trivial, trivial, trivial⟩
    | loop => exact ⟨trivial, trivial⟩
    | breakLoop => exact nofun
    | continueLoop => exact nofun
    | ret pos value =>
      cases value with
      | none => exact nofun
      | some value =>
        refine ⟨trivial, fun v hv u hu => ?_⟩
        cases hu
        exact hv
    | _ => trivial
  block_parts _ := ⟨trivial, trivial⟩
  reads_of_assigns _ := trivial
  value_of_inRange := hvalue _
  value_element := helement _ _ _ _
  flow_next := nofun
  flow_branch h := h
  flow_round h := h
  flow_bind h := h

end Discipline

/-! ## Section 2: The code of two runs -/

/-- Two environments, and the code that the second one has for that of the first: places are
    moved, and a block may be any that is alike. -/
structure Pairing where
  env : Env
  env' : Env
  move : Position → Position
  alike : List Statement → List Statement → Prop

namespace Pairing

/-- The code of the second run is that of the first with its places moved. -/
def relocating (env env' : Env) (move : Position → Position) : Pairing :=
  ⟨env, env', move, fun ss ss' => ss' = Statement.relocateAll move ss⟩

/-- A run beside itself. -/
abbrev self (env : Env) : Pairing := relocating env env id

@[simp] theorem move_relocating (env env' : Env) (move : Position → Position) :
    (relocating env env' move).move = move := rfl

variable (P : Pairing)

/-- The second run has the functions of the first, with bodies that are alike. -/
def PairsFunctions : Prop :=
  ∀ name, Option.Rel (fun f f' => f'.params = f.params ∧ P.alike f.body f'.body)
    (P.env.functions.get? name) (P.env'.functions.get? name)

/-- What the second run may have for a statement. -/
def Counterpart : Statement → Statement → Prop
  | .ifThen pos cond yes, s' =>
    ∃ yes', s' = .ifThen (P.move pos) (cond.relocate P.move) yes' ∧ P.alike yes yes'
  | .ifElse pos cond yes no, s' =>
    ∃ yes' no', s' = .ifElse (P.move pos) (cond.relocate P.move) yes' no' ∧
      P.alike yes yes' ∧ P.alike no no'
  | .forRange pos var ty start stop body, s' =>
    ∃ body', s' = .forRange (P.move pos) var ty (start.relocate P.move) (stop.relocate P.move)
      body' ∧ P.alike body body'
  | .loop pos body, s' => ∃ body', s' = .loop (P.move pos) body' ∧ P.alike body body'
  | s, s' => s' = s.relocate P.move

variable {P}

theorem Counterpart.pos_eq {s s' : Statement} (h : P.Counterpart s s') :
    s'.pos = P.move s.pos := by
  cases s with
  | ifThen pos cond yes => obtain ⟨yes', rfl, -⟩ := h; rfl
  | ifElse pos cond yes no => obtain ⟨yes', no', rfl, -⟩ := h; rfl
  | forRange pos var ty start stop body => obtain ⟨body', rfl, -⟩ := h; rfl
  | loop pos body => obtain ⟨body', rfl, -⟩ := h; rfl
  | _ => rw [show _ = _ from h, Statement.pos_relocate]

/-- A statement may stand for itself. -/
theorem counterpart_refl (hmove : P.move = id) (halike : ∀ ss, P.alike ss ss) (s : Statement) :
    P.Counterpart s s := by
  cases s with
  | ifThen pos cond yes => exact ⟨yes, by rw [hmove, cond.relocate_id, id], halike yes⟩
  | ifElse pos cond yes no =>
    exact ⟨yes, no, by rw [hmove, cond.relocate_id, id], halike yes, halike no⟩
  | forRange pos var ty start stop body =>
    exact ⟨body, by rw [hmove, start.relocate_id, stop.relocate_id, id], halike body⟩
  | loop pos body => exact ⟨body, by rw [hmove, id], halike body⟩
  | _ =>
    show _ = Statement.relocate P.move _
    rw [hmove, Statement.relocate_id]

theorem alike_relocateAll {env env' : Env} {move : Position → Position} (ss : List Statement) :
    (relocating env env' move).alike ss (Statement.relocateAll move ss) := rfl

theorem counterpart_relocate {env env' : Env} {move : Position → Position} (s : Statement) :
    (relocating env env' move).Counterpart s (s.relocate move) := by
  cases s with
  | ifThen pos cond yes => exact ⟨_, rfl, rfl⟩
  | ifElse pos cond yes no => exact ⟨_, _, rfl, rfl, rfl⟩
  | forRange pos var ty start stop body => exact ⟨_, rfl, rfl⟩
  | loop pos body => exact ⟨_, rfl, rfl⟩
  | _ => rfl

theorem pairsFunctions_self (env : Env) : (self env).PairsFunctions := by
  intro name
  show Option.Rel _ (env.functions.get? name) (env.functions.get? name)
  cases env.functions.get? name with
  | none => exact .none
  | some f => exact .some ⟨rfl, (Statement.relocateAll_id f.body).symm⟩

end Pairing

/-! ## Section 3: Judgments and their rules -/

/-- `J fuel c x y V c'` is said of `x` and of what `y` is with any fuel, from the context `c` to
    the context `c'`, with results in `V`. -/
abbrev Judgment (Γ : Type) : Type 1 :=
  Nat → Γ → {α : Type} → Exec α → (Nat → Exec α) → (α → Prop) → Γ → Prop

/-- How a judgment follows for a computation from its parts, assignments apart.  Statements,
    scopes, calls and panics come as wholes, as what they do together matters. -/
structure Rules {Γ : Type} (D : Discipline Γ) (P : Pairing) (J : Judgment Γ) : Prop where
  lawful : D.Lawful
  functions : P.PairsFunctions
  pure : ∀ {n c} {α : Type} {V : α → Prop} {a : α}, (D.knows → V a) →
    J n c (Pure.pure a) (fun _ => Pure.pure a) V c
  fail : ∀ {n c} {α : Type} {V : α → Prop} (pos : Position) {cause : RuntimeCause},
    cause.isAboutValue = true → J n c (fail pos cause) (fun _ => fail (P.move pos) cause) V c
  outOfFuel : ∀ {c c'} {α : Type} {V : α → Prop} {y : Nat → Exec α},
    c' = c ∨ (∃ name, c' = D.bind c name) → y 0 = outOfFuel → J 0 c outOfFuel y V c'
  /-- One more of fuel for both. -/
  succ : ∀ {n c c'} {α : Type} {V : α → Prop} {x : Exec α} {y : Nat → Exec α},
    J n c x (fun k => y (k + 1)) V c' → J (n + 1) c x y V c'
  bind : ∀ {n c c₁ c₂} {α β : Type} [Nonempty α] {V : α → Prop} {W : β → Prop} {x : Exec α}
    {y : Nat → Exec α} {f : α → Exec β} {g : Nat → α → Exec β}, J n c x y V c₁ →
    (∀ a, (D.knows → V a) → J n c₁ (f a) (fun k => g k a) W c₂) →
    J n c (x >>= f) (fun k => y k >>= g k) W c₂
  weaken : ∀ {n c c'} {α : Type} {V W : α → Prop} {x : Exec α} {y : Nat → Exec α},
    J n c x y V c' → (∀ a, V a → W a) → J n c x y W c'
  /-- At the end of a block, a name that was bound in it is no longer needed. -/
  forget : ∀ {n c c'} {α : Type} {V : α → Prop} {x : Exec α} {y : Nat → Exec α} {name : String},
    J n c x y V (D.bind c' name) → J n c x y V c'
  read : ∀ {n c} (pos : Position) (name : String), D.reads c pos name →
    J n c (read pos name) (fun _ => read (P.move pos) name) D.value c
  operandHints : ∀ {n c} (op : BinOp) (left right : Expr) (hint : Option Width),
    J n c (reads (operandHints P.env op left right hint))
      (fun _ => reads (operandHints P.env' op (left.relocate P.move) (right.relocate P.move) hint))
      (fun _ => True) c
  returnHint : ∀ {n c}, J n c (reads returnHint) (fun _ => reads returnHint) (fun _ => True) c
  applyOp : ∀ {n c} (pos : Position) (symbol : String) (op : BinOp) (w : Width) (a b : Nat),
    J n c (applyOp pos symbol op w a b P.env.config.overflow)
      (fun _ => applyOp (P.move pos) symbol op w a b P.env'.config.overflow) D.value c
  declare : ∀ {n c pos name ty value} {v : Value}, D.stmt c (.letVar pos name ty value) →
    (D.knows → D.value v) → J n c (modify fun m => m.declare name v)
      (fun _ => modify fun m => m.declare name v) (fun _ => True) (D.bind c name)
  inScope : ∀ {n c loop names} {α : Type} {V : α → Prop} {x : Exec α} {y : Nat → Exec α}
    (scope : NameMap Value), D.opens c → names ⊆ scope.keys →
    (∀ name v, scope.get? name = some v → D.value v) →
    J n (D.inside c loop names) x y V (D.inside c loop names) →
    J n c (inScope scope x) (fun k => inScope scope (y k)) V c
  enterStatement : ∀ {n c} (pos : Position),
    J n c (enterStatement pos) (fun _ => enterStatement (P.move pos)) (fun _ => True) c
  runPanic : ∀ {n c} {V : Flow → Prop} (pos : Position),
    J n c (runPanic pos) (fun _ => runPanic (P.move pos)) V c
  noFunction : ∀ {n c pos name} {V : Option Value → Prop}, D.calls c pos name →
    P.env.functions.get? name = none →
    J n c (Exec.fail pos (.unresolved name)) (fun _ => Exec.fail (P.move pos) (.unresolved name))
      V c
  callWith : ∀ {n c pos name} {f f' : Function} (args : List Expr) (values : List Value),
    D.calls c pos name → P.env.functions.get? name = some f →
    P.env'.functions.get? name = some f' →
    (D.knows → values.length = args.length ∧ ∀ v ∈ values, D.value v) →
    (∀ c₁, D.block c₁ f.body → J n c₁ (runBlock P.env n f.body)
      (fun k => runBlock P.env' k f'.body) (D.flow c₁) c₁) →
    J n c (callWith P.env pos f args values (runBlock P.env n f.body))
      (fun k => callWith P.env' (P.move pos) f' (Expr.relocateAll P.move args) values
        (runBlock P.env' k f'.body))
      (fun result => ∀ v, result = some v → D.value v) c

/-! ## Section 4: The parts of the semantics that do not call each other -/

namespace Rules

variable {Γ : Type} {D : Discipline Γ} {P : Pairing} {J : Judgment Γ} {n : Nat} {c : Γ}
variable (R : Rules D P J)

include R

theorem scalar (pos : Position) (v : Value) :
    J n c (scalar pos v) (fun _ => Exec.scalar (P.move pos) v) (fun _ => True) c := by
  cases v with
  | scalar w k => exact R.pure (fun _ => trivial)
  | array element items => exact R.fail pos rfl

theorem wordOf (pos : Position) (w : Width) (v : Value) :
    J n c (wordOf pos w v) (fun _ => Exec.wordOf (P.move pos) w v) (fun _ => True) c := by
  apply R.bind (R.scalar pos v)
  intro word _
  obtain ⟨found, k⟩ := word
  by_cases hfound : found = w
  · simp only [hfound, if_true]
    exact R.pure (fun _ => trivial)
  · simp only [hfound, if_false]
    exact R.fail pos rfl

theorem expectType (pos : Position) (ty : Ty) (v : Value) :
    J n c (expectType pos ty v) (fun _ => Exec.expectType (P.move pos) ty v)
      (fun _ => True) c := by
  unfold Exec.expectType
  split
  · exact R.pure (fun _ => trivial)
  · exact R.fail pos rfl

theorem literal (pos : Position) (value : Nat) (w : Width) :
    J n c (literal pos value w) (fun _ => Exec.literal (P.move pos) value w) D.value c := by
  unfold Exec.literal
  cases hv : Value.ofNat w value with
  | ok v => exact R.pure (fun _ => R.lawful.value_of_inRange (Value.inRange_of_ofNat hv))
  | error fault => exact R.fail pos rfl

theorem readElement (pos : Position) (array : String) (i : Nat) (h : D.reads c pos array) :
    J n c (readElement pos array i) (fun _ => Exec.readElement (P.move pos) array i)
      D.value c := by
  apply R.bind (R.read pos array h)
  intro v hv
  cases v with
  | scalar w k => exact R.fail pos rfl
  | array element items =>
    dsimp only
    cases hitem : items[i]? with
    | none => exact R.fail pos rfl
    | some k => exact R.pure (fun hknows => R.lawful.value_element (hv hknows) hitem)

theorem target (pos : Position) (name : String) (index : Option Nat) (h : D.reads c pos name) :
    J n c (target pos name index) (fun _ => Exec.target (P.move pos) name index)
      (fun _ => True) c := by
  cases index with
  | none => exact R.bind (R.read pos name h) (fun v _ => R.pure (fun _ => trivial))
  | some i => exact R.bind (R.readElement pos name i h) (fun v _ => R.pure (fun _ => trivial))

theorem runBlock_nil : J (n + 1) c (runBlock P.env (n + 1) [])
    (fun k => WordLang.runBlock P.env' k []) (D.flow c) c := by
  apply R.succ
  simp only [WordLang.runBlock]
  exact R.pure (fun _ => R.lawful.flow_next)

/-- After a statement that was the last use of a name. -/
theorem forget_after {c' : Γ} (s : Statement) {α : Type} {V : α → Prop} {x : Exec α}
    {y : Nat → Exec α} (h : J n c' x y V (D.after c s)) : J n c' x y V c := by
  cases s with
  | letVar pos name ty value => exact R.forget h
  | _ => exact h

end Rules

/-! ## Section 5: The parts that call each other -/

/-- The judgment for all parts of the semantics, when the first run has this fuel. -/
structure Parts {Γ : Type} (D : Discipline Γ) (P : Pairing) (J : Judgment Γ) (n : Nat) :
    Prop where
  eval : ∀ {c} e hint, D.expr c e → J n c (eval P.env n e hint)
    (fun k => eval P.env' k (e.relocate P.move) hint) D.value c
  evalArgs : ∀ {c} ps es, D.args c es → J n c (evalArgs P.env n ps es)
    (fun k => evalArgs P.env' k ps (Expr.relocateAll P.move es))
    (fun vs => vs.length = es.length ∧ ∀ v ∈ vs, D.value v) c
  call : ∀ {c} pos name args, D.calls c pos name → D.args c args →
    J n c (call P.env n pos name args)
      (fun k => call P.env' k (P.move pos) name (Expr.relocateAll P.move args))
      (fun result => ∀ v, result = some v → D.value v) c
  runBlock : ∀ {c ss ss'}, P.alike ss ss' → D.block c ss →
    J n c (runBlock P.env n ss) (fun k => runBlock P.env' k ss') (D.flow c) c
  runStatement : ∀ {c s s'}, P.Counterpart s s' → D.stmt c s →
    J n c (runStatement P.env n s) (fun k => runStatement P.env' k s') (D.flow c) (D.after c s)
  runAssign : ∀ {c} pos op place value, D.stmt c (.assign pos op place value) →
    J n c (runAssign P.env n pos op place value)
      (fun k => runAssign P.env' k (P.move pos) op (place.relocate P.move) (value.relocate P.move))
      (D.flow c) c
  runFor : ∀ {c body body'} var w i stop, P.alike body body' → D.opens c →
    D.block (D.inside c true [var]) body →
    J n c (runFor P.env n var w i stop body) (fun k => runFor P.env' k var w i stop body')
      (D.flow c) c
  runLoop : ∀ {c body body'}, P.alike body body' → D.opens c →
    D.block (D.inside c true []) body →
    J n c (runLoop P.env n body) (fun k => runLoop P.env' k body') (D.flow c) c

namespace Parts

variable {Γ : Type} {D : Discipline Γ} {P : Pairing} {J : Judgment Γ} {n : Nat} {c c' : Γ}
variable (ih : Parts D P J n) (R : Rules D P J)

include ih R

/-- An expression that has to be a word. -/
theorem scalar (e : Expr) (hint : Option Width) (he : D.expr c e) {β : Type} {V : β → Prop}
    {f : Width × Nat → Exec β} {g : Nat → Width × Nat → Exec β}
    (hf : ∀ word, J n c (f word) (fun k => g k word) V c') :
    J n c (WordLang.eval P.env n e hint >>= fun v => Exec.scalar e.pos v >>= f)
      (fun k => WordLang.eval P.env' k (e.relocate P.move) hint >>= fun v =>
        Exec.scalar (e.relocate P.move).pos v >>= g k) V c' := by
  rw [e.pos_relocate]
  apply R.bind (ih.eval e hint he)
  intro v _
  exact R.bind (R.scalar e.pos v) (fun word _ => hf word)

/-- An expression that has to be a word of this width. -/
theorem wordOf (e : Expr) (hint : Option Width) (w : Width) (he : D.expr c e) {β : Type}
    {V : β → Prop} {f : Nat → Exec β} {g : Nat → Nat → Exec β}
    (hf : ∀ i, J n c (f i) (fun k => g k i) V c') :
    J n c (WordLang.eval P.env n e hint >>= fun v => Exec.wordOf e.pos w v >>= f)
      (fun k => WordLang.eval P.env' k (e.relocate P.move) hint >>= fun v =>
        Exec.wordOf (e.relocate P.move).pos w v >>= g k) V c' := by
  rw [e.pos_relocate]
  apply R.bind (ih.eval e hint he)
  intro v _
  exact R.bind (R.wordOf e.pos w v) (fun i _ => hf i)

theorem eval_succ (e : Expr) (hint : Option Width) (he : D.expr c e) :
    J (n + 1) c (WordLang.eval P.env (n + 1) e hint)
      (fun k => WordLang.eval P.env' k (e.relocate P.move) hint) D.value c := by
  have hparts := R.lawful.expr_parts he
  apply R.succ
  cases e with
  | literal pos value =>
    simp only [Expr.relocate, WordLang.eval]
    exact R.literal pos value _
  | ident pos name =>
    simp only [Expr.relocate, WordLang.eval]
    exact R.read pos name hparts
  | index pos offset array =>
    obtain ⟨hoffset, harray⟩ := hparts
    simp only [Expr.relocate, WordLang.eval]
    exact ih.scalar R offset _ hoffset (fun word => R.readElement pos array _ harray)
  | binary pos op left right =>
    obtain ⟨hleft, hright⟩ := hparts
    simp only [Expr.relocate, WordLang.eval]
    split
    -- the logical operators take words of any width
    · exact ih.scalar R left _ hleft (fun a => ih.scalar R right _ hright (fun b =>
        R.pure (fun _ => R.lawful.value_of_inRange (Value.inRange_wrapped _ _))))
    · apply R.bind (R.operandHints op left right hint)
      intro hints _
      exact ih.scalar R left _ hleft (fun word => ih.wordOf R right _ _ hright (fun b =>
        R.applyOp pos op.symbol op _ _ b))
  | call pos name args =>
    obtain ⟨hcalls, hargs⟩ := hparts
    simp only [Expr.relocate, WordLang.eval]
    apply R.bind (ih.call pos name args hcalls hargs)
    intro result hresult
    cases result with
    | none => exact R.fail pos rfl
    | some v => exact R.pure (fun hknows => hresult hknows v rfl)

theorem evalArgs_succ (ps : List Param) (es : List Expr) (hes : D.args c es) :
    J (n + 1) c (WordLang.evalArgs P.env (n + 1) ps es)
      (fun k => WordLang.evalArgs P.env' k ps (Expr.relocateAll P.move es))
      (fun vs => vs.length = es.length ∧ ∀ v ∈ vs, D.value v) c := by
  apply R.succ
  cases es with
  | nil =>
    simp only [Expr.relocateAll, WordLang.evalArgs]
    exact R.pure (fun _ => ⟨rfl, fun v hv => nomatch hv⟩)
  | cons e rest =>
    obtain ⟨he, hrest⟩ := R.lawful.args_parts hes
    simp only [Expr.relocateAll, WordLang.evalArgs]
    apply R.bind (ih.eval e _ he)
    intro v hv
    apply R.bind (ih.evalArgs ps.tail rest hrest)
    intro vs hvs
    apply R.pure
    intro hknows
    obtain ⟨hlength, hall⟩ := hvs hknows
    refine ⟨congrArg (· + 1) hlength, fun u hu => ?_⟩
    rcases List.mem_cons.mp hu with rfl | hu
    · exact hv hknows
    · exact hall u hu

theorem call_succ (pos : Position) (name : String) (args : List Expr)
    (hcalls : D.calls c pos name) (hargs : D.args c args) :
    J (n + 1) c (WordLang.call P.env (n + 1) pos name args)
      (fun k => WordLang.call P.env' k (P.move pos) name (Expr.relocateAll P.move args))
      (fun result => ∀ v, result = some v → D.value v) c := by
  apply R.succ
  simp only [WordLang.call]
  -- one run has a function of this name just if the other one has
  have hfunctions := R.functions name
  cases hf : P.env.functions.get? name with
  | none =>
    rw [hf] at hfunctions
    cases hf' : P.env'.functions.get? name with
    | none => exact R.noFunction hcalls hf
    | some f' => rw [hf'] at hfunctions; cases hfunctions
  | some f =>
    rw [hf] at hfunctions
    cases hf' : P.env'.functions.get? name with
    | none => rw [hf'] at hfunctions; cases hfunctions
    | some f' =>
      rw [hf'] at hfunctions
      obtain ⟨hparams, hbodies⟩ : f'.params = f.params ∧ P.alike f.body f'.body := by
        cases hfunctions; assumption
      dsimp only
      rw [hparams]
      apply R.bind (ih.evalArgs f.params args hargs)
      intro values hvalues
      exact R.callWith args values hcalls hf hf' hvalues (fun _ => ih.runBlock hbodies)

theorem runBlock_cons {s s' : Statement} {rest rest' : List Statement}
    (hs : P.Counterpart s s') (hrest : P.alike rest rest') (hss : D.block c (s :: rest)) :
    J (n + 1) c (WordLang.runBlock P.env (n + 1) (s :: rest))
      (fun k => WordLang.runBlock P.env' k (s' :: rest')) (D.flow c) c := by
  obtain ⟨hfirst, hafter⟩ := R.lawful.block_parts hss
  apply R.succ
  simp only [WordLang.runBlock]
  apply R.bind (ih.runStatement hs hfirst)
  intro flow hflow
  -- the rest stands in the context after the statement, the block as a whole does not
  apply R.forget_after s
  cases flow with
  | next => exact R.weaken (ih.runBlock hrest hafter) (fun _ => R.lawful.flow_after s)
  | broke => exact R.pure hflow
  | continued => exact R.pure hflow
  | returned v => exact R.pure hflow

/-- A branch of an `if`. -/
theorem branch {ss ss' : List Statement} (hss : P.alike ss ss') (hopens : D.opens c)
    (hblock : D.block (D.inside c false []) ss) :
    J n c (inScope .empty (WordLang.runBlock P.env n ss))
      (fun k => inScope .empty (WordLang.runBlock P.env' k ss')) (D.flow c) c := by
  apply R.inScope .empty hopens (List.nil_subset _) (fun _ _ h => nomatch h)
  exact R.weaken (ih.runBlock hss hblock) (fun _ => R.lawful.flow_branch)

theorem runStatement_succ {s s' : Statement} (hs : P.Counterpart s s') (hstmt : D.stmt c s) :
    J (n + 1) c (WordLang.runStatement P.env (n + 1) s)
      (fun k => WordLang.runStatement P.env' k s') (D.flow c) (D.after c s) := by
  have hparts := R.lawful.stmt_parts hstmt
  have hpos := hs.pos_eq
  have hnext : D.knows → D.flow c .next := fun _ => R.lawful.flow_next
  apply R.succ
  simp only [WordLang.runStatement.eq_def]
  rw [hpos]
  apply R.bind (R.enterStatement s.pos)
  intro _ _
  cases s with
  | letVar pos name ty value =>
    cases hs
    apply R.bind (ih.eval value _ hparts)
    intro v hv
    apply R.bind (R.expectType pos ty v)
    intro _ _
    exact R.bind (R.declare hstmt hv) (fun _ _ => R.pure hnext)
  | static decl =>
    cases hs
    exact R.pure hnext
  | assign pos op place value =>
    cases hs
    exact ih.runAssign pos op place value hstmt
  | ifThen pos cond yes =>
    obtain ⟨yes', rfl, hyes⟩ := hs
    obtain ⟨hcond, hopens, hblock⟩ := hparts
    apply ih.scalar R cond none hcond
    intro word
    split
    · exact ih.branch R hyes hopens hblock
    · exact R.pure hnext
  | ifElse pos cond yes no =>
    obtain ⟨yes', no', rfl, hyes, hno⟩ := hs
    obtain ⟨hcond, hopens, hyesBlock, hnoBlock⟩ := hparts
    apply ih.scalar R cond none hcond
    intro word
    split
    · exact ih.branch R hyes hopens hyesBlock
    · exact ih.branch R hno hopens hnoBlock
  | forRange pos var ty start stop body =>
    obtain ⟨body', rfl, hbody⟩ := hs
    obtain ⟨hstart, hstop, hopens, hblock⟩ := hparts
    apply ih.wordOf R start _ _ hstart
    intro first
    apply ih.wordOf R stop _ _ hstop
    intro past
    exact ih.runFor var ty.width first past hbody hopens hblock
  | loop pos body =>
    obtain ⟨body', rfl, hbody⟩ := hs
    exact ih.runLoop hbody hparts.1 hparts.2
  | breakLoop pos =>
    cases hs
    exact R.pure (fun _ => hparts)
  | continueLoop pos =>
    cases hs
    exact R.pure (fun _ => hparts)
  | ret pos value =>
    cases hs
    cases value with
    | none => exact R.pure (fun _ => hparts)
    | some value =>
      apply R.bind R.returnHint
      intro hint _
      apply R.bind (ih.eval value hint hparts.1)
      intro v hv
      exact R.pure (fun hknows => hparts.2 v (hv hknows))
  | panic pos =>
    cases hs
    exact R.runPanic pos
  | expr pos value =>
    cases hs
    cases value with
    | call callPos name args =>
      obtain ⟨hcalls, hargs⟩ := R.lawful.expr_parts hparts
      exact R.bind (ih.call callPos name args hcalls hargs) (fun _ _ => R.pure hnext)
    | _ => exact R.bind (ih.eval _ none hparts) (fun _ _ => R.pure hnext)

theorem runFor_succ {body body' : List Statement} (var : String) (w : Width) (i stop : Nat)
    (hbody : P.alike body body') (hopens : D.opens c)
    (hblock : D.block (D.inside c true [var]) body) :
    J (n + 1) c (WordLang.runFor P.env (n + 1) var w i stop body)
      (fun k => WordLang.runFor P.env' k var w i stop body') (D.flow c) c := by
  -- each round has a scope of its own, with the variable of the loop in it
  have hnames : [var] ⊆ (NameMap.singleton var (Value.wrapped w i)).keys := by
    rw [NameMap.keys_singleton]
    exact fun _ h => h
  have hvalue : ∀ name v, (NameMap.singleton var (Value.wrapped w i)).get? name = some v →
      D.value v := by
    intro name v hv
    rw [NameMap.eq_of_get?_singleton hv]
    exact R.lawful.value_of_inRange (Value.inRange_wrapped w i)
  apply R.succ
  simp only [WordLang.runFor]
  split
  · apply R.bind (R.inScope _ hopens hnames hvalue (ih.runBlock hbody hblock))
    intro flow hflow
    cases flow with
    | next => exact ih.runFor var w _ stop hbody hopens hblock
    | broke => exact R.pure (fun _ => R.lawful.flow_next)
    | continued => exact ih.runFor var w _ stop hbody hopens hblock
    | returned v => exact R.pure (fun hknows => R.lawful.flow_round (hflow hknows))
  · exact R.pure (fun _ => R.lawful.flow_next)

theorem runLoop_succ {body body' : List Statement} (hbody : P.alike body body')
    (hopens : D.opens c) (hblock : D.block (D.inside c true []) body) :
    J (n + 1) c (WordLang.runLoop P.env (n + 1) body)
      (fun k => WordLang.runLoop P.env' k body') (D.flow c) c := by
  apply R.succ
  simp only [WordLang.runLoop]
  apply R.bind (R.inScope .empty hopens (List.nil_subset _) (fun _ _ h => nomatch h)
    (ih.runBlock hbody hblock))
  intro flow hflow
  cases flow with
  | next => exact ih.runLoop hbody hopens hblock
  | broke => exact R.pure (fun _ => R.lawful.flow_next)
  | continued => exact ih.runLoop hbody hopens hblock
  | returned v => exact R.pure (fun hknows => R.lawful.flow_round (hflow hknows))

end Parts

namespace Rules

variable {Γ : Type} {D : Discipline Γ} {P : Pairing} {J : Judgment Γ}

/-- Whatever the fuel, the judgment holds for every part of the semantics, if it does so for blocks
    and assignments as soon as it does for what they are made of. -/
theorem parts (R : Rules D P J)
    (hblock : ∀ n, Parts D P J n → ∀ {c ss ss'}, P.alike ss ss' → D.block c ss →
      J (n + 1) c (runBlock P.env (n + 1) ss) (fun k => runBlock P.env' k ss') (D.flow c) c)
    (hassign : ∀ n, Parts D P J n → ∀ {c} pos op place value,
      D.stmt c (.assign pos op place value) →
      J (n + 1) c (runAssign P.env (n + 1) pos op place value)
        (fun k => runAssign P.env' k (P.move pos) op (place.relocate P.move)
          (value.relocate P.move)) (D.flow c) c)
    (n : Nat) : Parts D P J n := by
  induction n with
  | zero =>
    constructor
    -- only a statement may end in another context than it starts in
    case runStatement =>
      intro c s s' hs hstmt
      simp only [runStatement]
      exact R.outOfFuel (D.after_cases c s) (by simp only [runStatement])
    all_goals
      intros
      simp only [eval, evalArgs, call, runBlock, runAssign, runFor, runLoop]
      refine R.outOfFuel (.inl rfl) ?_
      simp only [eval, evalArgs, call, runBlock, runAssign, runFor, runLoop]
  | succ n ih =>
    exact ⟨ih.eval_succ R, ih.evalArgs_succ R, ih.call_succ R, hblock n ih, ih.runStatement_succ R,
      hassign n ih, ih.runFor_succ R, ih.runLoop_succ R⟩

/-- A run of the top level, if there is a rule for a `return` there. -/
theorem runTopLevel (R : Rules D P J) (hparts : ∀ n, Parts D P J n)
    (hreturn : ∀ n c pos, J n c (modify fun m => m.emit (.topLevelReturn pos))
      (fun _ => modify fun m => m.emit (.topLevelReturn (P.move pos))) (fun _ => True) c)
    (hself : ∀ s, P.Counterpart s (s.relocate P.move)) (n : Nat) {c : Γ} (ss : List Statement)
    (h : D.block c ss) :
    J n c (runTopLevel P.env n ss)
      (fun k => WordLang.runTopLevel P.env' k (Statement.relocateAll P.move ss))
      (fun _ => True) c := by
  induction n generalizing c ss with
  | zero =>
    simp only [WordLang.runTopLevel]
    exact R.outOfFuel (.inl rfl) (by simp only [WordLang.runTopLevel])
  | succ n ih =>
    apply R.succ
    cases ss with
    | nil =>
      simp only [Statement.relocateAll, WordLang.runTopLevel]
      exact R.pure (fun _ => trivial)
    | cons s rest =>
      obtain ⟨hs, hrest⟩ := R.lawful.block_parts h
      simp only [Statement.relocateAll, WordLang.runTopLevel, Statement.pos_relocate]
      apply R.bind ((hparts n).runStatement (hself s) hs)
      intro flow _
      apply R.forget_after s
      cases flow with
      | returned v => exact hreturn n _ s.pos
      | next => exact ih rest hrest
      | broke => exact ih rest hrest
      | continued => exact ih rest hrest

end Rules

/-! ## Section 6: Blocks and assignments as such -/

/-- Rules that leave nothing out. -/
structure FullRules {Γ : Type} (D : Discipline Γ) (P : Pairing) (J : Judgment Γ) : Prop
    extends Rules D P J where
  update : ∀ {n c} (pos : Position) (name : String) (f : Value → Value), D.assigns c pos name →
    J n c (update pos name f) (fun _ => update (P.move pos) name f) (fun _ => True) c

theorem FullRules.store {Γ : Type} {D : Discipline Γ} {P : Pairing} {J : Judgment Γ} {n : Nat}
    {c : Γ} (R : FullRules D P J) (pos : Position) (name : String) (index : Option Nat)
    (v : Value) (h : D.assigns c pos name) :
    J n c (store pos name index v) (fun _ => Exec.store (P.move pos) name index v)
      (fun _ => True) c := by
  unfold Exec.store
  split
  · exact R.update pos name _ h
  · exact R.update pos name _ h
  · exact R.bind (R.update pos name _ h) (fun _ _ => R.fail pos rfl)

/-- An assignment, if there is a rule for writing to a cell. -/
theorem Parts.runAssign_succ {Γ : Type} {D : Discipline Γ} {P : Pairing} {J : Judgment Γ}
    {n : Nat} {c : Γ} (ih : Parts D P J n) (R : FullRules D P J) (pos : Position) (op : AssignOp)
    (place : Place) (value : Expr) (h : D.stmt c (.assign pos op place value)) :
    J (n + 1) c (WordLang.runAssign P.env (n + 1) pos op place value)
      (fun k => WordLang.runAssign P.env' k (P.move pos) op (place.relocate P.move)
        (value.relocate P.move)) (D.flow c) c := by
  obtain ⟨hplace, hvalue⟩ := R.lawful.stmt_parts h
  -- whatever the place, it is a name that is written to in the end
  have htarget : D.assigns c pos place.name := by
    cases place with
    | var name => exact hplace
    | elem offset array => exact hplace.2
  have hnext : D.knows → D.flow c .next := fun _ => R.lawful.flow_next
  apply R.succ
  simp only [WordLang.runAssign.eq_def, Place.name_relocate]
  apply R.bind (V := fun _ => True)
  · cases place with
    | var name => exact R.pure (fun _ => trivial)
    | elem offset array =>
      exact ih.scalar R.toRules offset _ hplace.1 (fun _ => R.pure (fun _ => trivial))
  · intro index _
    apply R.bind (R.target pos place.name index (R.lawful.reads_of_assigns htarget))
    intro there _
    split
    · apply R.bind (ih.eval value _ hvalue)
      intro v _
      rw [value.pos_relocate]
      apply R.bind (R.expectType value.pos there.ty v)
      intro _ _
      exact R.bind (R.store pos place.name index v htarget) (fun _ _ => R.pure hnext)
    · apply ih.wordOf R.toRules value _ _ hvalue
      intro n
      apply R.bind (R.applyOp pos op.symbol _ _ _ n)
      intro v _
      exact R.bind (R.store pos place.name index v htarget) (fun _ _ => R.pure hnext)
    · exact R.fail pos rfl

section relocating

variable {Γ : Type} {D : Discipline Γ} {env env' : Env} {move : Position → Position}
variable {J : Judgment Γ}

theorem Parts.runBlock_relocating {n : Nat} {c : Γ} (ih : Parts D (.relocating env env' move) J n)
    (R : Rules D (.relocating env env' move) J) {ss ss' : List Statement}
    (hss : ss' = Statement.relocateAll move ss) (h : D.block c ss) :
    J (n + 1) c (WordLang.runBlock env (n + 1) ss) (fun k => WordLang.runBlock env' k ss')
      (D.flow c) c := by
  subst hss
  cases ss with
  | nil => exact R.runBlock_nil
  | cons s rest =>
    exact ih.runBlock_cons R (Pairing.counterpart_relocate s) (Pairing.alike_relocateAll rest) h

/-- Whatever the fuel, the judgment holds for code and the same code at other places, if it does so
    for assignments. -/
theorem Rules.parts_of_assign (R : Rules D (.relocating env env' move) J)
    (hassign : ∀ n, Parts D (.relocating env env' move) J n → ∀ {c} pos op place value,
      D.stmt c (.assign pos op place value) →
      J (n + 1) c (runAssign env (n + 1) pos op place value)
        (fun k => runAssign env' k (move pos) op (place.relocate move) (value.relocate move))
        (D.flow c) c)
    (n : Nat) : Parts D (.relocating env env' move) J n :=
  R.parts (fun _ ih {_ _ _} hss h => ih.runBlock_relocating R hss h) hassign n

/-- Whatever the fuel, the judgment holds for code and the same code at other places. -/
theorem FullRules.parts (R : FullRules D (.relocating env env' move) J) (n : Nat) :
    Parts D (.relocating env env' move) J n :=
  R.parts_of_assign (fun _ ih {_} => ih.runAssign_succ R) n

end relocating

end WordLang
