import WordLang.Proofs.Declared
import WordLang.Proofs.Judgment

/-! # Properties that computations inherit from their parts

    Some properties of a computation hold as soon as they hold of all the
    parts it is built from, whatever the program is.  `Composite` lists the
    ways in which the semantics builds computations, assignments apart: a
    property has to be shown for each of them once.  `Inherited` adds the one
    for assignments, which most properties need not look at as wholes.

    A property may depend on the code that runs in the current frame.  It is
    given as a set `T` that all its statements are in; a call goes on with the
    statements of the function that is called.  Most properties ignore it.

    Such a property is a judgment of the single run, and `Composite.parts`
    and `Inherited.parts` give it for all eight functions that call each
    other. -/

namespace WordLang

open Exec
open Statement (flatBlock)

/-- Whether a failure was asked for by the program. -/
def RuntimeCause.isPanic : RuntimeCause → Bool
  | .explicitPanic _ => true
  | _ => false

/-- Failures that are neither asked for nor left to the end of a call. -/
def RuntimeCause.isOrdinary : RuntimeCause → Bool
  | .explicitPanic _ | .missingReturn _ => false
  | _ => true

theorem RuntimeCause.isPanic_of_isOrdinary {cause : RuntimeCause}
    (h : cause.isOrdinary = true) : cause.isPanic = false := by
  cases cause with
  | explicitPanic function => cases h
  | _ => rfl

/-! ## Section 1: What computations ask of the machine -/

/-- A function without its body, which is all that is looked at while the function runs. -/
def Function.header (f : Function) : Function := { f with body := [] }

/-- A frame with the header of its function. -/
def Frame.header (fr : Frame) : Frame := ⟨fr.function.map Function.header, fr.scopes⟩

/-- What is asked concerns the store, the current frame and the number of active calls only, and of
    the function that runs only its header. -/
def Local {α : Type} (f : Machine → α) : Prop :=
  ∀ m m' : Machine, m'.store = m.store → m'.frame?.map Frame.header = m.frame?.map Frame.header →
    m'.depth = m.depth → f m' = f m

section

variable {m m' : Machine}

theorem Machine.function?_congr (h : m'.frame?.map Frame.header = m.frame?.map Frame.header) :
    m'.function?.map Function.header = m.function?.map Function.header := by
  have hheader : ∀ n : Machine, n.function?.map Function.header =
      (n.frame?.map Frame.header).bind Frame.function := by
    intro n
    unfold function?
    cases n.frame? <;> rfl
  rw [hheader, hheader, h]

theorem Machine.functionName?_congr (h : m'.frame?.map Frame.header = m.frame?.map Frame.header) :
    m'.functionName? = m.functionName? := by
  have hname : ∀ n : Machine,
      n.functionName? = (n.function?.map Function.header).map Function.name := by
    intro n
    unfold functionName?
    cases n.function? <;> rfl
  rw [hname, hname, function?_congr h]

theorem Machine.bind_scopes_congr (h : m'.frame?.map Frame.header = m.frame?.map Frame.header)
    {α : Type} (φ : List (NameMap Value) → Option α) :
    m'.frame?.bind (fun fr => φ fr.scopes) = m.frame?.bind (fun fr => φ fr.scopes) := by
  have hscopes : ∀ n : Machine, n.frame?.bind (fun fr => φ fr.scopes) =
      (n.frame?.map Frame.header).bind (fun fr => φ fr.scopes) := by
    intro n
    cases n.frame? <;> rfl
  rw [hscopes, hscopes, h]

theorem Machine.read?_congr (hstore : m'.store = m.store)
    (hframe : m'.frame?.map Frame.header = m.frame?.map Frame.header) (name : String) :
    m'.read? name = m.read? name := by
  have hbound : m'.bound? name = m.bound? name := bind_scopes_congr hframe (scopesGet? name)
  simp only [read?, hbound, ownStatic?, functionName?_congr hframe, hstore]

theorem Machine.cell_congr (hstore : m'.store = m.store)
    (hframe : m'.frame?.map Frame.header = m.frame?.map Frame.header) (name : String) :
    m'.cell name = m.cell name := by
  have hfind := bind_scopes_congr hframe (fun ss => ss.findIdx? (fun s => s.contains name))
  simp only [cell, hfind, functionName?_congr hframe, hstore]

/-- A name is known to have the width of its type. -/
theorem staticWidth_ident (env : Env) (m : Machine) (pos : Position) (name : String) :
    staticWidth env m (.ident pos name) =
      ((m.read? name).map Value.ty).bind Ty.scalarWidth? := by
  rw [staticWidth]
  cases m.read? name <;> rfl

/-- An element is known to have the width that the type of its array tells. -/
theorem staticWidth_index (env : Env) (m : Machine) (pos : Position) (offset : Expr)
    (array : String) :
    staticWidth env m (.index pos offset array) =
      match (m.read? array).map Value.ty with
      | some (.array element _) => some element
      | _ => none := by
  rw [staticWidth]
  rcases m.read? array with _ | _ | _ <;> rfl

/-- The width known beforehand comes from the types under names and from what functions give. -/
theorem staticWidth_congr {env env' : Env}
    (hread : ∀ name, (m'.read? name).map Value.ty = (m.read? name).map Value.ty)
    (hret : ∀ name, (env'.functions.get? name).bind (fun f => f.ret.bind Ty.scalarWidth?) =
      (env.functions.get? name).bind (fun f => f.ret.bind Ty.scalarWidth?)) (e : Expr) :
    staticWidth env' m' e = staticWidth env m e := by
  induction e using staticWidth.induct (m := m) with
  | case1 pos value => rfl
  | case2 pos name => rw [staticWidth_ident, staticWidth_ident, hread]
  | case3 pos offset array element items hfound => rw [staticWidth_index, staticWidth_index, hread]
  | case4 pos offset array hfound => rw [staticWidth_index, staticWidth_index, hread]
  | case5 pos op left right hbool => simp only [staticWidth, if_pos hbool]
  | case6 pos op left right hbool ihleft ihright =>
    simp only [staticWidth, if_neg hbool, ihleft, ihright]
  | case7 pos function args => simp only [staticWidth, hret]

end

theorem local_read? (name : String) : Local (fun m => m.read? name) :=
  fun _ _ hstore hframe _ => Machine.read?_congr hstore hframe name

theorem local_operandHints (env : Env) (op : BinOp) (left right : Expr) (hint : Option Width) :
    Local (operandHints env op left right hint) := by
  intro m m' hstore hframe _
  have hread : ∀ name, (m'.read? name).map Value.ty = (m.read? name).map Value.ty :=
    fun name => congrArg (Option.map Value.ty) (Machine.read?_congr hstore hframe name)
  simp only [operandHints, staticWidth_congr hread (fun _ => rfl)]

theorem local_returnHint : Local returnHint := by
  intro m m' _ hframe _
  have hheader : ∀ n : Machine, returnHint n =
      (n.function?.map Function.header).bind (fun f => f.ret.bind Ty.scalarWidth?) := by
    intro n
    unfold returnHint
    cases n.function? <;> rfl
  rw [hheader, hheader, Machine.function?_congr hframe]

/-! ## Section 2: The ways to build a computation -/

/-- A property that a computation without assignments has if its parts have it, with `T` for the
    statements that run in the current frame.  Statements, scopes, calls and panics come as wholes,
    as what they do together matters. -/
structure Composite (env : Env) (P : (Statement → Prop) → {α : Type} → Exec α → Prop) : Prop where
  pure : ∀ {T} {α : Type} (a : α), P T (Pure.pure a : Exec α)
  fail : ∀ {T} {α : Type} (pos : Position) {cause : RuntimeCause}, cause.isOrdinary = true →
    P T (Exec.fail pos cause : Exec α)
  outOfFuel : ∀ {T} {α : Type}, P T (Exec.outOfFuel : Exec α)
  reads : ∀ {T} {α : Type} (f : Machine → α), Local f → P T (Exec.reads f)
  bind : ∀ {T} {α β : Type} {x : Exec α} {f : α → Exec β}, P T x → (∀ a, P T (f a)) → P T (x >>= f)
  declare : ∀ {T} (name : String) (v : Value), P T (modify fun m => m.declare name v)
  inScope : ∀ {T} {α : Type} (scope : NameMap Value) {x : Exec α}, P T x → P T (inScope scope x)
  enterStatement : ∀ {T} (pos : Position), P T (enterStatement pos)
  runPanic : ∀ {T} (pos : Position), P T (runPanic pos)
  callWith : ∀ {T} {name : String} {f : Function} (pos : Position) (args : List Expr)
    (values : List Value) {fuel : Nat}, env.functions.get? name = some f →
    P (fun s => s ∈ flatBlock f.body) (runBlock env fuel f.body) →
    P T (callWith env pos f args values (runBlock env fuel f.body))

/-- A property that any computation has if its parts have it. -/
structure Inherited (env : Env) (P : (Statement → Prop) → {α : Type} → Exec α → Prop) : Prop
    extends Composite env P where
  update : ∀ {T} (pos : Position) (name : String) (f : Value → Value), P T (update pos name f)

/-! ## Section 3: Inherited properties as judgments -/

/-- Code all of whose statements are in a set, those in its blocks included. -/
def Discipline.within : Discipline (Statement → Prop) where
  stmt T s := ∀ s' ∈ s.flat, T s'
  block T ss := ∀ s ∈ flatBlock ss, T s
  knows := False

theorem Discipline.lawful_within : within.Lawful where
  expr_parts _ :=
    exprParts_of_forall (fun _ => trivial) (fun _ => trivial) (fun _ _ => trivial)
      (fun _ _ => trivial) _
  args_parts _ := ⟨trivial, trivial⟩
  stmt_parts {T s} h := by
    have hblock : ∀ ss, (∀ s' ∈ flatBlock ss, s' ∈ s.flat) → ∀ s' ∈ flatBlock ss, T s' :=
      fun ss hss s' hs' => h s' (hss s' hs')
    cases s with
    | assign pos op place value => exact ⟨by cases place <;> trivial, trivial⟩
    | ifThen pos cond yes =>
      exact ⟨trivial, trivial, hblock yes (fun _ hs' => List.mem_cons_of_mem _ hs')⟩
    | ifElse pos cond yes no =>
      refine ⟨trivial, trivial, hblock yes (fun _ hs' => ?_), hblock no (fun _ hs' => ?_)⟩
      · exact List.mem_cons_of_mem _ (List.mem_append_left _ hs')
      · exact List.mem_cons_of_mem _ (List.mem_append_right _ hs')
    | forRange pos var ty start stop body =>
      exact ⟨trivial, trivial, trivial, hblock body (fun _ hs' => List.mem_cons_of_mem _ hs')⟩
    | loop pos body =>
      exact ⟨trivial, hblock body (fun _ hs' => List.mem_cons_of_mem _ hs')⟩
    | ret pos value => cases value with
      | none => trivial
      | some value => exact ⟨trivial, fun _ _ => trivial⟩
    | _ => trivial
  block_parts {T s ss} h := by
    refine ⟨fun s' hs' => h s' (List.mem_append_left _ hs'), fun s' hs' => ?_⟩
    cases s <;> exact h s' (List.mem_append_right _ hs')
  reads_of_assigns _ := trivial
  value_of_inRange _ := trivial
  value_element _ _ := trivial
  flow_next := trivial
  flow_branch _ := trivial
  flow_round _ := trivial
  flow_bind _ := trivial

theorem RuntimeCause.isOrdinary_of_isAboutValue {cause : RuntimeCause}
    (h : cause.isAboutValue = true) : cause.isOrdinary = true := by
  cases cause with
  | explicitPanic function => cases h
  | missingReturn function => cases h
  | _ => rfl

namespace Composite

variable {env : Env} {P : (Statement → Prop) → {α : Type} → Exec α → Prop}

theorem read (h : Composite env P) {T : Statement → Prop} (pos : Position) (name : String) :
    P T (read pos name) := by
  apply h.bind (h.reads _ (local_read? name))
  intro found
  cases found with
  | none => exact h.fail pos rfl
  | some v => exact h.pure v

theorem applyOp (h : Composite env P) {T : Statement → Prop} (pos : Position) (symbol : String)
    (op : BinOp) (w : Width) (a b : Nat) (policy : Overflow) :
    P T (applyOp pos symbol op w a b policy) := by
  unfold Exec.applyOp
  split
  · exact h.pure _
  · exact h.fail pos rfl
  · exact h.fail pos rfl

/-- A composite property as a judgment: the set of statements stays the same, and nothing is said of
    a second run. -/
abbrev judgment (P : (Statement → Prop) → {α : Type} → Exec α → Prop) :
    Judgment (Statement → Prop) :=
  fun _ T {_} x _ _ T' => T' = T ∧ P T x

theorem judgment_bind (h : Composite env P) {T T₁ T₂ : Statement → Prop} {α β : Type}
    [inhabited : Nonempty α] {x : Exec α} {f : α → Exec β} (hx : T₁ = T ∧ P T x)
    (hf : ∀ a, T₂ = T₁ ∧ P T₁ (f a)) : T₂ = T ∧ P T (x >>= f) := by
  obtain ⟨rfl, hx⟩ := hx
  obtain ⟨a⟩ := inhabited
  exact ⟨(hf a).1, h.bind hx (fun a => (hf a).2)⟩

theorem rules (h : Composite env P) : Rules .within (.self env) (judgment P) where
  lawful := Discipline.lawful_within
  functions := Pairing.pairsFunctions_self env
  pure _ := ⟨rfl, h.pure _⟩
  fail pos _ hcause := ⟨rfl, h.fail pos (RuntimeCause.isOrdinary_of_isAboutValue hcause)⟩
  outOfFuel hT _ := ⟨hT.elim id (fun ⟨_, hT⟩ => hT), h.outOfFuel⟩
  succ hx := hx
  bind hx hf := h.judgment_bind hx (fun a => hf a nofun)
  weaken hx _ := hx
  forget hx := hx
  read pos name _ := ⟨rfl, h.read pos name⟩
  operandHints op left right hint := ⟨rfl, h.reads _ (local_operandHints env op left right hint)⟩
  returnHint := ⟨rfl, h.reads _ local_returnHint⟩
  applyOp pos symbol op w a b := ⟨rfl, h.applyOp pos symbol op w a b _⟩
  declare _ _ := ⟨rfl, h.declare _ _⟩
  inScope scope _ _ _ hx := ⟨rfl, h.inScope scope hx.2⟩
  enterStatement pos := ⟨rfl, h.enterStatement pos⟩
  runPanic pos := ⟨rfl, h.runPanic pos⟩
  noFunction _ _ := ⟨rfl, h.fail _ rfl⟩
  -- a call goes on with the statements of the function
  callWith args values _ hf _ _ hbody :=
    ⟨rfl, h.callWith _ args values hf (hbody _ (fun _ hs => hs)).2⟩

variable {T : Statement → Prop} (h : Composite env P)

include h

theorem scalar (pos : Position) (v : Value) : P T (scalar pos v) :=
  (h.rules.scalar (n := 0) pos v).2

theorem wordOf (pos : Position) (w : Width) (v : Value) : P T (wordOf pos w v) :=
  (h.rules.wordOf (n := 0) pos w v).2

theorem expectType (pos : Position) (ty : Ty) (v : Value) : P T (expectType pos ty v) :=
  (h.rules.expectType (n := 0) pos ty v).2

theorem target (pos : Position) (name : String) (index : Option Nat) :
    P T (target pos name index) :=
  (h.rules.target (n := 0) pos name index trivial).2

end Composite

theorem Inherited.fullRules {env : Env} {P : (Statement → Prop) → {α : Type} → Exec α → Prop}
    (h : Inherited env P) : FullRules .within (.self env) (Composite.judgment P) where
  toRules := h.rules
  update pos name f _ := ⟨rfl, h.update pos name f⟩

/-! ## Section 4: All parts of the semantics -/

/-- A property of all parts of the semantics that take this fuel. -/
structure AllParts (env : Env) (P : (Statement → Prop) → {α : Type} → Exec α → Prop)
    (fuel : Nat) : Prop where
  eval : ∀ {T} e hint, P T (eval env fuel e hint)
  evalArgs : ∀ {T} ps es, P T (evalArgs env fuel ps es)
  call : ∀ {T} pos name args, P T (call env fuel pos name args)
  runBlock : ∀ {T} ss, (∀ s ∈ flatBlock ss, T s) → P T (runBlock env fuel ss)
  runStatement : ∀ {T} s, (∀ s' ∈ s.flat, T s') → P T (runStatement env fuel s)
  runAssign : ∀ {T} pos op place value, T (.assign pos op place value) →
    P T (runAssign env fuel pos op place value)
  runFor : ∀ {T} var w i stop body, (∀ s ∈ flatBlock body, T s) →
    P T (runFor env fuel var w i stop body)
  runLoop : ∀ {T} body, (∀ s ∈ flatBlock body, T s) → P T (runLoop env fuel body)

section

variable {env : Env} {P : (Statement → Prop) → {α : Type} → Exec α → Prop} {fuel : Nat}

theorem AllParts.of_parts (h : Parts .within (.self env) (Composite.judgment P) fuel) :
    AllParts env P fuel where
  eval e hint := (h.eval e hint trivial).2
  evalArgs ps es := (h.evalArgs ps es trivial).2
  call pos name args := (h.call pos name args trivial trivial).2
  runBlock ss hss := (h.runBlock (Pairing.alike_relocateAll ss) hss).2
  runStatement s hs := (h.runStatement (Pairing.counterpart_relocate s) hs).2
  runAssign pos op place value hs := by
    refine (h.runAssign pos op place value (fun s' hs' => ?_)).2
    rwa [List.mem_singleton.mp hs']
  runFor var w i stop body hbody :=
    (h.runFor var w i stop (Pairing.alike_relocateAll body) trivial hbody).2
  runLoop body hbody :=
    (h.runLoop (Pairing.alike_relocateAll body) trivial hbody).2

section

variable (h : Composite env P)
  (hassign : ∀ fuel, AllParts env P fuel → ∀ {T : Statement → Prop} pos op place value,
    T (.assign pos op place value) → P T (runAssign env (fuel + 1) pos op place value))

include h hassign

theorem Composite.judged (fuel : Nat) : Parts .within (.self env) (judgment P) fuel := by
  apply h.rules.parts_of_assign
  intro n ih T pos op place value hs
  exact ⟨rfl, hassign n (.of_parts ih) pos op place value (hs _ List.mem_cons_self)⟩

/-- Whatever the fuel, every part of the semantics has a composite property, if assignments get it
    from what they evaluate. -/
theorem Composite.parts (fuel : Nat) : AllParts env P fuel := .of_parts (h.judged hassign fuel)

end

/-- All statements are of some code, for properties that ignore it. -/
theorem everywhere {ss : List Statement} : ∀ s ∈ ss, (fun _ : Statement => True) s :=
  fun _ _ => trivial

/-- Whatever the fuel, every part of the semantics has an inherited property. -/
theorem Inherited.parts (h : Inherited env P) (fuel : Nat) : AllParts env P fuel :=
  .of_parts (h.fullRules.parts fuel)

/-- A run of the top level, if a `return` there has the property too. -/
theorem Composite.runTopLevel (h : Composite env P)
    (hparts : ∀ fuel, Parts .within (.self env) (judgment P) fuel)
    (hreturn : ∀ {T} pos, P T (modify fun m => m.emit (.topLevelReturn pos))) (fuel : Nat)
    (ss : List Statement) : P (fun _ => True) (runTopLevel env fuel ss) :=
  (h.rules.runTopLevel hparts (fun _ _ pos => ⟨rfl, hreturn pos⟩) Pairing.counterpart_relocate
    fuel ss everywhere).2

theorem Inherited.runTopLevel (h : Inherited env P)
    (hreturn : ∀ {T} pos, P T (modify fun m => m.emit (.topLevelReturn pos))) (fuel : Nat)
    (ss : List Statement) : P (fun _ => True) (runTopLevel env fuel ss) :=
  h.toComposite.runTopLevel h.fullRules.parts hreturn fuel ss

end

end WordLang
