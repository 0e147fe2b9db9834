import WordLang.Proofs.Cells
import WordLang.Proofs.Declared

/-! # The store keeps its shape

    Whatever a program does, its slots stay the ones that were declared, with
    the types they were declared with; constant tables keep their values; and
    every number held anywhere fits its width.  This is so in every state of
    every execution, also in the middle of one and after a failed one, and
    whether or not the program would pass the check.

    The one delicate step is an assignment: the type of the target is looked
    at before the right-hand side is evaluated, and the target is found again
    afterwards.  In between the frames are the same and the types of all slots
    are those of the start, so the type found is still right. -/

namespace WordLang

open Exec

/-! ## Section 1: Numbers that fit their width -/

namespace NameMap

variable {α : Type} {P : α → Prop} {m : NameMap α}

/-- Every value of the map satisfies `P`. -/
def All (P : α → Prop) (m : NameMap α) : Prop := ∀ name v, m.get? name = some v → P v

theorem all_empty : (empty : NameMap α).All P := by
  intro name v h
  cases h

theorem All.insert (h : m.All P) (name : String) {v : α} (hv : P v) : (m.insert name v).All P := by
  intro other u hu
  rw [get?_insert] at hu
  split at hu
  · cases hu; exact hv
  · exact h other u hu

theorem All.modify (h : m.All P) {name : String} {f : α → α}
    (hf : ∀ v, m.get? name = some v → P (f v)) : (m.modify name f).All P := by
  intro other u hu
  by_cases hname : other = name
  · subst hname
    rw [get?_modify_self] at hu
    obtain ⟨v, hv, rfl⟩ := Option.map_eq_some_iff.mp hu
    exact hf v hv
  · rw [get?_modify_ne _ hname] at hu
    exact h other u hu

end NameMap

namespace Value

theorem inRange_of_getElem? {element : Width} {items : Array Nat} {i n : Nat}
    (h : (Value.array element items).InRange) (hn : items[i]? = some n) :
    (Value.scalar element n).InRange :=
  h n (Array.mem_of_getElem? hn)

/-- A number of the right width may be stored as an element. -/
theorem inRange_setElement {element : Width} {items : Array Nat} {i n : Nat}
    (h : (Value.array element items).InRange) (hn : (Value.scalar element n).InRange) :
    ((Value.array element items).setElement i n).InRange := by
  intro k hk
  rcases Array.mem_or_eq_of_mem_setIfInBounds hk with hk | rfl
  · exact h k hk
  · exact hn

end Value

/-! ## Section 2: The invariant -/

/-- Slots, types and constant tables are those of the start, and every number fits its width. -/
structure Machine.Intact (start : Store) (m : Machine) : Prop where
  globalTypes : ∀ name,
    (m.store.global? name).map Value.ty = (start.global? name).map Value.ty
  localTypes : ∀ function name,
    (m.store.local? function name).map Value.ty = (start.local? function name).map Value.ty
  consts : m.store.consts = start.consts
  globalsFit : ∀ name v, m.store.global? name = some v → v.InRange
  localsFit : ∀ function name v, m.store.local? function name = some v → v.InRange
  constsFit : ∀ name v, m.store.const? name = some v → v.InRange
  scopesFit : ∀ f ∈ m.frames, ∀ scope ∈ f.scopes, scope.All Value.InRange

namespace Machine.Intact

variable {start : Store} {m m' : Machine}

/-- The invariant looks at the store and the frames only. -/
theorem congr (h : m.Intact start) (hstore : m'.store = m.store)
    (hframes : ∀ f ∈ m'.frames, ∀ scope ∈ f.scopes, scope.All Value.InRange) : m'.Intact start :=
  ⟨hstore ▸ h.globalTypes, hstore ▸ h.localTypes, hstore ▸ h.consts, hstore ▸ h.globalsFit,
   hstore ▸ h.localsFit, hstore ▸ h.constsFit, hframes⟩

theorem emit (h : m.Intact start) (e : Event) : (m.emit e).Intact start := h.congr rfl h.scopesFit

theorem mapScopes (h : m.Intact start) {f : List (NameMap Value) → List (NameMap Value)}
    (hf : ∀ fr ∈ m.frame?, ∀ scope ∈ f fr.scopes, scope.All Value.InRange) :
    (m.mapScopes f).Intact start := by
  refine h.congr (m.store_mapScopes f) ?_
  have hframes := h.scopesFit
  rcases m with ⟨store, _ | ⟨frame, rest⟩, events⟩
  · exact hframes
  · intro fr hfr
    rcases List.mem_cons.mp hfr with rfl | hfr
    · exact hf frame rfl
    · exact hframes fr (List.mem_cons_of_mem _ hfr)

/-- The scopes of the current frame. -/
theorem current (h : m.Intact start) {fr : Frame} (hfr : fr ∈ m.frame?) :
    ∀ scope ∈ fr.scopes, scope.All Value.InRange :=
  h.scopesFit fr (List.mem_of_mem_head? hfr)

theorem pushScope (h : m.Intact start) {scope : NameMap Value} (hscope : scope.All Value.InRange) :
    (m.pushScope scope).Intact start := by
  refine h.mapScopes (fun fr hfr s hs => ?_)
  rcases List.mem_cons.mp hs with rfl | hs
  · exact hscope
  · exact h.current hfr s hs

theorem popScope (h : m.Intact start) : m.popScope.Intact start :=
  h.mapScopes (fun _ hfr s hs => h.current hfr s (List.mem_of_mem_tail hs))

theorem declare (h : m.Intact start) (name : String) {v : Value} (hv : v.InRange) :
    (m.declare name v).Intact start := by
  refine h.mapScopes (fun fr hfr s hs => ?_)
  have hold := h.current hfr
  cases hscopes : fr.scopes with
  | nil => rw [hscopes] at hs; cases hs
  | cons inner rest =>
    rw [hscopes] at hs hold
    rcases List.mem_cons.mp hs with rfl | hs
    · exact (hold inner List.mem_cons_self).insert name hv
    · exact hold s (List.mem_cons_of_mem _ hs)

theorem pushFrame (h : m.Intact start) {f : Function} {params : NameMap Value}
    (hparams : params.All Value.InRange) : (m.pushFrame (.call f params)).Intact start := by
  refine h.congr rfl (fun fr hfr => ?_)
  rcases List.mem_cons.mp hfr with rfl | hfr
  · intro scope hscope
    cases List.mem_singleton.mp hscope
    exact hparams
  · exact h.scopesFit fr hfr

theorem popFrame (h : m.Intact start) : m.popFrame.Intact start :=
  h.congr rfl (fun fr hfr => h.scopesFit fr (List.mem_of_mem_tail hfr))

theorem initial (hglobals : ∀ name v, start.global? name = some v → v.InRange)
    (hlocals : ∀ function name v, start.local? function name = some v → v.InRange)
    (hconsts : ∀ name v, start.const? name = some v → v.InRange) :
    (Machine.initial start).Intact start := by
  refine ⟨fun _ => rfl, fun _ _ => rfl, rfl, hglobals, hlocals, hconsts, ?_⟩
  intro f hf scope hscope
  cases List.mem_singleton.mp hf
  cases List.mem_singleton.mp hscope
  exact NameMap.all_empty

/-- What is read under a name fits its width. -/
theorem read? (h : m.Intact start) {name : String} {v : Value} (hv : m.read? name = some v) :
    v.InRange := by
  unfold Machine.read? at hv
  rcases Option.or_eq_some_iff.mp hv with hv | ⟨-, hv⟩
  · obtain ⟨fr, hfr, hv⟩ := Option.bind_eq_some_iff.mp hv
    rw [Machine.scopesGet?_eq_find] at hv
    obtain ⟨i, -, hv⟩ := Option.bind_eq_some_iff.mp hv
    obtain ⟨scope, hscope, hv⟩ := Option.bind_eq_some_iff.mp hv
    exact h.current hfr scope (List.mem_of_getElem? hscope) name v hv
  · rcases Option.or_eq_some_iff.mp hv with hv | ⟨-, hv⟩
    · obtain ⟨function, -, hv⟩ := Option.bind_eq_some_iff.mp hv
      exact h.localsFit function name v hv
    · rcases Option.or_eq_some_iff.mp hv with hv | ⟨-, hv⟩
      · exact h.globalsFit name v hv
      · exact h.constsFit name v hv

/-- The slots have the types of the start. -/
theorem sameTypes (h : m.Intact start) : Store.SameTypes start m.store :=
  ⟨h.globalTypes, h.localTypes, h.consts⟩

/-! ## Section 3: Writing to cells -/

/-- A value may take the place of one of the same type. -/
theorem modifyCell (h : m.Intact start) {c : Machine.Cell} {name : String} {f : Value → Value}
    (hf : ∀ v, m.cellValue? c name = some v → (f v).ty = v.ty ∧ (f v).InRange) :
    (m.modifyCell c name f).Intact start := by
  -- types are compared with those of the start, so the change goes through this state
  have htypes : Store.SameTypes start (m.modifyCell c name f).store :=
    h.sameTypes.trans (Machine.sameTypes_modifyCell (fun v hv => (hf v hv).1))
  cases c with
  | scope i =>
    show (m.mapScopes (fun ss => ss.modify i (fun s => s.modify name f))).Intact start
    refine h.mapScopes (fun fr hfr scope hscope => ?_)
    have hmem : scope ∈ fr.scopes.modify i (fun s => s.modify name f) := hscope
    -- every scope but the `i`th is the same as before
    obtain ⟨j, hj⟩ := List.mem_iff_getElem?.mp hmem
    rw [List.getElem?_modify] at hj
    obtain ⟨old, hold, rfl⟩ := Option.map_eq_some_iff.mp hj
    have hall := h.current hfr old (List.mem_of_getElem? hold)
    split
    · next hij =>
      subst hij
      refine hall.modify (fun v hv => (hf v ?_).2)
      rw [Machine.cellValue?, show m.frame? = some fr from hfr, Option.bind_some, hold]
      exact hv
    · exact hall
  | static function =>
    refine ⟨htypes.globals, htypes.locals, htypes.consts, h.globalsFit, ?_, h.constsFit,
      h.scopesFit⟩
    intro function' name' v hv
    have hv' : (m.store.modifyLocal function name f).local? function' name' = some v := hv
    rw [Store.local?_modifyLocal] at hv'
    split at hv'
    · next heq =>
      obtain ⟨rfl, rfl⟩ := heq
      obtain ⟨u, hu, rfl⟩ := Option.map_eq_some_iff.mp hv'
      exact (hf u hu).2
    · exact h.localsFit function' name' v hv'
  | global =>
    refine ⟨htypes.globals, htypes.locals, htypes.consts, ?_, h.localsFit, h.constsFit,
      h.scopesFit⟩
    intro name' v hv
    have hv' : (m.store.modifyGlobal name f).global? name' = some v := hv
    rw [Store.global?_modifyGlobal] at hv'
    split at hv'
    · next heq =>
      subst heq
      obtain ⟨u, hu, rfl⟩ := Option.map_eq_some_iff.mp hv'
      exact (hf u hu).2
    · exact h.globalsFit name' v hv'

end Machine.Intact

/-! ## Section 4: The parts of the semantics that do not call each other -/

section parts

variable {start : Store}

theorem intact_applyOp (pos : Position) (symbol : String) (op : BinOp) (w : Width) (a b : Nat)
    (policy : Overflow) :
    Maintains (Machine.Intact start) Value.InRange (applyOp pos symbol op w a b policy) :=
  fun _ hm => ensures_applyOp pos symbol op w a b policy (fun _ _ => hm) (fun _ _ hv => ⟨hm, hv⟩)

theorem intact_read (pos : Position) (name : String) :
    Maintains (Machine.Intact start) Value.InRange (read pos name) :=
  fun _ hm => ensures_read pos name (fun _ => hm) (fun _ hv => ⟨hm, hm.read? hv⟩)

theorem all_boundParams (scope : NameMap Value) (ps : List Param) (vs : List Value)
    (hscope : scope.All Value.InRange) (hvs : ∀ v ∈ vs, v.InRange) :
    (boundParams scope ps vs).All Value.InRange := by
  fun_induction boundParams scope ps vs with
  | case1 scope p ps v vs ih =>
    refine ih (hscope.insert p.name (hvs v List.mem_cons_self)) (fun u hu => ?_)
    exact hvs u (List.mem_cons_of_mem _ hu)
  | case2 => exact hscope

theorem intact_prepareCall (env : Env) (pos : Position) (f : Function) (args : List Expr)
    (values : List Value) (hvalues : ∀ v ∈ values, v.InRange) :
    Maintains (Machine.Intact start) (NameMap.All Value.InRange)
      (prepareCall env pos f args values) :=
  fun _ hm => ensures_prepareCall env pos f args values (fun _ _ => hm) (fun _ =>
    ⟨hm, all_boundParams _ _ _ NameMap.all_empty (fun v hv => hvalues v (List.mem_of_mem_take hv))⟩)

theorem intact_emit (e : Machine → Event) :
    Maintains (Machine.Intact start) (fun _ => True) (modify (fun m => m.emit (e m))) :=
  .modify (fun _ hm => hm.emit _) trivial

theorem intact_runPanic {V : Flow → Prop} (pos : Position) :
    Maintains (Machine.Intact start) V (runPanic pos) :=
  fun _ hm => ensures_runPanic pos (fun ev => ⟨hm, hm.emit ev⟩) (fun _ ev _ => hm.emit ev)

theorem intact_finishCall (pos : Position) (f : Function) (flow : Flow)
    (hflow : ∀ v, flow = .returned (some v) → v.InRange) :
    Maintains (Machine.Intact start) (fun result => ∀ v, result = some v → v.InRange)
      (finishCall pos f flow) := by
  intro m hm
  refine ensures_finishCall pos f flow (fun _ _ => hm) (fun ev => ⟨hm, hm.emit ev⟩)
    (fun result ev hresult => ⟨hm.emit ev, fun v hv => hflow v (hresult v hv)⟩)

theorem intact_inScope {α : Type} {V : α → Prop} {x : Exec α} {scope : NameMap Value}
    (hscope : scope.All Value.InRange) (h : Maintains (Machine.Intact start) V x) :
    Maintains (Machine.Intact start) V (inScope scope x) :=
  h.within (fun _ hm => hm.pushScope hscope) (fun _ hm => hm.popScope)

theorem intact_inFrame {α : Type} {V : α → Prop} {x : Exec α} {f : Function}
    {params : NameMap Value} (hparams : params.All Value.InRange)
    (h : Maintains (Machine.Intact start) V x) :
    Maintains (Machine.Intact start) V (inFrame (.call f params) x) :=
  h.within (fun _ hm => hm.pushFrame hparams) (fun _ hm => hm.popFrame)

theorem intact_callWith (env : Env) (pos : Position) (f : Function) (args : List Expr)
    {values : List Value} (hvalues : ∀ v ∈ values, v.InRange) {body : Exec Flow}
    (hbody : Maintains (Machine.Intact start)
      (fun flow => ∀ v, flow = .returned (some v) → v.InRange) body) :
    Maintains (Machine.Intact start) (fun result => ∀ v, result = some v → v.InRange)
      (callWith env pos f args values body) := by
  refine .bind (intact_prepareCall _ _ _ _ _ hvalues) (fun params hparams => ?_)
  exact .bind (intact_inFrame hparams (.bind (intact_emit _) (fun _ _ => hbody)))
    (fun flow hflow => intact_finishCall pos f flow hflow)

end parts

/-! ## Section 5: Assignments -/

section assignments

variable {start : Store}

theorem intact_update {m : Machine} (hm : m.Intact start) (pos : Position) (name : String)
    {f : Value → Value} (hf : ∀ v, m.read? name = some v → (f v).ty = v.ty ∧ (f v).InRange) :
    Ensures (fun p q => p.Intact start ∧ q.Intact start) (fun _ m' => m'.Intact start)
      (fun _ m' => m'.Intact start) (update pos name f) m := by
  refine ensures_update pos name f (fun _ _ => hm) (fun c hc => ?_)
  have hm' : (m.modifyCell c name f).Intact start :=
    hm.modifyCell (fun v hv => hf v (Machine.cellValue?_of_cell hc ▸ hv))
  exact ⟨⟨hm, hm'⟩, hm'⟩

/-- Storing a value of a type that the place accepts. -/
theorem intact_store {m : Machine} (hm : m.Intact start) (pos : Position) (name : String)
    (index : Option Nat) {v : Value} (haccepts : m.Accepts name index v.ty) (hv : v.InRange) :
    Ensures (fun p q => p.Intact start ∧ q.Intact start) (fun _ m' => m'.Intact start)
      (fun _ m' => m'.Intact start) (store pos name index v) m := by
  unfold store
  split
  · refine intact_update hm pos name (fun old hold => ⟨?_, hv⟩)
    rw [Machine.Accepts, hold] at haccepts
    exact (Option.some.inj haccepts).symm
  · next i w n =>
    obtain ⟨element, len, harray, hword⟩ := haccepts
    cases hword
    refine intact_update hm pos name (fun old hold => ⟨old.ty_setElement i n, ?_⟩)
    rw [hold] at harray
    cases old with
    | scalar w' n' => cases harray
    | array element' items =>
      cases harray
      exact Value.inRange_setElement (hm.read? hold) hv
  · obtain ⟨element, len, harray, hword⟩ := haccepts
    cases hword

end assignments

/-! ## Section 6: All parts of the semantics -/

/-- A judgment about one run, which maintains the invariant. -/
abbrev Machine.Intact.judgment (start : Store) : Judgment Unit :=
  fun _ _ {_} x _ V _ => Maintains (Machine.Intact start) V x

/-- All parts of the semantics with this fuel maintain the invariant, and all values fit their
    widths. -/
abbrev KeepsIntact (start : Store) (env : Env) (fuel : Nat) : Prop :=
  Parts (.free Value.InRange True) (.self env) (Machine.Intact.judgment start) fuel

theorem intactRules (start : Store) (env : Env) :
    Rules (.free Value.InRange True) (.self env) (Machine.Intact.judgment start) where
  lawful := Discipline.lawful_free (fun _ h => h) (fun _ _ _ _ => Value.inRange_of_getElem?)
  functions := Pairing.pairsFunctions_self env
  pure h := .pure (h trivial)
  fail _ _ _ := .fail
  outOfFuel _ _ := .outOfFuel
  succ hx := hx
  bind hx hf := hx.bind (fun a ha => hf a (fun _ => ha))
  weaken hx hV := hx.mono hV
  forget hx := hx
  read pos name _ := intact_read pos name
  operandHints _ _ _ _ := .reads (fun _ _ => trivial)
  returnHint := .reads (fun _ _ => trivial)
  applyOp pos symbol op w a b := intact_applyOp pos symbol op w a b _
  -- a new variable may have any type: the invariant fixes the types of slots only
  declare _ hv := .modify (fun _ hm => hm.declare _ (hv trivial)) trivial
  inScope _ _ _ hscope hx := intact_inScope hscope hx
  enterStatement _ := intact_emit _
  runPanic pos := intact_runPanic pos
  noFunction _ _ := .fail
  callWith args _ _ _ _ hvalues hbody :=
    intact_callWith _ _ _ args (hvalues trivial).2 (hbody () trivial)

section

variable {start : Store} {env : Env} {fuel : Nat} (ih : KeepsIntact start env fuel)

include ih

/-- A computation between the look at a target and the store to it: the place still accepts what
    it accepted, because the frames are the same and the types of all slots are. -/
theorem eval_accepting {m : Machine} (hm : m.Intact start) (name : String) (index : Option Nat)
    {ty : Ty} (haccepts : m.Accepts name index ty) (e : Expr) (hint : Option Width) :
    Ensures (fun p q => p.Intact start ∧ q.Intact start)
      (fun v m' => m'.Intact start ∧ m'.Accepts name index ty ∧ v.InRange)
      (fun _ m' => m'.Intact start) (eval env fuel e hint) m := by
  refine ((ih.eval (c := ()) e hint trivial m hm).and (kept_eval env fuel e hint m)).mono
    (fun _ _ h => h.1) ?_ (fun _ _ h => h.1)
  -- two facts about one evaluation: the invariant, and that the frames are the same
  rintro v m' ⟨⟨hm', hv⟩, hkept⟩
  have htypes := hm.sameTypes.symm.trans hm'.sameTypes
  exact ⟨hm', haccepts.congr (Machine.ty_read?_of_sameTypes htypes hkept.frames_eq name), hv⟩

theorem intact_runAssign_succ (pos : Position) (op : AssignOp) (place : Place) (value : Expr) :
    Maintains (Machine.Intact start) (fun flow => ∀ v, flow = .returned (some v) → v.InRange)
      (runAssign env (fuel + 1) pos op place value) := by
  rw [runAssign.eq_def]
  refine .bind (V := fun _ => True) ?_ (fun index _ m hm => ?_)
  · cases place with
    | var name => exact .pure trivial
    | elem offset array =>
      refine .bind (ih.eval (c := ()) offset _ trivial) (fun v _ m hm => ?_)
      exact .bind (ensures_scalar _ v (fun _ _ => hm) (fun _ _ _ => .pure ⟨hm, trivial⟩))
  · refine .bind (ensures_target pos place.name index (fun _ _ => hm) (fun _ => hm)
      (fun there haccepts hword => ?_))
    dsimp only
    split
    · -- a plain assignment stores a value of the very type that was found
      refine .bind ((eval_accepting ih hm _ index haccepts value _).mono (fun _ _ h => h) ?_
        (fun _ _ h => h))
      rintro v m' ⟨hm', haccepts', hv⟩
      refine .bind (ensures_expectType _ _ v (fun _ _ => hm') (fun hty => .bind ?_))
      refine (intact_store hm' pos _ index (hty.symm ▸ haccepts') hv).mono (fun _ _ h => h) ?_
        (fun _ _ h => h)
      exact fun _ m'' hm'' => .pure ⟨hm'', nofun⟩
    · -- a sum or difference has the width of the word that was found
      next bin current hbin hcurrent =>
      have hresult : Ty.uint (bin.resultWidth there.ty.width) = there.ty := by
        rw [hword (hcurrent ▸ rfl)]
        cases op with
        | set => cases hbin
        | add => cases hbin; rfl
        | sub => cases hbin; rfl
      refine .bind ((eval_accepting ih hm _ index haccepts value _).mono (fun _ _ h => h) ?_
        (fun _ _ h => h))
      rintro _ m' ⟨hm', haccepts', -⟩
      refine .bind (ensures_wordOf _ _ _ (fun _ _ => hm') (fun n => .bind
        (ensures_applyOp _ _ _ _ _ _ _ (fun _ _ => hm') (fun v hty hv => .bind ?_))))
      refine (intact_store hm' pos _ index ((hty.trans hresult).symm ▸ haccepts') hv).mono
        (fun _ _ h => h) ?_ (fun _ _ h => h)
      exact fun _ m'' hm'' => .pure ⟨hm'', nofun⟩
    · exact .fail hm

end

/-- Whatever the fuel, every part of the semantics maintains the invariant. -/
theorem keepsIntact (start : Store) (env : Env) (fuel : Nat) : KeepsIntact start env fuel :=
  (intactRules start env).parts_of_assign (fun _ ih {_} pos op place value _ =>
    intact_runAssign_succ ih pos op place value) fuel

theorem intact_runTopLevel (start : Store) (env : Env) (fuel : Nat) (ss : List Statement) :
    Maintains (Machine.Intact start) (fun _ => True) (runTopLevel env fuel ss) :=
  (intactRules start env).runTopLevel (keepsIntact start env) (fun _ _ _ => intact_emit _)
    Pairing.counterpart_relocate fuel (c := ()) ss trivial

/-! ## Section 7: From the declarations on -/

/-- Each slot has the type that the first declaration of its name gives it. -/
structure Store.TypedAs (items : List Item) (s : Store) : Prop where
  globals : ∀ name v, s.global? name = some v →
    ∃ d, items.find? (Item.declares name) = some (.static d) ∧ v.ty = d.ty
  locals : ∀ function name v, s.local? function name = some v →
    ∃ f d, firstFunction? items function = some f ∧
      f.statics.find? (fun d => d.name == name) = some d ∧ v.ty = d.ty
  consts : ∀ name v, s.const? name = some v →
    ∃ d, items.find? (Item.declares name) = some (.const d) ∧ v.ty = d.ty

theorem StaticDecl.slot?_eq_some {d : StaticDecl} {v : Value} (h : d.slot? = some v) :
    v.ty = d.ty ∧ v.InRange := by
  obtain ⟨-, rfl⟩ := slot?_eq_some_iff.mp h
  exact ⟨Value.ty_zero _, Value.inRange_zero _⟩

theorem ConstDecl.slot?_eq_some {d : ConstDecl} {v : Value} (h : d.slot? = some v) :
    v.ty = d.ty ∧ v.InRange := by
  obtain ⟨-, hcomplete, rfl⟩ := slot?_eq_some_iff.mp h
  exact ⟨hcomplete.ty_literal, hcomplete.inRange_literal⟩

namespace Program

variable {p : Program}

/-- The state before the first execution. -/
theorem intact_initial (p : Program) :
    p.start.Intact p.declarations.1.store := by
  refine .initial (fun name v hv => ?_) (fun function name v hv => ?_) (fun name v hv => ?_)
  · obtain ⟨d, -, hd⟩ := global?_eq_some_iff.mp hv
    exact (StaticDecl.slot?_eq_some hd).2
  · obtain ⟨f, d, -, -, hd⟩ := local?_eq_some_iff.mp hv
    exact (StaticDecl.slot?_eq_some hd).2
  · obtain ⟨d, -, hd⟩ := const?_eq_some_iff.mp hv
    exact (ConstDecl.slot?_eq_some hd).2

/-- Slots that are intact have the types they were declared with. -/
theorem typedAs_of_intact {m : Machine} (h : m.Intact p.declarations.1.store) :
    m.store.TypedAs p.items := by
  refine ⟨fun name v hv => ?_, fun function name v hv => ?_, fun name v hv => ?_⟩
  · have hty := h.globalTypes name
    rw [hv] at hty
    obtain ⟨u, hu, hut⟩ := Option.map_eq_some_iff.mp hty.symm
    obtain ⟨d, hfind, hd⟩ := global?_eq_some_iff.mp hu
    exact ⟨d, hfind, hut.symm.trans (StaticDecl.slot?_eq_some hd).1⟩
  · have hty := h.localTypes function name
    rw [hv] at hty
    obtain ⟨u, hu, hut⟩ := Option.map_eq_some_iff.mp hty.symm
    obtain ⟨f, d, hf, hfind, hd⟩ := local?_eq_some_iff.mp hu
    exact ⟨f, d, hf, hfind, hut.symm.trans (StaticDecl.slot?_eq_some hd).1⟩
  · rw [Store.const?, h.consts] at hv
    obtain ⟨d, hfind, hd⟩ := const?_eq_some_iff.mp hv
    exact ⟨d, hfind, (ConstDecl.slot?_eq_some hd).1⟩

/-- Between executions and in every state of one, the slots are those that were declared, with the
    types they were declared with; constant tables have their values; and every number in a slot or
    in a scope of any frame fits its width.  The program need not have passed the check. -/
theorem store_intact_throughout (p : Program) (config : Config) (m : Machine)
    (h : p.Reaches (p.env config) p.start m) :
    (m.Intact p.declarations.1.store ∧ m.store.TypedAs p.items) ∧
    ∀ fuel a b, (p.execution (p.env config) fuel m).changes a b →
      (a.Intact p.declarations.1.store ∧ a.store.TypedAs p.items) ∧
      (b.Intact p.declarations.1.store ∧ b.store.TypedAs p.items) := by
  have hruns : ∀ fuel, Maintains (Machine.Intact p.declarations.1.store) (fun _ => True)
      (p.execution (p.env config) fuel) :=
    fun fuel => intact_runTopLevel _ _ fuel p.statements
  have hm : m.Intact p.declarations.1.store := h.maintained hruns p.intact_initial
  refine ⟨⟨hm, typedAs_of_intact hm⟩, fun fuel a b hab => ?_⟩
  obtain ⟨ha, hb⟩ := (hruns fuel m hm).changes a b hab
  exact ⟨⟨ha, typedAs_of_intact ha⟩, ⟨hb, typedAs_of_intact hb⟩⟩

/-- A static that goes below zero, and then a panic. -/
def wrapThenPanic : Program :=
  ⟨[.static ⟨"x", .uint .byte, ⟨1, 1⟩⟩,
    .statement (.assign ⟨2, 1⟩ .sub (.var "x") (.literal ⟨2, 6⟩ 1)),
    .statement (.panic ⟨3, 1⟩)]⟩

/-- The state after a failed execution that stored the greatest number of a width. -/
theorem store_intact_after_panic :
    ∃ m, wrapThenPanic.Reaches (wrapThenPanic.env .default) wrapThenPanic.start m ∧
      m.store.global? "x" = some (.scalar .byte 255) ∧
      m.Intact wrapThenPanic.declarations.1.store ∧ m.store.TypedAs wrapThenPanic.items := by
  have hreaches := Reaches.execute (p := wrapThenPanic) .start (show
    (wrapThenPanic.execute (wrapThenPanic.env .default) 5
      wrapThenPanic.start).machine? = some _ from rfl)
  exact ⟨_, hreaches, rfl, (store_intact_throughout wrapThenPanic .default _ hreaches).1⟩

end Program

end WordLang
