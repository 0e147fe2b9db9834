import WordLang.Proofs.Declared
import WordLang.Proofs.Inheritance
import WordLang.Proofs.Lockstep
import WordLang.Proofs.Steps

/-! # Calls and returns in the events of a run

    The events of a run are read from left to right with a stack of the calls
    that are open: a call is pushed, a return takes the topmost one off, and
    every other event has to fit what is open at its moment.  `openAfter?`
    does the reading and gives up at an event that does not fit.

    The stack of the reader is the stack of frames seen from outside.  A
    computation that ends with a result leaves both as they were, and the
    events of one that fails can still be read to the end: calls that were
    active when it failed stay open. -/

namespace WordLang

open Exec

/-! ## Section 1: Reading events with a stack of open calls -/

/-- Whether a call of the function of this name may give this value: none if the function has no
    return type, and otherwise one of that type. -/
def Env.Returns (env : Env) (function : String) (value : Option Value) : Prop :=
  (env.functions.get? function).map Function.ret = some (value.map Value.ty)

instance (env : Env) (function : String) (value : Option Value) :
    Decidable (env.Returns function value) :=
  inferInstanceAs (Decidable ((env.functions.get? function).map Function.ret = some _))

/-- The calls open after an event, the innermost first, if the event fits those open before. -/
def Event.openAfter? (env : Env) (stack : List String) : Event → Option (List String)
  | .statement _ depth => if depth = stack.length then some stack else none
  | .call function depth =>
    if depth = stack.length + 1 ∧ depth ≤ env.config.maxDepth then some (function :: stack)
    else none
  | .ret function value =>
    match stack with
    | [] => none
    | top :: rest => if function = top ∧ env.Returns function value then some rest else none
  | .panic _ function depth =>
    if function = stack.head? ∧ depth = stack.length then some stack else none
  | .topLevelReturn _ => if stack = [] then some stack else none

/-- The calls open after events, given those open before. -/
def openAfter? (env : Env) (stack : List String) (events : List Event) : Option (List String) :=
  events.foldlM (fun stack e => e.openAfter? env stack) stack

section

variable {env : Env} {stack stack' : List String}

theorem openAfter?_nil : openAfter? env stack [] = some stack := rfl

theorem openAfter?_cons (e : Event) (es : List Event) :
    openAfter? env stack (e :: es) = (e.openAfter? env stack).bind (openAfter? env · es) := by
  unfold openAfter?
  rw [List.foldlM_cons]
  rfl

theorem openAfter?_append (es es' : List Event) :
    openAfter? env stack (es ++ es') = (openAfter? env stack es).bind (openAfter? env · es') := by
  unfold openAfter?
  rw [List.foldlM_append]
  rfl

theorem openAfter?_append_of {es es' : List Event} (h : openAfter? env stack es = some stack') :
    openAfter? env stack (es ++ es') = openAfter? env stack' es' := by
  rw [openAfter?_append, h, Option.bind_some]

theorem openAfter?_singleton (e : Event) :
    openAfter? env stack [e] = e.openAfter? env stack := by
  rw [openAfter?_cons]
  cases e.openAfter? env stack <;> rfl

end

/-- Whether a run is over after an event. -/
def Event.isLast : Event → Bool
  | .panic _ _ _ | .topLevelReturn _ => true
  | .statement _ _ | .call _ _ | .ret _ _ => false

/-- Events that a run may go on after. -/
def Quiet (events : List Event) : Prop := ∀ e ∈ events, e.isLast = false

theorem quiet_nil : Quiet [] := fun _ h => absurd h List.not_mem_nil

theorem Quiet.append {es es' : List Event} (h : Quiet es) (h' : Quiet es') :
    Quiet (es ++ es') := by
  intro e he
  rcases List.mem_append.mp he with he | he
  · exact h e he
  · exact h' e he

theorem quiet_singleton {e : Event} (h : e.isLast = false) : Quiet [e] := by
  intro e' he'
  rw [List.mem_singleton.mp he']
  exact h

/-! ## Section 2: The return that belongs to a call -/

namespace Event

/-- Whether a call begins. -/
def isCall : Event → Bool
  | .call _ _ => true
  | _ => false

/-- Whether a call ends. -/
def isReturn : Event → Bool
  | .ret _ _ => true
  | _ => false

end Event

/-- Every call in these events ends in them, and no other call does. -/
structure Balanced (events : List Event) : Prop where
  even : events.countP Event.isReturn = events.countP Event.isCall
  nested : ∀ before after, events = before ++ after →
    before.countP Event.isReturn ≤ before.countP Event.isCall

/-- What is balanced cannot go on with a return and be balanced again. -/
theorem Balanced.not_extended {inner more : List Event} {e : Event} (h : Balanced inner)
    (he : e.isReturn = true) : ¬ Balanced (inner ++ e :: more) := by
  intro hlonger
  have hcall : e.isCall = false := by
    cases e with
    | ret function value => rfl
    | _ => cases he
  have hnested := hlonger.nested (inner ++ [e]) more (by simp)
  have heven := h.even
  rw [List.countP_append, List.countP_append, List.countP_singleton, List.countP_singleton, he,
    hcall] at hnested
  simp only [if_true, Bool.false_eq_true, if_false] at hnested
  omega

/-- There is at most one return up to which all is balanced. -/
theorem Balanced.unique {inner inner' rest rest' : List Event} {e e' : Event}
    (h : Balanced inner) (h' : Balanced inner') (he : e.isReturn = true) (he' : e'.isReturn = true)
    (hsame : inner ++ e :: rest = inner' ++ e' :: rest') : inner' = inner := by
  rcases List.append_eq_append_iff.mp hsame with ⟨more, hinner', hrest⟩ | ⟨more, hinner, hrest⟩
  · cases more with
    | nil => rw [hinner', List.append_nil]
    | cons e₂ more =>
      obtain ⟨rfl, -⟩ := List.cons.inj hrest
      rw [hinner'] at h'
      exact absurd h' (h.not_extended he)
  · cases more with
    | nil => rw [hinner, List.append_nil]
    | cons e₂ more =>
      obtain ⟨rfl, -⟩ := List.cons.inj hrest
      rw [hinner] at h
      exact absurd h (h'.not_extended he')

/-- In these events a call of the function ends, after as many calls as were opened inside it. -/
def EndsIn (function : String) (opened : Nat) (events : List Event) : Prop :=
  ∃ inner value rest, events = inner ++ .ret function value :: rest ∧
    inner.countP Event.isReturn = opened + inner.countP Event.isCall ∧
    ∀ before after, inner = before ++ after →
      before.countP Event.isReturn ≤ opened + before.countP Event.isCall

theorem EndsIn.cons {function : String} {opened opened' : Nat} {e : Event} {es : List Event}
    (h : EndsIn function opened' es)
    (hopened : opened' + e.isReturn.toNat = opened + e.isCall.toNat) :
    EndsIn function opened (e :: es) := by
  obtain ⟨inner, value, rest, hes, heven, hnested⟩ := h
  have hreturns : ∀ l, (e :: l).countP Event.isReturn
      = l.countP Event.isReturn + e.isReturn.toNat := by
    intro l
    rw [List.countP_cons]
    cases e.isReturn <;> rfl
  have hcalls : ∀ l, (e :: l).countP Event.isCall = l.countP Event.isCall + e.isCall.toNat := by
    intro l
    rw [List.countP_cons]
    cases e.isCall <;> rfl
  refine ⟨e :: inner, value, rest, by rw [hes, List.cons_append], ?_, ?_⟩
  · rw [hreturns, hcalls]
    omega
  · intro before after hsplit
    cases before with
    | nil => simp
    | cons e' before =>
      obtain ⟨rfl, hinner⟩ := List.cons.inj hsplit
      have hbound := hnested before after hinner
      rw [hreturns, hcalls]
      omega

/-- A call that is open before some events and not after them ends in them.  `tops` are the calls
    opened inside it. -/
theorem endsIn_of_openAfter? {env : Env} {function : String} {stack : List String}
    {events : List Event} (tops : List String)
    (h : openAfter? env (tops ++ function :: stack) events = some []) :
    EndsIn function tops.length events := by
  induction events generalizing tops with
  | nil =>
    rw [openAfter?_nil] at h
    simp at h
  | cons e es ih =>
    rw [openAfter?_cons] at h
    obtain ⟨stack', hfirst, hrest⟩ := Option.bind_eq_some_iff.mp h
    cases e with
    | statement pos depth =>
      simp only [Event.openAfter?, Option.ite_none_right_eq_some, Option.some.injEq] at hfirst
      rw [← hfirst.2] at hrest
      exact (ih tops hrest).cons rfl
    | panic pos f depth =>
      simp only [Event.openAfter?, Option.ite_none_right_eq_some, Option.some.injEq] at hfirst
      rw [← hfirst.2] at hrest
      exact (ih tops hrest).cons rfl
    | topLevelReturn pos => simp [Event.openAfter?] at hfirst
    | call f depth =>
      simp only [Event.openAfter?, Option.ite_none_right_eq_some, Option.some.injEq] at hfirst
      rw [← hfirst.2] at hrest
      exact (ih (f :: tops) hrest).cons rfl
    | ret f value =>
      cases tops with
      | nil =>
        -- nothing is open inside the call, so this is its return
        simp only [Event.openAfter?, List.nil_append, Option.ite_none_right_eq_some,
          Option.some.injEq] at hfirst
        obtain ⟨⟨rfl, -⟩, -⟩ := hfirst
        refine ⟨[], value, es, rfl, rfl, ?_⟩
        intro before after hsplit
        obtain ⟨rfl, -⟩ := List.append_eq_nil_iff.mp hsplit.symm
        simp
      | cons top tops =>
        simp only [Event.openAfter?, List.cons_append, Option.ite_none_right_eq_some,
          Option.some.injEq] at hfirst
        rw [← hfirst.2] at hrest
        exact (ih tops hrest).cons rfl

/-- What it means that the events of a run, which succeeded or not, are well bracketed. -/
structure WellBracketed (env : Env) (events : List Event) (succeeded : Prop) : Prop where
  /-- All events fit, and after a success no call is open. -/
  read : ∃ stack, openAfter? env [] events = some stack ∧ (succeeded → stack = [])
  /-- The top level returns at the very end of a run that succeeds, if at all. -/
  topLevel : ∀ before pos after, events = before ++ .topLevelReturn pos :: after →
    after = [] ∧ succeeded
  /-- After a success every call has exactly one return that belongs to it. -/
  matched : succeeded → ∀ before function depth after,
    events = before ++ .call function depth :: after →
    ∃ inner value rest, after = inner ++ .ret function value :: rest ∧ Balanced inner ∧
      ∀ inner' function' value' rest', after = inner' ++ .ret function' value' :: rest' →
        Balanced inner' → inner' = inner

theorem wellBracketed {env : Env} {events : List Event} {succeeded : Prop}
    (hread : ∃ stack, openAfter? env [] events = some stack ∧ (succeeded → stack = []))
    (htop : ∀ before pos after, events = before ++ .topLevelReturn pos :: after →
      after = [] ∧ succeeded) : WellBracketed env events succeeded := by
  refine ⟨hread, htop, ?_⟩
  intro hsucceeded before function depth after hevents
  obtain ⟨stack, hstack, hempty⟩ := hread
  rw [hempty hsucceeded, hevents, openAfter?_append] at hstack
  obtain ⟨outer, -, hcall⟩ := Option.bind_eq_some_iff.mp hstack
  rw [openAfter?_cons] at hcall
  obtain ⟨opened, hopened, hafter⟩ := Option.bind_eq_some_iff.mp hcall
  simp only [Event.openAfter?, Option.ite_none_right_eq_some, Option.some.injEq] at hopened
  rw [← hopened.2] at hafter
  obtain ⟨inner, value, rest, hsplit, heven, hnested⟩ := endsIn_of_openAfter? [] hafter
  have hbalanced : Balanced inner := by
    constructor
    · simpa using heven
    · simpa using hnested
  refine ⟨inner, value, rest, hsplit, hbalanced, ?_⟩
  intro inner' function' value' rest' hsplit' hbalanced'
  exact hbalanced.unique hbalanced' rfl rfl (hsplit.symm.trans hsplit')

/-! ## Section 3: Frames and open calls -/

namespace Machine

/-- The functions of the frames, the current one first; the top level has none. -/
def functions (m : Machine) : List (Option Function) := m.frames.map Frame.function

/-- The names of the functions that are being called, the innermost first. -/
def activeCalls (m : Machine) : List String := (m.functions.filterMap id).map Function.name

/-- Below the frames of calls there is that of the top level. -/
def Grounded (m : Machine) : Prop := ∃ calls : List Function, m.functions = calls.map some ++ [none]

@[simp] theorem functions_mapScopes (m : Machine)
    (f : List (NameMap Value) → List (NameMap Value)) :
    (m.mapScopes f).functions = m.functions := by
  rcases m with ⟨store, _ | ⟨frame, rest⟩, events⟩ <;> rfl

@[simp] theorem functions_modifyCell (m : Machine) (c : Cell) (name : String)
    (f : Value → Value) : (m.modifyCell c name f).functions = m.functions := by
  cases c with
  | scope index => exact m.functions_mapScopes _
  | static function => rfl
  | global => rfl

@[simp] theorem events_modifyCell (m : Machine) (c : Cell) (name : String)
    (f : Value → Value) : (m.modifyCell c name f).events = m.events := by
  cases c with
  | scope index => exact m.events_mapScopes _
  | static function => rfl
  | global => rfl

theorem functions_of_kept {R : List (NameMap Value) → List (NameMap Value) → Prop}
    {m m' : Machine} (h : Kept R m m') : m'.functions = m.functions := by
  have hframes := h.frames
  unfold functions
  cases hm : m.frames with
  | nil =>
    rw [hm] at hframes
    rw [show m'.frames = [] from hframes]
  | cons frame rest =>
    rw [hm] at hframes
    obtain ⟨scopes, heq, -⟩ := hframes
    rw [heq]
    rfl

theorem activeCalls_congr {m m' : Machine} (h : m'.functions = m.functions) :
    m'.activeCalls = m.activeCalls := by
  unfold activeCalls
  rw [h]

theorem Grounded.congr {m m' : Machine} (hm : m.Grounded) (h : m'.functions = m.functions) :
    m'.Grounded := by
  obtain ⟨calls, hcalls⟩ := hm
  exact ⟨calls, h.trans hcalls⟩

theorem activeCalls_of_functions {m : Machine} (calls : List Function)
    (h : m.functions = calls.map some ++ [none]) : m.activeCalls = calls.map Function.name := by
  unfold activeCalls
  rw [h, List.filterMap_append, List.filterMap_map]
  simp

theorem Grounded.depth_eq {m : Machine} (hm : m.Grounded) : m.depth = m.activeCalls.length := by
  obtain ⟨calls, hcalls⟩ := hm
  have hlength : m.frames.length = calls.length + 1 := by
    have hmap := congrArg List.length hcalls
    simpa [functions] using hmap
  rw [activeCalls_of_functions calls hcalls, List.length_map, depth, hlength, Nat.add_sub_cancel]

theorem function?_eq_head (m : Machine) : m.function? = m.functions.head?.join := by
  unfold function? frame? functions
  rw [List.head?_map]
  cases m.frames.head? <;> rfl

theorem Grounded.functionName?_eq {m : Machine} (hm : m.Grounded) :
    m.functionName? = m.activeCalls.head? := by
  obtain ⟨calls, hcalls⟩ := hm
  rw [activeCalls_of_functions calls hcalls, functionName?, function?_eq_head, hcalls]
  cases calls <;> rfl

/-- A frame more is a call more. -/
theorem Grounded.pushFrame {m : Machine} (hm : m.Grounded) (f : Function)
    (params : NameMap Value) :
    (m.pushFrame (.call f params)).Grounded ∧
      (m.pushFrame (.call f params)).activeCalls = f.name :: m.activeCalls := by
  obtain ⟨calls, hcalls⟩ := hm
  have hpushed : (m.pushFrame (.call f params)).functions = (f :: calls).map some ++ [none] := by
    show some f :: m.functions = _
    rw [hcalls, List.map_cons, List.cons_append]
  refine ⟨⟨f :: calls, hpushed⟩, ?_⟩
  rw [activeCalls_of_functions (f :: calls) hpushed, activeCalls_of_functions calls hcalls,
    List.map_cons]

end Machine

/-! ## Section 4: What computations record -/

/-- From one state to another these events were recorded, and the frames are of the same
    functions. -/
structure Records (m : Machine) (es : List Event) (m' : Machine) : Prop where
  functions : m'.functions = m.functions
  events : m'.events = es.reverse ++ m.events

namespace Records

variable {m m' m'' : Machine} {es es' : List Event}

theorem refl (m : Machine) : Records m [] m := ⟨rfl, rfl⟩

theorem emit (m : Machine) (e : Event) : Records m [e] (m.emit e) := ⟨rfl, rfl⟩

theorem trans (h : Records m es m') (h' : Records m' es' m'') : Records m (es ++ es') m'' := by
  refine ⟨h'.functions.trans h.functions, ?_⟩
  rw [h'.events, h.events, List.reverse_append, List.append_assoc]

end Records

/-- The events on the way to a result can be read, leave the same calls open, and none of them
    ends the run. -/
def Continues (env : Env) (m m' : Machine) : Prop :=
  ∃ es, Records m es m' ∧ Quiet es ∧ openAfter? env m.activeCalls es = some m.activeCalls

/-- A failure that the program asked for is announced by the last of these events, and any other
    failure by none of them. -/
def Announces (es : List Event) (e : RuntimeError) : Prop :=
  match e.item with
  | .explicitPanic function =>
    ∃ before depth, es = before ++ [.panic e.pos function depth] ∧ Quiet before
  | _ => Quiet es

/-- The events on the way to a failure can be read, and tell whether it was asked for. -/
def Breaks (env : Env) (m : Machine) (e : RuntimeError) (m' : Machine) : Prop :=
  ∃ es stack, Records m es m' ∧ openAfter? env m.activeCalls es = some stack ∧ Announces es e

theorem announces_of_quiet {es : List Event} {e : RuntimeError} (hes : Quiet es)
    (he : e.item.isPanic = false) : Announces es e := by
  unfold Announces
  split
  · next function hitem =>
    rw [hitem] at he
    cases he
  · exact hes

theorem Announces.append {es es' : List Event} {e : RuntimeError} (h : Announces es' e)
    (hes : Quiet es) : Announces (es ++ es') e := by
  unfold Announces at h ⊢
  split at h
  · obtain ⟨before, depth, rfl, hbefore⟩ := h
    exact ⟨es ++ before, depth, (List.append_assoc _ _ _).symm, hes.append hbefore⟩
  · exact hes.append h

namespace Continues

variable {env : Env} {m m' m'' : Machine} {e : RuntimeError}

theorem of_silent (hfunctions : m'.functions = m.functions) (hevents : m'.events = m.events) :
    Continues env m m' :=
  ⟨[], ⟨hfunctions, hevents⟩, quiet_nil, rfl⟩

theorem refl (m : Machine) : Continues env m m := of_silent rfl rfl

theorem functions_eq (h : Continues env m m') : m'.functions = m.functions := by
  obtain ⟨es, hrecords, -⟩ := h
  exact hrecords.functions

theorem trans (h : Continues env m m') (h' : Continues env m' m'') : Continues env m m'' := by
  have hsame := Machine.activeCalls_congr h.functions_eq
  obtain ⟨es, hrecords, hquiet, hread⟩ := h
  obtain ⟨es', hrecords', hquiet', hread'⟩ := h'
  refine ⟨es ++ es', hrecords.trans hrecords', hquiet.append hquiet', ?_⟩
  rw [openAfter?_append_of hread, ← hsame]
  exact hread'

theorem breaks (h : Continues env m m') (h' : Breaks env m' e m'') : Breaks env m e m'' := by
  have hsame := Machine.activeCalls_congr h.functions_eq
  obtain ⟨es, hrecords, hquiet, hread⟩ := h
  obtain ⟨es', stack, hrecords', hread', hannounces⟩ := h'
  refine ⟨es ++ es', stack, hrecords.trans hrecords', ?_, hannounces.append hquiet⟩
  rw [openAfter?_append_of hread, ← hsame]
  exact hread'

end Continues

theorem breaks_of_still {env : Env} {m : Machine} {e : RuntimeError}
    (he : e.item.isPanic = false) : Breaks env m e m :=
  ⟨[], m.activeCalls, .refl m, rfl, announces_of_quiet quiet_nil he⟩

/-- From every state of a run on, the computation records events that fit what is open. -/
def Brackets {α : Type} (env : Env) (x : Exec α) : Prop :=
  ∀ m : Machine, m.Grounded →
    Ensures (fun _ _ => True) (fun _ => Continues env m) (Breaks env m) x m

namespace Brackets

variable {env : Env} {α β : Type} {x : Exec α}

theorem bind {f : α → Exec β} (h : Brackets env x) (hf : ∀ a, Brackets env (f a)) :
    Brackets env (x >>= f) := by
  intro m hm
  refine .bind ((h m hm).mono (fun _ _ _ => trivial) ?_ (fun _ _ he => he))
  intro a m' hm'
  have hrest := hf a m' (hm.congr hm'.functions_eq)
  exact hrest.mono (fun _ _ _ => trivial) (fun _ m'' hm'' => hm'.trans hm'')
    (fun e m'' he => hm'.breaks he)

theorem inScope (scope : NameMap Value) (h : Brackets env x) :
    Brackets env (inScope scope x) := by
  intro m hm
  have henter : Continues env m (m.pushScope scope) := by
    apply Continues.of_silent
    · exact m.functions_mapScopes _
    · exact m.events_mapScopes _
  have hleave : ∀ p : Machine, Records p [] p.popScope := by
    intro p
    exact ⟨p.functions_mapScopes _, p.events_mapScopes _⟩
  refine .within trivial ((h _ (hm.congr henter.functions_eq)).mono (fun _ _ _ => trivial) ?_ ?_)
  · intro a p hp
    refine ⟨trivial, henter.trans (hp.trans ?_)⟩
    exact .of_silent (hleave p).functions (hleave p).events
  · intro e p hp
    obtain ⟨es, stack, hrecords, hread, hannounces⟩ := henter.breaks hp
    refine ⟨trivial, es, stack, ?_, hread, hannounces⟩
    have hafter := hrecords.trans (hleave p)
    rwa [List.append_nil] at hafter

end Brackets

/-! ## Section 5: Calls -/

theorem ensures_bindParams_still (scope : NameMap Value) (ps : List Param)
    (poss : List Position) (vs : List Value) (m : Machine) :
    Ensures (fun _ _ => True) (fun _ m' => m' = m) (fun e m' => m' = m ∧ e.item.isOrdinary = true)
      (bindParams scope ps poss vs) m := by
  fun_induction bindParams scope ps poss vs with
  | case1 scope p ps pos poss v vs ih =>
    unfold expectType
    split
    · exact .bind (.pure ih)
    · exact .bind (.fail ⟨rfl, rfl⟩)
  | case2 ps scope poss vs hnil => exact .pure rfl

/-- A call that may be made is below the limit; one that may not fails for an ordinary cause. -/
theorem ensures_prepareCall_still (env : Env) (pos : Position) (f : Function) (args : List Expr)
    (values : List Value) (m : Machine) :
    Ensures (fun _ _ => True) (fun _ m' => m' = m ∧ m.depth < env.config.maxDepth)
      (fun e m' => m' = m ∧ e.item.isOrdinary = true) (prepareCall env pos f args values) m := by
  unfold prepareCall
  split
  · exact .fail ⟨rfl, rfl⟩
  · have hparams := ensures_bindParams_still .empty f.params (args.map Expr.pos) values m
    refine .bind (hparams.mono (fun _ _ _ => trivial) ?_ (fun _ _ he => he))
    intro params m' hm'
    subst hm'
    refine .bind (.reads ?_)
    split
    · exact .fail ⟨rfl, rfl⟩
    · next hlimit => exact .pure ⟨rfl, Nat.lt_of_not_le hlimit⟩

/-- The end of a call is recorded together with a value of the right type. -/
theorem ensures_finishCall_records {env : Env} {f : Function}
    (hf : env.functions.get? f.name = some f) (pos : Position) (flow : Flow) (m : Machine) :
    Ensures (fun _ _ => True)
      (fun _ m' => ∃ value, env.Returns f.name value ∧ m' = m.emit (.ret f.name value))
      (fun e m' => m' = m ∧ e.item.isPanic = false) (finishCall pos f flow) m := by
  unfold finishCall
  split
  · next hret =>
    refine .bind (.modify trivial (.pure ⟨none, ?_, rfl⟩))
    unfold Env.Returns
    rw [hf, Option.map_some, hret]
    rfl
  · next ty v hret =>
    unfold expectType
    split
    · next hty =>
      refine .bind (.pure (.bind (.modify trivial (.pure ⟨some v, ?_, rfl⟩))))
      unfold Env.Returns
      rw [hf, Option.map_some, hret, Option.map_some, hty]
    · exact .bind (.fail ⟨rfl, rfl⟩)
  · exact .fail ⟨rfl, rfl⟩

/-- A call as a whole: its own event opens what its return closes, and in between its body is
    read with the call open. -/
theorem brackets_callWith {env : Env} {f : Function} (hf : env.functions.get? f.name = some f)
    (pos : Position) (args : List Expr) (values : List Value) {body : Exec Flow}
    (hbody : Brackets env body) : Brackets env (callWith env pos f args values body) := by
  intro m hm
  have hready := ensures_prepareCall_still env pos f args values m
  refine .bind (hready.mono (fun _ _ _ => trivial) ?_ ?_)
  · intro params m' hm'
    obtain ⟨rfl, hbelow⟩ := hm'
    obtain ⟨hground, hcalls⟩ := hm.pushFrame f params
    let inside := m'.pushFrame (.call f params)
    -- the depth that the event tells is that of the call itself
    have hopen : openAfter? env m'.activeCalls [.call f.name inside.depth]
        = some inside.activeCalls := by
      have hdepth : inside.depth = m'.activeCalls.length + 1 := by
        rw [hground.depth_eq, hcalls, List.length_cons]
      have hlimit : inside.depth ≤ env.config.maxDepth := by
        have hbefore := hm.depth_eq
        omega
      rw [openAfter?_singleton, Event.openAfter?, if_pos ⟨hdepth, hlimit⟩, hcalls]
    have hstart : Records inside [.call f.name inside.depth] _ := .emit inside _
    have hinside := hbody (inside.emit (.call f.name inside.depth)) (hground.congr rfl)
    -- leaving the frame takes the events along and brings the caller's frames back
    have hleave : ∀ {es p}, Records (inside.emit (.call f.name inside.depth)) es p →
        Records m' (.call f.name inside.depth :: es) p.popFrame := by
      intro es p hp
      have hall := hstart.trans hp
      refine ⟨?_, hall.events⟩
      show (p.frames.tail).map Frame.function = _
      rw [List.map_tail, show p.frames.map Frame.function = _ from hall.functions]
      rfl
    refine .bind (.within trivial (.bind (.modify trivial
      (hinside.mono (fun _ _ _ => trivial) ?_ ?_))))
    · intro flow p hp
      obtain ⟨es, hrecords, hquiet, hread⟩ := hp
      have hcalled := hleave hrecords
      have hsofar : openAfter? env m'.activeCalls (.call f.name inside.depth :: es)
          = some (f.name :: m'.activeCalls) := by
        rw [← List.singleton_append, openAfter?_append_of hopen, ← hcalls]
        exact hread
      have hquiet' : Quiet (.call f.name inside.depth :: es) :=
        Quiet.append (quiet_singleton rfl) hquiet
      refine ⟨trivial, (ensures_finishCall_records hf pos flow p.popFrame).mono
        (fun _ _ _ => trivial) ?_ ?_⟩
      · intro result m'' hm''
        obtain ⟨value, hvalue, rfl⟩ := hm''
        refine ⟨_, hcalled.trans (.emit _ _), hquiet'.append (quiet_singleton rfl), ?_⟩
        rw [openAfter?_append_of hsofar, openAfter?_singleton, Event.openAfter?,
          if_pos ⟨rfl, hvalue⟩]
      · intro e m'' hm''
        obtain ⟨rfl, he⟩ := hm''
        exact ⟨_, _, hcalled, hsofar, announces_of_quiet hquiet' he⟩
    · intro e p hp
      obtain ⟨es, stack, hrecords, hread, hannounces⟩ := hp
      refine ⟨trivial, _, stack, hleave hrecords, ?_, hannounces.append (quiet_singleton rfl)⟩
      rw [← List.singleton_append, openAfter?_append_of hopen]
      exact hread
  · intro e m' hm'
    obtain ⟨rfl, he⟩ := hm'
    exact breaks_of_still (RuntimeCause.isPanic_of_isOrdinary he)

/-! ## Section 6: All parts, and the top level -/

theorem RuntimeCause.isPanic_of_isNameFault {cause : RuntimeCause}
    (h : cause.isNameFault = true) : cause.isPanic = false := by
  cases cause with
  | explicitPanic function => cases h
  | _ => rfl

/-- Functions are found under their own names. -/
def Env.Named (env : Env) : Prop :=
  ∀ name f, env.functions.get? name = some f → f.name = name

theorem inherited_brackets {env : Env} (hnamed : env.Named) :
    Inherited env (fun _ {_} x => Brackets env x) where
  pure _ := fun m _ => .pure (.refl m)
  fail _ _ hcause := fun m _ => .fail (breaks_of_still (RuntimeCause.isPanic_of_isOrdinary hcause))
  outOfFuel := fun _ _ => .outOfFuel
  reads _ _ := fun m _ => .reads (.refl m)
  bind := Brackets.bind
  declare name v := fun m _ =>
    .modify trivial (.of_silent (m.functions_mapScopes _) (m.events_mapScopes _))
  update pos name f := by
    intro m _
    apply ensures_update
    · intro cause hcause
      have hfault := Machine.isNameFault_of_cell hcause
      exact breaks_of_still (RuntimeCause.isPanic_of_isNameFault hfault)
    · intro c hc
      exact ⟨trivial, .of_silent (m.functions_modifyCell c name f) (m.events_modifyCell c name f)⟩
  inScope scope _ h := h.inScope scope
  enterStatement pos := by
    intro m hm
    refine .modify trivial ⟨_, .emit m _, quiet_singleton rfl, ?_⟩
    rw [openAfter?_singleton, Event.openAfter?, if_pos hm.depth_eq]
  runPanic pos := by
    intro m hm
    refine .bind (.reads (.bind (.modify trivial (.fail ?_))))
    refine ⟨_, m.activeCalls, .emit m _, ?_, [], m.depth, rfl, quiet_nil⟩
    rw [openAfter?_singleton, Event.openAfter?, if_pos ⟨hm.functionName?_eq, hm.depth_eq⟩]
  callWith {_ name f} pos args values {_} hf hbody := by
    obtain rfl := hnamed name f hf
    exact brackets_callWith hf pos args values hbody

/-- The events of an execution that succeeds close all calls, and one that ends the run is the
    last. -/
def Completes (env : Env) (m m' : Machine) : Prop :=
  ∃ es, Records m es m' ∧ openAfter? env [] es = some [] ∧
    (Quiet es ∨ ∃ before pos, es = before ++ [.topLevelReturn pos] ∧ Quiet before)

theorem brackets_runTopLevel {env : Env} (hnamed : env.Named) (fuel : Nat)
    (ss : List Statement) (m : Machine) (hm : m.functions = [none]) :
    Ensures (fun _ _ => True) (fun _ => Completes env m) (Breaks env m)
      (runTopLevel env fuel ss) m := by
  have hempty : ∀ {m' : Machine}, m'.functions = [none] → m'.activeCalls = [] :=
    fun h => Machine.activeCalls_of_functions [] h
  induction fuel generalizing ss m with
  | zero => rw [runTopLevel]; exact .outOfFuel
  | succ fuel ih =>
    cases ss with
    | nil =>
      rw [runTopLevel]
      exact .pure ⟨[], .refl m, rfl, .inl quiet_nil⟩
    | cons s rest =>
      rw [runTopLevel]
      have hfirst := ((inherited_brackets hnamed).parts fuel).runStatement s everywhere m ⟨[], hm⟩
      refine .bind (hfirst.mono (fun _ _ _ => trivial) ?_ (fun _ _ he => he))
      intro flow m' hm'
      have hfunctions : m'.functions = [none] := hm'.functions_eq.trans hm
      -- whatever is not a `return` goes on with the next statement
      have hnext : Ensures (fun _ _ => True) (fun _ => Completes env m) (Breaks env m)
          (runTopLevel env fuel rest) m' := by
        refine (ih rest m' hfunctions).mono (fun _ _ _ => trivial) ?_ (fun _ _ he => hm'.breaks he)
        intro _ m'' hm''
        obtain ⟨es, hrecords, hquiet, hread⟩ := hm'
        obtain ⟨es', hrecords', hread', hlast⟩ := hm''
        rw [hempty hm] at hread
        refine ⟨es ++ es', hrecords.trans hrecords', ?_, ?_⟩
        · rw [openAfter?_append_of hread]
          exact hread'
        · rcases hlast with hquiet' | ⟨before, pos, rfl, hbefore⟩
          · exact .inl (hquiet.append hquiet')
          · exact .inr ⟨es ++ before, pos, (List.append_assoc _ _ _).symm, hquiet.append hbefore⟩
      cases flow with
      | returned v =>
        obtain ⟨es, hrecords, hquiet, hread⟩ := hm'
        rw [hempty hm] at hread
        refine .modify trivial ⟨_, hrecords.trans (.emit m' (.topLevelReturn s.pos)), ?_,
          .inr ⟨es, s.pos, rfl, hquiet⟩⟩
        rw [openAfter?_append_of hread]
        rfl
      | next => exact hnext
      | broke => exact hnext
      | continued => exact hnext

/-! ## Section 7: Runs -/

/-- An event that ends a run stands at the end, if all events before the last one are quiet. -/
theorem Quiet.last {b before after : List Event} {e last : Event} (hb : Quiet b)
    (he : e.isLast = true) (h : b ++ [last] = before ++ e :: after) :
    before = b ∧ e = last ∧ after = [] := by
  rcases List.eq_nil_or_concat after with rfl | ⟨front, x, rfl⟩
  · obtain ⟨hbefore, hlast⟩ := List.append_inj' h rfl
    exact ⟨hbefore.symm, (List.cons.inj hlast).1.symm, rfl⟩
  · have hsplit : b ++ [last] = (before ++ e :: front) ++ [x] := by
      rw [h]
      simp
    have hmem : e ∈ b := by
      rw [(List.append_inj' hsplit rfl).1]
      exact List.mem_append_right _ List.mem_cons_self
    rw [hb e hmem] at he
    cases he

theorem Completes.wellBracketed {env : Env} {m m' : Machine} {succeeded : Prop}
    (h : Completes env m m') (hsucceeded : succeeded) :
    ∃ events, m'.events = events.reverse ++ m.events ∧ WellBracketed env events succeeded := by
  obtain ⟨es, hrecords, hread, hlast⟩ := h
  refine ⟨es, hrecords.events, WordLang.wellBracketed ⟨[], hread, fun _ => rfl⟩ ?_⟩
  intro before pos after hes
  refine ⟨?_, hsucceeded⟩
  rcases hlast with hquiet | ⟨b, pos', rfl, hquiet⟩
  · have hmem : Event.topLevelReturn pos ∈ es := by
      rw [hes]
      exact List.mem_append_right _ List.mem_cons_self
    exact nomatch hquiet _ hmem
  · exact (hquiet.last rfl hes).2.2

theorem Breaks.wellBracketed {env : Env} {m m' : Machine} {e : RuntimeError} {succeeded : Prop}
    (h : Breaks env m e m') (hm : m.activeCalls = []) (hfailed : ¬ succeeded) :
    ∃ events, m'.events = events.reverse ++ m.events ∧ WellBracketed env events succeeded := by
  obtain ⟨es, stack, hrecords, hread, hannounces⟩ := h
  rw [hm] at hread
  refine ⟨es, hrecords.events,
    WordLang.wellBracketed ⟨stack, hread, fun hs => absurd hs hfailed⟩ ?_⟩
  intro before pos after hes
  -- neither a panic nor any other failure goes with a return of the top level
  unfold Announces at hannounces
  split at hannounces
  · obtain ⟨b, depth, rfl, hquiet⟩ := hannounces
    exact nomatch (hquiet.last rfl hes).2.1
  · have hmem : Event.topLevelReturn pos ∈ es := by
      rw [hes]
      exact List.mem_append_right _ List.mem_cons_self
    exact nomatch hannounces _ hmem

namespace Program

variable {p : Program} {config : Config} {fuel : Nat}

theorem named_env (p : Program) (config : Config) : (p.env config).Named :=
  fun _ _ hf => (function_declared hf).2

/-- Between executions there is the frame of the top level and no other. -/
theorem Reaches.functions_eq {env : Env} {m : Machine} (h : p.Reaches env p.start m) :
    m.functions = [none] := by
  exact Machine.functions_of_kept (h.moved (fun fuel => kept_runTopLevel env fuel p.statements))

theorem completes_of_execute {m m' : Machine} (hm : m.functions = [none])
    (h : p.execute (p.env config) fuel m = .done () m') : Completes (p.env config) m m' :=
  (brackets_runTopLevel (p.named_env config) fuel p.statements m hm).done h

theorem breaks_of_execute {m m' : Machine} {e : RuntimeError} (hm : m.functions = [none])
    (h : p.execute (p.env config) fuel m = .fault e m') : Breaks (p.env config) m e m' :=
  (brackets_runTopLevel (p.named_env config) fuel p.statements m hm).fault h

/-- What a run shows: nothing but faults of declarations, or how its execution ends. -/
inductive Shown (p : Program) (config : Config) (fuel : Nat) :
    List Event → Except Error Memory → Prop where
  | rejected (errors : List DeclError) : Shown p config fuel [] (.error (.declarations errors))
  | done {m : Machine} (ends : p.execute (p.env config) fuel p.start = .done () m) :
      Shown p config fuel m.events.reverse (.ok (.ofStore m.store))
  | fault {e : RuntimeError} {m : Machine}
      (ends : p.execute (p.env config) fuel p.start = .fault e m) :
      Shown p config fuel m.events.reverse (.error (.runtime e))

theorem shown_of_trace {events : List Event} {result : Except Error Memory}
    (h : p.trace config fuel = some (events, result)) : p.Shown config fuel events result := by
  cases hcheck : p.check with
  | error errors =>
    unfold trace at h
    rw [hcheck] at h
    cases h
    exact .rejected errors
  | ok decls =>
    rw [trace_of_check hcheck] at h
    cases hend : p.execute (p.env config) fuel p.start with
    | done a m =>
      rw [hend] at h
      cases h
      exact .done hend
    | fault e m =>
      rw [hend] at h
      cases h
      exact .fault hend
    | outOfFuel =>
      rw [hend] at h
      cases h

theorem wellBracketed_of_execute {m m' : Machine} (hm : m.functions = [none])
    (h : (p.execute (p.env config) fuel m).machine? = some m') :
    ∃ events, m'.events = events.reverse ++ m.events ∧
      WellBracketed (p.env config) events (p.execute (p.env config) fuel m = .done () m') := by
  cases hend : p.execute (p.env config) fuel m with
  | done a last =>
    rw [hend] at h
    cases h
    exact (completes_of_execute hm hend).wellBracketed rfl
  | fault e last =>
    rw [hend] at h
    cases h
    exact (breaks_of_execute hm hend).wellBracketed
      (Machine.activeCalls_of_functions [] hm) nofun
  | outOfFuel => rw [hend] at h; cases h

/-- The events of a run are well bracketed.  Read with a stack of open calls, every call goes one
    deeper and stays within the limit, every return ends the innermost call with a value of the
    type that its function declares, and all other events tell the depth of their moment.  A
    return of the top level is the last event of a run that succeeds.  After a success no call is
    open, and every call has exactly one return.  The same holds for the events that an execution
    adds, whether or not the program passed the check and whatever was executed before. -/
theorem events_well_bracketed (p : Program) (config : Config) :
    (∀ fuel events result, p.trace config fuel = some (events, result) →
      WellBracketed (p.env config) events (∃ memory, result = .ok memory)) ∧
    ∀ m, p.Reaches (p.env config) p.start m →
      ∀ fuel m', (p.execute (p.env config) fuel m).machine? = some m' →
        ∃ events, m'.events = events.reverse ++ m.events ∧
          WellBracketed (p.env config) events (p.execute (p.env config) fuel m = .done () m') := by
  have hstart : p.start.functions = [none] := rfl
  constructor
  · intro fuel events result h
    cases shown_of_trace h with
    | rejected errors =>
      refine wellBracketed ⟨[], rfl, fun _ => rfl⟩ ?_
      intro before pos after hnil
      simp at hnil
    | @done m ends =>
      have hsucceeded : ∃ memory, (.ok (.ofStore m.store) : Except Error Memory) = .ok memory :=
        ⟨_, rfl⟩
      obtain ⟨es, hes, hbracketed⟩ := (completes_of_execute hstart ends).wellBracketed hsucceeded
      rw [hes, show p.start.events = [] from rfl, List.append_nil, List.reverse_reverse]
      exact hbracketed
    | @fault e m ends =>
      have hfailed : ¬ ∃ memory : Memory, Except.error (Error.runtime e) = .ok memory := by simp
      obtain ⟨es, hes, hbracketed⟩ := (breaks_of_execute hstart ends).wellBracketed rfl hfailed
      rw [hes, show p.start.events = [] from rfl, List.append_nil, List.reverse_reverse]
      exact hbracketed
  · intro m hm fuel m' hend
    exact wellBracketed_of_execute hm.functions_eq hend

/-- A function without a value calls one with a value, and then the top level returns. -/
def nestedCalls : Program :=
  ⟨[.function ⟨"g", [], some (.uint .byte), [.ret ⟨1, 11⟩ (some (.literal ⟨1, 18⟩ 7))], ⟨1, 1⟩⟩,
    .function ⟨"f", [], none, [.expr ⟨2, 8⟩ (.call ⟨2, 8⟩ "g" [])], ⟨2, 1⟩⟩,
    .statement (.expr ⟨3, 1⟩ (.call ⟨3, 1⟩ "f" [])),
    .statement (.ret ⟨4, 1⟩ none)]⟩

/-- With room for two calls both return; with room for one, the call that could not go deeper stays
    open.  An execution after the failed one starts anew. -/
theorem events_well_bracketed_nestedCalls :
    (∃ events memory, nestedCalls.trace ⟨2, .wrap⟩ 9 = some (events, .ok memory) ∧
      events = [.statement ⟨3, 1⟩ 0, .call "f" 1, .statement ⟨2, 8⟩ 1, .call "g" 2,
        .statement ⟨1, 11⟩ 2, .ret "g" (some (.scalar .byte 7)), .ret "f" none,
        .statement ⟨4, 1⟩ 0, .topLevelReturn ⟨4, 1⟩] ∧
      WellBracketed (nestedCalls.env ⟨2, .wrap⟩) events
        (∃ memory', (.ok memory : Except Error Memory) = .ok memory')) ∧
    ∃ m m', nestedCalls.Reaches (nestedCalls.env ⟨1, .wrap⟩) nestedCalls.start m ∧
      m.events = [.statement ⟨2, 8⟩ 1, .call "f" 1, .statement ⟨3, 1⟩ 0] ∧
      (nestedCalls.execute (nestedCalls.env ⟨1, .wrap⟩) 9 m).machine? = some m' ∧
      ∃ events, m'.events = events.reverse ++ m.events ∧
        WellBracketed (nestedCalls.env ⟨1, .wrap⟩) events
          (nestedCalls.execute (nestedCalls.env ⟨1, .wrap⟩) 9 m = .done () m') := by
  obtain ⟨hruns, -⟩ := events_well_bracketed nestedCalls ⟨2, .wrap⟩
  obtain ⟨-, hexecutions⟩ := events_well_bracketed nestedCalls ⟨1, .wrap⟩
  have hreaches := Reaches.execute (p := nestedCalls) .start (show
    (nestedCalls.execute (nestedCalls.env ⟨1, .wrap⟩) 9 nestedCalls.start).machine? = some _
      from rfl)
  exact ⟨⟨_, _, rfl, rfl, hruns 9 _ _ rfl⟩, _, _, hreaches, rfl, rfl,
    hexecutions _ hreaches 9 _ rfl⟩

end Program

end WordLang
