import WordLang.Proofs.Judgment

/-! # What computations leave in place

    Evaluating an expression leaves the whole stack of frames as it was; a
    statement touches the current frame only, and there it can do no more
    than change values and bind names in the innermost scope.  Slots of the
    store are never added or removed.

    `Kept R` is the common form of these facts: the frames below the current
    one are the same, and `R` relates the scopes of the current one.  Which
    `R` it is depends on the code: all of the semantics is judged at once,
    with the greatest change that the code at hand may make. -/

namespace WordLang

open Exec

/-! ## Section 1: Slots that stay -/

namespace Store

/-- Two stores with the same slots, whatever they hold, and the same constant tables. -/
structure SameSlots (s s' : Store) : Prop where
  globals : ∀ name, (s'.global? name).isSome = (s.global? name).isSome
  locals : ∀ function name, (s'.local? function name).isSome = (s.local? function name).isSome
  consts : s'.consts = s.consts

namespace SameSlots

theorem refl (s : Store) : SameSlots s s := ⟨fun _ => rfl, fun _ _ => rfl, rfl⟩

theorem trans {s s' s'' : Store} (h : SameSlots s s') (h' : SameSlots s' s'') :
    SameSlots s s'' :=
  ⟨fun name => (h'.globals name).trans (h.globals name),
   fun function name => (h'.locals function name).trans (h.locals function name),
   h'.consts.trans h.consts⟩

end SameSlots

theorem global?_modifyGlobal (s : Store) (name other : String) (f : Value → Value) :
    (s.modifyGlobal name f).global? other =
      if other = name then (s.global? other).map f else s.global? other := by
  unfold modifyGlobal global?
  split
  · next h => rw [h]; exact NameMap.get?_modify_self _ _ _
  · next h => exact NameMap.get?_modify_ne _ h _

theorem local?_modifyLocal (s : Store) (function name function' name' : String)
    (f : Value → Value) :
    (s.modifyLocal function name f).local? function' name' =
      if function' = function ∧ name' = name then (s.local? function' name').map f
      else s.local? function' name' := by
  unfold modifyLocal local?
  by_cases hf : function' = function
  · subst hf
    rw [NameMap.get?_modify_self]
    cases s.locals.get? function' with
    | none => simp
    | some slots =>
      by_cases hn : name' = name
      · subst hn
        simp
      · simp [hn, NameMap.get?_modify_ne]
  · rw [NameMap.get?_modify_ne _ hf, if_neg (fun h => hf h.1)]

theorem sameSlots_modifyGlobal (s : Store) (name : String) (f : Value → Value) :
    SameSlots s (s.modifyGlobal name f) := by
  refine ⟨fun other => ?_, fun _ _ => rfl, rfl⟩
  rw [global?_modifyGlobal]
  split <;> simp

theorem sameSlots_modifyLocal (s : Store) (function name : String) (f : Value → Value) :
    SameSlots s (s.modifyLocal function name f) := by
  refine ⟨fun _ => rfl, fun function' name' => ?_, rfl⟩
  rw [local?_modifyLocal]
  split <;> simp

end Store

/-! ## Section 2: Scopes and frames that stay -/

/-- Two lists of scopes that bind the same names, whatever the values. -/
def SameNames (ss ss' : List (NameMap Value)) : Prop :=
  ss'.map NameMap.keys = ss.map NameMap.keys

/-- Two lists of scopes that bind the same names, but for the innermost one of the second, which
    may bind more. -/
def MoreNames : List (NameMap Value) → List (NameMap Value) → Prop
  | [], ss' => ss' = []
  | s :: ss, ss' => ∃ s' rest, ss' = s' :: rest ∧ s.keys ⊆ s'.keys ∧ SameNames ss rest

namespace MoreNames

theorem refl (ss : List (NameMap Value)) : MoreNames ss ss := by
  cases ss with
  | nil => rfl
  | cons s ss => exact ⟨s, ss, rfl, fun _ h => h, rfl⟩

theorem trans {a b c : List (NameMap Value)} (h : MoreNames a b) (h' : MoreNames b c) :
    MoreNames a c := by
  cases a with
  | nil =>
    cases h
    exact h'
  | cons s ss =>
    obtain ⟨s', rest, rfl, hkeys, hnames⟩ := h
    obtain ⟨s'', rest', rfl, hkeys', hnames'⟩ := h'
    exact ⟨s'', rest', rfl, fun _ hn => hkeys' (hkeys hn), Eq.trans hnames' hnames⟩

theorem of_sameNames {ss ss' : List (NameMap Value)} (h : SameNames ss ss') :
    MoreNames ss ss' := by
  cases ss with
  | nil => exact List.map_eq_nil_iff.mp h
  | cons s ss =>
    cases ss' with
    | nil => cases h
    | cons s' rest =>
      obtain ⟨hkeys, hrest⟩ := List.cons.inj h
      exact ⟨s', rest, rfl, fun _ hn => hkeys ▸ hn, hrest⟩

end MoreNames

/-- `R` relates the scopes of the first frames, and all else is the same. -/
def KeptFrames (R : List (NameMap Value) → List (NameMap Value) → Prop) :
    List Frame → List Frame → Prop
  | [], fs' => fs' = []
  | f :: fs, fs' => ∃ scopes, fs' = ⟨f.function, scopes⟩ :: fs ∧ R f.scopes scopes

/-- The slots of the store are the same, and so are the frames but for the scopes of the current
    one, which `R` relates. -/
structure Kept (R : List (NameMap Value) → List (NameMap Value) → Prop) (m m' : Machine) :
    Prop where
  slots : Store.SameSlots m.store m'.store
  frames : KeptFrames R m.frames m'.frames

namespace Kept

variable {R R' : List (NameMap Value) → List (NameMap Value) → Prop} {m m' m'' : Machine}

theorem refl (hrefl : ∀ ss, R ss ss) (m : Machine) : Kept R m m := by
  refine ⟨.refl _, ?_⟩
  cases m.frames with
  | nil => rfl
  | cons f fs => exact ⟨f.scopes, rfl, hrefl _⟩

theorem trans (htrans : ∀ {a b c}, R a b → R b c → R a c) (h : Kept R m m')
    (h' : Kept R m' m'') : Kept R m m'' := by
  refine ⟨h.slots.trans h'.slots, ?_⟩
  have hf := h.frames
  have hf' := h'.frames
  cases hm : m.frames with
  | nil =>
    rw [hm] at hf
    rw [show m'.frames = [] from hf] at hf'
    exact hf'
  | cons f fs =>
    rw [hm] at hf
    obtain ⟨scopes, heq, hR⟩ := hf
    rw [heq] at hf'
    obtain ⟨scopes', heq', hR'⟩ := hf'
    exact ⟨scopes', heq', htrans hR hR'⟩

theorem mono (h : Kept R m m') (hR : ∀ ss ss', R ss ss' → R' ss ss') : Kept R' m m' := by
  refine ⟨h.slots, ?_⟩
  have hf := h.frames
  cases hm : m.frames with
  | nil => rw [hm] at hf; exact hf
  | cons f fs =>
    rw [hm] at hf
    obtain ⟨scopes, heq, hss⟩ := hf
    exact ⟨scopes, heq, hR _ _ hss⟩

/-- With the same scopes, all frames are the same. -/
theorem frames_eq (h : Kept Eq m m') : m'.frames = m.frames := by
  have hf := h.frames
  cases hm : m.frames with
  | nil => rw [hm] at hf; exact hf
  | cons f fs =>
    rw [hm] at hf
    obtain ⟨scopes, heq, hss⟩ := hf
    rw [heq, ← hss]

/-- Names do not go away while values stay. -/
theorem names (h : Kept Eq m m') : Kept SameNames m m' := by
  refine h.mono (fun ss ss' heq => ?_)
  subst heq
  rfl

theorem more (h : Kept SameNames m m') : Kept MoreNames m m' :=
  h.mono (fun _ _ => MoreNames.of_sameNames)

theorem of_frames_eq (hslots : Store.SameSlots m.store m'.store) (h : m'.frames = m.frames) :
    Kept Eq m m' :=
  ⟨hslots, h ▸ (refl (R := Eq) (fun _ => rfl) m).frames⟩

end Kept

/-! ## Section 3: Single changes -/

namespace Machine

@[simp] theorem store_mapScopes (m : Machine)
    (f : List (NameMap Value) → List (NameMap Value)) : (m.mapScopes f).store = m.store := by
  rcases m with ⟨store, _ | ⟨frame, rest⟩, events⟩ <;> rfl

@[simp] theorem events_mapScopes (m : Machine)
    (f : List (NameMap Value) → List (NameMap Value)) : (m.mapScopes f).events = m.events := by
  rcases m with ⟨store, _ | ⟨frame, rest⟩, events⟩ <;> rfl

@[simp] theorem length_frames_mapScopes (m : Machine)
    (f : List (NameMap Value) → List (NameMap Value)) :
    (m.mapScopes f).frames.length = m.frames.length := by
  rcases m with ⟨store, _ | ⟨frame, rest⟩, events⟩ <;> rfl

theorem kept_emit (m : Machine) (e : Event) : Kept Eq m (m.emit e) :=
  .of_frames_eq (.refl _) rfl

theorem kept_mapScopes {R : List (NameMap Value) → List (NameMap Value) → Prop} (m : Machine)
    {f : List (NameMap Value) → List (NameMap Value)} (h : ∀ ss, R ss (f ss)) :
    Kept R m (m.mapScopes f) := by
  refine ⟨store_mapScopes m f ▸ .refl _, ?_⟩
  rcases m with ⟨store, _ | ⟨frame, rest⟩, events⟩
  · rfl
  · exact ⟨f frame.scopes, rfl, h _⟩

theorem sameNames_modify (ss : List (NameMap Value)) (i : Nat) (name : String)
    (f : Value → Value) : SameNames ss (ss.modify i (fun s => s.modify name f)) := by
  apply List.ext_getElem?
  intro j
  rw [List.getElem?_map, List.getElem?_map, List.getElem?_modify]
  split <;> cases ss[j]? <;> simp

theorem kept_modifyCell (m : Machine) (c : Cell) (name : String) (f : Value → Value) :
    Kept SameNames m (m.modifyCell c name f) := by
  cases c with
  | scope i => exact m.kept_mapScopes (fun ss => sameNames_modify ss i name f)
  | static function =>
    have h : Kept Eq m (m.modifyCell (.static function) name f) :=
      .of_frames_eq (m.store.sameSlots_modifyLocal function name f) rfl
    exact h.names
  | global =>
    have h : Kept Eq m (m.modifyCell .global name f) :=
      .of_frames_eq (m.store.sameSlots_modifyGlobal name f) rfl
    exact h.names

theorem length_frames_modifyCell (m : Machine) (c : Cell) (name : String) (f : Value → Value) :
    (m.modifyCell c name f).frames.length = m.frames.length := by
  cases c with
  | scope index => exact m.length_frames_mapScopes _
  | static function => rfl
  | global => rfl

/-- Where there are as many frames as in a state with frames, there are frames. -/
theorem ne_nil_of_height {m m' : Machine} (hm : m.frames ≠ [])
    (h : m'.frames.length = m.frames.length) : m'.frames ≠ [] := by
  intro hnil
  rw [hnil] at h
  exact hm (List.length_eq_zero_iff.mp h.symm)

end Machine

theorem MoreNames.bindInnermost {name : String} (v : Value) (ss : List (NameMap Value)) :
    MoreNames ss (Machine.bindInnermost name v ss) := by
  cases ss with
  | nil => rfl
  | cons s ss => exact ⟨s.insert name v, ss, rfl, s.keys_subset_insert name v, rfl⟩

namespace Machine

/-- What runs in a scope of its own leaves the other scopes with their names. -/
theorem kept_of_pushScope {m m' : Machine} {scope : NameMap Value}
    (h : Kept MoreNames (m.pushScope scope) m') : Kept SameNames m m'.popScope := by
  obtain ⟨hslots, hframes⟩ := h
  rw [pushScope, store_mapScopes] at hslots
  refine ⟨by rw [popScope, store_mapScopes]; exact hslots, ?_⟩
  rcases m with ⟨store, _ | ⟨frame, rest⟩, events⟩
  -- where there is no frame there is no scope to push either
  · rcases m' with ⟨store', fs', events'⟩
    cases show fs' = [] from hframes
    rfl
  -- the scope that was pushed is the only one that can have grown, and it goes
  · obtain ⟨scopes, heq, s', ss', rfl, -, hnames⟩ := hframes
    rcases m' with ⟨store', fs', events'⟩
    cases show fs' = _ from heq
    exact ⟨ss', rfl, hnames⟩

/-- What runs in a frame of its own leaves all other frames as they were. -/
theorem kept_of_pushFrame {m m' : Machine} {frame : Frame}
    (h : Kept MoreNames (m.pushFrame frame) m') : Kept Eq m m'.popFrame := by
  obtain ⟨hslots, hframes⟩ := h
  refine .of_frames_eq hslots ?_
  obtain ⟨scopes, heq, -⟩ := hframes
  show m'.frames.tail = m.frames
  rw [heq]
  rfl

end Machine

instance : Composes (Kept Eq) :=
  ⟨Kept.refl (fun _ => rfl), Kept.trans Eq.trans⟩

instance : Composes (Kept SameNames) :=
  ⟨Kept.refl (fun _ => rfl), Kept.trans (fun h h' => Eq.trans h' h)⟩

instance : Composes (Kept MoreNames) :=
  ⟨Kept.refl MoreNames.refl, Kept.trans MoreNames.trans⟩

/-! ## Section 4: The parts of the semantics that do not call each other -/

section parts

variable {R : Machine → Machine → Prop} [Composes R]

theorem moves_scalar (pos : Position) (v : Value) : Moves R (scalar pos v) :=
  fun m => ensures_scalar pos v (fun _ _ => Composes.refl m) (fun _ _ _ => Composes.refl m)

theorem moves_wordOf (pos : Position) (w : Width) (v : Value) : Moves R (wordOf pos w v) :=
  fun m => ensures_wordOf pos w v (fun _ _ => Composes.refl m) (fun _ => Composes.refl m)

theorem moves_expectType (pos : Position) (ty : Ty) (v : Value) :
    Moves R (expectType pos ty v) :=
  fun m => ensures_expectType pos ty v (fun _ _ => Composes.refl m) (fun _ => Composes.refl m)

theorem moves_literal (pos : Position) (value : Nat) (w : Width) :
    Moves R (literal pos value w) :=
  fun m => ensures_literal pos value w (fun _ _ => Composes.refl m) (fun _ _ => Composes.refl m)

theorem moves_applyOp (pos : Position) (symbol : String) (op : BinOp) (w : Width) (a b : Nat)
    (policy : Overflow) : Moves R (applyOp pos symbol op w a b policy) :=
  fun m => ensures_applyOp pos symbol op w a b policy (fun _ _ => Composes.refl m)
    (fun _ _ _ => Composes.refl m)

theorem moves_read (pos : Position) (name : String) : Moves R (read pos name) :=
  fun m => ensures_read pos name (fun _ => Composes.refl m) (fun _ _ => Composes.refl m)

theorem moves_readElement (pos : Position) (array : String) (i : Nat) :
    Moves R (readElement pos array i) :=
  fun m => ensures_readElement pos array i (fun _ _ => Composes.refl m)
    (fun _ => Composes.refl m) (fun _ _ _ _ _ => Composes.refl m)

theorem moves_target (pos : Position) (name : String) (index : Option Nat) :
    Moves R (target pos name index) :=
  fun m => ensures_target pos name index (fun _ _ => Composes.refl m) (fun _ => Composes.refl m)
    (fun _ _ _ => Composes.refl m)

theorem moves_prepareCall (env : Env) (pos : Position) (f : Function) (args : List Expr)
    (values : List Value) : Moves R (prepareCall env pos f args values) :=
  fun m => ensures_prepareCall env pos f args values (fun _ _ => Composes.refl m)
    (fun _ => Composes.refl m)

end parts

theorem kept_enterStatement (pos : Position) : Moves (Kept Eq) (enterStatement pos) :=
  .modify (fun m => m.kept_emit _)

theorem kept_runPanic (pos : Position) : Moves (Kept Eq) (runPanic pos) :=
  fun m => ensures_runPanic pos (fun _ => trivial) (fun _ ev _ => m.kept_emit ev)

theorem kept_finishCall (pos : Position) (f : Function) (flow : Flow) :
    Moves (Kept Eq) (finishCall pos f flow) :=
  fun m => ensures_finishCall pos f flow (fun _ _ => Composes.refl m) (fun _ => trivial)
    (fun _ ev _ => m.kept_emit ev)

theorem kept_update (pos : Position) (name : String) (f : Value → Value) :
    Moves (Kept SameNames) (update pos name f) :=
  fun m => ensures_update pos name f (fun _ _ => Composes.refl m)
    (fun c _ => ⟨trivial, m.kept_modifyCell c name f⟩)

theorem kept_inScope {α : Type} {x : Exec α} (scope : NameMap Value)
    (h : Moves (Kept MoreNames) x) : Moves (Kept SameNames) (inScope scope x) :=
  h.within (fun _ _ => Machine.kept_of_pushScope)

theorem kept_inFrame {α : Type} {x : Exec α} (frame : Frame)
    (h : Moves (Kept MoreNames) x) : Moves (Kept Eq) (inFrame frame x) :=
  h.within (fun _ _ => Machine.kept_of_pushFrame)

theorem kept_callWith (env : Env) (pos : Position) {f : Function} (args : List Expr)
    (values : List Value) {body : Exec Flow} (h : Moves (Kept MoreNames) body) :
    Moves (Kept Eq) (callWith env pos f args values body) := by
  unfold callWith
  refine .bind (moves_prepareCall _ _ _ _ _) (fun _ =>
    .bind (kept_inFrame _ (.bind (.modify (fun m => ?_)) (fun _ => h)))
      (fun _ => kept_finishCall _ _ _))
  exact (m.kept_emit _).names.more

/-! ## Section 5: All parts of the semantics -/

/-- How much of the scopes of the current frame may change. -/
inductive ScopeChange where
  | nothing
  | values
  /-- Names may be added to the innermost scope too. -/
  | names

namespace ScopeChange

/-- The scopes before and after. -/
def Allows : ScopeChange → List (NameMap Value) → List (NameMap Value) → Prop
  | nothing => Eq
  | values => SameNames
  | names => MoreNames

instance (l : ScopeChange) : Composes (Kept l.Allows) := by
  cases l with
  | nothing => exact inferInstanceAs (Composes (Kept Eq))
  | values => exact inferInstanceAs (Composes (Kept SameNames))
  | names => exact inferInstanceAs (Composes (Kept MoreNames))

variable {α : Type} {x : Exec α} {l : ScopeChange}

theorem moves_of_nothing (h : Moves (Kept Eq) x) : Moves (Kept l.Allows) x := by
  cases l with
  | nothing => exact h
  | values => exact h.mono (fun _ _ hm => hm.names)
  | names => exact h.mono (fun _ _ hm => hm.names.more)

theorem moves_of_values (hl : l ≠ nothing) (h : Moves (Kept SameNames) x) :
    Moves (Kept l.Allows) x := by
  cases l with
  | nothing => exact absurd rfl hl
  | values => exact h
  | names => exact h.mono (fun _ _ hm => hm.more)

/-- An expression may stand anywhere, a `let` only where names may be added. -/
def discipline : Discipline ScopeChange where
  stmt l s := l ≠ nothing ∧ ∀ pos name ty value, s = .letVar pos name ty value → l = names
  block l _ := l = names
  assigns l _ _ := l ≠ nothing
  opens l := l ≠ nothing
  inside _ _ _ := names
  knows := False

theorem lawful_discipline : discipline.Lawful where
  expr_parts _ :=
    Discipline.exprParts_of_forall (fun _ => trivial) (fun _ => trivial) (fun _ _ => trivial)
      (fun _ _ => trivial) _
  args_parts _ := ⟨trivial, trivial⟩
  stmt_parts {_ s} h := by
    cases s with
    | assign pos op place value =>
      cases place with
      | var name => exact ⟨h.1, trivial⟩
      | elem offset array => exact ⟨⟨trivial, h.1⟩, trivial⟩
    | ifThen => exact ⟨trivial, h.1, rfl⟩
    | ifElse => exact ⟨trivial, h.1, rfl, rfl⟩
    | forRange => exact ⟨trivial, trivial, h.1, rfl⟩
    | loop => exact ⟨h.1, rfl⟩
    | ret pos value => cases value with
      | none => trivial
      | some value => exact ⟨trivial, fun _ _ => trivial⟩
    | _ => trivial
  block_parts {l s _} h := by
    cases (show l = names from h)
    refine ⟨⟨nofun, fun _ _ _ _ _ => rfl⟩, ?_⟩
    cases s <;> rfl
  reads_of_assigns _ := trivial
  value_of_inRange _ := trivial
  value_element _ _ := trivial
  flow_next := trivial
  flow_branch _ := trivial
  flow_round _ := trivial
  flow_bind _ := trivial

/-- A judgment about one run, which keeps what is not allowed to change. -/
abbrev judgment : Judgment ScopeChange :=
  fun _ l {_} x _ _ l' => l' = l ∧ Moves (Kept l.Allows) x

theorem rules (env : Env) : FullRules discipline (.self env) judgment where
  lawful := lawful_discipline
  functions := Pairing.pairsFunctions_self env
  pure _ := ⟨rfl, .pure⟩
  fail _ _ _ := ⟨rfl, .fail⟩
  outOfFuel hl _ := ⟨hl.elim id (fun ⟨_, hl⟩ => hl), .outOfFuel⟩
  succ hx := hx
  bind := by
    intro _ _ _ _ _ _ ⟨a⟩ _ _ _ _ _ _ ⟨hl, hx⟩ hf
    subst hl
    exact ⟨(hf a nofun).1, hx.bind (fun a => (hf a nofun).2)⟩
  weaken hx _ := hx
  forget hx := hx
  read pos name _ := ⟨rfl, moves_read pos name⟩
  operandHints _ _ _ _ := ⟨rfl, .reads⟩
  returnHint := ⟨rfl, .reads⟩
  applyOp pos symbol op w a b := ⟨rfl, moves_applyOp pos symbol op w a b _⟩
  declare {_ l _ name _ _ v} hlet _ := by
    cases hlet.2 _ _ _ _ rfl
    exact ⟨rfl, .modify (fun m => m.kept_mapScopes (.bindInnermost v))⟩
  inScope scope hopens _ _ hx := ⟨rfl, moves_of_values hopens (kept_inScope scope hx.2)⟩
  enterStatement pos := ⟨rfl, moves_of_nothing (kept_enterStatement pos)⟩
  runPanic pos := ⟨rfl, moves_of_nothing (kept_runPanic pos)⟩
  noFunction _ _ := ⟨rfl, .fail⟩
  -- what the body does to its scopes goes away with its frame
  callWith args values _ _ _ _ hbody :=
    ⟨rfl, moves_of_nothing (kept_callWith _ _ args values (hbody names rfl).2)⟩
  update pos name f h := ⟨rfl, moves_of_values h (kept_update pos name f)⟩

end ScopeChange

section

variable (env : Env) (fuel : Nat)

/-- Whatever the fuel, every part of the semantics keeps the frames and slots. -/
theorem keepsFrames : Parts ScopeChange.discipline (.self env) ScopeChange.judgment fuel :=
  (ScopeChange.rules env).parts fuel

theorem kept_eval (e : Expr) (hint : Option Width) : Moves (Kept Eq) (eval env fuel e hint) :=
  ((keepsFrames env fuel).eval (c := .nothing) e hint trivial).2

theorem kept_runAssign (pos : Position) (op : AssignOp) (place : Place) (value : Expr) :
    Moves (Kept SameNames) (runAssign env fuel pos op place value) :=
  ((keepsFrames env fuel).runAssign (c := .values) pos op place value ⟨nofun, nofun⟩).2

/-- A statement that is no `let` leaves the names as they were. -/
theorem kept_runStatement {s : Statement}
    (hs : ∀ pos name ty value, s ≠ .letVar pos name ty value) :
    Moves (Kept SameNames) (runStatement env fuel s) :=
  ((keepsFrames env fuel).runStatement (c := .values) (Pairing.counterpart_relocate s)
    ⟨nofun, fun _ _ _ _ heq => absurd heq (hs _ _ _ _)⟩).2

/-- A `let` binds its name in the innermost scope, if it comes to that. -/
theorem kept_runStatement_let {R : List (NameMap Value) → List (NameMap Value) → Prop}
    [Composes (Kept R)] (hR : ∀ ss ss', SameNames ss ss' → R ss ss') (pos : Position)
    (name : String) (ty : Ty) (value : Expr)
    (hbind : ∀ v ss, R ss (Machine.bindInnermost name v ss)) :
    Moves (Kept R) (runStatement env (fuel + 1) (.letVar pos name ty value)) := by
  rw [runStatement.eq_def]
  refine .bind ((kept_enterStatement _).mono (fun _ _ h => h.names.mono hR)) (fun _ => ?_)
  refine .bind ((kept_eval env fuel _ _).mono (fun _ _ h => h.names.mono hR)) (fun v => ?_)
  refine .bind (moves_expectType _ _ _) (fun _ => .bind (.modify (fun m => ?_)) (fun _ => .pure))
  exact m.kept_mapScopes (hbind v)

theorem kept_runTopLevel (ss : List Statement) :
    Moves (Kept MoreNames) (runTopLevel env fuel ss) := by
  refine ((ScopeChange.rules env).runTopLevel (keepsFrames env) (fun _ l pos => ⟨rfl, ?_⟩)
    Pairing.counterpart_relocate fuel (c := .names) ss rfl).2
  exact ScopeChange.moves_of_nothing (.modify (fun m => m.kept_emit _))

end

end WordLang
