import WordLang.Proofs.Following
import WordLang.Proofs.Judgment

/-! # Runs keep pace

    A run that has more means than another one, of the same program up to
    its places, follows it step by step.  For the parts of the semantics that
    do not call each other this is shown one by one, and what is built from
    them follows by the rules for judgments.

    Only two parts can tell the runs apart.  An operator asks what to do
    with a result that does not fit, and a call asks whether one more call
    may be active. -/

namespace WordLang

open Exec

variable {c : Comparison}

/-! ## Section 1: The parts that do not call each other -/

theorem tracks_expectType (pos : Position) (ty : Ty) (v : Value) :
    Tracks c (expectType pos ty v) (expectType (c.move pos) ty v) := by
  unfold expectType
  split
  · exact .pure
  · exact .fail rfl

theorem BinOp.trap_of_apply_eq_overflow {op : BinOp} {w : Width} {a b : Nat} {policy : Overflow}
    (h : op.apply w a b policy = .error .overflow) : policy = .trap := by
  unfold apply at h
  split at h
  · cases h
  · split at h
    · next hover => exact hover.1
    · cases h

/-- Without a trap an operator gives the same, or a value where it would have trapped. -/
theorem BinOp.apply_wrap (op : BinOp) (w : Width) (a b : Nat) :
    op.apply w a b .wrap = op.apply w a b .trap ∨
      op.apply w a b .trap = .error .overflow ∧ ∃ v, op.apply w a b .wrap = .ok v := by
  unfold apply
  by_cases hdiv : (op.divides && b == 0) = true
  · left
    rw [if_pos hdiv, if_pos hdiv]
  · by_cases hover : op.overflows w a b = true
    · right
      simp [hdiv, hover]
    · left
      simp [hdiv, hover]

theorem tracks_applyOp (pos : Position) (symbol : String) (op : BinOp) (w : Width) (a b : Nat) :
    Tracks c (applyOp pos symbol op w a b c.low.overflow)
      (applyOp (c.move pos) symbol op w a b c.high.overflow) := by
  intro m hm
  have hsame : op.apply w a b c.high.overflow = op.apply w a b c.low.overflow →
      Follows c (applyOp pos symbol op w a b c.low.overflow)
        (applyOp (c.move pos) symbol op w a b c.high.overflow) m := by
    intro heq
    unfold applyOp
    rw [heq]
    cases happly : op.apply w a b c.low.overflow with
    | ok v => exact .pure
    | error fault =>
      cases fault with
      | divisionByZero => exact .fail rfl
      | overflow =>
        rw [happly] at heq
        exact .fault rfl rfl (.same pos (fun _ => op.trap_of_apply_eq_overflow heq))
  cases hhigh : c.high.overflow with
  | trap =>
    rw [hhigh, c.overflow_le hhigh] at hsame
    rw [c.overflow_le hhigh]
    exact hsame rfl
  | wrap =>
    cases hlow : c.low.overflow with
    | wrap =>
      rw [hhigh, hlow] at hsame
      exact hsame rfl
    | trap =>
      rw [hhigh, hlow] at hsame
      rcases op.apply_wrap w a b with heq | ⟨htrap, v, hwrap⟩
      · exact hsame heq
      -- the second run has not moved yet, but it goes on from here
      · have hfirst : (applyOp pos symbol op w a b .trap m).outcome =
            .fault ⟨pos, .arithmeticOverflow symbol w⟩ m := by
          unfold applyOp
          rw [htrap]
          rfl
        exact .cut hfirst .start (.overflow hlow hhigh)

theorem tracks_read (pos : Position) (name : String) :
    Tracks c (read pos name) (read (c.move pos) name) := by
  refine .bind (.reads (fun m => m.read?_relocate c.move name)) (fun found => ?_)
  cases found with
  | none => exact .fail rfl
  | some v => exact .pure

theorem RuntimeCause.isOverflow_of_isAboutValue {cause : RuntimeCause}
    (h : cause.isAboutValue = true) : cause.isOverflow = false := by
  cases cause with
  | arithmeticOverflow op w => cases h
  | _ => rfl

theorem RuntimeCause.isOverflow_of_isNameFault {cause : RuntimeCause}
    (h : cause.isNameFault = true) : cause.isOverflow = false := by
  cases cause with
  | arithmeticOverflow op w => cases h
  | _ => rfl

/-- Looking for a cell fails only by blaming the name. -/
theorem Machine.isNameFault_of_cell {m : Machine} {name : String} {cause : RuntimeCause}
    (h : m.cell name = .error cause) : cause.isNameFault = true := by
  unfold cell at h
  split at h
  · cases h
  · split at h
    · cases h
    · split at h
      · cases h
      · split at h <;> cases h <;> rfl

theorem tracks_update (pos : Position) (name : String) (f : Value → Value) :
    Tracks c (update pos name f) (update (c.move pos) name f) := by
  intro m _
  refine .bind (.reads (m.cell_relocate c.move name)) (fun found m' hfound _ => ?_)
  cases hfound
  dsimp only
  cases hcell : m.cell name with
  | error cause =>
    exact .fail (RuntimeCause.isOverflow_of_isNameFault (Machine.isNameFault_of_cell hcell))
  | ok cell =>
    exact .modify (m.modifyCell_relocate c.move cell name f)
      (m.length_frames_modifyCell cell name f)

theorem tracks_emit {e e' : Machine → Event}
    (h : ∀ m, e' (m.relocate c.move) = (e m).relocate c.move) :
    Tracks c (modify fun m => m.emit (e m)) (modify fun m => m.emit (e' m)) := by
  refine .modify (fun m => ?_) (fun _ => rfl)
  rw [h]
  rfl

theorem tracks_runPanic (pos : Position) : Tracks c (runPanic pos) (runPanic (c.move pos)) := by
  refine .bind (.reads (fun m => m.functionName?_relocate c.move)) (fun function => ?_)
  refine .bind (tracks_emit (fun m => ?_)) (fun _ => .fail rfl)
  rw [m.depth_relocate]
  rfl

theorem tracks_finishCall (pos : Position) (f : Function) (flow : Flow) :
    Tracks c (finishCall pos f flow) (finishCall (c.move pos) (f.relocate c.move) flow) := by
  unfold finishCall
  rw [show (f.relocate c.move).ret = f.ret from rfl]
  split
  · exact .bind (tracks_emit (fun _ => rfl)) (fun _ => .pure)
  · exact .bind (tracks_expectType _ _ _) (fun _ =>
      .bind (tracks_emit (fun _ => rfl)) (fun _ => .pure))
  · exact .fail rfl

/-! ## Section 2: Calls -/

theorem tracks_bindParams (scope : NameMap Value) (ps : List Param) (poss : List Position)
    (vs : List Value) :
    Tracks c (bindParams scope ps poss vs) (bindParams scope ps (poss.map c.move) vs) := by
  induction ps generalizing scope poss vs with
  | nil => exact .pure
  | cons p ps ih =>
    cases poss with
    | nil => exact .pure
    | cons pos poss =>
      cases vs with
      | nil => exact .pure
      | cons v vs => exact .bind (tracks_expectType pos p.ty v) (fun _ => ih _ poss vs)

section

variable (fns fns' : NameMap Function) (pos : Position) (f : Function) (args : List Expr)
variable (values : List Value) {m : Machine}

/-- Where the limits give one answer, so does all of what comes before a call. -/
theorem follows_prepareCall (hm : m.frames ≠ [])
    (h : c.low.maxDepth ≤ m.depth → c.high.maxDepth ≤ m.depth) :
    Follows c (prepareCall ⟨fns, c.low⟩ pos f args values)
      (prepareCall ⟨fns', c.high⟩ (c.move pos) (f.relocate c.move) (Expr.relocateAll c.move args)
        values) m := by
  unfold prepareCall
  rw [show (f.relocate c.move).params = f.params from rfl, Expr.map_pos_relocateAll]
  split
  · exact .fail rfl
  · refine (tracks_bindParams _ _ _ _ m hm).bind (fun params m' _ height => ?_)
    refine .bind (.reads (m'.depth_relocate c.move)) (fun depth m'' hdepth _ => ?_)
    cases hdepth
    have hsame : m'.depth = m.depth := congrArg (· - 1) height
    dsimp only
    rw [hsame]
    by_cases hlow : c.low.maxDepth ≤ m.depth
    · rw [if_pos hlow, if_pos (h hlow)]
      exact .fault rfl rfl (.exhausted pos)
    · have hhigh : ¬ c.high.maxDepth ≤ m.depth := fun hle => hlow (Nat.le_trans c.depth_le hle)
      rw [if_neg hlow, if_neg hhigh]
      exact .pure

/-- Where only the second run may call, it is ready to do so when the first run stops. -/
theorem prepareCall_cut (hm : m.frames ≠ []) (hlow : c.low.maxDepth ≤ m.depth)
    (hhigh : m.depth < c.high.maxDepth) :
    Follows c (prepareCall ⟨fns, c.low⟩ pos f args values)
      (prepareCall ⟨fns', c.high⟩ (c.move pos) (f.relocate c.move) (Expr.relocateAll c.move args)
        values) m ∨
    ∃ params m',
      (prepareCall ⟨fns, c.low⟩ pos f args values m).outcome =
        .fault ⟨pos, .stackExhausted c.low.maxDepth⟩ m' ∧
      (prepareCall ⟨fns', c.high⟩ (c.move pos) (f.relocate c.move) (Expr.relocateAll c.move args)
        values (m.relocate c.move)).outcome = .done params (m'.relocate c.move) ∧
      m'.frames.length = m.frames.length := by
  unfold prepareCall
  rw [show (f.relocate c.move).params = f.params from rfl, Expr.map_pos_relocateAll]
  split
  · exact .inl (.fail rfl)
  · cases tracks_bindParams (c := c) .empty f.params (args.map Expr.pos) values m hm with
    | done first second height =>
      rename_i params m'
      have hsame : m'.depth = m.depth := congrArg (· - 1) height
      refine .inr ⟨params, m', (outcome_bind_done first).trans ?_,
        (outcome_bind_done second).trans ?_, height⟩
      · refine (outcome_bind_done (a := m'.depth) rfl).trans ?_
        rw [if_pos (hsame ▸ hlow)]
        rfl
      · refine (outcome_bind_done (a := m'.depth) (congrArg (Outcome.done · _) ?_)).trans ?_
        · exact m'.depth_relocate c.move
        · rw [if_neg (Nat.not_le.mpr (hsame ▸ hhigh))]
          rfl
    | fault first second alike =>
      exact .inl (.fault (outcome_bind_fault first) (outcome_bind_fault second) alike)
    | starved first second =>
      exact .inl (.starved (outcome_bind_outOfFuel first)
        (fun hextra => outcome_bind_outOfFuel (second hextra)))
    | cut first second cuts =>
      exact .inl (.cut (outcome_bind_fault first) (.bind_left second) cuts)

/-- A call from its arguments on.  If only the second run may call, its next event is that of a call
    deeper than the first run allows. -/
theorem tracks_enterCall {body body' : Exec Flow} (hbody : Tracks c body body') :
    Tracks c
      (prepareCall ⟨fns, c.low⟩ pos f args values >>= fun params =>
        inFrame (.call f params) (modify (fun m => m.emit (.call f.name m.depth)) >>= fun _ => body)
          >>= finishCall pos f)
      (prepareCall ⟨fns', c.high⟩ (c.move pos) (f.relocate c.move) (Expr.relocateAll c.move args)
          values >>= fun params =>
        inFrame (.call (f.relocate c.move) params)
            (modify (fun m => m.emit (.call f.name m.depth)) >>= fun _ => body')
          >>= finishCall (c.move pos) (f.relocate c.move)) := by
  have hcalled : ∀ params, Tracks c
      (inFrame (.call f params) (modify (fun m => m.emit (.call f.name m.depth)) >>= fun _ => body)
        >>= finishCall pos f)
      (inFrame (.call (f.relocate c.move) params)
          (modify (fun m => m.emit (.call f.name m.depth)) >>= fun _ => body')
        >>= finishCall (c.move pos) (f.relocate c.move)) := by
    intro params
    refine .bind (.inFrame (.call f params) (.bind (tracks_emit (fun m => ?_)) (fun _ => hbody)))
      (fun flow => tracks_finishCall pos f flow)
    rw [m.depth_relocate]
    rfl
  intro m hm
  by_cases hboth : c.low.maxDepth ≤ m.depth → c.high.maxDepth ≤ m.depth
  · exact (follows_prepareCall fns fns' pos f args values hm hboth).bind
      (fun params m' _ height => hcalled params m' (Machine.ne_nil_of_height hm height))
  · obtain ⟨hlow, hhigh⟩ := Classical.not_imp.mp hboth
    have hlt : m.depth < c.high.maxDepth := Nat.lt_of_not_le hhigh
    rcases prepareCall_cut fns fns' pos f args values hm hlow hlt with hfollows | hcut
    · exact hfollows.bind
        (fun params m' _ height => hcalled params m' (Machine.ne_nil_of_height hm height))
    · obtain ⟨params, m', hfirst, hsecond, height⟩ := hcut
      -- one frame more is one call more, as there is a frame to begin with
      have hdeeper : c.low.maxDepth < m'.frames.length := by
        have hpos : 0 < m.frames.length := List.length_pos_iff.mpr hm
        have hdepth : m.depth = m.frames.length - 1 := rfl
        omega
      have hthrough := Execution.Through.bind_right (f := fun params =>
        inFrame (.call (f.relocate c.move) params)
            (modify (fun m => m.emit (.call f.name m.depth)) >>= fun _ => body')
          >>= finishCall (c.move pos) (f.relocate c.move)) hsecond
        (.bind_left (.within (.bind_left .modify)))
      refine .cut (outcome_bind_fault hfirst) hthrough ?_
      refine .depth (Nat.lt_of_le_of_lt hlow hlt) ?_
      simpa [Machine.depth, Machine.pushFrame] using hdeeper

end

/-! ## Section 3: What is known beforehand -/

/-- The functions of the second run are those of the first with their places moved. -/
def SameFunctions (c : Comparison) (fns fns' : NameMap Function) : Prop :=
  ∀ name, fns'.get? name = (fns.get? name).map (Function.relocate c.move)

theorem staticWidth_relocate {fns fns' : NameMap Function} (h : SameFunctions c fns fns')
    (m : Machine) (e : Expr) :
    staticWidth ⟨fns', c.high⟩ (m.relocate c.move) (e.relocate c.move) =
      staticWidth ⟨fns, c.low⟩ m e := by
  fun_induction staticWidth ⟨fns, c.low⟩ m e with
  | case1 pos value => rfl
  | case2 pos name => simp [Expr.relocate, staticWidth]
  | case3 pos offset array element items hread =>
    simp [Expr.relocate, staticWidth, hread]
  | case4 pos offset array hread =>
    simp only [Expr.relocate, staticWidth, Machine.read?_relocate]
  | case5 pos op left right hbool => simp [Expr.relocate, staticWidth, hbool]
  | case6 pos op left right hbool ihleft ihright =>
    simp only [Expr.relocate, staticWidth, if_neg hbool, ihleft, ihright]
  | case7 pos function args =>
    simp only [Expr.relocate, staticWidth, h function]
    cases fns.get? function <;> rfl

theorem operandHints_relocate {fns fns' : NameMap Function} (h : SameFunctions c fns fns')
    (op : BinOp) (left right : Expr) (hint : Option Width) (m : Machine) :
    operandHints ⟨fns', c.high⟩ op (left.relocate c.move) (right.relocate c.move) hint
        (m.relocate c.move) =
      operandHints ⟨fns, c.low⟩ op left right hint m := by
  simp only [operandHints, staticWidth_relocate h]

theorem returnHint_relocate (m : Machine) : returnHint (m.relocate c.move) = returnHint m := by
  rw [returnHint, returnHint, m.function?_relocate]
  cases m.function? <;> rfl

/-! ## Section 4: All parts of the semantics -/

/-- A judgment about two runs, of which the second one tracks the first with this much more fuel. -/
abbrev Tracks.judgment (c : Comparison) : Judgment Unit :=
  fun fuel _ {_} x y _ _ => Tracks c x (y (c.extra + fuel))

section

variable {fns fns' : NameMap Function}

theorem SameFunctions.pairsFunctions (h : SameFunctions c fns fns') :
    (Pairing.relocating ⟨fns, c.low⟩ ⟨fns', c.high⟩ c.move).PairsFunctions := by
  intro name
  show Option.Rel _ (fns.get? name) (fns'.get? name)
  rw [h name]
  cases fns.get? name with
  | none => exact .none
  | some f => exact .some ⟨rfl, rfl⟩

theorem SameFunctions.get?_eq (h : SameFunctions c fns fns') {name : String} {f : Function}
    (hf : fns.get? name = some f) : fns'.get? name = some (f.relocate c.move) := by
  rw [h name, hf]
  rfl

theorem trackingRules (h : SameFunctions c fns fns') :
    FullRules (.free (fun _ => True) False) (.relocating ⟨fns, c.low⟩ ⟨fns', c.high⟩ c.move)
      (Tracks.judgment c) where
  lawful := Discipline.lawful_free (fun _ _ => trivial) (fun _ _ _ _ _ _ => trivial)
  functions := h.pairsFunctions
  pure _ := .pure
  fail _ _ hcause := .fail (RuntimeCause.isOverflow_of_isAboutValue hcause)
  outOfFuel _ hy := .outOfFuel (fun hextra => by rw [hextra]; exact hy)
  succ hx := hx
  bind hx hf := hx.bind (fun a => hf a nofun)
  weaken hx _ := hx
  forget hx := hx
  read pos name _ := tracks_read pos name
  -- both runs expect the same widths, as these come from names and types
  operandHints op left right hint := .reads (operandHints_relocate h op left right hint)
  returnHint := .reads returnHint_relocate
  applyOp pos symbol op w a b := tracks_applyOp pos symbol op w a b
  declare _ _ := .modify (fun m => m.mapScopes_relocate _ _) (fun m => m.length_frames_mapScopes _)
  inScope scope _ _ _ hx := .inScope scope hx
  enterStatement pos := tracks_emit (fun m => by rw [m.depth_relocate]; rfl)
  runPanic pos := tracks_runPanic pos
  noFunction _ _ := .fail rfl
  callWith args values _ hf hf' _ hbody := by
    cases (h.get?_eq hf).symm.trans hf'
    exact tracks_enterCall fns fns' _ _ args values (hbody () trivial)
  update pos name f _ := tracks_update pos name f

/-- Whatever the fuel of the first run, every part of the second one keeps pace. -/
theorem keepsPace (h : SameFunctions c fns fns') (fuel : Nat) :
    Parts (.free (fun _ => True) False) (.relocating ⟨fns, c.low⟩ ⟨fns', c.high⟩ c.move)
      (Tracks.judgment c) fuel :=
  (trackingRules h).parts fuel

theorem tracks_runTopLevel (h : SameFunctions c fns fns') (fuel : Nat) (ss : List Statement) :
    Tracks c (runTopLevel ⟨fns, c.low⟩ fuel ss)
      (runTopLevel ⟨fns', c.high⟩ (c.extra + fuel) (Statement.relocateAll c.move ss)) :=
  (trackingRules h).runTopLevel (keepsPace h) (fun _ _ _ => tracks_emit (fun _ => rfl))
    Pairing.counterpart_relocate fuel (c := ()) ss trivial

end

end WordLang
