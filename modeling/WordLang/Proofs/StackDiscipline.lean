import WordLang.Proofs.Assigned
import WordLang.Proofs.LexicalScope

/-! # Frames and scopes are left as they were found

    Whatever is entered is left again, also when a failure passes through.
    An expression leaves all frames with their variables alone, and one
    without calls leaves the whole machine alone.  A statement leaves the
    frames below the current one alone, and in this one the scopes with
    their names; only a `let` adds its name, to the innermost scope.

    Between two executions of a program there is thus the frame of the top
    level alone, with one scope, whatever has failed before. -/

namespace WordLang

open Exec

/-! ## Section 1: Expressions without calls -/

/-- Whether an expression contains no call. -/
def Expr.callFree : Expr → Bool
  | .literal _ _ | .ident _ _ => true
  | .index _ offset _ => offset.callFree
  | .binary _ _ left right => left.callFree && right.callFree
  | .call _ _ _ => false

/-- Whether a place has no call in its index. -/
def Place.callFree : Place → Bool
  | .var _ => true
  | .elem offset _ => offset.callFree

/-- The second state is the first. -/
def Unmoved (m m' : Machine) : Prop := m' = m

instance : Composes Unmoved := ⟨fun _ => rfl, fun h h' => Eq.trans h' h⟩

/-- Only calls change anything. -/
theorem unmoved_eval {env : Env} {e : Expr} (h : e.callFree = true) (fuel : Nat)
    (hint : Option Width) : Moves Unmoved (eval env fuel e hint) := by
  induction fuel generalizing e hint with
  | zero => rw [eval]; exact .outOfFuel
  | succ fuel ih =>
    cases e with
    | literal pos value => rw [eval]; exact moves_literal _ _ _
    | ident pos name => rw [eval]; exact moves_read _ _
    | index pos offset array =>
      rw [eval]
      exact .bind (ih (e := offset) h _) (fun _ =>
        .bind (moves_scalar _ _) (fun _ => moves_readElement _ _ _))
    | binary pos op left right =>
      obtain ⟨hleft, hright⟩ := Bool.and_eq_true_iff.mp h
      rw [eval]
      dsimp only
      split
      · exact .bind (ih hleft _) (fun _ => .bind (moves_scalar _ _) (fun _ =>
          .bind (ih hright _) (fun _ => .bind (moves_scalar _ _) (fun _ => .pure))))
      · exact .bind .reads (fun _ => .bind (ih hleft _) (fun _ => .bind (moves_scalar _ _) (fun _ =>
          .bind (ih hright _) (fun _ =>
            .bind (moves_wordOf _ _ _) (fun _ => moves_applyOp _ _ _ _ _ _ _)))))
    | call pos name args => cases h

theorem unmoved_placeIndex {env : Env} {place : Place} (h : place.callFree = true) (fuel : Nat) :
    Moves Unmoved (placeIndex env fuel place) := by
  apply moves_placeIndex
  intro offset array hplace
  rw [hplace] at h
  exact unmoved_eval h fuel (some .word)

/-! ## Section 2: The names that a statement leaves -/

/-- Whether a scope, counted from the innermost one, binds a name. -/
def bindsAt (ss : List (NameMap Value)) (i : Nat) (name : String) : Bool :=
  ss[i]?.any (fun scope => scope.contains name)

/-- As many scopes with the same names, but that the innermost one may have got this name. -/
structure NamesWith (own : Option String) (ss ss' : List (NameMap Value)) : Prop where
  length : ss'.length = ss.length
  names : ∀ i name, bindsAt ss' i name = bindsAt ss i name ∨
    i = 0 ∧ own = some name ∧ bindsAt ss' i name = true

namespace NamesWith

variable {own : Option String} {ss ss' ss'' : List (NameMap Value)}

theorem refl (ss : List (NameMap Value)) : NamesWith own ss ss := ⟨rfl, fun _ _ => .inl rfl⟩

theorem trans (h : NamesWith own ss ss') (h' : NamesWith own ss' ss'') : NamesWith own ss ss'' := by
  refine ⟨h'.length.trans h.length, fun i name => ?_⟩
  rcases h'.names i name with hsame | hadded
  · rw [hsame]
    exact h.names i name
  · exact .inr hadded

theorem of_sameNames (h : SameNames ss ss') : NamesWith own ss ss' := by
  have hkeys : ∀ (ss : List (NameMap Value)) i name,
      bindsAt ss i name = ((ss.map NameMap.keys)[i]?.any (fun keys => decide (name ∈ keys))) := by
    intro ss i name
    rw [bindsAt, List.getElem?_map]
    cases ss[i]? with
    | none => rfl
    | some scope =>
      show scope.contains name = decide (name ∈ scope.keys)
      rw [NameMap.contains, Bool.eq_iff_iff, decide_eq_true_iff, NameMap.mem_keys_iff]
  refine ⟨?_, fun i name => .inl ?_⟩
  · rw [← List.length_map NameMap.keys, h, List.length_map]
  · rw [hkeys, hkeys, h]

theorem bindInnermost {name : String} (v : Value) (ss : List (NameMap Value)) :
    NamesWith (some name) ss (Machine.bindInnermost name v ss) := by
  cases ss with
  | nil => exact .refl []
  | cons scope rest =>
    refine ⟨rfl, fun i other => ?_⟩
    cases i with
    | succ i => exact .inl rfl
    | zero =>
      show (scope.insert name v).contains other = scope.contains other ∨
        0 = 0 ∧ some name = some other ∧ (scope.insert name v).contains other = true
      rw [NameMap.contains, NameMap.get?_insert]
      split
      · next heq => exact .inr ⟨rfl, by rw [heq], rfl⟩
      · exact .inl rfl

end NamesWith

instance (own : Option String) : Composes (Kept (NamesWith own)) :=
  ⟨Kept.refl .refl, Kept.trans .trans⟩

/-- A statement binds no name but that of a `let`, and that in the innermost scope. -/
theorem namesWith_runStatement (env : Env) (fuel : Nat) (s : Statement) :
    Moves (Kept (NamesWith s.letName?)) (runStatement env fuel s) := by
  cases fuel with
  | zero => rw [runStatement]; exact .outOfFuel
  | succ fuel =>
    cases s with
    | letVar pos name ty value =>
      exact kept_runStatement_let env fuel (fun _ _ => .of_sameNames) pos name ty value
        .bindInnermost
    | _ =>
      -- all other statements leave the names of every scope alone
      refine (kept_runStatement env (fuel + 1) (by simp)).mono (fun _ _ h => ?_)
      exact h.mono (fun _ _ => .of_sameNames)

/-! ## Section 3: Between executions -/

/-- Between executions there is the frame of the top level alone, with one scope. -/
theorem Program.frames_of_reaches {p : Program} {env : Env} {store : Store} {m : Machine}
    (h : p.Reaches env (.initial store) m) : ∃ scope, m.frames = [⟨none, [scope]⟩] := by
  have hkept : Kept MoreNames (.initial store) m :=
    h.moved (fun fuel => kept_runTopLevel env fuel p.statements)
  obtain ⟨scopes, hframes, scope, rest, rfl, -, hrest⟩ := hkept.frames
  obtain rfl := List.map_eq_nil_iff.mp hrest
  exact ⟨scope, hframes⟩

/-! ## Section 4: The discipline of the stack -/

/-- However it ends, an expression leaves the frames as they were, and without a call all else too;
    a statement leaves the frames below the current one as they were, and in this one the function,
    the number of scopes and the names in each, but for the name of a `let` in the innermost; and
    between executions no call is active and the top level has one scope. -/
theorem stack_kept (env : Env) (fuel : Nat) (m : Machine) :
    (∀ e hint m', (eval env fuel e hint m).outcome.machine? = some m' →
      m'.frames = m.frames ∧ (e.callFree = true → m' = m)) ∧
    (∀ s m', (runStatement env fuel s m).outcome.machine? = some m' →
      KeptFrames (NamesWith s.letName?) m.frames m'.frames) ∧
    (∀ (p : Program) (store : Store), p.Reaches env (.initial store) m →
      m.depth = 0 ∧ ∃ scope, m.frames = [⟨none, [scope]⟩]) := by
  refine ⟨fun e hint m' h => ⟨?_, fun hfree => ?_⟩, fun s m' h => ?_, fun p store h => ?_⟩
  · exact ((kept_eval env fuel e hint).ends h).frames_eq
  · exact (unmoved_eval hfree fuel hint).ends h
  · exact ((namesWith_runStatement env fuel s).ends h).frames
  · obtain ⟨scope, hframes⟩ := p.frames_of_reaches h
    refine ⟨?_, scope, hframes⟩
    rw [Machine.depth, hframes]
    rfl

/-- Counts in a static and fails in a block, with a variable bound there. -/
def failsInside : Function :=
  ⟨"f", [⟨"n", .uint .byte⟩], some (.uint .byte),
    [.assign ⟨1, 20⟩ .add (.var "G") (.ident ⟨1, 25⟩ "n"),
      .loop ⟨2, 3⟩ [.letVar ⟨2, 10⟩ "t" (.uint .byte) (.literal ⟨2, 20⟩ 1),
        .assign ⟨2, 24⟩ .set (.var "t") (.literal ⟨2, 30⟩ 300)]], ⟨1, 1⟩⟩

/-- Binds a variable, and calls the function that fails from within a block. -/
def failingRun : Program :=
  ⟨[.statement (.letVar ⟨5, 1⟩ "a" (.uint .byte) (.literal ⟨5, 10⟩ 1)),
    .statement (.ifThen ⟨6, 1⟩ (.ident ⟨6, 4⟩ "a")
      [.letVar ⟨6, 8⟩ "b" (.uint .byte) (.call ⟨6, 16⟩ "f" [.ident ⟨6, 18⟩ "a"])])]⟩

/-- What the failure leaves: the count and the variable of the top level. -/
def afterFailure : Machine :=
  ⟨⟨.singleton "G" (.scalar .byte 1), .empty, .empty⟩,
    [⟨none, [.singleton "a" (.scalar .byte 1)]⟩],
    [.statement ⟨2, 24⟩ 1, .statement ⟨2, 10⟩ 1, .statement ⟨2, 3⟩ 1, .statement ⟨1, 20⟩ 1,
      .call "f" 1, .statement ⟨6, 8⟩ 0, .statement ⟨6, 1⟩ 0, .statement ⟨5, 1⟩ 0]⟩

/-- The failure comes out of a block of the call and a block of the top level, and both are
    gone; so is the frame of the call after it as an expression.  A sum that fails leaves all as it
    was, and a `let` there adds its name. -/
theorem stack_kept_failingRun :
    let env : Env := ⟨.singleton "f" failsInside, .default⟩
    let start := Machine.initial ⟨.singleton "G" (.scalar .byte 0), .empty, .empty⟩
    let failing : Expr := .call ⟨7, 1⟩ "f" [.literal ⟨7, 3⟩ 1]
    let sum : Expr := .binary ⟨8, 1⟩ .add (.ident ⟨8, 3⟩ "a") (.literal ⟨8, 5⟩ 300)
    let binding : Statement := .letVar ⟨9, 1⟩ "c" (.uint .byte) (.ident ⟨9, 9⟩ "a")
    ((failingRun.execute env 20 start).machine? = some afterFailure ∧
      afterFailure.depth = 0 ∧ ∃ scope, afterFailure.frames = [⟨none, [scope]⟩]) ∧
    (∃ e m', (eval env 20 failing none afterFailure).outcome = .fault e m' ∧
      m'.frames = afterFailure.frames) ∧
    (∃ e m', (eval env 20 sum none afterFailure).outcome = .fault e m' ∧ m' = afterFailure) ∧
    (∃ m', (runStatement env 20 binding afterFailure).outcome = .done .next m' ∧
      KeptFrames (NamesWith (some "c")) afterFailure.frames m'.frames) := by
  intro env start failing sum binding
  obtain ⟨heval, hstatement, hreached⟩ := stack_kept env 20 afterFailure
  have hend : (failingRun.execute env 20 start).machine? = some afterFailure := rfl
  refine ⟨⟨hend, hreached failingRun _ (.execute .start hend)⟩, ?_, ?_, ?_⟩
  · exact ⟨_, _, rfl, (heval failing none _ rfl).1⟩
  · exact ⟨_, _, rfl, (heval sum none _ rfl).2 rfl⟩
  · exact ⟨_, rfl, hstatement binding _ rfl⟩

end WordLang
