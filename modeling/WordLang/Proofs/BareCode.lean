import WordLang.Proofs.Matching

/-! # Code without its statics

    A `static` that is reached in a run does nothing but tell that it was
    reached.  What is left of a body without its statics is its bare body,
    and of two functions with one bare body each runs like the other: when
    one of the runs comes to a `static`, it passes it by while the other one
    waits.

    The two runs do not need the same fuel, but each ends with enough of it
    if the other one does. -/

namespace WordLang

open Exec

/-! ## Section 1: Bare code -/

namespace Statement

mutual

/-- What is left of a statement without statics: nothing of a `static`, and any other statement
    with its blocks bare. -/
def bare : Statement → List Statement
  | .static _ => []
  | .ifThen pos cond yes => [.ifThen pos cond (bareBlock yes)]
  | .ifElse pos cond yes no => [.ifElse pos cond (bareBlock yes) (bareBlock no)]
  | .forRange pos var ty start stop body => [.forRange pos var ty start stop (bareBlock body)]
  | .loop pos body => [.loop pos (bareBlock body)]
  | s => [s]

/-- What is left of a block without statics. -/
def bareBlock : List Statement → List Statement
  | [] => []
  | s :: rest => bare s ++ bareBlock rest

end

/-- Whether a statement is no `static` and has no blocks. -/
def isSimple : Statement → Bool
  | .static _ | .ifThen _ _ _ | .ifElse _ _ _ _ | .forRange _ _ _ _ _ _ | .loop _ _ => false
  | _ => true

section

variable {s t : Statement}

theorem bare_cases (s : Statement) : (∃ d, s = .static d) ∨ ∃ t, s.bare = [t] := by
  cases s with
  | static d => exact .inl ⟨d, rfl⟩
  | _ => exact .inr ⟨_, rfl⟩

/-! A statement can be told from its bare form up to its blocks. -/

theorem static_of_bare (h : t.bare = []) : ∃ d, t = .static d := by
  cases t with
  | static d => exact ⟨d, rfl⟩
  | _ => cases h

theorem eq_of_bare_simple (hs : s.isSimple = true) (h : t.bare = s.bare) : t = s := by
  cases s <;> cases hs <;> cases t <;> cases h <;> rfl

theorem ifThen_of_bare {pos : Position} {cond : Expr} {yes : List Statement}
    (h : t.bare = (ifThen pos cond yes).bare) :
    ∃ yes', t = .ifThen pos cond yes' ∧ bareBlock yes' = bareBlock yes := by
  cases t with
  | ifThen =>
    obtain ⟨rfl, rfl, hyes⟩ := ifThen.inj (List.cons.inj h).1
    exact ⟨_, rfl, hyes⟩
  | _ => cases h

theorem ifElse_of_bare {pos : Position} {cond : Expr} {yes no : List Statement}
    (h : t.bare = (ifElse pos cond yes no).bare) :
    ∃ yes' no', t = .ifElse pos cond yes' no' ∧ bareBlock yes' = bareBlock yes ∧
      bareBlock no' = bareBlock no := by
  cases t with
  | ifElse =>
    obtain ⟨rfl, rfl, hyes, hno⟩ := ifElse.inj (List.cons.inj h).1
    exact ⟨_, _, rfl, hyes, hno⟩
  | _ => cases h

theorem forRange_of_bare {pos : Position} {var : String} {ty : Ty} {start stop : Expr}
    {body : List Statement} (h : t.bare = (forRange pos var ty start stop body).bare) :
    ∃ body', t = .forRange pos var ty start stop body' ∧ bareBlock body' = bareBlock body := by
  cases t with
  | forRange =>
    obtain ⟨rfl, rfl, rfl, rfl, rfl, hbody⟩ := forRange.inj (List.cons.inj h).1
    exact ⟨_, rfl, hbody⟩
  | _ => cases h

theorem loop_of_bare {pos : Position} {body : List Statement}
    (h : t.bare = (loop pos body).bare) :
    ∃ body', t = .loop pos body' ∧ bareBlock body' = bareBlock body := by
  cases t with
  | loop =>
    obtain ⟨rfl, hbody⟩ := loop.inj (List.cons.inj h).1
    exact ⟨_, rfl, hbody⟩
  | _ => cases h

end

end Statement

/-- A function with its bare body. -/
def Function.bare (f : Function) : Function := { f with body := Statement.bareBlock f.body }

theorem Function.header_of_bare {f g : Function} (h : g.bare = f.bare) : g.header = f.header := by
  show g.bare.header = f.bare.header
  rw [h]

theorem Function.body_of_bare {f g : Function} (h : g.bare = f.bare) :
    Statement.bareBlock g.body = Statement.bareBlock f.body :=
  congrArg Function.body h

/-! ## Section 2: Statics are passed by -/

/-- A `static` is passed by.  It takes fuel to run the statement and to go on. -/
theorem outcome_runBlock_static (env : Env) (fuel : Nat) (d : StaticDecl) (rest : List Statement)
    (m : Machine) :
    (runBlock env (fuel + 2) (.static d :: rest) m).outcome =
      (runBlock env (fuel + 1) rest (m.emit (.statement d.pos m.depth))).outcome := by
  have hstatic : (runStatement env (fuel + 1) (.static d) m).outcome =
      .done .next (m.emit (.statement d.pos m.depth)) := by
    rw [runStatement.eq_def]
    rfl
  rw [runBlock]
  exact outcome_bind_done hstatic

/-- The first run may pass a `static` by while the second one waits. -/
theorem Matches.static_left {env : Env} {fuel : Nat} {d : StaticDecl} {rest : List Statement}
    {y : Nat → Exec Flow} (h : Matches (runBlock env fuel rest) y) :
    Matches (runBlock env (fuel + 1) (.static d :: rest)) y := by
  intro m m' hlike
  cases fuel with
  | zero => exact .starved (by rw [runBlock]; rfl)
  | succ fuel => exact (h (m.emit _) m' hlike).of_first (outcome_runBlock_static env fuel d rest m)

/-- The second run may pass a `static` by while the first one waits. -/
theorem Matches.static_right {env : Env} {d : StaticDecl} {rest : List Statement} {x : Exec Flow}
    (h : Matches x (fun fuel => runBlock env fuel rest)) :
    Matches x (fun fuel => runBlock env fuel (.static d :: rest)) := by
  intro m m' hlike
  apply (h m (m'.emit (.statement d.pos m'.depth)) hlike).of_second
  intro fuel
  exact outcome_runBlock_static env fuel d rest m'

/-! ## Section 3: What is known beforehand -/

/-- The functions of both environments have the same bare code. -/
structure Env.SameCode (env env' : Env) : Prop where
  config : env'.config = env.config
  functions : ∀ name,
    (env'.functions.get? name).map Function.bare = (env.functions.get? name).map Function.bare

theorem Env.SameCode.ret_eq {env env' : Env} (h : env.SameCode env') (name : String) :
    (env'.functions.get? name).bind (fun f => f.ret.bind Ty.scalarWidth?) =
      (env.functions.get? name).bind (fun f => f.ret.bind Ty.scalarWidth?) := by
  have hret : ∀ e : Env, (e.functions.get? name).bind (fun f => f.ret.bind Ty.scalarWidth?) =
      ((e.functions.get? name).map Function.bare).bind (fun f => f.ret.bind Ty.scalarWidth?) := by
    intro e
    cases e.functions.get? name <;> rfl
  rw [hret, hret, h.functions]

theorem matches_operandHints {env env' : Env} (h : env.SameCode env') (op : BinOp)
    (left right : Expr) (hint : Option Width) :
    Matches (reads (operandHints env op left right hint))
      (fun _ => reads (operandHints env' op left right hint)) := by
  apply Matches.reads
  intro m m' hlike
  have hread : ∀ name, (m'.read? name).map Value.ty = (m.read? name).map Value.ty :=
    fun name => congrArg (Option.map Value.ty) ((local_read? name).outline hlike)
  simp only [operandHints, staticWidth_congr hread h.ret_eq]

/-! ## Section 4: All parts of the semantics -/

open Statement (bareBlock)

/-- A judgment about two runs, of which the second one matches the first. -/
abbrev Matches.judgment : Judgment Unit := fun _ _ {_} x y _ _ => Matches x y

/-- Blocks are alike that have one bare form, and no place is moved. -/
def Pairing.bare (env env' : Env) : Pairing :=
  ⟨env, env', id, fun ss ss' => bareBlock ss' = bareBlock ss⟩

theorem Pairing.counterpart_of_bare {env env' : Env} {s s' t : Statement} (hs : s.bare = [t])
    (hs' : s'.bare = s.bare) : (bare env env').Counterpart s s' := by
  cases s with
  | static d => cases hs
  | ifThen pos cond yes =>
    obtain ⟨yes', rfl, hyes⟩ := Statement.ifThen_of_bare hs'
    exact ⟨yes', by rw [bare, cond.relocate_id]; rfl, hyes⟩
  | ifElse pos cond yes no =>
    obtain ⟨yes', no', rfl, hyes, hno⟩ := Statement.ifElse_of_bare hs'
    exact ⟨yes', no', by rw [bare, cond.relocate_id]; rfl, hyes, hno⟩
  | forRange pos var ty start stop body =>
    obtain ⟨body', rfl, hbody⟩ := Statement.forRange_of_bare hs'
    exact ⟨body', by rw [bare, start.relocate_id, stop.relocate_id]; rfl, hbody⟩
  | loop pos body =>
    obtain ⟨body', rfl, hbody⟩ := Statement.loop_of_bare hs'
    exact ⟨body', rfl, hbody⟩
  | _ =>
    obtain rfl := Statement.eq_of_bare_simple rfl hs'
    exact counterpart_refl rfl (fun _ => rfl) _

section

variable {env env' : Env} (h : env.SameCode env')

include h

theorem Env.SameCode.pairsFunctions : (Pairing.bare env env').PairsFunctions := by
  intro name
  have hcode := h.functions name
  show Option.Rel _ (env.functions.get? name) (env'.functions.get? name)
  cases hf : env.functions.get? name with
  | none =>
    rw [hf] at hcode
    rw [Option.map_eq_none_iff.mp hcode]
    exact .none
  | some f =>
    rw [hf] at hcode
    obtain ⟨f', hf', hbare⟩ := Option.map_eq_some_iff.mp hcode
    rw [hf']
    exact .some ⟨(Function.mk.inj (Function.header_of_bare hbare)).2.1,
      Function.body_of_bare hbare⟩

theorem Env.SameCode.header_eq {name : String} {f f' : Function}
    (hf : env.functions.get? name = some f) (hf' : env'.functions.get? name = some f') :
    f'.header = f.header := by
  have hcode := h.functions name
  rw [hf, hf'] at hcode
  exact Function.header_of_bare (Option.some.inj hcode)

theorem matchingRules :
    FullRules (.free (fun _ => True) False) (.bare env env') Matches.judgment where
  lawful := Discipline.lawful_free (fun _ _ => trivial) (fun _ _ _ _ _ _ => trivial)
  functions := h.pairsFunctions
  pure _ := .pure
  fail _ _ _ := .fail
  outOfFuel _ _ := .outOfFuel
  succ hx := hx.succ
  bind hx hf := hx.bind (fun a => hf a nofun)
  weaken hx _ := hx
  forget hx := hx
  read _ name _ := matches_read _ name
  operandHints op left right hint := by
    simp only [Pairing.bare, Expr.relocate_id]
    exact matches_operandHints h op left right hint
  returnHint := .reads (fun _ _ => local_returnHint.outline)
  applyOp pos symbol op w a b := by
    simp only [Pairing.bare, h.config]
    exact matches_applyOp pos symbol op w a b _
  declare _ _ := .mapScopes _
  inScope scope _ _ _ hx := .inScope scope hx
  enterStatement _ := .emit
  runPanic _ := matches_runPanic _
  noFunction _ _ := .fail
  callWith args values _ hf hf' _ hbody := by
    simp only [Pairing.bare, Expr.relocateAll_id]
    exact matches_callWith h.config (h.header_eq hf hf') _ args values (hbody () trivial)
  update _ name f _ := matches_update _ name f

end

/-- With this fuel for the first run, every part of the second one ends like that of the first,
    where the two have the same bare code. -/
abbrev MatchingParts (env env' : Env) (fuel : Nat) : Prop :=
  Parts (.free (fun _ => True) False) (.bare env env') Matches.judgment fuel

theorem matches_runBlock_succ {env env' : Env} {fuel : Nat}
    (ih : MatchingParts env env' fuel) (h : env.SameCode env') (ss ss' : List Statement)
    (hss : bareBlock ss' = bareBlock ss) :
    Matches (runBlock env (fuel + 1) ss) (fun fuel' => runBlock env' fuel' ss') := by
  have R := (matchingRules h).toRules
  cases ss with
  | nil =>
    -- all that is left of the second block are statics
    induction ss' with
    | nil => exact R.runBlock_nil (c := ())
    | cons s' rest' ihrest =>
      obtain ⟨hs', hrest'⟩ := List.append_eq_nil_iff.mp hss
      obtain ⟨d, rfl⟩ := Statement.static_of_bare hs'
      exact (ihrest hrest').static_right
  | cons s rest =>
    obtain ⟨d, rfl⟩ | ⟨t, ht⟩ := s.bare_cases
    · have hrest : Matches (runBlock env fuel rest) (fun fuel' => runBlock env' fuel' ss') :=
        ih.runBlock (c := ()) hss trivial
      exact hrest.static_left
    · -- the second block gets to the same statement after some statics
      induction ss' with
      | nil =>
        rw [bareBlock, bareBlock, ht] at hss
        cases hss
      | cons s' rest' ihrest =>
        obtain ⟨d, rfl⟩ | ⟨t', ht'⟩ := s'.bare_cases
        · exact (ihrest hss).static_right
        · rw [bareBlock, bareBlock, ht, ht'] at hss
          obtain ⟨rfl, hrest⟩ := List.cons.inj hss
          have hs : (Pairing.bare env env').Counterpart s s' :=
            Pairing.counterpart_of_bare ht (ht'.trans ht.symm)
          exact ih.runBlock_cons R (c := ()) hs hrest trivial

/-- Whatever the fuel of the first run, the second one ends like it once it has enough. -/
theorem matchingParts {env env' : Env} (h : env.SameCode env') (fuel : Nat) :
    MatchingParts env env' fuel :=
  (matchingRules h).toRules.parts
    (fun _ ih {_ ss ss'} hss _ => matches_runBlock_succ ih h ss ss' hss)
    (fun _ ih {_} => ih.runAssign_succ (matchingRules h)) fuel

theorem matches_runTopLevel {env env' : Env} (h : env.SameCode env') (fuel : Nat)
    (ss : List Statement) :
    Matches (runTopLevel env fuel ss) (fun fuel' => runTopLevel env' fuel' ss) := by
  have hself : ∀ s, (Pairing.bare env env').Counterpart s (s.relocate id) := by
    intro s
    rw [s.relocate_id]
    exact Pairing.counterpart_refl rfl (fun _ => rfl) s
  have hrun := (matchingRules h).runTopLevel (matchingParts h) (fun _ _ _ => .emit) hself fuel
    (c := ()) ss trivial
  simp only [Pairing.bare, Statement.relocateAll_id] at hrun
  exact hrun

end WordLang
