import WordLang.Proofs.Checking
import WordLang.Proofs.Lockstep
import WordLang.Proofs.RoundTrip

/-! # Formatting keeps the meaning

    The canonical text of a program is read as the same program with other
    places in it.  Places go nowhere but into errors and traces: moving
    those of a program moves those of what its run shows, and nothing else.
    So a text and its canonical form run alike, whatever the configuration.

    The two runs are compared with the same fuel, and neither gives an
    answer before the other does. -/

namespace WordLang

section

variable (move : Position → Position)

/-! ## Section 1: Errors and outcomes with their places moved -/

/-- An error with its places moved. -/
def Error.relocate : Error → Error
  | .source (.lex e) => .source (.lex (e.relocate move))
  | .source (.parse e) => .source (.parse (e.relocate move))
  | .declarations errors => .declarations (errors.map (Located.relocate move))
  | .runtime e => .runtime (e.relocate move)

theorem Error.kind_relocate (e : Error) : (e.relocate move).kind = e.kind := by
  match e with
  | .source (.lex _) => rfl
  | .source (.parse _) => rfl
  | .declarations _ => rfl
  | .runtime ⟨_, cause⟩ => cases cause <;> rfl

/-- How a computation ends, with the places in it moved. -/
def Outcome.relocate {α : Type} : Outcome α → Outcome α
  | .done a m => .done a (m.relocate move)
  | .fault e m => .fault (e.relocate move) (m.relocate move)
  | .outOfFuel => .outOfFuel

/-! ## Section 2: Runs with their places moved -/

namespace Program

variable (p : Program) (config : Config) (fuel : Nat)

/-- An execution of a program whose places have moved ends in the same way, but for the places. -/
theorem execute_relocate (fns : NameMap Function) (m : Machine) (hm : m.frames ≠ []) :
    (p.relocate move).execute ⟨fns.map (Function.relocate move), config⟩ fuel (m.relocate move) =
      (p.execute ⟨fns, config⟩ fuel m).relocate move := by
  -- two runs with the same means: neither can be cut short by what it lacks
  let c : Comparison := ⟨move, config, config, 0, Nat.le_refl _, fun h => h⟩
  have hfuel : c.extra + fuel = fuel := Nat.zero_add fuel
  have hfns : SameFunctions c fns (fns.map (Function.relocate move)) :=
    fun name => fns.get?_map (Function.relocate move) name
  have hfollows := tracks_runTopLevel hfns fuel p.statements m hm
  rw [hfuel] at hfollows
  unfold execute execution
  rw [statements_relocate]
  cases hfollows with
  | done first second height => rw [second, first]; rfl
  | fault first second alike =>
    rw [second, first]
    cases alike <;> rfl
  | starved first second => rw [second rfl, first]; rfl
  | cut first second cuts => exact absurd cuts (Comparison.not_cuts rfl rfl)

/-- The trace of a program whose places have moved is its trace, with the places moved. -/
theorem trace_relocate :
    (p.relocate move).trace config fuel =
      (p.trace config fuel).map
        (Prod.map (List.map (Event.relocate move)) (Except.mapError (Error.relocate move))) := by
  unfold trace
  rw [check_relocate]
  cases p.check with
  | error errors => rfl
  | ok decls =>
    have hexecute := p.execute_relocate move config fuel decls.functions (.initial decls.store)
      (List.cons_ne_nil _ _)
    rw [Machine.relocate_initial] at hexecute
    dsimp only [Declarations.relocate]
    rw [hexecute]
    cases p.execute ⟨decls.functions, config⟩ fuel (.initial decls.store) with
    | done a m =>
      dsimp only [Outcome.relocate, Option.map, Prod.map]
      rw [Machine.events_relocate, List.map_reverse]
      rfl
    | fault e m =>
      dsimp only [Outcome.relocate, Option.map, Prod.map]
      rw [Machine.events_relocate, List.map_reverse]
      rfl
    | outOfFuel => rfl

theorem run_relocate :
    (p.relocate move).run config fuel =
      (p.run config fuel).map (Except.mapError (Error.relocate move)) := by
  unfold run
  rw [trace_relocate, Option.map_map, Option.map_map]
  rfl

end Program

end

/-! ## Section 3: Forgetting places is moving them all to one -/

mutual

theorem Expr.relocate_start : (e : Expr) → e.relocate (fun _ => .start) = e.erase
  | .literal _ _ => rfl
  | .ident _ _ => rfl
  | .index _ offset _ => by simp only [relocate, erase, relocate_start offset]
  | .binary _ _ left right => by
    simp only [relocate, erase, relocate_start left, relocate_start right]
  | .call _ _ args => by simp only [relocate, erase, relocateAll_start args]

theorem Expr.relocateAll_start :
    (es : List Expr) → relocateAll (fun _ => .start) es = eraseAll es
  | [] => rfl
  | e :: rest => by simp only [relocateAll, eraseAll, relocate_start e, relocateAll_start rest]

end

theorem Place.relocate_start (p : Place) : p.relocate (fun _ => .start) = p.erase := by
  cases p with
  | var name => rfl
  | elem offset array => rw [relocate, erase, offset.relocate_start]

mutual

theorem Statement.relocate_start : (s : Statement) → s.relocate (fun _ => .start) = s.erase
  | .letVar _ _ _ value => by simp only [relocate, erase, value.relocate_start]
  | .static _ => rfl
  | .assign _ _ place value => by
    simp only [relocate, erase, place.relocate_start, value.relocate_start]
  | .ifThen _ cond yes => by
    simp only [relocate, erase, cond.relocate_start, relocateAll_start yes]
  | .ifElse _ cond yes no => by
    simp only [relocate, erase, cond.relocate_start, relocateAll_start yes, relocateAll_start no]
  | .forRange _ _ _ start stop body => by
    simp only [relocate, erase, start.relocate_start, stop.relocate_start, relocateAll_start body]
  | .loop _ body => by simp only [relocate, erase, relocateAll_start body]
  | .breakLoop _ => rfl
  | .continueLoop _ => rfl
  | .ret _ none => rfl
  | .ret _ (some value) => by simp only [relocate, erase, value.relocate_start]
  | .panic _ => rfl
  | .expr _ value => by simp only [relocate, erase, value.relocate_start]

theorem Statement.relocateAll_start :
    (ss : List Statement) → relocateAll (fun _ => .start) ss = eraseAll ss
  | [] => rfl
  | s :: rest => by simp only [relocateAll, eraseAll, relocate_start s, relocateAll_start rest]

end

theorem Item.relocate_start (item : Item) : item.relocate (fun _ => .start) = item.erase := by
  cases item with
  | function f => simp only [relocate, erase, Function.relocate, Function.erase,
      Statement.relocateAll_start]
  | static decl => rfl
  | const decl => rfl
  | statement s => simp only [relocate, erase, s.relocate_start]

theorem Program.relocate_start (p : Program) : p.relocate (fun _ => .start) = p.erase := by
  unfold relocate erase
  rw [funext Item.relocate_start]

/-- An error, with its places forgotten. -/
def Error.erase (e : Error) : Error := e.relocate (fun _ => .start)

/-- Nothing but the place of a failure is forgotten. -/
theorem Error.eq_runtime_of_erase {e : Error} {pos : Position} {cause : RuntimeCause}
    (h : (Error.runtime ⟨pos, cause⟩).erase = e.erase) :
    ∃ pos', e = .runtime ⟨pos', cause⟩ := by
  match e with
  | .runtime ⟨pos', cause'⟩ =>
    cases h
    exact ⟨pos', rfl⟩
  | .source (.lex _) => cases h
  | .source (.parse _) => cases h
  | .declarations _ => cases h

/-! ## Section 4: Results that are the same but for their places -/

/-- Two runs are not over, or both give the same memory, or both fail with errors of one kind that
    differ in their places only. -/
inductive SameResult :
    Option (Except Error Memory) → Option (Except Error Memory) → Prop where
  | unfinished : SameResult none none
  | memory (m : Memory) : SameResult (some (.ok m)) (some (.ok m))
  | error {e e' : Error} (kind : e.kind = e'.kind) (erase : e.erase = e'.erase) :
      SameResult (some (.error e)) (some (.error e'))

/-- Results are the same but for their places if they are the same without any. -/
theorem SameResult.of_erase {r r' : Option (Except Error Memory)}
    (h : r.map (Except.mapError Error.erase) = r'.map (Except.mapError Error.erase)) :
    SameResult r r' := by
  match r, r' with
  | none, none => exact .unfinished
  | some (.ok m), some (.ok m') =>
    cases h
    exact .memory m
  | some (.error e), some (.error e') =>
    have herase : e.erase = e'.erase := Except.error.inj (Option.some.inj h)
    refine .error ?_ herase
    calc e.kind = e.erase.kind := (e.kind_relocate _).symm
      _ = e'.erase.kind := by rw [herase]
      _ = e'.kind := e'.kind_relocate _
  | some (.ok _), some (.error _) => cases h
  | some (.error _), some (.ok _) => cases h
  | none, some _ => cases h
  | some _, none => cases h

theorem SameResult.eq_none_iff {r r' : Option (Except Error Memory)} (h : SameResult r r') :
    r = none ↔ r' = none := by
  cases h <;> simp

namespace Program

/-- Programs that differ in their places only run alike. -/
theorem sameResult_of_erase {p q : Program} (h : p.erase = q.erase) (config : Config)
    (fuel : Nat) : SameResult (p.run config fuel) (q.run config fuel) := by
  apply SameResult.of_erase
  have hrun := fun r : Program => r.run_relocate (fun _ => .start) config fuel
  calc (p.run config fuel).map (Except.mapError Error.erase)
      = p.erase.run config fuel := by rw [← p.relocate_start, hrun]; rfl
    _ = q.erase.run config fuel := by rw [h]
    _ = (q.run config fuel).map (Except.mapError Error.erase) := by
      rw [← q.relocate_start, hrun]; rfl

/-- Formatting keeps the meaning.  A text that can be read and the canonical text of its program
    run alike under every configuration: with any fuel neither run is over, or both give the same
    memory, or both fail with the same errors, in the same order, but for the places.  In
    particular one of them runs forever exactly if the other one does. -/
theorem print_runs_alike {source : String} {p : Program} (h : parse source = .ok p)
    (config : Config) :
    (∀ fuel, SameResult (runSource source config fuel) (runSource p.print config fuel)) ∧
    ((∀ fuel, runSource source config fuel = none) ↔
      ∀ fuel, runSource p.print config fuel = none) := by
  obtain ⟨q, hq, herase⟩ := parse_of_wellFormed (wellFormed_of_parse h)
  have halike : ∀ fuel,
      SameResult (runSource source config fuel) (runSource p.print config fuel) := by
    intro fuel
    simp only [runSource, h, hq]
    exact sameResult_of_erase herase.symm config fuel
  exact ⟨halike, forall_congr' (fun fuel => (halike fuel).eq_none_iff)⟩

/-- A text with a comment, empty lines and more blanks than needed, which divides by zero. -/
def unevenText : String := "static x:u8 // one slot\n\n\n  (=  x (/ 1 0) )"

/-- The tokens of this text. -/
def unevenTokens : List (Located Token) :=
  [⟨⟨1, 1⟩, .keyword .staticWord⟩, ⟨⟨1, 8⟩, .ident "x"⟩, ⟨⟨1, 9⟩, .sign .colon⟩,
   ⟨⟨1, 10⟩, .uint 8⟩, ⟨⟨4, 3⟩, .sign .lparen⟩, ⟨⟨4, 4⟩, .assign .set⟩, ⟨⟨4, 7⟩, .ident "x"⟩,
   ⟨⟨4, 9⟩, .sign .lparen⟩, ⟨⟨4, 10⟩, .op .div⟩, ⟨⟨4, 12⟩, .number 1⟩, ⟨⟨4, 14⟩, .number 0⟩,
   ⟨⟨4, 15⟩, .sign .rparen⟩, ⟨⟨4, 17⟩, .sign .rparen⟩, ⟨⟨5, 1⟩, .eof⟩]

/-- The program of this text. -/
def uneven : Program :=
  ⟨[.static ⟨"x", .uint .byte, ⟨1, 1⟩⟩,
    .statement (.assign ⟨4, 3⟩ .set (.var "x")
      (.binary ⟨4, 9⟩ .div (.literal ⟨4, 12⟩ 1) (.literal ⟨4, 14⟩ 0)))]⟩

/-- The canonical text is another one, and fails for the same reason. -/
theorem print_runs_alike_uneven :
    parse unevenText = .ok uneven ∧ uneven.print ≠ unevenText ∧
    runSource unevenText .default 10 = some (.error (.runtime ⟨⟨4, 9⟩, .divisionByZero⟩)) ∧
    ∃ pos, runSource uneven.print .default 10 =
      some (.error (.runtime ⟨pos, .divisionByZero⟩)) := by
  have htokens : tokenize unevenText = .ok unevenTokens := by
    have hsome : (tokenize unevenText).toOption = some unevenTokens := by decide +kernel
    cases htext : tokenize unevenText with
    | error e =>
      rw [htext] at hsome
      cases hsome
    | ok ts =>
      rw [htext] at hsome
      exact congrArg Except.ok (Option.some.inj hsome)
  have hparse : parse unevenText = .ok uneven := parse_eq_ok.mpr ⟨unevenTokens, htokens, rfl⟩
  have hother : uneven.print ≠ unevenText := by decide +kernel
  have hruns : runSource unevenText .default 10 =
      some (.error (.runtime ⟨⟨4, 9⟩, .divisionByZero⟩)) := by
    rw [runSource, hparse]
    rfl
  refine ⟨hparse, hother, hruns, ?_⟩
  have halike := (print_runs_alike hparse .default).1 10
  rw [hruns] at halike
  generalize runSource uneven.print .default 10 = result at halike
  cases halike with
  | error kind erase =>
    obtain ⟨pos, rfl⟩ := Error.eq_runtime_of_erase erase
    exact ⟨pos, rfl⟩

end Program

end WordLang
