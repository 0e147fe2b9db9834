import WordLang.Proofs.Alignment

/-! # The parser always comes to an end

    Nothing in the parser is bounded by its structure: the end of the text is
    a token that stays however often it is taken, and the parsers call each
    other.  What bounds it are the tokens.  Whatever is read takes at least
    one token, so a call that does not take one first can be followed by a
    few others only before one does.

    Fuel that is linear in the number of tokens is therefore enough.  Each
    parser has a bound of its own in the tokens that are left, two units for
    each of them and up to three more: a token that is taken sets two units
    free, and only a few calls come between one token and the next. -/

namespace WordLang

open Grammar

namespace Parser

variable {α β : Type} {ts : Stream} {fuel : Nat} {ctx : Context}

/-! ## Section 1: Whatever is read takes a token -/

/-- What the parser reads takes at least one token, and never the end of the text. -/
def Advances (x : Parser α) : Prop := ∀ {ts a rest}, Reads x ts a rest → Past ts rest

theorem Advances.length_lt {x : Parser α} (hx : Advances x) {a : α} {rest : Stream}
    (h : Reads x ts a rest) : rest.length < ts.length :=
  (hx h).length_lt

theorem advances_expect (token : Token) (ht : token ≠ .eof) : Advances (expect token) := by
  intro ts pos rest h
  rw [(reads_expect token ht).mp h]
  exact .one ht

theorem advances_ident (expected : Expected) : Advances (ident expected) := by
  intro ts name rest h
  obtain ⟨pos, rfl⟩ := reads_ident.mp h
  exact .one

theorem advances_number (expected : Expected) : Advances (number expected) := by
  intro ts n rest h
  obtain ⟨pos, rfl⟩ := reads_number.mp h
  exact .one

theorem advances_width : Advances width :=
  fun h => (reads_width.mp h).elim fun d => d.past

theorem advances_type : Advances type :=
  fun h => (reads_type.mp h).elim fun d => d.past

theorem advances_returnType : Advances (do return some (← type)) := by
  intro ts ty rest h
  obtain ⟨ty, mid, hty, h⟩ := reads_bind.mp h
  rw [← (reads_pure.mp h).2]
  exact advances_type hty

theorem advances_typedName (expected : Expected) : Advances (typedName expected) := by
  rintro ts ⟨name, ty⟩ rest h
  obtain ⟨p₁, p₂, mid, rfl, ⟨d⟩⟩ := reads_typedName.mp h
  exact .cons (.cons d.past)

theorem advances_staticDecl : Advances staticDecl :=
  fun h => (reads_staticDecl.mp h).elim fun d => d.past

theorem advances_constDecl : Advances (constDecl fuel) :=
  fun h => (constDecl_sound h).elim fun d => d.past

theorem advances_expression : Advances (expression fuel) :=
  fun h => ((soundExpressions fuel).expression h).elim fun d => d.past

theorem advances_place : Advances (place fuel) :=
  fun h => (place_sound h).elim fun d => d.past

theorem advances_forHeader : Advances (forHeader fuel) := by
  rintro ts ⟨var, ty, start, stop⟩ rest h
  obtain ⟨p₁, p₂, p₃, p₄, w, us, ts₁, ts₂, rfl, -, ⟨d⟩, hstart, hstop⟩ := reads_forHeader_iff.mp h
  have hbounds : Past ts₁ rest :=
    (advances_expression hstart).trans (Past.cons (advances_expression hstop)).takes
  exact .cons (.cons (d.past.trans (Past.cons hbounds).takes))

theorem advances_statement : Advances (statement fuel ctx) :=
  fun h => ((soundStatements fuel).statement h).elim fun d => d.past

theorem advances_conditional : Advances (conditional fuel ctx) :=
  fun h => ((soundStatements fuel).conditional h).elim fun d => d.past

theorem advances_block : Advances (block fuel ctx) :=
  fun h => ((soundStatements fuel).block h).elim fun d => d.past

theorem advances_params : Advances (params fuel) :=
  fun h => (params_sound h).elim fun d => d.past

theorem advances_function : Advances (function fuel) :=
  fun h => (function_sound h).elim fun d => d.past

theorem advances_item : Advances (item fuel) :=
  fun h => (item_sound h).elim fun d => d.past

theorem takes_skipSeparators {u : Unit} {rest : Stream} (h : Reads skipSeparators ts u rest) :
    Takes ts rest := by
  rw [← reads_skipSeparators.mp h]
  exact (separators_dropWhile ts).elim fun d => d.takes

/-! ## Section 2: Parsers with enough fuel -/

/-- Whatever the parser does on these tokens, it has the fuel for it. -/
def Fueled (x : Parser α) (ts : Stream) : Prop := ∀ e, x ts = .error e → e.item ≠ .outOfFuel

namespace Fueled

theorem pure (a : α) : Fueled (Pure.pure a) ts := by
  intro e h
  cases h

theorem fail {pos : Position} {cause : ParseCause} (h : cause ≠ .outOfFuel) :
    Fueled (Parser.fail pos cause : Parser α) ts := by
  intro e he
  cases he
  exact h

theorem unexpected {expected : Expected} : Fueled (Parser.unexpected expected : Parser α) ts := by
  rintro e ⟨⟩
  exact ParseCause.noConfusion

theorem bind {x : Parser α} {f : α → Parser β} (hx : Fueled x ts)
    (hf : ∀ a mid, Reads x ts a mid → Fueled (f a) mid) : Fueled (x >>= f) ts := by
  intro e h
  cases hr : x ts with
  | error e' =>
    rw [bind_error hr] at h
    cases h
    exact hx e hr
  | ok r =>
    obtain ⟨a, mid⟩ := r
    have hreads : Reads x ts a mid := hr
    rw [bind_of_reads hreads] at h
    exact hf a mid hreads e h

/-- After something has been read there are fewer tokens. -/
theorem bind_of_advances {x : Parser α} {f : α → Parser β} (hx : Fueled x ts) (ha : Advances x)
    (hf : ∀ a mid, mid.length < ts.length → Fueled (f a) mid) : Fueled (x >>= f) ts :=
  hx.bind fun a mid h => hf a mid (ha.length_lt h)

theorem skipSeparators_bind {x : Parser β}
    (hx : ∀ mid, mid.length ≤ ts.length → Fueled x mid) :
    Fueled (skipSeparators >>= fun _ => x) ts :=
  hx _ (takes_skipSeparators rfl).length_le

theorem peek_bind {f : Located Token → Parser β} (h : Fueled (f (firstToken ts)) ts) :
    Fueled (peek >>= f) ts := h

theorem peekSecond_bind {f : Located Token → Parser β}
    (h : Fueled (f (firstToken (afterFirst ts))) ts) : Fueled (peekSecond >>= f) ts := h

theorem advance_bind {f : Located Token → Parser β}
    (h : Fueled (f (firstToken ts)) (afterFirst ts)) : Fueled (advance >>= f) ts := h

end Fueled

/-- The end of the text stays, so taking a token may leave as many as there were. -/
theorem length_afterFirst_le (ts : Stream) : (afterFirst ts).length ≤ ts.length := by
  cases ts with
  | nil => exact Nat.le_refl _
  | cons t rest =>
    by_cases ht : t.item = .eof
    · exact Nat.le_of_eq (congrArg List.length (if_pos ht))
    · have hrest : (afterFirst (t :: rest)).length = rest.length :=
        congrArg List.length (if_neg ht)
      rw [hrest, List.length_cons]
      omega

theorem length_afterFirst_lt {t : Token} (h : (firstToken ts).item = t) (ht : t ≠ .eof) :
    (afterFirst ts).length < ts.length := by
  obtain ⟨pos, rest, rfl⟩ := exists_eq_cons h ht
  rw [afterFirst_cons _ ht]
  simp

theorem fueled_eat (token : Token) : Fueled (eat token) ts := by
  unfold eat
  refine .peek_bind ?_
  split
  · exact .advance_bind (.pure _)
  · exact .pure _

theorem Fueled.eat_bind {token : Token} (ht : token ≠ .eof) {f : Bool → Parser β}
    (taken : ∀ mid, mid.length < ts.length → Fueled (f true) mid) (absent : Fueled (f false) ts) :
    Fueled (eat token >>= f) ts := by
  refine (fueled_eat token).bind fun b mid h => ?_
  rcases (reads_eat token ht).mp h with ⟨rfl, pos, rfl⟩ | ⟨rfl, rfl, -⟩
  · exact taken mid (by simp)
  · exact absent

theorem fueled_expect (token : Token) : Fueled (expect token) ts := by
  unfold expect
  refine .peek_bind ?_
  split
  · exact .advance_bind (.pure _)
  · exact .unexpected

theorem Fueled.expect_bind {token : Token} (ht : token ≠ .eof) {f : Position → Parser β}
    (hf : ∀ pos mid, mid.length < ts.length → Fueled (f pos) mid) :
    Fueled (expect token >>= f) ts :=
  (fueled_expect token).bind_of_advances (advances_expect token ht) hf

theorem fueled_ident (expected : Expected) : Fueled (ident expected) ts := by
  unfold ident
  refine .peek_bind ?_
  split
  · exact .advance_bind (.pure _)
  · exact .unexpected

theorem fueled_number (expected : Expected) : Fueled (number expected) ts := by
  unfold number
  refine .peek_bind ?_
  split
  · exact .advance_bind (.pure _)
  · exact .unexpected

/-! ## Section 3: Types and declarations -/

theorem fueled_width : Fueled width ts := by
  unfold width
  refine .peek_bind ?_
  split
  · refine .advance_bind ?_
    split
    · exact .pure _
    · exact .fail ParseCause.noConfusion
  · exact .unexpected

theorem fueled_type : Fueled type ts := by
  unfold type
  refine .eat_bind Token.noConfusion (fun us _ => ?_) ?_
  · refine fueled_width.bind_of_advances advances_width fun _ us _ => ?_
    refine (fueled_number _).bind_of_advances (advances_number _) fun _ us _ => ?_
    exact .expect_bind Token.noConfusion fun _ _ _ => .pure _
  · exact fueled_width.bind fun _ _ _ => .pure _

theorem fueled_typedName (expected : Expected) : Fueled (typedName expected) ts := by
  unfold typedName
  refine (fueled_ident _).bind fun _ us _ => ?_
  refine .expect_bind Token.noConfusion fun _ us _ => ?_
  exact fueled_type.bind fun _ _ _ => .pure _

theorem fueled_staticDecl : Fueled staticDecl ts := by
  unfold staticDecl
  refine .expect_bind Token.noConfusion fun _ us _ => ?_
  exact (fueled_typedName _).bind fun _ _ _ => .pure _

/-! ## Section 4: Loops -/

/-- What comes after a round: nothing, or a result and those of the rounds to come. -/
def afterRound (more : Parser (List α)) : Option α → Parser (List α)
  | none => return []
  | some a => do
    let rest ← more
    return a :: rest

/-- Rounds one after another, up to the one that gives nothing. -/
def repeated (round : Nat → Parser (Option α)) : Nat → Parser (List α)
  | 0 => fail .start .outOfFuel
  | fuel + 1 => round fuel >>= afterRound (repeated round fuel)

/-- A round of a loop.  It fails, ends the loop, or takes a token before the loop goes on. -/
structure IsRound (x : Parser (Option α)) : Prop where
  again : ∀ {ts a rest}, Reads x ts (some a) rest → Past ts rest
  exit  : ∀ {ts rest}, Reads x ts none rest → Takes ts rest

/-- A parser that goes round in a loop. -/
structure Loops (loop : Nat → Parser (List α)) (round : Nat → Parser (Option α)) : Prop where
  rounds : ∀ fuel, loop fuel = repeated round fuel
  each   : ∀ fuel, IsRound (round fuel)

/-- A loop has the fuel it needs if its rounds have, since the tokens get fewer.  `bound` is what
    the rounds need for a number of tokens. -/
theorem Loops.fueled {loop : Nat → Parser (List α)} {round : Nat → Parser (Option α)}
    (h : Loops loop round) (bound : Nat → Nat) (hbound : ∀ {m n}, m < n → bound m < bound n)
    (hround : ∀ {fuel ts}, bound ts.length ≤ fuel → Fueled (round fuel) ts)
    (hfuel : bound ts.length < fuel) : Fueled (loop fuel) ts := by
  rw [h.rounds]
  induction fuel generalizing ts with
  | zero => exact absurd hfuel (Nat.not_lt_zero _)
  | succ fuel ih =>
    rw [repeated]
    refine (hround (Nat.le_of_lt_succ hfuel)).bind fun found mid hreads => ?_
    cases found with
    | none => exact .pure _
    | some a =>
      -- the round has taken a token, so what is left needs less
      have hpast : Past ts mid := (h.each fuel).again hreads
      have hfewer : bound mid.length < bound ts.length := hbound hpast.length_lt
      exact (ih (by omega)).bind fun _ _ _ => .pure _

/-- A round of the semicolons between statements. -/
def separatorRound : Parser (Option Unit) := do
  if ← eat (.sign .semicolon) then return some () else return none

/-- A round of the numbers of a table. -/
def elementRound : Parser (Option Nat) := do
  if ← eat (.sign .rbracket) then
    return none
  else
    let value ← number .constElement
    let _ ← eat (.sign .comma)
    return some value

/-- A round of the parameters of a function. -/
def paramRound : Parser (Option Param) := do
  if ← eat (.sign .rparen) then
    return none
  else
    let (name, ty) ← typedName .parameterName
    let _ ← eat (.sign .comma)
    return some ⟨name, ty⟩

/-- A round of the operands of an operator or the arguments of a call. -/
def operandRound (fuel : Nat) : Parser (Option Expr) := do
  if ← eat (.sign .rparen) then return none else return some (← expression fuel)

/-- A round of the statements of a block. -/
def statementRound (ctx : Context) (fuel : Nat) : Parser (Option Statement) := do
  skipSeparators
  if ← eat (.sign .rbrace) then return none else return some (← statement fuel ctx)

/-- A round of the items of a program. -/
def itemRound (fuel : Nat) : Parser (Option Item) := do
  skipSeparators
  let t ← peek
  if t.item = .eof then return none else return some (← item fuel)

/-- A function that does one round and then calls itself is a loop. -/
theorem eq_repeated {loop : Nat → Parser (List α)} {round : Nat → Parser (Option α)}
    (zero : loop 0 = fail .start .outOfFuel)
    (succ : ∀ fuel, loop (fuel + 1) = round fuel >>= afterRound (loop fuel)) (fuel : Nat) :
    loop fuel = repeated round fuel := by
  induction fuel with
  | zero => exact zero
  | succ fuel ih => rw [succ, ih, repeated]

namespace IsRound

/-- A round that starts with something that takes a token. -/
theorem of_advances {x : Parser β} {f : β → Parser (Option α)} (hx : Advances x)
    (hf : ∀ {b ts found rest}, Reads (f b) ts found rest → Takes ts rest) : IsRound (x >>= f) := by
  have hpast : Advances (x >>= f) := by
    intro ts found rest h
    obtain ⟨b, mid, hb, hfound⟩ := reads_bind.mp h
    exact (hx hb).trans (hf hfound)
  exact ⟨fun h => hpast h, fun h => (hpast h).takes⟩

theorem unless_eat {token : Token} (ht : token ≠ .eof) {x : Parser (Option α)} (hx : IsRound x) :
    IsRound (do if ← eat token then return none else x) := by
  constructor
  · intro ts a rest h
    rcases (reads_eat_bind token ht).mp h with ⟨pos, mid, rfl, hnone⟩ | ⟨-, h'⟩
    · cases (reads_pure.mp hnone).1
    · exact hx.again h'
  · intro ts rest h
    rcases (reads_eat_bind token ht).mp h with ⟨pos, mid, rfl, hnone⟩ | ⟨-, h'⟩
    · obtain ⟨-, rfl⟩ := reads_pure.mp hnone
      exact (Past.one ht).takes
    · exact hx.exit h'

theorem after_separators {x : Parser (Option α)} (hx : IsRound x) :
    IsRound (skipSeparators >>= fun _ => x) := by
  constructor
  · intro ts a rest h
    obtain ⟨mid, ⟨sep⟩, h'⟩ := skipSeparators_sound h
    exact .after sep.takes (hx.again h')
  · intro ts rest h
    obtain ⟨mid, ⟨sep⟩, h'⟩ := skipSeparators_sound h
    exact sep.takes.trans (hx.exit h')

end IsRound

theorem takes_pure {a b : α} {rest : Stream} (h : Reads (pure a) ts b rest) : Takes ts rest := by
  rw [(reads_pure.mp h).2]
  exact .none rest

theorem isRound_separator : IsRound separatorRound := by
  constructor
  · intro ts a rest h
    rcases (reads_eat_bind _ Token.noConfusion).mp h with ⟨pos, mid, rfl, hsome⟩ | ⟨-, hnone⟩
    · obtain ⟨-, rfl⟩ := reads_pure.mp hsome
      exact .one
    · cases (reads_pure.mp hnone).1
  · intro ts rest h
    rcases (reads_eat_bind _ Token.noConfusion).mp h with ⟨pos, mid, rfl, hsome⟩ | ⟨-, hnone⟩
    · cases (reads_pure.mp hsome).1
    · exact takes_pure hnone

/-- What follows an element or a parameter takes at most a comma. -/
theorem takes_comma {a b : α} {rest : Stream}
    (h : Reads (do let _ ← eat (.sign .comma); return a) ts b rest) : Takes ts rest := by
  obtain ⟨mid, ⟨comma⟩, h'⟩ := comma_sound h
  exact comma.takes.trans (takes_pure h')

/-- The numbers found by a loop come after those found before. -/
theorem constElements_eq (fuel : Nat) (found : List Nat) :
    constElements fuel found = (found.reverse ++ ·) <$> repeated (fun _ => elementRound) fuel := by
  induction fuel generalizing found with
  | zero => rfl
  | succ fuel ih =>
    rw [constElements, repeated]
    -- only the first round is looked at
    generalize repeated (fun _ => elementRound) fuel = more at ih ⊢
    rw [elementRound, bind_assoc, map_bind]
    refine bind_congr fun b => ?_
    cases b <;> simp [afterRound, ih, map_bind]

theorem loops_elements : Loops (constElements · []) fun _ => elementRound where
  rounds fuel := by
    rw [constElements_eq]
    exact id_map _
  each _ := .unless_eat Token.noConfusion (.of_advances (advances_number _) takes_comma)

theorem loops_params : Loops params fun _ => paramRound where
  rounds := eq_repeated rfl fun fuel => by
    rw [params, paramRound, bind_assoc]
    refine bind_congr fun b => ?_
    cases b <;> simp [afterRound]
  each _ := .unless_eat Token.noConfusion (.of_advances (advances_typedName _) takes_comma)

theorem loops_operands : Loops operands operandRound where
  rounds := eq_repeated rfl fun fuel => by
    rw [operands, operandRound, bind_assoc]
    refine bind_congr fun b => ?_
    cases b <;> simp [afterRound]
  each _ := .unless_eat Token.noConfusion (.of_advances advances_expression takes_pure)

theorem loops_statements (ctx : Context) : Loops (statements · ctx) (statementRound ctx) where
  rounds := eq_repeated rfl fun fuel => by
    rw [statements, statementRound, bind_assoc]
    refine bind_congr fun _ => ?_
    rw [bind_assoc]
    refine bind_congr fun b => ?_
    cases b <;> simp [afterRound]
  each _ := .after_separators
    (.unless_eat Token.noConfusion (.of_advances advances_statement takes_pure))

theorem loops_items : Loops items itemRound where
  rounds := eq_repeated rfl fun fuel => by
    rw [items, itemRound, bind_assoc]
    refine bind_congr fun _ => ?_
    rw [bind_assoc]
    refine bind_congr fun t => ?_
    split <;> simp [afterRound]
  each fuel := by
    refine .after_separators ⟨fun {ts a rest} h => ?_, fun {ts rest} h => ?_⟩ <;>
      rw [reads_peek_bind] at h <;> split at h
    -- at the end of the text there is no item, and anywhere else there is one or a fault
    · cases (reads_pure.mp h).1
    · exact (IsRound.of_advances advances_item takes_pure).again h
    · exact takes_pure h
    · exact (IsRound.of_advances advances_item takes_pure).exit h

/-- Skipping semicolons is a loop that takes one in each round. -/
theorem skipSeparators_eq (hfuel : ts.length < fuel) :
    skipSeparators ts = ((fun _ => ()) <$> repeated (fun _ => separatorRound) fuel) ts := by
  induction fuel generalizing ts with
  | zero => exact absurd hfuel (Nat.not_lt_zero _)
  | succ fuel ih =>
    rw [repeated, map_bind]
    by_cases hfirst : (firstToken ts).item = .sign .semicolon
    · obtain ⟨pos, rest, rfl⟩ := exists_eq_cons hfirst Token.noConfusion
      have hround : Reads separatorRound (⟨pos, .sign .semicolon⟩ :: rest) (some ()) rest := rfl
      rw [bind_of_reads hround, afterRound, map_bind]
      simp only [map_pure, bind_pure_comp]
      exact ih (by simpa using hfuel)
    · have hround : Reads separatorRound ts none ts :=
        (reads_eat_bind _ Token.noConfusion).mpr (.inr ⟨hfirst, reads_pure.mpr ⟨rfl, rfl⟩⟩)
      have hnext : NextIsNot (.sign .semicolon) ts := by
        cases ts with
        | nil => exact trivial
        | cons t rest => exact hfirst
      have hnone : Reads skipSeparators ts () ts :=
        reads_skipSeparators.mpr (dropWhile_of_separators .none hnext)
      rw [bind_of_reads hround]
      exact hnone

/-! ## Section 5: The fuel that is enough -/

theorem fueled_params (hfuel : ts.length < fuel) : Fueled (params fuel) ts := by
  refine loops_params.fueled (fun n => n) (fun h => h) (fun {fuel ts} _ => ?_) hfuel
  refine .eat_bind Token.noConfusion (fun _ _ => .pure _) ?_
  refine (fueled_typedName _).bind fun _ us _ => ?_
  exact (fueled_eat _).bind fun _ _ _ => .pure _

theorem fueled_constElements (hfuel : ts.length < fuel) : Fueled (constElements fuel []) ts := by
  refine loops_elements.fueled (fun n => n) (fun h => h) (fun {fuel ts} _ => ?_) hfuel
  refine .eat_bind Token.noConfusion (fun _ _ => .pure _) ?_
  refine (fueled_number _).bind fun _ us _ => ?_
  exact (fueled_eat _).bind fun _ _ _ => .pure _

theorem fueled_constDecl (hfuel : ts.length < fuel) : Fueled (constDecl fuel) ts := by
  unfold constDecl
  refine .expect_bind Token.noConfusion fun _ us hus => ?_
  refine (fueled_typedName _).bind_of_advances (advances_typedName _) fun _ us₁ hus₁ => ?_
  refine .expect_bind Token.noConfusion fun _ us₂ hus₂ => ?_
  refine .expect_bind Token.noConfusion fun _ us₃ hus₃ => ?_
  exact (fueled_constElements (by omega)).bind fun _ _ _ => .pure _

/-- What the parsers of expressions need. -/
structure FueledExpressions (fuel : Nat) : Prop where
  expression : ∀ {ts}, ts.length < fuel → Fueled (expression fuel) ts
  operands : ∀ {ts}, ts.length + 1 < fuel → Fueled (operands fuel) ts

namespace FueledExpressions

theorem expression_succ (ih : FueledExpressions fuel) (hfuel : ts.length < fuel + 1) :
    Fueled (Parser.expression (fuel + 1)) ts := by
  rw [Parser.expression]
  refine .peek_bind ?_
  cases hitem : (firstToken ts).item with
  | number n => exact .advance_bind (.pure _)
  | ident name => exact .advance_bind (.pure _)
  | sign s =>
    cases s with
    | lbracket =>
      have hlen := length_afterFirst_lt hitem Token.noConfusion
      refine .advance_bind ?_
      refine (ih.expression (by omega)).bind fun _ us _ => ?_
      refine .expect_bind Token.noConfusion fun _ us _ => ?_
      exact (fueled_ident _).bind fun _ _ _ => .pure _
    | lparen =>
      have hlen := length_afterFirst_lt hitem Token.noConfusion
      refine .advance_bind (.advance_bind ?_)
      cases hhead : (firstToken (afterFirst ts)).item with
      -- the head is a token of its own, so the operands have two tokens less
      | op op =>
        have hlen' := length_afterFirst_lt hhead Token.noConfusion
        refine (ih.operands (by omega)).bind fun es us _ => ?_
        split
        · exact .pure _
        · exact .fail ParseCause.noConfusion
      | ident function =>
        have hlen' := length_afterFirst_lt hhead Token.noConfusion
        exact (ih.operands (by omega)).bind fun _ _ _ => .pure _
      | _ => exact .fail ParseCause.noConfusion
    | _ => exact .unexpected
  | _ => exact .unexpected

theorem operands_succ (ih : FueledExpressions fuel) (hfuel : ts.length + 1 < fuel + 1) :
    Fueled (Parser.operands (fuel + 1)) ts := by
  rw [Parser.operands]
  refine .eat_bind Token.noConfusion (fun _ _ => .pure _) ?_
  refine (ih.expression (by omega)).bind_of_advances advances_expression fun _ us hus => ?_
  exact (ih.operands (by omega)).bind fun _ _ _ => .pure _

end FueledExpressions

theorem fueledExpressions (fuel : Nat) : FueledExpressions fuel := by
  induction fuel with
  | zero => exact ⟨fun h => absurd h (Nat.not_lt_zero _), fun h => absurd h (Nat.not_lt_zero _)⟩
  | succ fuel ih => exact ⟨ih.expression_succ, ih.operands_succ⟩

theorem fueled_expression (hfuel : ts.length < fuel) : Fueled (expression fuel) ts :=
  (fueledExpressions fuel).expression hfuel

theorem fueled_returnStatement (hfuel : ts.length < fuel) :
    Fueled (returnStatement fuel ctx) ts := by
  unfold returnStatement
  refine .expect_bind Token.noConfusion fun _ us hus => .peek_bind ?_
  dsimp only
  split
  · exact (fueled_expression (by omega)).bind fun _ _ _ => .pure _
  · exact .pure _
  · exact .fail ParseCause.noConfusion
  · exact .fail ParseCause.noConfusion

theorem fueled_place (hfuel : ts.length < fuel) : Fueled (place fuel) ts := by
  unfold place
  refine .eat_bind Token.noConfusion (fun us hus => ?_) ?_
  · refine (fueled_expression (by omega)).bind fun _ us _ => ?_
    refine .expect_bind Token.noConfusion fun _ us _ => ?_
    exact (fueled_ident _).bind fun _ _ _ => .pure _
  · exact (fueled_ident _).bind fun _ _ _ => .pure _

theorem fueled_assignment (op : AssignOp) (hfuel : ts.length < fuel) :
    Fueled (assignment fuel op) ts := by
  unfold assignment
  refine .expect_bind Token.noConfusion fun _ us hus => .advance_bind ?_
  have hlen : (afterFirst us).length ≤ us.length := length_afterFirst_le us
  refine (fueled_place (by omega)).bind_of_advances advances_place fun _ us₁ hus₁ => ?_
  refine (fueled_expression (by omega)).bind fun _ us₂ _ => ?_
  exact .expect_bind Token.noConfusion fun _ _ _ => .pure _

theorem fueled_letStatement (hfuel : ts.length < fuel) : Fueled (letStatement fuel) ts := by
  unfold letStatement
  refine .expect_bind Token.noConfusion fun _ us hus => ?_
  refine (fueled_typedName _).bind_of_advances (advances_typedName _) fun _ us₁ hus₁ => ?_
  refine .expect_bind Token.noConfusion fun _ us₂ hus₂ => ?_
  exact (fueled_expression (by omega)).bind fun _ _ _ => .pure _

theorem fueled_forHeader (hfuel : ts.length < fuel) : Fueled (forHeader fuel) ts := by
  unfold forHeader
  refine (fueled_ident _).bind_of_advances (advances_ident _) fun _ us hus => ?_
  refine .expect_bind Token.noConfusion fun _ us₁ hus₁ => ?_
  refine fueled_width.bind_of_advances advances_width fun _ us₂ hus₂ => ?_
  refine .expect_bind Token.noConfusion fun _ us₃ hus₃ => ?_
  refine (fueled_expression (by omega)).bind_of_advances advances_expression fun _ us₄ hus₄ => ?_
  refine .expect_bind Token.noConfusion fun _ us₅ hus₅ => ?_
  exact (fueled_expression (by omega)).bind fun _ _ _ => .pure _

/-- What the parsers of statements need. -/
structure FueledStatements (fuel : Nat) : Prop where
  statement : ∀ {ctx ts}, 2 * ts.length + 1 < fuel → Fueled (statement fuel ctx) ts
  conditional : ∀ {ctx ts}, 2 * ts.length < fuel → Fueled (conditional fuel ctx) ts
  block : ∀ {ctx ts}, 2 * ts.length + 1 < fuel → Fueled (block fuel ctx) ts
  statements : ∀ {ctx ts}, 2 * ts.length + 2 < fuel → Fueled (statements fuel ctx) ts

namespace FueledStatements

theorem statement_succ (ih : FueledStatements fuel) (hfuel : 2 * ts.length + 1 < fuel + 1) :
    Fueled (Parser.statement (fuel + 1) ctx) ts := by
  have hexpr : ∀ pos, Fueled (do return Statement.expr pos (← Parser.expression fuel)) ts :=
    fun pos => (fueled_expression (by omega)).bind fun _ _ _ => .pure _
  rw [Parser.statement]
  refine .peek_bind ?_
  cases hitem : (firstToken ts).item with
  | keyword k =>
    cases k with
    | letWord => exact fueled_letStatement (by omega)
    | staticWord =>
      dsimp only
      split
      · exact fueled_staticDecl.bind fun _ _ _ => .pure _
      · exact .fail ParseCause.noConfusion
    -- no token has been taken yet, so a conditional has to do with a unit less
    | ifWord => exact ih.conditional (by omega)
    | forWord =>
      have hlen := length_afterFirst_lt hitem Token.noConfusion
      refine .advance_bind ?_
      refine (fueled_forHeader (by omega)).bind_of_advances advances_forHeader fun _ us hus => ?_
      exact (ih.block (by omega)).bind fun _ _ _ => .pure _
    | loopWord =>
      have hlen := length_afterFirst_lt hitem Token.noConfusion
      exact .advance_bind ((ih.block (by omega)).bind fun _ _ _ => .pure _)
    | breakWord =>
      refine .advance_bind ?_
      split
      · exact .pure _
      · exact .fail ParseCause.noConfusion
    | continueWord =>
      refine .advance_bind ?_
      split
      · exact .pure _
      · exact .fail ParseCause.noConfusion
    | returnWord => exact fueled_returnStatement (by omega)
    | _ => exact hexpr _
  | sign s =>
    cases s with
    | panic => exact .advance_bind (.pure _)
    | lparen =>
      refine .peekSecond_bind ?_
      cases (firstToken (afterFirst ts)).item with
      | assign op => exact fueled_assignment op (by omega)
      | _ => exact hexpr _
    | _ => exact hexpr _
  | _ => exact hexpr _

theorem conditional_succ (ih : FueledStatements fuel) (hfuel : 2 * ts.length < fuel + 1) :
    Fueled (Parser.conditional (fuel + 1) ctx) ts := by
  rw [Parser.conditional]
  refine .expect_bind Token.noConfusion fun _ us hus => ?_
  refine (fueled_expression (by omega)).bind_of_advances advances_expression fun _ us₁ hus₁ => ?_
  refine (ih.block (by omega)).bind_of_advances advances_block fun _ us₂ hus₂ => ?_
  refine .eat_bind Token.noConfusion (fun us₃ hus₃ => .peek_bind ?_) (.pure _)
  split
  · exact (ih.conditional (by omega)).bind fun _ _ _ => .pure _
  · exact (ih.block (by omega)).bind fun _ _ _ => .pure _

theorem block_succ (ih : FueledStatements fuel) (hfuel : 2 * ts.length + 1 < fuel + 1) :
    Fueled (Parser.block (fuel + 1) ctx) ts := by
  rw [Parser.block]
  exact .expect_bind Token.noConfusion fun _ us hus => ih.statements (by omega)

theorem statements_succ (ih : FueledStatements fuel) (hfuel : 2 * ts.length + 2 < fuel + 1) :
    Fueled (Parser.statements (fuel + 1) ctx) ts := by
  rw [Parser.statements]
  refine .skipSeparators_bind fun us hus => ?_
  refine .eat_bind Token.noConfusion (fun _ _ => .pure _) ?_
  refine (ih.statement (by omega)).bind_of_advances advances_statement fun _ us₁ hus₁ => ?_
  exact (ih.statements (by omega)).bind fun _ _ _ => .pure _

end FueledStatements

theorem fueledStatements (fuel : Nat) : FueledStatements fuel := by
  induction fuel with
  | zero => constructor <;> exact fun h => absurd h (Nat.not_lt_zero _)
  | succ fuel ih =>
    exact ⟨ih.statement_succ, ih.conditional_succ, ih.block_succ, ih.statements_succ⟩

/-- A part that may be left out, after a token that says that it is there. -/
theorem Fueled.optional_bind {token : Token} (ht : token ≠ .eof) {x : Parser α} {a : α}
    {f : α → Parser β} (hx : ∀ mid, mid.length < ts.length → Fueled x mid) (ha : Advances x)
    (hf : ∀ a mid, mid.length ≤ ts.length → Fueled (f a) mid) :
    Fueled ((do if ← eat token then x else return a) >>= f) ts := by
  have hboth : Fueled (do if ← eat token then x else return a) ts :=
    .eat_bind ht hx (.pure a)
  refine hboth.bind fun b mid h => hf b mid ?_
  rcases (reads_eat_bind token ht).mp h with ⟨pos, us, rfl, h'⟩ | ⟨-, h'⟩
  · exact Nat.le_succ_of_le (Nat.le_of_lt (ha.length_lt h'))
  · exact (takes_pure h').length_le

theorem fueled_function (hfuel : 2 * ts.length < fuel) : Fueled (function fuel) ts := by
  unfold function
  refine .expect_bind Token.noConfusion fun _ us hus => ?_
  refine (fueled_ident _).bind_of_advances (advances_ident _) fun _ us₁ hus₁ => ?_
  refine .optional_bind Token.noConfusion (fun us₂ hus₂ => fueled_params (by omega))
    advances_params fun _ us₂ hus₂ => ?_
  refine .optional_bind Token.noConfusion (fun us₃ hus₃ => fueled_type.bind fun _ _ _ => .pure _)
    advances_returnType fun _ us₃ hus₃ => ?_
  exact ((fueledStatements fuel).block (by omega)).bind fun _ _ _ => .pure _

theorem fueled_item (hfuel : 2 * ts.length + 1 < fuel) : Fueled (item fuel) ts := by
  unfold item
  refine .peek_bind ?_
  split
  · exact (fueled_function (by omega)).bind fun _ _ _ => .pure _
  · exact fueled_staticDecl.bind fun _ _ _ => .pure _
  · exact (fueled_constDecl (by omega)).bind fun _ _ _ => .pure _
  · exact ((fueledStatements fuel).statement hfuel).bind fun _ _ _ => .pure _

theorem fueled_items (hfuel : 2 * ts.length + 2 < fuel) : Fueled (items fuel) ts := by
  refine loops_items.fueled (fun n => 2 * n + 2) (fun h => by omega) (fun {fuel ts} hle => ?_) hfuel
  refine .skipSeparators_bind fun us hus => .peek_bind ?_
  split
  · exact .pure _
  · exact (fueled_item (by omega)).bind fun _ _ _ => .pure _

/-! ## Section 6: The end of the tokens is not looked past -/

/-- A loop that comes to an end ends in a round. -/
theorem Loops.exists_exit {loop : Nat → Parser (List α)} {round : Nat → Parser (Option α)}
    (h : Loops loop round) {found : List α} {rest : Stream}
    (hreads : Reads (loop fuel) ts found rest) :
    ∃ n mid, Takes ts mid ∧ Reads (round n) mid none rest := by
  rw [h.rounds] at hreads
  induction fuel generalizing ts found with
  | zero => exact absurd hreads not_reads_fail
  | succ fuel ih =>
    obtain ⟨one, mid, hround, hafter⟩ := reads_bind.mp hreads
    cases one with
    | none =>
      obtain ⟨-, rfl⟩ := reads_pure.mp hafter
      exact ⟨fuel, ts, .none ts, hround⟩
    | some a =>
      obtain ⟨more, _, hmore, hdone⟩ := reads_bind.mp hafter
      obtain ⟨-, rfl⟩ := reads_pure.mp hdone
      obtain ⟨n, last, htakes, hexit⟩ := ih hmore
      exact ⟨n, last, ((h.each fuel).again hround).takes.trans htakes, hexit⟩

/-- The items end at the end of the text, which is the first one. -/
theorem items_stops {is : List Item} {rest : Stream} (hend : ∃ t ∈ ts, t.item = .eof)
    (h : Reads (items fuel) ts is rest) :
    Takes ts rest ∧ ∃ pos after, rest = ⟨pos, .eof⟩ :: after := by
  obtain ⟨n, mid, htakes, hexit⟩ := loops_items.exists_exit h
  have hrest : Takes ts rest := htakes.trans ((loops_items.each n).exit hexit)
  obtain ⟨us, -, hpeek⟩ := skipSeparators_sound hexit
  rw [reads_peek_bind] at hpeek
  split at hpeek
  · next heof =>
    obtain ⟨-, rfl⟩ := reads_pure.mp hpeek
    cases us with
    | nil =>
      obtain ⟨t, ht, -⟩ := hrest.mem_eof hend
      cases ht
    | cons t after =>
      obtain ⟨pos, t⟩ := t
      cases heof
      exact ⟨hrest, pos, after, rfl⟩
  · obtain ⟨i, _, -, hpure⟩ := reads_bind.mp hpeek
    cases (reads_pure.mp hpure).1

theorem aligned_append (after : Stream) (hend : ∃ t ∈ ts, t.item = .eof) :
    Aligned .identical ts (ts ++ after) := by
  induction ts with
  | nil =>
    obtain ⟨t, ht, -⟩ := hend
    cases ht
  | cons t rest ih =>
    obtain ⟨pos, t⟩ := t
    by_cases ht : t = .eof
    · subst ht
      exact .last rfl
    · have hrest : ∃ t ∈ rest, t.item = .eof := (Takes.cons (.none rest) ht).mem_eof hend
      refine .cons rfl ht (fun _ => ?_) (ih hrest)
      -- the token after a `return` is one of `rest`, which is not empty
      cases rest with
      | nil =>
        obtain ⟨t, ht, -⟩ := hrest
        cases ht
      | cons next rest => exact Iff.rfl

theorem run'_of_reads {x : Parser α} {a : α} {rest : Stream} (h : Reads x ts a rest) :
    StateT.run' x ts = .ok a := by
  show Prod.fst <$> x ts = _
  rw [show x ts = .ok (a, rest) from h]
  rfl

theorem run'_of_error {x : Parser α} {e : ParseError} (h : x ts = .error e) :
    StateT.run' x ts = .error e := by
  show Prod.fst <$> x ts = _
  rw [h]
  rfl

/-- Neither more fuel nor more tokens after the end of the text make a difference. -/
theorem run'_items_append {fuel' : Nat} (after : Stream) (hend : ∃ t ∈ ts, t.item = .eof)
    (hfuel : 2 * ts.length + 2 < fuel) (hle : fuel ≤ fuel') :
    (items fuel').run' (ts ++ after) = (items fuel).run' ts := by
  cases agree_items hle (aligned_append after hend) with
  | exhausted first => exact absurd rfl (fueled_items hfuel _ first)
  | @reads is is' rest rest' first second same left =>
    have hsame : is.map (Item.relocate id) = is'.map (Item.relocate id) := same
    rw [Item.relocate_id, List.map_id, List.map_id] at hsame
    rw [run'_of_reads first, run'_of_reads second, hsame]
  | fails first second place =>
    cases place
    rw [run'_of_error first, run'_of_error second]

end Parser

namespace Program

theorem exists_closeTokens_eq (ts : Stream) :
    ∃ init pos, closeTokens ts = init ++ [⟨pos, .eof⟩] := by
  unfold closeTokens
  split
  · exact ⟨[], .start, rfl⟩
  · next t hlast =>
    split
    · next heof =>
      obtain ⟨init, rfl⟩ := List.getLast?_eq_some_iff.mp hlast
      obtain ⟨pos, t⟩ := t
      cases heof
      exact ⟨init, pos, rfl⟩
    · exact ⟨ts, t.pos, rfl⟩

theorem length_closeTokens_le (ts : Stream) : (closeTokens ts).length ≤ ts.length + 1 := by
  unfold closeTokens
  split
  · simp
  · split <;> simp

/-- The result of a run that is given this much fuel. -/
def ofTokensWith (fuel : Nat) (ts : Stream) : Except ParseError Program := do
  let items ← (Parser.items fuel).run' ts
  return ⟨items⟩

/-- With enough fuel, the tokens up to an end of the text decide the result. -/
theorem ofTokensWith_eq {ts before rest : Stream} {pos : Position} {fuel : Nat}
    (hclosed : closeTokens ts = before ++ ⟨pos, .eof⟩ :: rest) (after : Stream)
    (hfuel : 2 * ts.length + 5 ≤ fuel) :
    ofTokensWith fuel (before ++ ⟨pos, .eof⟩ :: after) = ofTokens ts := by
  have hlen := length_closeTokens_le ts
  rw [hclosed, List.length_append, List.length_cons] at hlen
  have hend : ∃ t ∈ before ++ [⟨pos, Token.eof⟩], t.item = .eof := ⟨⟨pos, .eof⟩, by simp, rfl⟩
  have hleast : ∀ {fuel : Nat} (after : Stream), 2 * ts.length + 5 ≤ fuel →
      (Parser.items fuel).run' (before ++ ⟨pos, .eof⟩ :: after) =
        (Parser.items (2 * ts.length + 5)).run' (before ++ [⟨pos, .eof⟩]) := by
    intro fuel after h
    rw [List.append_cons]
    refine Parser.run'_items_append after hend ?_ h
    rw [List.length_append, List.length_singleton]
    omega
  rw [ofTokensWith, ofTokens, hclosed, hleast after hfuel, hleast rest (by omega)]

theorem fueled_ofTokens {ts : Stream} {e : ParseError} (h : ofTokens ts = .error e) :
    e.item ≠ .outOfFuel := by
  have hlen := length_closeTokens_le ts
  unfold ofTokens at h
  cases hrun : Parser.items (4 * ts.length + 8) (closeTokens ts) with
  | error e' =>
    rw [Parser.run'_of_error hrun] at h
    cases h
    exact Parser.fueled_items (by omega) _ hrun
  | ok r =>
    rw [Parser.run'_of_reads hrun] at h
    cases h

/-- What a run of the parser on some tokens is like, whether the end of the text is among them
    or not. -/
structure RunsSafely (ts : Stream) : Prop where
  /-- There is a program, or a fault in the tokens. -/
  ends   : (∃ p, ofTokens ts = .ok p) ∨ ∃ e, ofTokens ts = .error e ∧ e.item ≠ .outOfFuel
  /-- This much fuel is enough: with more, the result is the same. -/
  enough : ∀ fuel, 2 * ts.length + 5 ≤ fuel → ofTokensWith fuel (closeTokens ts) = ofTokens ts
  /-- There is an end of the text to stop at. -/
  closed : ∃ init pos, closeTokens ts = init ++ [⟨pos, .eof⟩]
  /-- A run that reads the items stops at the first one. -/
  stops  : ∀ {fuel is rest}, Parser.Reads (Parser.items fuel) (closeTokens ts) is rest →
    Takes (closeTokens ts) rest ∧ ∃ pos after, rest = ⟨pos, .eof⟩ :: after
  /-- No token past an end of the text is looked at, so none past the first one and none past the
      last token: whatever stands there, the result is the same. -/
  within : ∀ {before pos rest}, closeTokens ts = before ++ ⟨pos, .eof⟩ :: rest →
    ∀ fuel after, 2 * ts.length + 5 ≤ fuel →
      ofTokensWith fuel (before ++ ⟨pos, .eof⟩ :: after) = ofTokens ts

theorem runsSafely (ts : Stream) : RunsSafely ts := by
  obtain ⟨init, pos, hclosed⟩ := exists_closeTokens_eq ts
  constructor
  case ends =>
    cases h : ofTokens ts with
    | ok p => exact .inl ⟨p, rfl⟩
    | error e => exact .inr ⟨e, rfl, fueled_ofTokens h⟩
  case enough =>
    intro fuel hfuel
    rw [← ofTokensWith_eq hclosed [] hfuel, hclosed]
  case closed => exact ⟨init, pos, hclosed⟩
  case stops =>
    intro fuel is rest h
    refine Parser.items_stops ⟨⟨pos, .eof⟩, ?_, rfl⟩ h
    rw [hclosed]
    exact List.mem_append_right _ (List.mem_singleton_self _)
  case within =>
    intro before pos rest hsplit fuel after hfuel
    exact ofTokensWith_eq hsplit after hfuel

end Program

namespace Parser

/-- Each of these takes at least one token if it reads anything. -/
structure EachAdvances (fuel : Nat) (ctx : Context) : Prop where
  function    : Advances (function fuel)
  static      : Advances staticDecl
  const       : Advances (constDecl fuel)
  statement   : Advances (statement fuel ctx)
  block       : Advances (block fuel ctx)
  conditional : Advances (conditional fuel ctx)
  type        : Advances type
  expression  : Advances (expression fuel)

/-- The loops of the parser.  The semicolons have no fuel of their own, since taking them is taking
    tokens off a list. -/
structure EachLoops : Prop where
  items      : Loops items itemRound
  statements : ∀ ctx, Loops (statements · ctx) (statementRound ctx)
  params     : Loops params fun _ => paramRound
  elements   : Loops (constElements · []) fun _ => elementRound
  operands   : Loops operands operandRound
  separators : IsRound separatorRound ∧ ∀ ts fuel, ts.length < fuel →
    skipSeparators ts = ((fun _ => ()) <$> repeated (fun _ => separatorRound) fuel) ts

end Parser

/-- The parser always comes to an end, on any tokens and with fuel linear in their number.  It gets
    there because whatever it reads and each round of its loops takes a token, and it passes neither
    the first end of the text nor the last token. -/
theorem parser_comes_to_an_end :
    (∀ ts, Program.RunsSafely ts) ∧ (∀ fuel ctx, Parser.EachAdvances fuel ctx) ∧
      Parser.EachLoops := by
  refine ⟨Program.runsSafely, fun fuel ctx => ?_, ?_⟩
  · exact ⟨Parser.advances_function, Parser.advances_staticDecl, Parser.advances_constDecl,
      Parser.advances_statement, Parser.advances_block, Parser.advances_conditional,
      Parser.advances_type, Parser.advances_expression⟩
  · exact ⟨Parser.loops_items, Parser.loops_statements, Parser.loops_params, Parser.loops_elements,
      Parser.loops_operands, Parser.isRound_separator, fun _ _ => Parser.skipSeparators_eq⟩

end WordLang
