import Mathlib.Data.List.Forall2
import WordLang.Proofs.Checking
import WordLang.Proofs.Parsing

/-! # Two runs of the parser side by side

    Two streams are aligned if they have the same tokens up to the first end
    of the text, at places that belong together, and if each `return` is
    followed by a value in both or in neither.  What comes after the first
    end of the text is left open, and so is whether anything does.

    On aligned streams two runs of a parser agree, of which the second may
    have more fuel: they take the same tokens and give the same trees but for
    the places in them, or fail alike at places that belong together.  The
    proof goes through the parser once, one rule for each way to put parsers
    together and one lemma for each parser.  Which places belong together is
    a parameter, so that different statements about places come from it. -/

namespace WordLang

open Grammar

/-! ## Section 1: Aligned streams -/

/-- Two ways to place the same tokens: which places belong together, and how to move the places of
    each so that those become the same. -/
structure Layouts where
  Together : Position → Position → Prop
  move     : Position → Position
  move'    : Position → Position
  moved    : ∀ {p p' : Position}, Together p p' → move p = move' p'

/-- Each place belongs to itself. -/
def Layouts.identical : Layouts := ⟨Eq, id, id, fun h => h⟩

/-- Two things with places in them that are the same once the places are moved. -/
def Layouts.Same {α : Type} (c : Layouts) (relocate : (Position → Position) → α → α) (a a' : α) :
    Prop :=
  relocate c.move a = relocate c.move' a'

/-- The same tokens up to the first end of the text. -/
inductive Aligned (c : Layouts) : Stream → Stream → Prop where
  | last {p p' : Position} {after after' : Stream} (place : c.Together p p') :
      Aligned c (⟨p, .eof⟩ :: after) (⟨p', .eof⟩ :: after')
  | cons {p p' : Position} {t : Token} {ts ts' : Stream} (place : c.Together p p')
      (notEnd : t ≠ .eof)
      (value : t = .keyword .returnWord → (ValueFollows p ts ↔ ValueFollows p' ts'))
      (next : Aligned c ts ts') : Aligned c (⟨p, t⟩ :: ts) (⟨p', t⟩ :: ts')

namespace Parser

variable {α β : Type} {c : Layouts} {R : α → α → Prop} {S : β → β → Prop} {ts ts' : Stream}

theorem exists_firstToken (h : Aligned c ts ts') :
    ∃ p p' t, firstToken ts = ⟨p, t⟩ ∧ firstToken ts' = ⟨p', t⟩ ∧ c.Together p p' := by
  cases h with
  | last place => exact ⟨_, _, _, rfl, rfl, place⟩
  | cons place notEnd value next => exact ⟨_, _, _, rfl, rfl, place⟩

/-- The end of the text is not passed, and streams are aligned after any other token. -/
theorem aligned_afterFirst (h : Aligned c ts ts') : Aligned c (afterFirst ts) (afterFirst ts') := by
  cases h with
  | last place => exact .last place
  | cons place notEnd value next =>
    rw [afterFirst_cons _ notEnd, afterFirst_cons _ notEnd]
    exact next

/-! ## Section 2: Runs that agree -/

theorem bind_error {x : Parser α} {f : α → Parser β} {e : ParseError} (h : x ts = .error e) :
    (x >>= f) ts = .error e := by
  show (x ts >>= fun r => f r.1 r.2) = _
  rw [h]
  rfl

theorem bind_of_reads {x : Parser α} {f : α → Parser β} {a : α} {rest : Stream}
    (h : Reads x ts a rest) : (x >>= f) ts = f a rest := by
  show (x ts >>= fun r => f r.1 r.2) = _
  rw [show x ts = .ok (a, rest) from h]
  rfl

/-- Unless the first parser runs out of fuel, the second one takes the same tokens and gives a
    related result, or fails for the same cause at a place that belongs to that of the first. -/
inductive Agree (c : Layouts) (R : α → α → Prop) (x y : Parser α) (ts ts' : Stream) : Prop where
  | exhausted {pos : Position} (first : x ts = .error ⟨pos, .outOfFuel⟩)
  | reads {a a' : α} {rest rest' : Stream} (first : Reads x ts a rest)
      (second : Reads y ts' a' rest') (same : R a a') (left : Aligned c rest rest')
  | fails {p p' : Position} {cause : ParseCause} (first : x ts = .error ⟨p, cause⟩)
      (second : y ts' = .error ⟨p', cause⟩) (place : c.Together p p')

namespace Agree

theorem pure {a a' : α} (same : R a a') (h : Aligned c ts ts') :
    Agree c R (Pure.pure a) (Pure.pure a') ts ts' :=
  .reads rfl rfl same h

theorem fail {p p' : Position} {cause : ParseCause} (place : c.Together p p') :
    Agree c R (Parser.fail p cause) (Parser.fail p' cause) ts ts' :=
  .fails rfl rfl place

theorem outOfFuel {pos : Position} {y : Parser α} :
    Agree c R (Parser.fail pos .outOfFuel) y ts ts' :=
  .exhausted rfl

/-- Agreement is about what the parsers do on the two streams only. -/
theorem congr {x y x₁ y₁ : Parser α} {us us' : Stream} (hx : x ts = x₁ us) (hy : y ts' = y₁ us')
    (h : Agree c R x₁ y₁ us us') : Agree c R x y ts ts' := by
  cases h with
  | exhausted first => exact .exhausted (hx.trans first)
  | reads first second same left => exact .reads (hx.trans first) (hy.trans second) same left
  | fails first second place => exact .fails (hx.trans first) (hy.trans second) place

theorem bind {x y : Parser α} {f g : α → Parser β} (hx : Agree c R x y ts ts')
    (hf : ∀ a a' rest rest', R a a' → Aligned c rest rest' → Agree c S (f a) (g a') rest rest') :
    Agree c S (x >>= f) (y >>= g) ts ts' := by
  cases hx with
  | exhausted first => exact .exhausted (bind_error first)
  | fails first second place => exact .fails (bind_error first) (bind_error second) place
  -- the second halves start from where the first ones have stopped
  | reads first second same left =>
    exact (hf _ _ _ _ same left).congr (bind_of_reads first) (bind_of_reads second)

theorem peek_bind {f g : Located Token → Parser β} (h : Aligned c ts ts')
    (hf : ∀ p p' t, c.Together p p' → Agree c S (f ⟨p, t⟩) (g ⟨p', t⟩) ts ts') :
    Agree c S (peek >>= f) (peek >>= g) ts ts' := by
  obtain ⟨p, p', t, hfirst, hfirst', place⟩ := exists_firstToken h
  refine (hf p p' t place).congr ?_ ?_
  · rw [← hfirst]
    rfl
  · rw [← hfirst']
    rfl

theorem peekSecond_bind {f g : Located Token → Parser β} (h : Aligned c ts ts')
    (hf : ∀ p p' t, c.Together p p' → Agree c S (f ⟨p, t⟩) (g ⟨p', t⟩) ts ts') :
    Agree c S (peekSecond >>= f) (peekSecond >>= g) ts ts' := by
  obtain ⟨p, p', t, hsecond, hsecond', place⟩ := exists_firstToken (aligned_afterFirst h)
  refine (hf p p' t place).congr ?_ ?_
  · rw [← hsecond]
    rfl
  · rw [← hsecond']
    rfl

theorem advance_bind {f g : Located Token → Parser β} (h : Aligned c ts ts')
    (hf : ∀ p p' t rest rest', c.Together p p' → Aligned c rest rest' →
      Agree c S (f ⟨p, t⟩) (g ⟨p', t⟩) rest rest') :
    Agree c S (advance >>= f) (advance >>= g) ts ts' := by
  obtain ⟨p, p', t, hfirst, hfirst', place⟩ := exists_firstToken h
  refine (hf p p' t _ _ place (aligned_afterFirst h)).congr ?_ ?_
  · rw [← hfirst]
    rfl
  · rw [← hfirst']
    rfl

theorem unexpected {expected : Expected} (h : Aligned c ts ts') :
    Agree c R (Parser.unexpected expected) (Parser.unexpected expected) ts ts' :=
  peek_bind h fun _ _ _ place => .fail place

/-- Taking a token that may be there. -/
theorem eat_bind {token : Token} (ht : token ≠ .eof) {f g : Bool → Parser β}
    (h : Aligned c ts ts')
    (taken : ∀ rest rest', Aligned c rest rest' → Agree c S (f true) (g true) rest rest')
    (absent : Agree c S (f false) (g false) ts ts') :
    Agree c S (eat token >>= f) (eat token >>= g) ts ts' := by
  by_cases hfirst : (firstToken ts).item = token
  · obtain ⟨p, rest, rfl⟩ := exists_eq_cons hfirst ht
    cases h with
    | last place => exact absurd rfl ht
    | cons place notEnd value next =>
      exact (taken _ _ next).congr (bind_of_reads ((reads_eat token ht).mpr (.inl ⟨rfl, _, rfl⟩)))
        (bind_of_reads ((reads_eat token ht).mpr (.inl ⟨rfl, _, rfl⟩)))
  · have hfirst' : (firstToken ts').item ≠ token := by
      obtain ⟨p, p', t, heq, heq', -⟩ := exists_firstToken h
      rw [heq] at hfirst
      rwa [heq']
    exact absent.congr (bind_of_reads ((reads_eat token ht).mpr (.inr ⟨rfl, rfl, hfirst⟩)))
      (bind_of_reads ((reads_eat token ht).mpr (.inr ⟨rfl, rfl, hfirst'⟩)))

/-- Taking a token that has to be there. -/
theorem expect_bind {token : Token} (ht : token ≠ .eof) {f g : Position → Parser β}
    (h : Aligned c ts ts')
    (taken : ∀ p p' rest rest', ts = ⟨p, token⟩ :: rest → ts' = ⟨p', token⟩ :: rest' →
      c.Together p p' → Aligned c rest rest' → Agree c S (f p) (g p') rest rest') :
    Agree c S (expect token >>= f) (expect token >>= g) ts ts' := by
  by_cases hfirst : (firstToken ts).item = token
  · obtain ⟨p, rest, rfl⟩ := exists_eq_cons hfirst ht
    cases h with
    | last place => exact absurd rfl ht
    | cons place notEnd value next =>
      exact (taken _ _ _ _ rfl rfl place next).congr
        (bind_of_reads ((reads_expect token ht).mpr rfl))
        (bind_of_reads ((reads_expect token ht).mpr rfl))
  · have hfails : ∀ {us : Stream}, (firstToken us).item ≠ token →
        expect token us = Parser.unexpected (.token token) us := by
      intro us hne
      show (if (firstToken us).item = token then _ else _ : Parser Position) us = _
      rw [if_neg hne]
    obtain ⟨p, p', t, heq, heq', place⟩ := exists_firstToken h
    have hfirst' : (firstToken ts').item ≠ token := by
      rw [heq] at hfirst
      rwa [heq']
    have hboth : Agree c (fun _ _ => False) (expect token) (expect token) ts ts' :=
      (unexpected h).congr (hfails hfirst) (hfails hfirst')
    exact hboth.bind fun _ _ _ _ same => same.elim

end Agree

theorem agree_ident {expected : Expected} (h : Aligned c ts ts') :
    Agree c Eq (ident expected) (ident expected) ts ts' := by
  unfold ident
  refine .peek_bind h fun p p' t _ => ?_
  cases t with
  | ident name => exact .advance_bind h fun _ _ _ _ _ _ hrest => .pure rfl hrest
  | _ => exact .unexpected h

theorem agree_number {expected : Expected} (h : Aligned c ts ts') :
    Agree c Eq (number expected) (number expected) ts ts' := by
  unfold number
  refine .peek_bind h fun p p' t _ => ?_
  cases t with
  | number n => exact .advance_bind h fun _ _ _ _ _ _ hrest => .pure rfl hrest
  | _ => exact .unexpected h

theorem aligned_dropWhile (h : Aligned c ts ts') :
    Aligned c (ts.dropWhile fun t => decide (t.item = .sign .semicolon))
      (ts'.dropWhile fun t => decide (t.item = .sign .semicolon)) := by
  induction h with
  | last place => exact .last place
  | @cons p p' t ts ts' place notEnd value next ih =>
    by_cases ht : t = .sign .semicolon
    · simpa [List.dropWhile_cons, ht] using ih
    · simpa [List.dropWhile_cons, ht] using Aligned.cons place notEnd value next

theorem agree_skipSeparators (h : Aligned c ts ts') :
    Agree c Eq skipSeparators skipSeparators ts ts' :=
  .reads rfl rfl rfl (aligned_dropWhile h)

/-! ## Section 3: Types and declarations -/

theorem agree_width (h : Aligned c ts ts') : Agree c Eq width width ts ts' := by
  unfold width
  refine .peek_bind h fun p p' t place => ?_
  cases t with
  | uint bits =>
    refine .advance_bind h fun _ _ _ rest rest' _ hrest => ?_
    cases hbits : Width.ofBits bits with
    | ok w => exact .pure rfl hrest
    | error e => exact .fail place
  | _ => exact .unexpected h

theorem agree_type (h : Aligned c ts ts') : Agree c Eq type type ts ts' := by
  unfold type
  refine .eat_bind Token.noConfusion h (fun us us' hus => ?_) ?_
  · simp only [if_true]
    refine .bind (agree_width hus) ?_
    rintro w _ us us' rfl hus
    refine .bind (agree_number hus) ?_
    rintro len _ us us' rfl hus
    exact .expect_bind Token.noConfusion hus fun _ _ _ _ _ _ _ hrest => .pure rfl hrest
  · simp only [Bool.false_eq_true, if_false]
    refine .bind (agree_width h) ?_
    rintro w _ us us' rfl hus
    exact .pure rfl hus

theorem agree_typedName {expected : Expected} (h : Aligned c ts ts') :
    Agree c Eq (typedName expected) (typedName expected) ts ts' := by
  unfold typedName
  refine .bind (agree_ident h) ?_
  rintro name _ us us' rfl hus
  refine .expect_bind Token.noConfusion hus fun _ _ us us' _ _ _ hus => ?_
  refine .bind (agree_type hus) ?_
  rintro ty _ us us' rfl hus
  exact .pure rfl hus

theorem agree_staticDecl (h : Aligned c ts ts') :
    Agree c (c.Same StaticDecl.relocate) staticDecl staticDecl ts ts' := by
  unfold staticDecl
  refine .expect_bind Token.noConfusion h fun p p' us us' _ _ place hus => ?_
  refine .bind (agree_typedName hus) ?_
  rintro ⟨name, ty⟩ _ us us' rfl hus
  exact .pure (congrArg (StaticDecl.mk name ty) (c.moved place)) hus

/-- Fuel that is at least one more than some other fuel. -/
theorem exists_succ_of_le {fuel fuel' : Nat} (h : fuel + 1 ≤ fuel') :
    ∃ n, fuel' = n + 1 ∧ fuel ≤ n :=
  ⟨fuel' - 1, by omega, by omega⟩

theorem agree_constElements {fuel fuel' : Nat} (hfuel : fuel ≤ fuel') (found : List Nat)
    (h : Aligned c ts ts') :
    Agree c Eq (constElements fuel found) (constElements fuel' found) ts ts' := by
  induction fuel generalizing fuel' found ts ts' with
  | zero => exact .outOfFuel
  | succ fuel ih =>
    obtain ⟨fuel', rfl, hle⟩ := exists_succ_of_le hfuel
    rw [constElements, constElements]
    refine .eat_bind Token.noConfusion h (fun us us' hus => .pure rfl hus) ?_
    simp only [Bool.false_eq_true, if_false]
    refine .bind (agree_number h) ?_
    rintro n _ us us' rfl hus
    exact .eat_bind Token.noConfusion hus (fun _ _ hrest => ih hle (n :: found) hrest)
      (ih hle (n :: found) hus)

theorem agree_constDecl {fuel fuel' : Nat} (hfuel : fuel ≤ fuel') (h : Aligned c ts ts') :
    Agree c (c.Same ConstDecl.relocate) (constDecl fuel) (constDecl fuel') ts ts' := by
  unfold constDecl
  refine .expect_bind Token.noConfusion h fun p p' us us' _ _ place hus => ?_
  refine .bind (agree_typedName hus) ?_
  rintro ⟨name, ty⟩ _ us us' rfl hus
  refine .expect_bind Token.noConfusion hus fun _ _ us us' _ _ _ hus => ?_
  refine .expect_bind Token.noConfusion hus fun _ _ us us' _ _ _ hus => ?_
  refine .bind (agree_constElements hfuel [] hus) ?_
  rintro values _ us us' rfl hus
  exact .pure (congrArg (ConstDecl.mk name ty values) (c.moved place)) hus

theorem agree_params {fuel fuel' : Nat} (hfuel : fuel ≤ fuel') (h : Aligned c ts ts') :
    Agree c Eq (params fuel) (params fuel') ts ts' := by
  induction fuel generalizing fuel' ts ts' with
  | zero => exact .outOfFuel
  | succ fuel ih =>
    obtain ⟨fuel', rfl, hle⟩ := exists_succ_of_le hfuel
    rw [params, params]
    refine .eat_bind Token.noConfusion h (fun us us' hus => .pure rfl hus) ?_
    simp only [Bool.false_eq_true, if_false]
    refine .bind (agree_typedName h) ?_
    rintro ⟨name, ty⟩ _ us us' rfl hus
    have hmore : ∀ {us us'}, Aligned c us us' →
        Agree c Eq (do let rest ← params fuel; return ⟨name, ty⟩ :: rest)
          (do let rest ← params fuel'; return ⟨name, ty⟩ :: rest) us us' := by
      intro us us' hus
      refine .bind (ih hle hus) ?_
      rintro ps _ us us' rfl hus
      exact .pure rfl hus
    exact .eat_bind Token.noConfusion hus (fun _ _ hrest => hmore hrest) (hmore hus)

/-! ## Section 4: Expressions -/

/-- The parsers of expressions agree with themselves given at least as much fuel. -/
structure AgreeExpressions (c : Layouts) (fuel fuel' : Nat) : Prop where
  expression : ∀ {ts ts'}, Aligned c ts ts' →
    Agree c (c.Same Expr.relocate) (expression fuel) (expression fuel') ts ts'
  operands : ∀ {ts ts'}, Aligned c ts ts' →
    Agree c (List.Forall₂ (c.Same Expr.relocate)) (operands fuel) (operands fuel') ts ts'

theorem same_relocateAll {es es' : List Expr} (h : List.Forall₂ (c.Same Expr.relocate) es es') :
    c.Same Expr.relocateAll es es' := by
  induction h with
  | nil => rfl
  | cons first _ ih => exact congrArg₂ List.cons first ih

namespace AgreeExpressions

variable {fuel fuel' : Nat}

theorem expression_succ (ih : AgreeExpressions c fuel fuel') (h : Aligned c ts ts') :
    Agree c (c.Same Expr.relocate) (Parser.expression (fuel + 1)) (Parser.expression (fuel' + 1))
      ts ts' := by
  rw [Parser.expression, Parser.expression]
  refine .peek_bind h fun p p' t place => ?_
  cases t with
  | number n =>
    refine .advance_bind h fun _ _ _ _ _ _ hrest => .pure ?_ hrest
    exact congrArg (Expr.literal · n) (c.moved place)
  | ident name =>
    refine .advance_bind h fun _ _ _ _ _ _ hrest => .pure ?_ hrest
    exact congrArg (Expr.ident · name) (c.moved place)
  | sign s =>
    cases s with
    | lbracket =>
      refine .advance_bind h fun _ _ _ us us' _ hus => ?_
      refine .bind (ih.expression hus) fun offset offset' us us' hoffset hus => ?_
      refine .expect_bind Token.noConfusion hus fun _ _ us us' _ _ _ hus => ?_
      refine .bind (agree_ident hus) ?_
      rintro array _ us us' rfl hus
      exact .pure (congrArg₂ (Expr.index · · array) (c.moved place) hoffset) hus
    | lparen =>
      refine .advance_bind h fun _ _ _ us us' _ hus => ?_
      refine .advance_bind hus fun q q' head us us' headPlace hus => ?_
      cases head with
      | op op =>
        refine .bind (ih.operands hus) fun es es' us us' hes hus => ?_
        -- two operands make an expression; any other number is a fault, and the same one
        rcases hes with _ | ⟨hleft, _ | ⟨hright, _ | ⟨hthird, hmore⟩⟩⟩
        · exact .fail place
        · exact .fail place
        · refine .pure ?_ hus
          show Expr.binary _ op _ _ = Expr.binary _ op _ _
          rw [c.moved place, hleft, hright]
        · -- the number of operands is part of the fault
          show Agree c _ (Parser.fail p (.invalidArity op _)) (Parser.fail p' (.invalidArity op _))
            _ _
          simp only [List.length_cons, hmore.length_eq]
          exact .fail place
      | ident function =>
        refine .bind (ih.operands hus) fun es es' us us' hes hus => .pure ?_ hus
        exact congrArg₂ (Expr.call · function ·) (c.moved place) (same_relocateAll hes)
      | assign op => exact .fail place
      | _ => exact .fail headPlace
    | _ => exact .unexpected h
  | _ => exact .unexpected h

theorem operands_succ (ih : AgreeExpressions c fuel fuel') (h : Aligned c ts ts') :
    Agree c (List.Forall₂ (c.Same Expr.relocate)) (Parser.operands (fuel + 1))
      (Parser.operands (fuel' + 1)) ts ts' := by
  rw [Parser.operands, Parser.operands]
  refine .eat_bind Token.noConfusion h (fun us us' hus => .pure .nil hus) ?_
  simp only [Bool.false_eq_true, if_false]
  refine .bind (ih.expression h) fun e e' us us' he hus => ?_
  exact .bind (ih.operands hus) fun es es' us us' hes hus => .pure (.cons he hes) hus

end AgreeExpressions

theorem agreeExpressions {fuel fuel' : Nat} (hfuel : fuel ≤ fuel') :
    AgreeExpressions c fuel fuel' := by
  induction fuel generalizing fuel' with
  | zero => exact ⟨fun _ => .outOfFuel, fun _ => .outOfFuel⟩
  | succ fuel ih =>
    obtain ⟨fuel', rfl, hle⟩ := exists_succ_of_le hfuel
    exact ⟨(ih hle).expression_succ, (ih hle).operands_succ⟩

/-! ## Section 5: Statements -/

variable {fuel fuel' : Nat} {ctx : Context}

/-- The test for a value after `return` is the only use of lines. -/
theorem agree_returnStatement (hfuel : fuel ≤ fuel') (h : Aligned c ts ts') :
    Agree c (c.Same Statement.relocate) (returnStatement fuel ctx) (returnStatement fuel' ctx)
      ts ts' := by
  unfold returnStatement
  refine .expect_bind Token.noConfusion h fun p p' us us' hts hts' place hus => ?_
  have hvalue : ((firstToken us).pos.line == p.line && startsValue (firstToken us).item) =
      ((firstToken us').pos.line == p'.line && startsValue (firstToken us').item) := by
    subst hts hts'
    cases h with
    | cons place notEnd value next =>
      rw [Bool.eq_iff_iff, valueFollows_iff, valueFollows_iff]
      exact value rfl
  -- looking at the next token leaves it there
  refine .congr (bind_of_reads rfl) (bind_of_reads rfl) ?_
  rw [hvalue]
  cases (firstToken us').pos.line == p'.line && startsValue (firstToken us').item <;>
    cases ctx.returns
  case true.some ty =>
    refine .bind ((agreeExpressions hfuel).expression hus) fun e e' us us' he hus => .pure ?_ hus
    exact congrArg₂ (fun pos e => Statement.ret pos (some e)) (c.moved place) he
  case false.none => exact .pure (congrArg (Statement.ret · none) (c.moved place)) hus
  case true.none => exact .fail place
  case false.some ty => exact .fail place

theorem agree_place (hfuel : fuel ≤ fuel') (h : Aligned c ts ts') :
    Agree c (c.Same Place.relocate) (Parser.place fuel) (Parser.place fuel') ts ts' := by
  unfold Parser.place
  refine .eat_bind Token.noConfusion h (fun us us' hus => ?_) ?_
  · simp only [if_true]
    refine .bind ((agreeExpressions hfuel).expression hus) fun e e' us us' he hus => ?_
    refine .expect_bind Token.noConfusion hus fun _ _ us us' _ _ _ hus => ?_
    refine .bind (agree_ident hus) ?_
    rintro array _ us us' rfl hus
    exact .pure (congrArg (Place.elem · array) he) hus
  · simp only [Bool.false_eq_true, if_false]
    refine .bind (agree_ident h) ?_
    rintro name _ us us' rfl hus
    exact .pure rfl hus

theorem agree_assignment (hfuel : fuel ≤ fuel') (op : AssignOp) (h : Aligned c ts ts') :
    Agree c (c.Same Statement.relocate) (assignment fuel op) (assignment fuel' op) ts ts' := by
  unfold assignment
  refine .expect_bind Token.noConfusion h fun p p' us us' _ _ place hus => ?_
  refine .advance_bind hus fun _ _ _ us us' _ hus => ?_
  refine .bind (agree_place hfuel hus) fun target target' us us' htarget hus => ?_
  refine .bind ((agreeExpressions hfuel).expression hus) fun value value' us us' hvalue hus => ?_
  refine .expect_bind Token.noConfusion hus fun _ _ us us' _ _ _ hus => .pure ?_ hus
  show Statement.assign _ op _ _ = Statement.assign _ op _ _
  rw [c.moved place, htarget, hvalue]

theorem agree_letStatement (hfuel : fuel ≤ fuel') (h : Aligned c ts ts') :
    Agree c (c.Same Statement.relocate) (letStatement fuel) (letStatement fuel') ts ts' := by
  unfold letStatement
  refine .expect_bind Token.noConfusion h fun p p' us us' _ _ place hus => ?_
  refine .bind (agree_typedName hus) ?_
  rintro ⟨name, ty⟩ _ us us' rfl hus
  refine .expect_bind Token.noConfusion hus fun _ _ us us' _ _ _ hus => ?_
  refine .bind ((agreeExpressions hfuel).expression hus) fun value value' us us' hvalue hus => ?_
  exact .pure (congrArg₂ (Statement.letVar · name ty ·) (c.moved place) hvalue) hus

/-- Two heads of a loop over the same variable, with bounds that are the same. -/
def SameHeader (c : Layouts) (a a' : String × Ty × Expr × Expr) : Prop :=
  a.1 = a'.1 ∧ a.2.1 = a'.2.1 ∧ c.Same Expr.relocate a.2.2.1 a'.2.2.1 ∧
    c.Same Expr.relocate a.2.2.2 a'.2.2.2

theorem agree_forHeader (hfuel : fuel ≤ fuel') (h : Aligned c ts ts') :
    Agree c (SameHeader c) (forHeader fuel) (forHeader fuel') ts ts' := by
  unfold forHeader
  refine .bind (agree_ident h) ?_
  rintro name _ us us' rfl hus
  refine .expect_bind Token.noConfusion hus fun _ _ us us' _ _ _ hus => ?_
  refine .bind (agree_width hus) ?_
  rintro w _ us us' rfl hus
  refine .expect_bind Token.noConfusion hus fun _ _ us us' _ _ _ hus => ?_
  refine .bind ((agreeExpressions hfuel).expression hus) fun start start' us us' hstart hus => ?_
  refine .expect_bind Token.noConfusion hus fun _ _ us us' _ _ _ hus => ?_
  refine .bind ((agreeExpressions hfuel).expression hus) fun stop stop' us us' hstop hus => ?_
  exact .pure ⟨rfl, rfl, hstart, hstop⟩ hus

/-- The parsers of statements agree with themselves given at least as much fuel. -/
structure AgreeStatements (c : Layouts) (fuel fuel' : Nat) : Prop where
  statement : ∀ {ctx ts ts'}, Aligned c ts ts' →
    Agree c (c.Same Statement.relocate) (statement fuel ctx) (statement fuel' ctx) ts ts'
  conditional : ∀ {ctx ts ts'}, Aligned c ts ts' →
    Agree c (c.Same Statement.relocate) (conditional fuel ctx) (conditional fuel' ctx) ts ts'
  block : ∀ {ctx ts ts'}, Aligned c ts ts' →
    Agree c (c.Same Statement.relocateAll) (block fuel ctx) (block fuel' ctx) ts ts'
  statements : ∀ {ctx ts ts'}, Aligned c ts ts' →
    Agree c (c.Same Statement.relocateAll) (statements fuel ctx) (statements fuel' ctx) ts ts'

/-- An expression that stands as a statement. -/
theorem agree_expr (hfuel : fuel ≤ fuel') {p p' : Position} (place : c.Together p p')
    (h : Aligned c ts ts') :
    Agree c (c.Same Statement.relocate) (do return .expr p (← expression fuel))
      (do return .expr p' (← expression fuel')) ts ts' := by
  refine .bind ((agreeExpressions hfuel).expression h) fun e e' us us' he hus => .pure ?_ hus
  exact congrArg₂ Statement.expr (c.moved place) he

namespace AgreeStatements

theorem statement_succ (hfuel : fuel ≤ fuel') (ih : AgreeStatements c fuel fuel')
    (h : Aligned c ts ts') :
    Agree c (c.Same Statement.relocate) (Parser.statement (fuel + 1) ctx)
      (Parser.statement (fuel' + 1) ctx) ts ts' := by
  rw [Parser.statement, Parser.statement]
  refine .peek_bind h fun p p' t place => ?_
  cases t with
  | keyword k =>
    cases k with
    | letWord => exact agree_letStatement hfuel h
    | staticWord =>
      dsimp only
      split
      · refine .bind (agree_staticDecl h) fun d d' us us' hd hus => .pure ?_ hus
        exact congrArg Statement.static hd
      · exact .fail place
    | ifWord => exact ih.conditional h
    | forWord =>
      refine .advance_bind h fun _ _ _ us us' _ hus => ?_
      refine .bind (agree_forHeader hfuel hus) ?_
      rintro ⟨name, ty, start, stop⟩ ⟨_, _, start', stop'⟩ us us' ⟨rfl, rfl, hstart, hstop⟩ hus
      refine .bind (ih.block hus) fun body body' us us' hbody hus => .pure ?_ hus
      dsimp only at hstart hstop
      show Statement.forRange _ name ty _ _ _ = Statement.forRange _ name ty _ _ _
      rw [c.moved place, hstart, hstop, hbody]
    | loopWord =>
      refine .advance_bind h fun _ _ _ us us' _ hus => ?_
      refine .bind (ih.block hus) fun body body' us us' hbody hus => .pure ?_ hus
      exact congrArg₂ Statement.loop (c.moved place) hbody
    | breakWord =>
      refine .advance_bind h fun _ _ _ us us' _ hus => ?_
      split
      · exact .pure (congrArg Statement.breakLoop (c.moved place)) hus
      · exact .fail place
    | continueWord =>
      refine .advance_bind h fun _ _ _ us us' _ hus => ?_
      split
      · exact .pure (congrArg Statement.continueLoop (c.moved place)) hus
      · exact .fail place
    | returnWord => exact agree_returnStatement hfuel h
    | _ => exact agree_expr hfuel place h
  | sign s =>
    cases s with
    | panic =>
      refine .advance_bind h fun _ _ _ us us' _ hus => ?_
      exact .pure (congrArg Statement.panic (c.moved place)) hus
    | lparen =>
      refine .peekSecond_bind h fun _ _ second _ => ?_
      cases second with
      | assign op => exact agree_assignment hfuel op h
      | _ => exact agree_expr hfuel place h
    | _ => exact agree_expr hfuel place h
  | _ => exact agree_expr hfuel place h

theorem conditional_succ (hfuel : fuel ≤ fuel') (ih : AgreeStatements c fuel fuel')
    (h : Aligned c ts ts') :
    Agree c (c.Same Statement.relocate) (Parser.conditional (fuel + 1) ctx)
      (Parser.conditional (fuel' + 1) ctx) ts ts' := by
  rw [Parser.conditional, Parser.conditional]
  refine .expect_bind Token.noConfusion h fun p p' us us' _ _ place hus => ?_
  refine .bind ((agreeExpressions hfuel).expression hus) fun cond cond' us us' hcond hus => ?_
  refine .bind (ih.block hus) fun yes yes' us us' hyes hus => ?_
  refine .eat_bind Token.noConfusion hus (fun us us' hus => ?_) ?_
  · simp only [if_true]
    refine .peek_bind hus fun _ _ next _ => ?_
    by_cases hnext : next = .keyword .ifWord
    · simp only [if_pos hnext]
      refine .bind (ih.conditional hus) fun nested nested' us us' hnested hus => .pure ?_ hus
      show Statement.ifElse _ _ _ [_] = Statement.ifElse _ _ _ [_]
      rw [c.moved place, hcond, hyes, hnested]
    · simp only [if_neg hnext]
      refine .bind (ih.block hus) fun no no' us us' hno hus => .pure ?_ hus
      show Statement.ifElse _ _ _ _ = Statement.ifElse _ _ _ _
      rw [c.moved place, hcond, hyes, hno]
  · simp only [Bool.false_eq_true, if_false]
    refine .pure ?_ hus
    show Statement.ifThen _ _ _ = Statement.ifThen _ _ _
    rw [c.moved place, hcond, hyes]

theorem block_succ (ih : AgreeStatements c fuel fuel') (h : Aligned c ts ts') :
    Agree c (c.Same Statement.relocateAll) (Parser.block (fuel + 1) ctx)
      (Parser.block (fuel' + 1) ctx) ts ts' := by
  rw [Parser.block, Parser.block]
  exact .expect_bind Token.noConfusion h fun _ _ _ _ _ _ _ hus => ih.statements hus

theorem statements_succ (ih : AgreeStatements c fuel fuel') (h : Aligned c ts ts') :
    Agree c (c.Same Statement.relocateAll) (Parser.statements (fuel + 1) ctx)
      (Parser.statements (fuel' + 1) ctx) ts ts' := by
  rw [Parser.statements, Parser.statements]
  refine .bind (agree_skipSeparators h) fun _ _ us us' _ hus => ?_
  refine .eat_bind Token.noConfusion hus (fun us us' hus => .pure rfl hus) ?_
  simp only [Bool.false_eq_true, if_false]
  refine .bind (ih.statement hus) fun s s' us us' hs hus => ?_
  refine .bind (ih.statements hus) fun rest rest' us us' hrest hus => .pure ?_ hus
  exact congrArg₂ List.cons hs hrest

end AgreeStatements

theorem agreeStatements (hfuel : fuel ≤ fuel') : AgreeStatements c fuel fuel' := by
  induction fuel generalizing fuel' with
  | zero => constructor <;> exact fun _ => .outOfFuel
  | succ fuel ih =>
    obtain ⟨fuel', rfl, hle⟩ := exists_succ_of_le hfuel
    exact ⟨(ih hle).statement_succ hle, (ih hle).conditional_succ hle, (ih hle).block_succ,
      (ih hle).statements_succ⟩

/-! ## Section 6: Programs -/

theorem agree_function (hfuel : fuel ≤ fuel') (h : Aligned c ts ts') :
    Agree c (c.Same Function.relocate) (function fuel) (function fuel') ts ts' := by
  unfold function
  refine .expect_bind Token.noConfusion h fun p p' us us' _ _ place hus => ?_
  refine .bind (agree_ident hus) ?_
  rintro name _ us us' rfl hus
  have hparams : Agree c Eq (do if ← eat (.sign .lparen) then params fuel else return [])
      (do if ← eat (.sign .lparen) then params fuel' else return []) us us' :=
    .eat_bind Token.noConfusion hus (fun _ _ hus => agree_params hfuel hus) (.pure rfl hus)
  refine .bind hparams ?_
  rintro ps _ us us' rfl hus
  have hreturns : Agree c Eq
      (do if ← eat (.sign .colon) then return some (← type) else return none)
      (do if ← eat (.sign .colon) then return some (← type) else return none) us us' := by
    refine .eat_bind Token.noConfusion hus (fun us us' hus => ?_) (.pure rfl hus)
    refine .bind (agree_type hus) ?_
    rintro ty _ us us' rfl hus
    exact .pure rfl hus
  refine .bind hreturns ?_
  rintro returns _ us us' rfl hus
  refine .bind ((agreeStatements hfuel).block hus) fun body body' us us' hbody hus => .pure ?_ hus
  exact congrArg₂ (fun body pos => Function.mk name ps returns body pos) hbody (c.moved place)

theorem agree_item (hfuel : fuel ≤ fuel') (h : Aligned c ts ts') :
    Agree c (c.Same Item.relocate) (item fuel) (item fuel') ts ts' := by
  unfold item
  refine .peek_bind h fun p p' t _ => ?_
  have hstatement : Agree c (c.Same Item.relocate)
      (do return .statement (← statement fuel .topLevel))
      (do return .statement (← statement fuel' .topLevel)) ts ts' := by
    refine .bind ((agreeStatements hfuel).statement h) fun s s' us us' hs hus => .pure ?_ hus
    exact congrArg Item.statement hs
  cases t with
  | keyword k =>
    cases k with
    | fnWord =>
      refine .bind (agree_function hfuel h) fun f f' us us' hf hus => .pure ?_ hus
      exact congrArg Item.function hf
    | staticWord =>
      refine .bind (agree_staticDecl h) fun d d' us us' hd hus => .pure ?_ hus
      exact congrArg Item.static hd
    | constWord =>
      refine .bind (agree_constDecl hfuel h) fun d d' us us' hd hus => .pure ?_ hus
      exact congrArg Item.const hd
    | _ => exact hstatement
  | _ => exact hstatement

theorem agree_items (hfuel : fuel ≤ fuel') (h : Aligned c ts ts') :
    Agree c (c.Same fun move => List.map (Item.relocate move)) (items fuel) (items fuel')
      ts ts' := by
  induction fuel generalizing fuel' ts ts' with
  | zero => exact .outOfFuel
  | succ fuel ih =>
    obtain ⟨fuel', rfl, hle⟩ := exists_succ_of_le hfuel
    rw [items, items]
    refine .bind (agree_skipSeparators h) fun _ _ us us' _ hus => ?_
    refine .peek_bind hus fun _ _ t _ => ?_
    split
    · exact .pure rfl hus
    · refine .bind (agree_item hle hus) fun i i' us us' hi hus => ?_
      refine .bind (ih hle hus) fun rest rest' us us' hrest hus => .pure ?_ hus
      exact congrArg₂ List.cons hi hrest

end Parser

end WordLang
