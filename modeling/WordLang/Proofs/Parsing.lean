import WordLang.Proofs.Lexing
import WordLang.Proofs.Unambiguous

/-! # The parser accepts exactly the grammar

    What the parser reads has a derivation (soundness, by induction on the
    fuel), and what has a derivation the parser reads when it has fuel for
    it (completeness, by induction on the derivation).

    Completeness needs one look ahead.  After an `if` without `else` the
    grammar lets anything follow, while the parser would take an `else`; no
    statement starts with `else`, so this never makes a difference. -/

namespace WordLang

open Grammar

/-! ## Section 1: Taking tokens -/

namespace Parser

variable {α β : Type}

/-- The parser gives `a` and leaves `rest`. -/
def Reads (x : Parser α) (ts : Stream) (a : α) (rest : Stream) : Prop := x ts = .ok (a, rest)

@[simp] theorem reads_pure {a b : α} {ts rest : Stream} :
    Reads (pure a) ts b rest ↔ a = b ∧ ts = rest := by
  show Except.ok (a, ts) = Except.ok (b, rest) ↔ _
  simp

@[simp] theorem reads_bind {x : Parser α} {f : α → Parser β} {ts rest : Stream} {b : β} :
    Reads (x >>= f) ts b rest ↔ ∃ a mid, Reads x ts a mid ∧ Reads (f a) mid b rest := by
  show (x ts >>= fun r => f r.1 r.2) = _ ↔ _
  unfold Reads
  cases hx : x ts with
  | error e =>
    constructor
    · intro h
      cases h
    · rintro ⟨a, mid, h, -⟩
      cases h
  | ok r =>
    constructor
    · intro h
      exact ⟨r.1, r.2, rfl, h⟩
    · rintro ⟨a, mid, h, hf⟩
      cases h
      exact hf

@[simp] theorem not_reads_fail {pos : Position} {cause : ParseCause} {ts rest : Stream} {a : α} :
    ¬ Reads (fail pos cause) ts a rest := by
  intro h
  cases h

theorem reads_peek_bind {f : Located Token → Parser β} {ts rest : Stream} {b : β} :
    Reads (peek >>= f) ts b rest ↔ Reads (f (firstToken ts)) ts b rest := Iff.rfl

theorem reads_peekSecond_bind {f : Located Token → Parser β} {ts rest : Stream} {b : β} :
    Reads (peekSecond >>= f) ts b rest ↔ Reads (f (firstToken (afterFirst ts))) ts b rest := Iff.rfl

theorem reads_advance_bind {f : Located Token → Parser β} {ts rest : Stream} {b : β} :
    Reads (advance >>= f) ts b rest ↔ Reads (f (firstToken ts)) (afterFirst ts) b rest := Iff.rfl

theorem not_reads_unexpected {expected : Expected} {ts rest : Stream} {a : α} :
    ¬ Reads (unexpected expected) ts a rest := by
  unfold unexpected
  rw [reads_peek_bind]
  exact not_reads_fail

theorem firstToken_cons (t : Located Token) (ts : Stream) : firstToken (t :: ts) = t := rfl

theorem afterFirst_cons {pos : Position} {t : Token} (ts : Stream) (ht : t ≠ .eof) :
    afterFirst (⟨pos, t⟩ :: ts) = ts := if_neg ht

/-- A token that is not the end of the text is taken when it is passed. -/
theorem eq_cons_of_firstToken {ts : Stream} {t : Token} (h : (firstToken ts).item = t)
    (ht : t ≠ .eof) : ts = ⟨(firstToken ts).pos, t⟩ :: afterFirst ts := by
  cases ts with
  | nil => exact absurd h.symm ht
  | cons t' rest =>
    subst h
    rw [firstToken_cons] at ht ⊢
    rw [afterFirst, if_neg ht]

/-- Taking a token that is there. -/
theorem reads_advance_cons {pos : Position} {t : Token} (ht : t ≠ .eof)
    {f : Located Token → Parser β} {ts rest : Stream} {b : β} :
    Reads (advance >>= f) (⟨pos, t⟩ :: ts) b rest ↔ Reads (f ⟨pos, t⟩) ts b rest := by
  rw [reads_advance_bind, firstToken_cons, afterFirst_cons _ ht]

/-- The first token together with those after it. -/
theorem exists_eq_cons {ts : Stream} {t : Token} (h : (firstToken ts).item = t) (ht : t ≠ .eof) :
    ∃ pos rest, ts = ⟨pos, t⟩ :: rest :=
  ⟨_, _, eq_cons_of_firstToken h ht⟩

theorem reads_expect (token : Token) (ht : token ≠ .eof) {ts rest : Stream} {pos : Position} :
    Reads (expect token) ts pos rest ↔ ts = ⟨pos, token⟩ :: rest := by
  unfold expect
  rw [reads_peek_bind]
  constructor
  · intro h
    split at h
    · next heq =>
      rw [reads_advance_bind, reads_pure] at h
      obtain ⟨rfl, rfl⟩ := h
      exact eq_cons_of_firstToken heq ht
    · exact absurd h not_reads_unexpected
  · intro h
    subst h
    rw [firstToken_cons, if_pos rfl, reads_advance_bind, reads_pure, afterFirst_cons _ ht]
    exact ⟨rfl, rfl⟩

theorem reads_eat (token : Token) (ht : token ≠ .eof) {ts rest : Stream} {b : Bool} :
    Reads (eat token) ts b rest ↔
      (b = true ∧ ∃ pos, ts = ⟨pos, token⟩ :: rest) ∨
      (b = false ∧ ts = rest ∧ (firstToken ts).item ≠ token) := by
  unfold eat
  rw [reads_peek_bind]
  constructor
  · intro h
    split at h
    · next heq =>
      rw [reads_advance_bind, reads_pure] at h
      obtain ⟨rfl, rfl⟩ := h
      exact Or.inl ⟨rfl, _, eq_cons_of_firstToken heq ht⟩
    · next hne =>
      obtain ⟨rfl, rfl⟩ := reads_pure.mp h
      exact Or.inr ⟨rfl, rfl, hne⟩
  · rintro (⟨rfl, pos, rfl⟩ | ⟨rfl, rfl, hne⟩)
    · rw [firstToken_cons, if_pos rfl, reads_advance_bind, reads_pure, afterFirst_cons _ ht]
      exact ⟨rfl, rfl⟩
    · rw [if_neg hne, reads_pure]
      exact ⟨rfl, rfl⟩

/-- Taking a token that has been looked at, for what it says. -/
theorem reads_advance_pure {a b : α} {ts rest : Stream} {t : Token}
    (h : (firstToken ts).item = t) (ht : t ≠ .eof) :
    Reads (do let _ ← advance; return a) ts b rest ↔ a = b ∧ ∃ pos, ts = ⟨pos, t⟩ :: rest := by
  obtain ⟨pos, us, rfl⟩ := exists_eq_cons h ht
  rw [reads_advance_cons ht, reads_pure]
  constructor
  · rintro ⟨rfl, rfl⟩
    exact ⟨rfl, pos, rfl⟩
  · rintro ⟨rfl, pos', heq⟩
    cases heq
    exact ⟨rfl, rfl⟩

theorem reads_ident {expected : Expected} {ts rest : Stream} {name : String} :
    Reads (ident expected) ts name rest ↔ ∃ pos, ts = ⟨pos, .ident name⟩ :: rest := by
  unfold ident
  rw [reads_peek_bind]
  constructor
  · intro h
    split at h
    · next heq =>
      obtain ⟨rfl, hts⟩ := (reads_advance_pure heq Token.noConfusion).mp h
      exact hts
    · exact absurd h not_reads_unexpected
  · rintro ⟨pos, rfl⟩
    exact (reads_advance_pure rfl Token.noConfusion).mpr ⟨rfl, pos, rfl⟩

theorem reads_number {expected : Expected} {ts rest : Stream} {n : Nat} :
    Reads (number expected) ts n rest ↔ ∃ pos, ts = ⟨pos, .number n⟩ :: rest := by
  unfold number
  rw [reads_peek_bind]
  constructor
  · intro h
    split at h
    · next heq =>
      obtain ⟨rfl, hts⟩ := (reads_advance_pure heq Token.noConfusion).mp h
      exact hts
    · exact absurd h not_reads_unexpected
  · rintro ⟨pos, rfl⟩
    exact (reads_advance_pure rfl Token.noConfusion).mpr ⟨rfl, pos, rfl⟩

theorem reads_skipSeparators {ts rest : Stream} {u : Unit} :
    Reads skipSeparators ts u rest ↔
      ts.dropWhile (fun t => decide (t.item = .sign .semicolon)) = rest := by
  show Except.ok ((), _) = Except.ok (u, rest) ↔ _
  simp

/-- A token that is expected, and what follows it. -/
theorem reads_expect_bind (token : Token) (ht : token ≠ .eof) {f : Position → Parser β}
    {ts rest : Stream} {b : β} :
    Reads (expect token >>= f) ts b rest ↔
      ∃ pos mid, ts = ⟨pos, token⟩ :: mid ∧ Reads (f pos) mid b rest := by
  simp only [reads_bind, reads_expect token ht]

/-- What follows a token that may be there. -/
theorem reads_eat_bind (token : Token) (ht : token ≠ .eof) {f : Bool → Parser β}
    {ts rest : Stream} {b : β} :
    Reads (eat token >>= f) ts b rest ↔
      (∃ pos mid, ts = ⟨pos, token⟩ :: mid ∧ Reads (f true) mid b rest) ∨
      ((firstToken ts).item ≠ token ∧ Reads (f false) ts b rest) := by
  simp only [reads_bind, reads_eat token ht]
  constructor
  · rintro ⟨_, mid, ⟨rfl, pos, rfl⟩ | ⟨rfl, rfl, hne⟩, hf⟩
    · exact Or.inl ⟨pos, mid, rfl, hf⟩
    · exact Or.inr ⟨hne, hf⟩
  · rintro (⟨pos, mid, rfl, hf⟩ | ⟨hne, hf⟩)
    · exact ⟨true, mid, Or.inl ⟨rfl, pos, rfl⟩, hf⟩
    · exact ⟨false, ts, Or.inr ⟨rfl, rfl, hne⟩, hf⟩

/-! ## Section 2: Types and declarations -/

theorem ofBits_eq_ok {bits : Nat} {w : Width} : Width.ofBits bits = .ok w ↔ w.bits = bits := by
  unfold Width.ofBits
  constructor
  · intro h
    split at h
    · cases h
      rfl
    · cases h
  · rintro rfl
    rw [dif_pos ⟨w.one_le, w.le_size⟩]

theorem reads_width {ts rest : Stream} {w : Width} :
    Reads width ts w rest ↔ Nonempty (WordType ts w rest) := by
  unfold width
  rw [reads_peek_bind]
  constructor
  · intro h
    split at h
    · next bits heq =>
      rw [reads_advance_bind] at h
      split at h
      · next w' hw =>
        obtain ⟨rfl, rfl⟩ := reads_pure.mp h
        rw [eq_cons_of_firstToken heq Token.noConfusion]
        exact ⟨.word (ofBits_eq_ok.mp hw)⟩
      · exact absurd h not_reads_fail
    · exact absurd h not_reads_unexpected
  · rintro ⟨⟨hw⟩⟩
    rw [firstToken_cons]
    dsimp only
    rw [reads_advance_bind, afterFirst_cons _ Token.noConfusion, ofBits_eq_ok.mpr hw]
    exact reads_pure.mpr ⟨rfl, rfl⟩

theorem reads_type {ts rest : Stream} {ty : Ty} :
    Reads type ts ty rest ↔ Nonempty (TypeName ts ty rest) := by
  unfold type
  rw [reads_eat_bind _ Token.noConfusion]
  constructor
  · rintro (⟨p₁, mid, rfl, h⟩ | ⟨-, h⟩)
    · simp only [if_true, reads_bind, reads_width, reads_number, reads_pure,
        reads_expect (.sign .rbracket) Token.noConfusion] at h
      obtain ⟨w, _, ⟨hw⟩, len, _, ⟨p₂, rfl⟩, p₃, _, rfl, rfl, rfl⟩ := h
      exact ⟨.array hw⟩
    · simp only [Bool.false_eq_true, if_false, reads_bind, reads_width, reads_pure] at h
      obtain ⟨w, _, ⟨hw⟩, rfl, rfl⟩ := h
      exact ⟨.word hw⟩
  · rintro ⟨ht⟩
    cases ht with
    -- a word type does not start with a bracket, so the parser does not look for an array
    | word hw =>
      have hfirst : (firstToken ts).item ≠ .sign .lbracket := by
        cases hw
        exact Token.noConfusion
      refine Or.inr ⟨hfirst, ?_⟩
      simp only [Bool.false_eq_true, if_false, reads_bind, reads_width, reads_pure]
      exact ⟨_, _, ⟨hw⟩, rfl, rfl⟩
    | array hw =>
      refine Or.inl ⟨_, _, rfl, ?_⟩
      simp only [if_true, reads_bind, reads_width, reads_number, reads_pure,
        reads_expect (.sign .rbracket) Token.noConfusion]
      exact ⟨_, _, ⟨hw⟩, _, _, ⟨_, rfl⟩, _, _, rfl, rfl, rfl⟩

theorem reads_typedName {expected : Expected} {ts rest : Stream} {name : String} {ty : Ty} :
    Reads (typedName expected) ts (name, ty) rest ↔ ∃ p₁ p₂ mid,
      ts = ⟨p₁, .ident name⟩ :: ⟨p₂, .sign .colon⟩ :: mid ∧ Nonempty (TypeName mid ty rest) := by
  unfold typedName
  simp only [reads_bind, reads_ident, reads_expect (.sign .colon) Token.noConfusion,
    reads_type, reads_pure]
  constructor
  · rintro ⟨name, _, ⟨p₁, rfl⟩, p₂, mid, rfl, ty, rest, ht, heq, rfl⟩
    cases heq
    exact ⟨p₁, p₂, mid, rfl, ht⟩
  · rintro ⟨p₁, p₂, mid, rfl, ht⟩
    exact ⟨name, _, ⟨p₁, rfl⟩, p₂, mid, rfl, ty, rest, ht, rfl, rfl⟩

theorem reads_staticDecl {ts rest : Stream} {decl : StaticDecl} :
    Reads staticDecl ts decl rest ↔ Nonempty (Static ts decl rest) := by
  unfold staticDecl
  rw [reads_expect_bind _ Token.noConfusion]
  constructor
  · rintro ⟨pos, mid, rfl, h⟩
    obtain ⟨⟨name, ty⟩, _, hname, heq⟩ := reads_bind.mp h
    obtain ⟨p₁, p₂, _, rfl, ⟨ht⟩⟩ := reads_typedName.mp hname
    obtain ⟨rfl, rfl⟩ := reads_pure.mp heq
    exact ⟨.mk ht⟩
  · rintro ⟨⟨ht⟩⟩
    refine ⟨_, _, rfl, reads_bind.mpr ⟨(_, _), _, reads_typedName.mpr ⟨_, _, _, rfl, ⟨ht⟩⟩, ?_⟩⟩
    exact reads_pure.mpr ⟨rfl, rfl⟩

/-- A token that is not next is not the first one. -/
theorem firstToken_ne {token : Token} (ht : token ≠ .eof) {ts : Stream}
    (h : NextIsNot token ts) : (firstToken ts).item ≠ token := by
  cases ts with
  | nil => exact ht.symm
  | cons t rest => exact h

theorem comma_sound {x : Parser β} {ts rest : Stream} {b : β}
    (h : Reads (eat (.sign .comma) >>= fun _ => x) ts b rest) :
    ∃ mid, Nonempty (Comma ts mid) ∧ Reads x mid b rest := by
  rcases (reads_eat_bind _ Token.noConfusion).mp h with ⟨pos, mid, rfl, hx⟩ | ⟨-, hx⟩
  · exact ⟨mid, ⟨.present⟩, hx⟩
  · exact ⟨ts, ⟨.absent⟩, hx⟩

theorem comma_complete {x : Parser β} {ts mid rest : Stream} {b : β} (c : Comma ts mid)
    (hmid : NextIsNot (.sign .comma) mid) (h : Reads x mid b rest) :
    Reads (eat (.sign .comma) >>= fun _ => x) ts b rest := by
  rw [reads_eat_bind _ Token.noConfusion]
  cases c with
  | absent => exact Or.inr ⟨firstToken_ne Token.noConfusion hmid, h⟩
  | present => exact Or.inl ⟨_, _, rfl, h⟩

theorem constElements_sound {fuel : Nat} {found ns : List Nat} {ts rest : Stream}
    (h : Reads (constElements fuel found) ts ns rest) :
    ∃ ms, ns = found.reverse ++ ms ∧ Nonempty (Elements ts ms rest) := by
  induction fuel generalizing found ts with
  | zero => exact absurd h not_reads_fail
  | succ fuel ih =>
    rw [constElements, reads_eat_bind _ Token.noConfusion] at h
    rcases h with ⟨pos, mid, rfl, h⟩ | ⟨-, h⟩
    · obtain ⟨rfl, rfl⟩ := reads_pure.mp h
      exact ⟨[], (List.append_nil _).symm, ⟨.nil⟩⟩
    · simp only [Bool.false_eq_true, if_false] at h
      obtain ⟨n, mid, hn, h₁⟩ := reads_bind.mp h
      obtain ⟨pos, rfl⟩ := reads_number.mp hn
      obtain ⟨mid', ⟨hcomma⟩, h₂⟩ := comma_sound h₁
      obtain ⟨ms, hns, ⟨hms⟩⟩ := ih h₂
      -- the parser keeps what it has found backwards
      refine ⟨n :: ms, ?_, ⟨.cons hcomma hms⟩⟩
      rw [hns, List.reverse_cons, List.append_assoc]
      rfl

theorem constElements_complete {fuel : Nat} (found : List Nat) {ms : List Nat} {ts rest : Stream}
    (d : Elements ts ms rest) (hfuel : ts.length ≤ fuel + rest.length) :
    Reads (constElements fuel found) ts (found.reverse ++ ms) rest := by
  induction fuel generalizing found ts ms with
  | zero =>
    have hlen := d.past.length_lt
    omega
  | succ fuel ih =>
    rw [constElements, reads_eat_bind _ Token.noConfusion]
    cases d with
    | nil =>
      refine Or.inl ⟨_, _, rfl, reads_pure.mpr ⟨?_, rfl⟩⟩
      rw [List.append_nil]
    | @cons pos n ms ts ts' _ c more =>
      refine Or.inr ⟨Token.noConfusion, ?_⟩
      simp only [Bool.false_eq_true, if_false]
      have hlen : ts'.length ≤ ts.length := c.takes.length_le
      -- each number costs one unit of fuel and is at least one token
      have hmore := ih (n :: found) more (by rw [List.length_cons] at hfuel; omega)
      rw [List.reverse_cons, List.append_assoc] at hmore
      exact reads_bind.mpr ⟨n, ts, reads_number.mpr ⟨pos, rfl⟩, comma_complete c more.noComma hmore⟩

theorem constDecl_sound {fuel : Nat} {ts rest : Stream} {decl : ConstDecl}
    (h : Reads (constDecl fuel) ts decl rest) : Nonempty (Const ts decl rest) := by
  unfold constDecl at h
  obtain ⟨pos, _, rfl, h₁⟩ := (reads_expect_bind _ Token.noConfusion).mp h
  obtain ⟨⟨name, ty⟩, _, hname, h₂⟩ := reads_bind.mp h₁
  obtain ⟨p₁, p₂, _, rfl, ⟨ht⟩⟩ := reads_typedName.mp hname
  obtain ⟨p₃, _, rfl, h₃⟩ := (reads_expect_bind _ Token.noConfusion).mp h₂
  obtain ⟨p₄, _, rfl, h₄⟩ := (reads_expect_bind _ Token.noConfusion).mp h₃
  obtain ⟨values, _, hvalues, h₅⟩ := reads_bind.mp h₄
  obtain ⟨ms, rfl, ⟨hms⟩⟩ := constElements_sound hvalues
  obtain ⟨rfl, rfl⟩ := reads_pure.mp h₅
  exact ⟨.mk ht hms⟩

theorem constDecl_complete (fuel : Nat) {ts rest : Stream} {decl : ConstDecl}
    (d : Const ts decl rest) (hfuel : ts.length ≤ fuel + rest.length) :
    Reads (constDecl fuel) ts decl rest := by
  cases d with
  | @mk pos p₁ p₂ p₃ p₄ name ty values ts ts' rest t es =>
    have hlen := t.past.length_lt
    have hvalues : Reads (constElements fuel []) ts' values rest := by
      refine constElements_complete [] es ?_
      simp only [List.length_cons] at hfuel hlen
      omega
    unfold constDecl
    refine (reads_expect_bind _ Token.noConfusion).mpr ⟨pos, _, rfl, ?_⟩
    refine reads_bind.mpr ⟨(name, ty), _, reads_typedName.mpr ⟨p₁, p₂, ts, rfl, ⟨t⟩⟩, ?_⟩
    refine (reads_expect_bind _ Token.noConfusion).mpr ⟨p₃, _, rfl, ?_⟩
    refine (reads_expect_bind _ Token.noConfusion).mpr ⟨p₄, _, rfl, ?_⟩
    exact reads_bind.mpr ⟨values, rest, hvalues, reads_pure.mpr ⟨rfl, rfl⟩⟩

theorem params_sound {fuel : Nat} {ts rest : Stream} {ps : List Param}
    (h : Reads (params fuel) ts ps rest) : Nonempty (Params ts ps rest) := by
  induction fuel generalizing ts ps rest with
  | zero => exact absurd h not_reads_fail
  | succ fuel ih =>
    rw [params, reads_eat_bind _ Token.noConfusion] at h
    rcases h with ⟨pos, mid, rfl, h⟩ | ⟨-, h⟩
    · obtain ⟨rfl, rfl⟩ := reads_pure.mp h
      exact ⟨.nil⟩
    · simp only [Bool.false_eq_true, if_false] at h
      obtain ⟨⟨name, ty⟩, _, hname, h₁⟩ := reads_bind.mp h
      obtain ⟨p₁, p₂, _, rfl, ⟨ht⟩⟩ := reads_typedName.mp hname
      obtain ⟨mid, ⟨hcomma⟩, h₂⟩ := comma_sound h₁
      obtain ⟨more, _, hmore, h₃⟩ := reads_bind.mp h₂
      obtain ⟨hps⟩ := ih hmore
      obtain ⟨rfl, rfl⟩ := reads_pure.mp h₃
      exact ⟨.cons ht hcomma hps⟩

theorem params_complete {fuel : Nat} {ts rest : Stream} {ps : List Param} (d : Params ts ps rest)
    (hfuel : ts.length ≤ fuel + rest.length) : Reads (params fuel) ts ps rest := by
  induction fuel generalizing ts ps with
  | zero =>
    have hlen := d.past.length_lt
    omega
  | succ fuel ih =>
    rw [params, reads_eat_bind _ Token.noConfusion]
    cases d with
    | nil => exact Or.inl ⟨_, _, rfl, reads_pure.mpr ⟨rfl, rfl⟩⟩
    | @cons p₁ p₂ name ty ps ts ts' ts'' _ t c more =>
      refine Or.inr ⟨Token.noConfusion, ?_⟩
      simp only [Bool.false_eq_true, if_false]
      have htype := t.past.length_lt
      have hcomma : ts''.length ≤ ts'.length := c.takes.length_le
      have hmore := ih more (by simp only [List.length_cons] at hfuel; omega)
      refine reads_bind.mpr ⟨(name, ty), _, reads_typedName.mpr ⟨p₁, p₂, ts, rfl, ⟨t⟩⟩, ?_⟩
      refine comma_complete c more.noComma (reads_bind.mpr ⟨ps, rest, hmore, ?_⟩)
      exact reads_pure.mpr ⟨rfl, rfl⟩

/-! ## Section 3: Expressions -/

/-- What the parsers of expressions read with this fuel has a derivation. -/
structure SoundExpressions (fuel : Nat) : Prop where
  expression : ∀ {ts e rest}, Reads (expression fuel) ts e rest → Nonempty (Expression ts e rest)
  operands : ∀ {ts es rest}, Reads (operands fuel) ts es rest → Nonempty (Arguments ts es rest)

namespace SoundExpressions

variable {fuel : Nat} {ts rest : Stream}

theorem expression_succ (ih : SoundExpressions fuel) {e : Expr}
    (h : Reads (Parser.expression (fuel + 1)) ts e rest) : Nonempty (Expression ts e rest) := by
  rw [Parser.expression, reads_peek_bind] at h
  split at h
  · next n heq =>
    obtain ⟨pos, us, rfl⟩ := exists_eq_cons heq Token.noConfusion
    rw [reads_advance_cons Token.noConfusion] at h
    obtain ⟨rfl, rfl⟩ := reads_pure.mp h
    exact ⟨.literal⟩
  · next name heq =>
    obtain ⟨pos, us, rfl⟩ := exists_eq_cons heq Token.noConfusion
    rw [reads_advance_cons Token.noConfusion] at h
    obtain ⟨rfl, rfl⟩ := reads_pure.mp h
    exact ⟨.ident⟩
  · next heq =>
    obtain ⟨pos, us, rfl⟩ := exists_eq_cons heq Token.noConfusion
    rw [reads_advance_cons Token.noConfusion] at h
    obtain ⟨offset, _, hoffset, h₁⟩ := reads_bind.mp h
    obtain ⟨d⟩ := ih.expression hoffset
    obtain ⟨p₁, _, rfl, h₂⟩ := (reads_expect_bind _ Token.noConfusion).mp h₁
    obtain ⟨array, _, harray, h₃⟩ := reads_bind.mp h₂
    obtain ⟨p₂, rfl⟩ := reads_ident.mp harray
    obtain ⟨rfl, rfl⟩ := reads_pure.mp h₃
    exact ⟨.index d⟩
  · next heq =>
    obtain ⟨pos, us, rfl⟩ := exists_eq_cons heq Token.noConfusion
    rw [reads_advance_cons Token.noConfusion, reads_advance_bind] at h
    split at h
    · next op hop =>
      -- all operands are read before they are counted
      obtain ⟨found, _, hfound, h₁⟩ := reads_bind.mp h
      obtain ⟨p₁, vs, rfl⟩ := exists_eq_cons hop Token.noConfusion
      rw [afterFirst_cons _ Token.noConfusion] at hfound
      obtain ⟨d⟩ := ih.operands hfound
      split at h₁
      · obtain ⟨rfl, rfl⟩ := reads_pure.mp h₁
        cases d with
        | cons left more =>
          cases more with
          | cons right last =>
            cases last
            exact ⟨.binary left right⟩
      · exact absurd h₁ not_reads_fail
    · next function hfunction =>
      obtain ⟨args, _, hargs, h₁⟩ := reads_bind.mp h
      obtain ⟨p₁, vs, rfl⟩ := exists_eq_cons hfunction Token.noConfusion
      rw [afterFirst_cons _ Token.noConfusion] at hargs
      obtain ⟨d⟩ := ih.operands hargs
      obtain ⟨rfl, rfl⟩ := reads_pure.mp h₁
      exact ⟨.call d⟩
    · exact absurd h not_reads_fail
    · exact absurd h not_reads_fail
  · exact absurd h not_reads_unexpected

theorem operands_succ (ih : SoundExpressions fuel) {es : List Expr}
    (h : Reads (Parser.operands (fuel + 1)) ts es rest) : Nonempty (Arguments ts es rest) := by
  rw [Parser.operands, reads_eat_bind _ Token.noConfusion] at h
  rcases h with ⟨pos, mid, rfl, h⟩ | ⟨-, h⟩
  · obtain ⟨rfl, rfl⟩ := reads_pure.mp h
    exact ⟨.nil⟩
  · simp only [Bool.false_eq_true, if_false] at h
    obtain ⟨e, _, he, h₁⟩ := reads_bind.mp h
    obtain ⟨more, _, hmore, h₂⟩ := reads_bind.mp h₁
    obtain ⟨first⟩ := ih.expression he
    obtain ⟨rest⟩ := ih.operands hmore
    obtain ⟨rfl, rfl⟩ := reads_pure.mp h₂
    exact ⟨.cons first rest⟩

end SoundExpressions

theorem soundExpressions (fuel : Nat) : SoundExpressions fuel := by
  induction fuel with
  | zero => exact ⟨fun h => absurd h not_reads_fail, fun h => absurd h not_reads_fail⟩
  | succ fuel ih => exact ⟨ih.expression_succ, ih.operands_succ⟩

mutual

/-- What has a derivation is read with a fuel as large as the number of tokens taken. -/
theorem expression_complete {ts rest : Stream} {e : Expr} (d : Expression ts e rest) (fuel : Nat)
    (hfuel : ts.length ≤ fuel + rest.length) : Reads (expression fuel) ts e rest := by
  have hlen := d.past.length_lt
  obtain ⟨fuel, rfl⟩ := Nat.exists_eq_add_one_of_ne_zero (show fuel ≠ 0 by omega)
  match d with
  | .literal =>
    rw [expression, reads_peek_bind]
    exact reads_pure.mpr ⟨rfl, rfl⟩
  | .ident =>
    rw [expression, reads_peek_bind]
    exact reads_pure.mpr ⟨rfl, rfl⟩
  | .index e =>
    have he := expression_complete e fuel (by simp only [List.length_cons] at *; omega)
    rw [expression, reads_peek_bind]
    simp only [firstToken_cons]
    rw [reads_advance_cons Token.noConfusion]
    refine reads_bind.mpr ⟨_, _, he, (reads_expect_bind _ Token.noConfusion).mpr ⟨_, _, rfl, ?_⟩⟩
    exact reads_bind.mpr ⟨_, _, reads_ident.mpr ⟨_, rfl⟩, reads_pure.mpr ⟨rfl, rfl⟩⟩
  | .binary l r =>
    -- two operands and the parenthesis are a list of arguments
    have hoperands := operands_complete (.cons l (.cons r .nil)) fuel
      (by simp only [List.length_cons] at *; omega)
    rw [expression, reads_peek_bind]
    simp only [firstToken_cons]
    rw [reads_advance_cons Token.noConfusion, reads_advance_cons Token.noConfusion]
    exact reads_bind.mpr ⟨_, _, hoperands, reads_pure.mpr ⟨rfl, rfl⟩⟩
  | .call as =>
    have hoperands := operands_complete as fuel (by simp only [List.length_cons] at *; omega)
    rw [expression, reads_peek_bind]
    simp only [firstToken_cons]
    rw [reads_advance_cons Token.noConfusion, reads_advance_cons Token.noConfusion]
    exact reads_bind.mpr ⟨_, _, hoperands, reads_pure.mpr ⟨rfl, rfl⟩⟩

theorem operands_complete {ts rest : Stream} {es : List Expr} (d : Arguments ts es rest)
    (fuel : Nat) (hfuel : ts.length ≤ fuel + rest.length) : Reads (operands fuel) ts es rest := by
  have hlen := d.past.length_lt
  obtain ⟨fuel, rfl⟩ := Nat.exists_eq_add_one_of_ne_zero (show fuel ≠ 0 by omega)
  match d with
  | .nil =>
    rw [operands, reads_eat_bind _ Token.noConfusion]
    exact Or.inl ⟨_, _, rfl, reads_pure.mpr ⟨rfl, rfl⟩⟩
  | .cons first more =>
    have hfirst := first.past.length_lt
    have hmore := more.past.length_lt
    have he := expression_complete first fuel (by omega)
    have hes := operands_complete more fuel (by omega)
    rw [operands, reads_eat_bind _ Token.noConfusion]
    refine Or.inr ⟨?_, ?_⟩
    -- an expression does not start with the parenthesis that ends the list
    · cases first <;> simp [firstToken_cons]
    · exact reads_bind.mpr ⟨_, _, he, reads_bind.mpr ⟨_, _, hes, reads_pure.mpr ⟨rfl, rfl⟩⟩⟩

end

/-! ## Section 4: Simple statements -/

theorem place_sound {fuel : Nat} {ts rest : Stream} {p : Place}
    (h : Reads (place fuel) ts p rest) : Nonempty (Target ts p rest) := by
  unfold place at h
  rcases (reads_eat_bind _ Token.noConfusion).mp h with ⟨pos, mid, rfl, h₁⟩ | ⟨-, h₁⟩
  · simp only [if_true] at h₁
    obtain ⟨offset, _, hoffset, h₂⟩ := reads_bind.mp h₁
    obtain ⟨d⟩ := (soundExpressions fuel).expression hoffset
    obtain ⟨p₁, _, rfl, h₃⟩ := (reads_expect_bind _ Token.noConfusion).mp h₂
    obtain ⟨array, _, harray, h₄⟩ := reads_bind.mp h₃
    obtain ⟨p₂, rfl⟩ := reads_ident.mp harray
    obtain ⟨rfl, rfl⟩ := reads_pure.mp h₄
    exact ⟨.elem d⟩
  · simp only [Bool.false_eq_true, if_false] at h₁
    obtain ⟨name, _, hname, h₂⟩ := reads_bind.mp h₁
    obtain ⟨p₁, rfl⟩ := reads_ident.mp hname
    obtain ⟨rfl, rfl⟩ := reads_pure.mp h₂
    exact ⟨.var⟩

theorem place_complete {fuel : Nat} {ts rest : Stream} {p : Place} (d : Target ts p rest)
    (hfuel : ts.length ≤ fuel + rest.length) : Reads (place fuel) ts p rest := by
  unfold place
  rw [reads_eat_bind _ Token.noConfusion]
  cases d with
  | var =>
    refine Or.inr ⟨Token.noConfusion, ?_⟩
    exact reads_bind.mpr ⟨_, _, reads_ident.mpr ⟨_, rfl⟩, reads_pure.mpr ⟨rfl, rfl⟩⟩
  | elem e =>
    have he := expression_complete e fuel (by simp only [List.length_cons] at *; omega)
    refine Or.inl ⟨_, _, rfl, ?_⟩
    simp only [if_true]
    refine reads_bind.mpr ⟨_, _, he, (reads_expect_bind _ Token.noConfusion).mpr ⟨_, _, rfl, ?_⟩⟩
    exact reads_bind.mpr ⟨_, _, reads_ident.mpr ⟨_, rfl⟩, reads_pure.mpr ⟨rfl, rfl⟩⟩

variable {ctx : Context}

theorem assignment_sound {fuel : Nat} {op : AssignOp} {ts rest : Stream} {s : Statement}
    (hop : (firstToken (afterFirst ts)).item = .assign op)
    (h : Reads (assignment fuel op) ts s rest) : Nonempty (Stmt ctx ts s rest) := by
  unfold assignment at h
  obtain ⟨pos, mid, rfl, h₁⟩ := (reads_expect_bind _ Token.noConfusion).mp h
  rw [afterFirst_cons _ Token.noConfusion] at hop
  obtain ⟨p₁, mid, rfl⟩ := exists_eq_cons hop Token.noConfusion
  rw [reads_advance_cons Token.noConfusion] at h₁
  obtain ⟨target, _, htarget, h₂⟩ := reads_bind.mp h₁
  obtain ⟨t⟩ := place_sound htarget
  obtain ⟨value, _, hvalue, h₃⟩ := reads_bind.mp h₂
  obtain ⟨e⟩ := (soundExpressions fuel).expression hvalue
  obtain ⟨p₂, _, rfl, h₄⟩ := (reads_expect_bind _ Token.noConfusion).mp h₃
  obtain ⟨rfl, rfl⟩ := reads_pure.mp h₄
  exact ⟨.assign t e⟩

theorem letStatement_sound {fuel : Nat} {ts rest : Stream} {s : Statement}
    (h : Reads (letStatement fuel) ts s rest) : Nonempty (Stmt ctx ts s rest) := by
  unfold letStatement at h
  obtain ⟨pos, _, rfl, h₁⟩ := (reads_expect_bind _ Token.noConfusion).mp h
  obtain ⟨⟨name, ty⟩, _, hname, h₂⟩ := reads_bind.mp h₁
  obtain ⟨p₁, p₂, _, rfl, ⟨t⟩⟩ := reads_typedName.mp hname
  obtain ⟨p₃, _, rfl, h₃⟩ := (reads_expect_bind _ Token.noConfusion).mp h₂
  obtain ⟨value, _, hvalue, h₄⟩ := reads_bind.mp h₃
  obtain ⟨e⟩ := (soundExpressions fuel).expression hvalue
  obtain ⟨rfl, rfl⟩ := reads_pure.mp h₄
  exact ⟨.letVar t e⟩

/-- The parser's test for a value after `return` is that of the grammar. -/
theorem valueFollows_iff {pos : Position} {ts : Stream} :
    ((firstToken ts).pos.line == pos.line && startsValue (firstToken ts).item) = true ↔
      ValueFollows pos ts := by
  cases ts with
  | nil => simp [firstToken, startsValue, ValueFollows]
  | cons t rest =>
    have hstarts : startsValue t.item = true ↔
        t.item ≠ .sign .rbrace ∧ t.item ≠ .sign .semicolon ∧ t.item ≠ .eof := by
      unfold startsValue
      split <;> simp_all
    rw [firstToken_cons, Bool.and_eq_true, beq_iff_eq, hstarts]
    exact Iff.rfl

theorem returnStatement_sound {fuel : Nat} {ts rest : Stream} {s : Statement}
    (h : Reads (returnStatement fuel ctx) ts s rest) : Nonempty (Stmt ctx ts s rest) := by
  unfold returnStatement at h
  obtain ⟨pos, us, rfl, h₁⟩ := (reads_expect_bind _ Token.noConfusion).mp h
  rw [reads_peek_bind] at h₁
  dsimp only at h₁
  split at h₁
  · next hvalue hreturns =>
    obtain ⟨value, _, hexpr, h₂⟩ := reads_bind.mp h₁
    obtain ⟨e⟩ := (soundExpressions fuel).expression hexpr
    obtain ⟨rfl, rfl⟩ := reads_pure.mp h₂
    refine ⟨.valueReturn ?_ (valueFollows_iff.mp hvalue) e⟩
    rw [hreturns]
    exact Option.some_ne_none _
  -- no value and no return type; the other two combinations are faults
  · next hvalue hreturns =>
    obtain ⟨rfl, rfl⟩ := reads_pure.mp h₁
    refine ⟨.bareReturn hreturns (fun hfollows => ?_)⟩
    rw [valueFollows_iff.mpr hfollows] at hvalue
    cases hvalue
  · exact absurd h₁ not_reads_fail
  · exact absurd h₁ not_reads_fail

theorem assignment_complete {fuel : Nat} {pos p₁ p₂ : Position} {op : AssignOp} {p : Place}
    {value : Expr} {ts ts' rest : Stream} (t : Target ts p ts')
    (e : Expression ts' value (⟨p₂, .sign .rparen⟩ :: rest))
    (hfuel : ts.length ≤ fuel + rest.length) :
    Reads (assignment fuel op) (⟨pos, .sign .lparen⟩ :: ⟨p₁, .assign op⟩ :: ts)
      (.assign pos op p value) rest := by
  have ht := t.past.length_lt
  have he := e.past.length_lt
  simp only [List.length_cons] at he
  have htarget : Reads (place fuel) ts p ts' := place_complete t (by omega)
  have hvalue := expression_complete e fuel (by simp only [List.length_cons]; omega)
  unfold assignment
  refine (reads_expect_bind _ Token.noConfusion).mpr ⟨pos, _, rfl, ?_⟩
  rw [reads_advance_cons Token.noConfusion]
  refine reads_bind.mpr ⟨p, _, htarget, reads_bind.mpr ⟨value, _, hvalue, ?_⟩⟩
  exact (reads_expect_bind _ Token.noConfusion).mpr ⟨p₂, _, rfl, reads_pure.mpr ⟨rfl, rfl⟩⟩

theorem letStatement_complete {fuel : Nat} {pos p₁ p₂ p₃ : Position} {name : String} {ty : Ty}
    {value : Expr} {ts ts' rest : Stream} (t : TypeName ts ty (⟨p₃, .assign .set⟩ :: ts'))
    (e : Expression ts' value rest) (hfuel : ts.length ≤ fuel + rest.length) :
    Reads (letStatement fuel)
      (⟨pos, .keyword .letWord⟩ :: ⟨p₁, .ident name⟩ :: ⟨p₂, .sign .colon⟩ :: ts)
      (.letVar pos name ty value) rest := by
  have ht := t.past.length_lt
  simp only [List.length_cons] at ht
  have hvalue := expression_complete e fuel (by omega)
  unfold letStatement
  refine (reads_expect_bind _ Token.noConfusion).mpr ⟨pos, _, rfl, ?_⟩
  refine reads_bind.mpr ⟨(name, ty), _, reads_typedName.mpr ⟨p₁, p₂, ts, rfl, ⟨t⟩⟩, ?_⟩
  refine (reads_expect_bind _ Token.noConfusion).mpr ⟨p₃, _, rfl, ?_⟩
  exact reads_bind.mpr ⟨value, rest, hvalue, reads_pure.mpr ⟨rfl, rfl⟩⟩

theorem bareReturn_complete {fuel : Nat} {pos : Position} {rest : Stream}
    (hreturns : ctx.returns = none) (hbare : ¬ ValueFollows pos rest) :
    Reads (returnStatement fuel ctx)
      (⟨pos, .keyword .returnWord⟩ :: rest) (.ret pos none) rest := by
  unfold returnStatement
  refine (reads_expect_bind _ Token.noConfusion).mpr ⟨pos, rest, rfl, ?_⟩
  rw [reads_peek_bind, hreturns, Bool.eq_false_iff.mpr (mt valueFollows_iff.mp hbare)]
  exact reads_pure.mpr ⟨rfl, rfl⟩

theorem valueReturn_complete {fuel : Nat} {pos : Position} {value : Expr} {ts rest : Stream}
    (hreturns : ctx.returns ≠ none) (hfollows : ValueFollows pos ts) (e : Expression ts value rest)
    (hfuel : ts.length ≤ fuel + rest.length) :
    Reads (returnStatement fuel ctx) (⟨pos, .keyword .returnWord⟩ :: ts) (.ret pos (some value))
      rest := by
  obtain ⟨ty, hty⟩ := Option.ne_none_iff_exists'.mp hreturns
  unfold returnStatement
  refine (reads_expect_bind _ Token.noConfusion).mpr ⟨pos, ts, rfl, ?_⟩
  rw [reads_peek_bind, hty, valueFollows_iff.mpr hfollows]
  exact reads_bind.mpr ⟨value, rest, expression_complete e fuel hfuel, reads_pure.mpr ⟨rfl, rfl⟩⟩

/-- The head of a `for`. -/
theorem reads_forHeader_iff {fuel : Nat} {ts rest : Stream} {var : String} {ty : Ty}
    {start stop : Expr} :
    Reads (forHeader fuel) ts (var, ty, start, stop) rest ↔
      ∃ (p₁ p₂ p₃ p₄ : Position) (w : Width) (us ts₁ ts₂ : Stream),
        ts = ⟨p₁, .ident var⟩ :: ⟨p₂, .sign .colon⟩ :: us ∧ ty = .uint w ∧
        Nonempty (WordType us w (⟨p₃, .keyword .inWord⟩ :: ts₁)) ∧
        Reads (expression fuel) ts₁ start (⟨p₄, .sign .dotdot⟩ :: ts₂) ∧
        Reads (expression fuel) ts₂ stop rest := by
  unfold forHeader
  simp only [reads_bind, reads_ident, reads_width, reads_pure,
    reads_expect (.sign .colon) Token.noConfusion,
    reads_expect (.keyword .inWord) Token.noConfusion,
    reads_expect (.sign .dotdot) Token.noConfusion]
  constructor
  · rintro ⟨_, _, ⟨p₁, rfl⟩, p₂, us, rfl, w, _, hw, p₃, ts₁, rfl, _, _, hstart, p₄, ts₂, rfl, _, _,
      hstop, heq, rfl⟩
    cases heq
    exact ⟨p₁, p₂, p₃, p₄, w, us, ts₁, ts₂, rfl, rfl, hw, hstart, hstop⟩
  · rintro ⟨p₁, p₂, p₃, p₄, w, us, ts₁, ts₂, rfl, rfl, hw, hstart, hstop⟩
    exact ⟨_, _, ⟨p₁, rfl⟩, p₂, us, rfl, w, _, hw, p₃, ts₁, rfl, _, _, hstart, p₄, ts₂, rfl, _, _,
      hstop, rfl, rfl⟩

/-! ## Section 5: Statements -/

/-- Dropping all semicolons is one way to read them. -/
theorem separators_dropWhile (ts : Stream) :
    Nonempty (Separators ts (ts.dropWhile fun t => decide (t.item = .sign .semicolon))) := by
  induction ts with
  | nil => exact ⟨.none⟩
  | cons t rest ih =>
    obtain ⟨pos, t⟩ := t
    by_cases ht : t = .sign .semicolon
    · subst ht
      rw [List.dropWhile_cons_of_pos (by simp)]
      exact ih.elim (fun d => ⟨.more d⟩)
    · rw [List.dropWhile_cons_of_neg (by simp [ht])]
      exact ⟨.none⟩

/-- It is the only way that leaves something that starts with no semicolon. -/
theorem dropWhile_of_separators {ts rest : Stream} (d : Separators ts rest)
    (h : NextIsNot (.sign .semicolon) rest) :
    (ts.dropWhile fun t => decide (t.item = .sign .semicolon)) = rest := by
  induction d with
  | @none ts =>
    cases ts with
    | nil => rfl
    | cons t rest => exact List.dropWhile_cons_of_neg (by simpa [NextIsNot] using h)
  | more ss ih => exact ih h

theorem skipSeparators_sound {x : Parser β} {ts rest : Stream} {b : β}
    (h : Reads (skipSeparators >>= fun _ => x) ts b rest) :
    ∃ mid, Nonempty (Separators ts mid) ∧ Reads x mid b rest := by
  obtain ⟨_, mid, hskip, hx⟩ := reads_bind.mp h
  have hmid := reads_skipSeparators.mp hskip
  subst hmid
  exact ⟨_, separators_dropWhile ts, hx⟩

theorem skipSeparators_complete {x : Parser β} {ts mid rest : Stream} {b : β}
    (d : Separators ts mid) (hmid : NextIsNot (.sign .semicolon) mid) (h : Reads x mid b rest) :
    Reads (skipSeparators >>= fun _ => x) ts b rest :=
  reads_bind.mpr ⟨(), mid, reads_skipSeparators.mpr (dropWhile_of_separators d hmid), h⟩

/-- What the parsers of statements read with this fuel has a derivation. -/
structure SoundStatements (fuel : Nat) : Prop where
  statement : ∀ {ctx ts s rest}, Reads (statement fuel ctx) ts s rest →
    Nonempty (Stmt ctx ts s rest)
  conditional : ∀ {ctx ts s rest}, Reads (conditional fuel ctx) ts s rest →
    Nonempty (Conditional ctx ts s rest)
  block : ∀ {ctx ts ss rest}, Reads (block fuel ctx) ts ss rest → Nonempty (Block ctx ts ss rest)
  statements : ∀ {ctx ts ss rest}, Reads (statements fuel ctx) ts ss rest →
    Nonempty (Stmts ctx ts ss rest)

namespace SoundStatements

variable {fuel : Nat} {ts rest : Stream}

/-- An expression on its own is a statement at the place of its first token. -/
theorem expr {s : Statement} (h : Reads (do
      return .expr (firstToken ts).pos (← expression fuel)) ts s rest) :
    Nonempty (Stmt ctx ts s rest) := by
  obtain ⟨value, _, hvalue, h₁⟩ := reads_bind.mp h
  obtain ⟨e⟩ := (soundExpressions fuel).expression hvalue
  obtain ⟨rfl, rfl⟩ := reads_pure.mp h₁
  obtain ⟨⟨pos, t⟩, us, rfl, -⟩ := e.past
  exact ⟨.expr e⟩

theorem statement_succ (ih : SoundStatements fuel) {s : Statement}
    (h : Reads (Parser.statement (fuel + 1) ctx) ts s rest) : Nonempty (Stmt ctx ts s rest) := by
  rw [Parser.statement, reads_peek_bind] at h
  split at h
  · exact letStatement_sound h
  · next heq =>
    split at h
    · next hinside =>
      obtain ⟨decl, _, hdecl, h₁⟩ := reads_bind.mp h
      obtain ⟨d⟩ := reads_staticDecl.mp hdecl
      obtain ⟨rfl, rfl⟩ := reads_pure.mp h₁
      exact ⟨.static hinside d⟩
    · exact absurd h not_reads_fail
  · exact (ih.conditional h).elim (fun c => ⟨.cond c⟩)
  · next heq =>
    obtain ⟨pos, us, rfl⟩ := exists_eq_cons heq Token.noConfusion
    rw [reads_advance_cons Token.noConfusion] at h
    obtain ⟨⟨var, ty, start, stop⟩, _, hheader, h₁⟩ := reads_bind.mp h
    obtain ⟨p₁, p₂, p₃, p₄, w, _, _, _, rfl, rfl, ⟨t⟩, hstart, hstop⟩ :=
      reads_forHeader_iff.mp hheader
    obtain ⟨low⟩ := (soundExpressions fuel).expression hstart
    obtain ⟨high⟩ := (soundExpressions fuel).expression hstop
    obtain ⟨body, _, hbody, h₂⟩ := reads_bind.mp h₁
    obtain ⟨b⟩ := ih.block hbody
    obtain ⟨rfl, rfl⟩ := reads_pure.mp h₂
    exact ⟨.forRange t low high b⟩
  · next heq =>
    obtain ⟨pos, us, rfl⟩ := exists_eq_cons heq Token.noConfusion
    rw [reads_advance_cons Token.noConfusion] at h
    obtain ⟨body, _, hbody, h₁⟩ := reads_bind.mp h
    obtain ⟨b⟩ := ih.block hbody
    obtain ⟨rfl, rfl⟩ := reads_pure.mp h₁
    exact ⟨.loop b⟩
  · next heq =>
    obtain ⟨pos, us, rfl⟩ := exists_eq_cons heq Token.noConfusion
    rw [reads_advance_cons Token.noConfusion] at h
    split at h
    · next hloop =>
      obtain ⟨rfl, rfl⟩ := reads_pure.mp h
      exact ⟨.breakLoop hloop⟩
    · exact absurd h not_reads_fail
  · next heq =>
    obtain ⟨pos, us, rfl⟩ := exists_eq_cons heq Token.noConfusion
    rw [reads_advance_cons Token.noConfusion] at h
    split at h
    · next hloop =>
      obtain ⟨rfl, rfl⟩ := reads_pure.mp h
      exact ⟨.continueLoop hloop⟩
    · exact absurd h not_reads_fail
  · exact returnStatement_sound h
  · next heq =>
    obtain ⟨pos, us, rfl⟩ := exists_eq_cons heq Token.noConfusion
    rw [reads_advance_cons Token.noConfusion] at h
    obtain ⟨rfl, rfl⟩ := reads_pure.mp h
    exact ⟨.panic⟩
  -- behind a parenthesis, the second token tells assignments from expressions
  · rw [reads_peekSecond_bind] at h
    split at h
    · next op hop => exact assignment_sound hop h
    · exact expr h
  · exact expr h

theorem conditional_succ (ih : SoundStatements fuel) {s : Statement}
    (h : Reads (Parser.conditional (fuel + 1) ctx) ts s rest) :
    Nonempty (Conditional ctx ts s rest) := by
  rw [Parser.conditional] at h
  obtain ⟨pos, _, rfl, h₁⟩ := (reads_expect_bind _ Token.noConfusion).mp h
  obtain ⟨cond, _, hcond, h₂⟩ := reads_bind.mp h₁
  obtain ⟨c⟩ := (soundExpressions fuel).expression hcond
  obtain ⟨yes, _, hyes, h₃⟩ := reads_bind.mp h₂
  obtain ⟨b⟩ := ih.block hyes
  rcases (reads_eat_bind _ Token.noConfusion).mp h₃ with ⟨p₁, _, rfl, h₄⟩ | ⟨-, h₄⟩
  · simp only [if_true] at h₄
    rw [reads_peek_bind] at h₄
    split at h₄
    · obtain ⟨nested, _, hnested, h₅⟩ := reads_bind.mp h₄
      obtain ⟨n⟩ := ih.conditional hnested
      obtain ⟨rfl, rfl⟩ := reads_pure.mp h₅
      exact ⟨.elseIf c b n⟩
    · obtain ⟨no, _, hno, h₅⟩ := reads_bind.mp h₄
      obtain ⟨b'⟩ := ih.block hno
      obtain ⟨rfl, rfl⟩ := reads_pure.mp h₅
      exact ⟨.ifElse c b b'⟩
  · simp only [Bool.false_eq_true, if_false] at h₄
    obtain ⟨rfl, rfl⟩ := reads_pure.mp h₄
    exact ⟨.ifThen c b⟩

theorem block_succ (ih : SoundStatements fuel) {ss : List Statement}
    (h : Reads (Parser.block (fuel + 1) ctx) ts ss rest) : Nonempty (Block ctx ts ss rest) := by
  rw [Parser.block] at h
  obtain ⟨pos, _, rfl, h₁⟩ := (reads_expect_bind _ Token.noConfusion).mp h
  exact (ih.statements h₁).elim (fun ss => ⟨.mk ss⟩)

theorem statements_succ (ih : SoundStatements fuel) {ss : List Statement}
    (h : Reads (Parser.statements (fuel + 1) ctx) ts ss rest) :
    Nonempty (Stmts ctx ts ss rest) := by
  rw [Parser.statements] at h
  obtain ⟨mid, ⟨sep⟩, h₁⟩ := skipSeparators_sound h
  rcases (reads_eat_bind _ Token.noConfusion).mp h₁ with ⟨pos, _, rfl, h₂⟩ | ⟨-, h₂⟩
  · obtain ⟨rfl, rfl⟩ := reads_pure.mp h₂
    exact ⟨.nil sep⟩
  · simp only [Bool.false_eq_true, if_false] at h₂
    obtain ⟨s, _, hs, h₃⟩ := reads_bind.mp h₂
    obtain ⟨first⟩ := ih.statement hs
    obtain ⟨more, _, hmore, h₄⟩ := reads_bind.mp h₃
    obtain ⟨rest'⟩ := ih.statements hmore
    obtain ⟨rfl, rfl⟩ := reads_pure.mp h₄
    exact ⟨.cons sep first rest'⟩

end SoundStatements

theorem soundStatements (fuel : Nat) : SoundStatements fuel := by
  induction fuel with
  | zero =>
    exact ⟨fun h => absurd h not_reads_fail, fun h => absurd h not_reads_fail,
      fun h => absurd h not_reads_fail, fun h => absurd h not_reads_fail⟩
  | succ fuel ih =>
    exact ⟨ih.statement_succ, ih.conditional_succ, ih.block_succ, ih.statements_succ⟩

/-- An expression is read as a statement unless it looks like an assignment, which it cannot. -/
theorem expr_complete {fuel : Nat} {pos : Position} {t : Token} {value : Expr} {ts rest : Stream}
    (e : Expression (⟨pos, t⟩ :: ts) value rest) (hfuel : ts.length + 1 ≤ fuel + rest.length) :
    Reads (statement (fuel + 1) ctx) (⟨pos, t⟩ :: ts) (.expr pos value) rest := by
  have he := expression_complete e fuel (by simpa using hfuel)
  rw [statement, reads_peek_bind]
  cases e with
  | literal => exact reads_bind.mpr ⟨_, _, he, reads_pure.mpr ⟨rfl, rfl⟩⟩
  | ident => exact reads_bind.mpr ⟨_, _, he, reads_pure.mpr ⟨rfl, rfl⟩⟩
  | index e => exact reads_bind.mpr ⟨_, _, he, reads_pure.mpr ⟨rfl, rfl⟩⟩
  | binary l r =>
    simp only [firstToken_cons]
    rw [reads_peekSecond_bind]
    exact reads_bind.mpr ⟨_, _, he, reads_pure.mpr ⟨rfl, rfl⟩⟩
  | call as =>
    simp only [firstToken_cons]
    rw [reads_peekSecond_bind]
    exact reads_bind.mpr ⟨_, _, he, reads_pure.mpr ⟨rfl, rfl⟩⟩

mutual

/-- A statement is read with a fuel twice as large as the number of tokens taken, if no `else`
    follows it. -/
theorem statement_complete {ts rest : Stream} {s : Statement} {ctx : Context} :
    (d : Stmt ctx ts s rest) → (fuel : Nat) → 2 * ts.length ≤ fuel + 2 * rest.length →
      NextIsNot (.keyword .elseWord) rest → Reads (statement fuel ctx) ts s rest
  | d, 0, hfuel, _ => by
    have hlen := d.past.length_lt
    omega
  | .letVar t e, fuel + 1, hfuel, _ => by
    have ht := t.past.length_lt
    have he := e.past.length_lt
    simp only [List.length_cons] at hfuel ht
    exact letStatement_complete t e (by omega)
  | .static inside d, fuel + 1, _, _ => by
    have hd := reads_staticDecl.mpr ⟨d⟩
    rw [statement, reads_peek_bind]
    cases d with
    | mk t =>
      simp only [firstToken_cons, inside, if_true]
      exact reads_bind.mpr ⟨_, _, hd, reads_pure.mpr ⟨rfl, rfl⟩⟩
  | .assign t e, fuel + 1, hfuel, _ => by
    have ht := t.past.length_lt
    have he := e.past.length_lt
    simp only [List.length_cons] at hfuel he
    exact assignment_complete t e (by omega)
  | .cond c, fuel + 1, hfuel, hnext => by
    have hc := conditional_complete c fuel (by omega) hnext
    rw [statement, reads_peek_bind]
    cases c <;> exact hc
  | .forRange t low high b, fuel + 1, hfuel, _ => by
    have ht := t.past.length_lt
    have hlow := low.past.length_lt
    have hhigh := high.past.length_lt
    have hb := b.past.length_lt
    simp only [List.length_cons] at hfuel ht hlow
    have hbody := block_complete b fuel (by omega)
    have hstart := expression_complete low fuel (by simp only [List.length_cons]; omega)
    have hstop := expression_complete high fuel (by omega)
    rw [statement, reads_peek_bind]
    simp only [firstToken_cons]
    rw [reads_advance_cons Token.noConfusion]
    refine reads_bind.mpr ⟨(_, _, _, _), _, reads_forHeader_iff.mpr
      ⟨_, _, _, _, _, _, _, _, rfl, rfl, ⟨t⟩, hstart, hstop⟩, ?_⟩
    exact reads_bind.mpr ⟨_, _, hbody, reads_pure.mpr ⟨rfl, rfl⟩⟩
  | .loop b, fuel + 1, hfuel, _ => by
    have hbody := block_complete b fuel (by simp only [List.length_cons] at hfuel; omega)
    rw [statement, reads_peek_bind]
    simp only [firstToken_cons]
    rw [reads_advance_cons Token.noConfusion]
    exact reads_bind.mpr ⟨_, _, hbody, reads_pure.mpr ⟨rfl, rfl⟩⟩
  | .breakLoop inside, fuel + 1, _, _ => by
    rw [statement, reads_peek_bind]
    simp only [firstToken_cons, inside, if_true]
    exact reads_pure.mpr ⟨rfl, rfl⟩
  | .continueLoop inside, fuel + 1, _, _ => by
    rw [statement, reads_peek_bind]
    simp only [firstToken_cons, inside, if_true]
    exact reads_pure.mpr ⟨rfl, rfl⟩
  | .bareReturn returns bare, fuel + 1, _, _ => bareReturn_complete returns bare
  | .valueReturn returns follows e, fuel + 1, hfuel, _ => by
    have he := e.past.length_lt
    simp only [List.length_cons] at hfuel
    exact valueReturn_complete returns follows e (by omega)
  | .panic, fuel + 1, _, _ => reads_pure.mpr ⟨rfl, rfl⟩
  | .expr e, fuel + 1, hfuel, _ => by
    have he := e.past.length_lt
    simp only [List.length_cons] at hfuel he
    exact expr_complete e (by omega)

theorem conditional_complete {ts rest : Stream} {s : Statement} {ctx : Context} :
    (d : Conditional ctx ts s rest) → (fuel : Nat) → 2 * ts.length ≤ fuel + 1 + 2 * rest.length →
      NextIsNot (.keyword .elseWord) rest → Reads (conditional fuel ctx) ts s rest
  | d, 0, hfuel, _ => by
    have hlen := d.past.length_lt
    omega
  | .ifThen c b, fuel + 1, hfuel, hnext => by
    have hc := c.past.length_lt
    have hb := b.past.length_lt
    simp only [List.length_cons] at hfuel
    have hcond := expression_complete c fuel (by omega)
    have hyes := block_complete b fuel (by omega)
    rw [conditional]
    refine (reads_expect_bind _ Token.noConfusion).mpr ⟨_, _, rfl, ?_⟩
    refine reads_bind.mpr ⟨_, _, hcond, reads_bind.mpr ⟨_, _, hyes, ?_⟩⟩
    -- the only place where what follows a statement matters
    refine (reads_eat_bind _ Token.noConfusion).mpr (Or.inr ⟨?_, reads_pure.mpr ⟨rfl, rfl⟩⟩)
    exact firstToken_ne Token.noConfusion hnext
  | .ifElse c b b', fuel + 1, hfuel, _ => by
    have hc := c.past.length_lt
    have hb := b.past.length_lt
    have hb' := b'.past.length_lt
    simp only [List.length_cons] at hfuel hb
    have hcond := expression_complete c fuel (by omega)
    have hyes := block_complete b fuel (by simp only [List.length_cons]; omega)
    have hno := block_complete b' fuel (by omega)
    rw [conditional]
    refine (reads_expect_bind _ Token.noConfusion).mpr ⟨_, _, rfl, ?_⟩
    refine reads_bind.mpr ⟨_, _, hcond, reads_bind.mpr ⟨_, _, hyes, ?_⟩⟩
    refine (reads_eat_bind _ Token.noConfusion).mpr (Or.inl ⟨_, _, rfl, ?_⟩)
    simp only [if_true]
    rw [reads_peek_bind]
    cases b' with
    | mk ss => exact reads_bind.mpr ⟨_, _, hno, reads_pure.mpr ⟨rfl, rfl⟩⟩
  | .elseIf c b n, fuel + 1, hfuel, hnext => by
    have hc := c.past.length_lt
    have hb := b.past.length_lt
    have hn := n.past.length_lt
    simp only [List.length_cons] at hfuel hb
    have hcond := expression_complete c fuel (by omega)
    have hyes := block_complete b fuel (by simp only [List.length_cons]; omega)
    have hnested := conditional_complete n fuel (by omega) hnext
    rw [conditional]
    refine (reads_expect_bind _ Token.noConfusion).mpr ⟨_, _, rfl, ?_⟩
    refine reads_bind.mpr ⟨_, _, hcond, reads_bind.mpr ⟨_, _, hyes, ?_⟩⟩
    refine (reads_eat_bind _ Token.noConfusion).mpr (Or.inl ⟨_, _, rfl, ?_⟩)
    simp only [if_true]
    rw [reads_peek_bind]
    cases n <;> exact reads_bind.mpr ⟨_, _, hnested, reads_pure.mpr ⟨rfl, rfl⟩⟩

theorem block_complete {ts rest : Stream} {ss : List Statement} {ctx : Context} :
    (d : Block ctx ts ss rest) → (fuel : Nat) → 2 * ts.length ≤ fuel + 2 * rest.length →
      Reads (block fuel ctx) ts ss rest
  | d, 0, hfuel => by
    have hlen := d.past.length_lt
    omega
  | .mk ss, fuel + 1, hfuel => by
    have hss := statements_complete ss fuel (by simp only [List.length_cons] at hfuel; omega)
    rw [block]
    exact (reads_expect_bind _ Token.noConfusion).mpr ⟨_, _, rfl, hss⟩

theorem statements_complete {ts rest : Stream} {ss : List Statement} {ctx : Context} :
    (d : Stmts ctx ts ss rest) → (fuel : Nat) → 2 * ts.length ≤ fuel + 2 * rest.length →
      Reads (statements fuel ctx) ts ss rest
  | d, 0, hfuel => by
    have hlen := d.past.length_lt
    omega
  | .nil sep, fuel + 1, _ => by
    rw [statements]
    refine skipSeparators_complete sep (by simp [NextIsNot]) ?_
    exact (reads_eat_bind _ Token.noConfusion).mpr
      (Or.inl ⟨_, _, rfl, reads_pure.mpr ⟨rfl, rfl⟩⟩)
  | .cons sep first more, fuel + 1, hfuel => by
    have hsep := sep.takes.length_le
    have hfirst := first.past.length_lt
    have hmore := more.past.length_lt
    -- neither a statement nor a brace is an `else`
    have hs := statement_complete first fuel (by omega) more.noElse
    have hss := statements_complete more fuel (by omega)
    rw [statements]
    refine skipSeparators_complete sep first.starts.noSeparator ?_
    refine (reads_eat_bind _ Token.noConfusion).mpr (Or.inr
      ⟨firstToken_ne Token.noConfusion first.starts.noBrace, ?_⟩)
    exact reads_bind.mpr ⟨_, _, hs, reads_bind.mpr ⟨_, _, hss, reads_pure.mpr ⟨rfl, rfl⟩⟩⟩

end

/-! ## Section 6: Programs -/

theorem function_sound {fuel : Nat} {ts rest : Stream} {f : Function}
    (h : Reads (function fuel) ts f rest) : Nonempty (Fn ts f rest) := by
  unfold function at h
  obtain ⟨pos, _, rfl, h₁⟩ := (reads_expect_bind _ Token.noConfusion).mp h
  obtain ⟨name, us, hname, h₂⟩ := reads_bind.mp h₁
  obtain ⟨p₁, rfl⟩ := reads_ident.mp hname
  obtain ⟨ps, ts', hps, h₃⟩ := reads_bind.mp h₂
  have hparams : Nonempty (ParamList us ps ts') := by
    rcases (reads_eat_bind _ Token.noConfusion).mp hps with ⟨p₂, _, rfl, hps'⟩ | ⟨-, hps'⟩
    · exact (params_sound hps').elim (fun d => ⟨.present d⟩)
    · obtain ⟨rfl, rfl⟩ := reads_pure.mp hps'
      exact ⟨.absent⟩
  obtain ⟨ret, ts'', hret, h₄⟩ := reads_bind.mp h₃
  have hreturns : Nonempty (ReturnType ts' ret ts'') := by
    rcases (reads_eat_bind _ Token.noConfusion).mp hret with ⟨p₂, _, rfl, hret'⟩ | ⟨-, hret'⟩
    · obtain ⟨ty, _, hty, hty'⟩ := reads_bind.mp hret'
      obtain ⟨t⟩ := reads_type.mp hty
      obtain ⟨rfl, rfl⟩ := reads_pure.mp hty'
      exact ⟨.present t⟩
    · obtain ⟨rfl, rfl⟩ := reads_pure.mp hret'
      exact ⟨.absent⟩
  obtain ⟨body, _, hbody, h₅⟩ := reads_bind.mp h₄
  obtain ⟨b⟩ := (soundStatements fuel).block hbody
  obtain ⟨rfl, rfl⟩ := reads_pure.mp h₅
  obtain ⟨d⟩ := hparams
  obtain ⟨r⟩ := hreturns
  exact ⟨.mk d r b⟩

theorem paramList_complete (fuel : Nat) {ts rest : Stream} {ps : List Param}
    (d : ParamList ts ps rest) (hnext : NextIsNot (.sign .lparen) rest)
    (hfuel : ts.length ≤ fuel + rest.length) :
    Reads (do if ← eat (.sign .lparen) then params fuel else return []) ts ps rest := by
  rw [reads_eat_bind _ Token.noConfusion]
  cases d with
  | absent =>
    exact Or.inr ⟨firstToken_ne Token.noConfusion hnext, reads_pure.mpr ⟨rfl, rfl⟩⟩
  | present d =>
    simp only [List.length_cons] at hfuel
    exact Or.inl ⟨_, _, rfl, params_complete d (by omega)⟩

theorem returnType_complete {ts rest : Stream} {ret : Option Ty} {body : List Statement}
    {after : Stream} (d : ReturnType ts ret rest) (b : Block ctx rest body after) :
    Reads (do if ← eat (.sign .colon) then return some (← type) else return none) ts ret rest := by
  rw [reads_eat_bind _ Token.noConfusion]
  cases d with
  | absent =>
    refine Or.inr ⟨?_, reads_pure.mpr ⟨rfl, rfl⟩⟩
    cases b
    simp [firstToken_cons]
  | present t =>
    refine Or.inl ⟨_, _, rfl, ?_⟩
    exact reads_bind.mpr ⟨_, _, reads_type.mpr ⟨t⟩, reads_pure.mpr ⟨rfl, rfl⟩⟩

theorem function_complete {fuel : Nat} {ts rest : Stream} {f : Function} (d : Fn ts f rest)
    (hfuel : 2 * ts.length ≤ fuel + 2 * rest.length) : Reads (function fuel) ts f rest := by
  cases d with
  | mk ps r b =>
    have hps := ps.takes.length_le
    have hr := r.takes.length_le
    have hb := b.past.length_lt
    simp only [List.length_cons] at hfuel
    have hparams := paramList_complete fuel ps (r.noParen b) (by omega)
    have hbody := block_complete b fuel (by omega)
    unfold function
    refine (reads_expect_bind _ Token.noConfusion).mpr ⟨_, _, rfl, ?_⟩
    refine reads_bind.mpr ⟨_, _, reads_ident.mpr ⟨_, rfl⟩, reads_bind.mpr ⟨_, _, hparams, ?_⟩⟩
    refine reads_bind.mpr ⟨_, _, returnType_complete r b, reads_bind.mpr ⟨_, _, hbody, ?_⟩⟩
    exact reads_pure.mpr ⟨rfl, rfl⟩

theorem item_sound {fuel : Nat} {ts rest : Stream} {i : Item} (h : Reads (item fuel) ts i rest) :
    Nonempty (Entry ts i rest) := by
  unfold item at h
  rw [reads_peek_bind] at h
  split at h
  · obtain ⟨f, _, hf, h₁⟩ := reads_bind.mp h
    obtain ⟨d⟩ := function_sound hf
    obtain ⟨rfl, rfl⟩ := reads_pure.mp h₁
    exact ⟨.function d⟩
  · obtain ⟨decl, _, hdecl, h₁⟩ := reads_bind.mp h
    obtain ⟨d⟩ := reads_staticDecl.mp hdecl
    obtain ⟨rfl, rfl⟩ := reads_pure.mp h₁
    exact ⟨.static d⟩
  · obtain ⟨decl, _, hdecl, h₁⟩ := reads_bind.mp h
    obtain ⟨d⟩ := constDecl_sound hdecl
    obtain ⟨rfl, rfl⟩ := reads_pure.mp h₁
    exact ⟨.const d⟩
  · obtain ⟨s, _, hs, h₁⟩ := reads_bind.mp h
    obtain ⟨d⟩ := (soundStatements fuel).statement hs
    obtain ⟨rfl, rfl⟩ := reads_pure.mp h₁
    exact ⟨.statement d⟩

/-- A statement at the top level starts with no word that starts a declaration. -/
theorem item_eq_statement {ts rest : Stream} {s : Statement}
    (d : Stmt { inFunction := false, returns := none, inLoop := false } ts s rest) (fuel : Nat)
    {i : Item} {after : Stream} :
    Reads (item fuel) ts i after ↔
      Reads (do return .statement (← statement fuel .topLevel)) ts i after := by
  unfold item
  rw [reads_peek_bind]
  cases d with
  -- a static is a declaration here, and a statement only inside functions
  | static inside d => cases inside
  | cond c => cases c <;> exact Iff.rfl
  | expr e => cases e <;> exact Iff.rfl
  | _ => exact Iff.rfl

theorem item_complete {fuel : Nat} {ts rest : Stream} {i : Item} (d : Entry ts i rest)
    (hfuel : 2 * ts.length ≤ fuel + 2 * rest.length)
    (hnext : NextIsNot (.keyword .elseWord) rest) : Reads (item fuel) ts i rest := by
  have hlen := d.past.length_lt
  cases d with
  | function d =>
    have hf := function_complete d hfuel
    unfold item
    rw [reads_peek_bind]
    cases d
    exact reads_bind.mpr ⟨_, _, hf, reads_pure.mpr ⟨rfl, rfl⟩⟩
  | static d =>
    have hdecl := reads_staticDecl.mpr ⟨d⟩
    unfold item
    rw [reads_peek_bind]
    cases d
    exact reads_bind.mpr ⟨_, _, hdecl, reads_pure.mpr ⟨rfl, rfl⟩⟩
  | const d =>
    have hdecl := constDecl_complete fuel d (by omega)
    unfold item
    rw [reads_peek_bind]
    cases d
    exact reads_bind.mpr ⟨_, _, hdecl, reads_pure.mpr ⟨rfl, rfl⟩⟩
  | statement d =>
    have hs := statement_complete d fuel hfuel hnext
    exact (item_eq_statement d fuel).mpr (reads_bind.mpr ⟨_, _, hs, reads_pure.mpr ⟨rfl, rfl⟩⟩)

theorem items_sound {fuel : Nat} {ts rest : Stream} {is : List Item}
    (h : Reads (items fuel) ts is rest) (hend : ∃ t ∈ ts, t.item = .eof) :
    ∃ after, Nonempty (Entries ts is after) := by
  induction fuel generalizing ts is with
  | zero => exact absurd h not_reads_fail
  | succ fuel ih =>
    rw [items] at h
    obtain ⟨mid, ⟨sep⟩, h₁⟩ := skipSeparators_sound h
    have hmid := sep.takes.mem_eof hend
    rw [reads_peek_bind] at h₁
    split at h₁
    · next heof =>
      obtain ⟨rfl, rfl⟩ := reads_pure.mp h₁
      -- the parser also takes the end of the list for the end of the text
      cases mid with
      | nil =>
        obtain ⟨t, ht, -⟩ := hmid
        cases ht
      | cons t after =>
        obtain ⟨pos, t⟩ := t
        cases heof
        exact ⟨after, ⟨.nil sep⟩⟩
    · obtain ⟨i, _, hi, h₂⟩ := reads_bind.mp h₁
      obtain ⟨first⟩ := item_sound hi
      obtain ⟨more, _, hmore, h₃⟩ := reads_bind.mp h₂
      obtain ⟨rfl, rfl⟩ := reads_pure.mp h₃
      obtain ⟨after, ⟨d⟩⟩ := ih hmore (first.past.takes.mem_eof hmid)
      exact ⟨after, ⟨.cons sep first d⟩⟩

theorem items_complete {fuel : Nat} {ts after : Stream} {is : List Item} (d : Entries ts is after)
    (hfuel : 2 * ts.length ≤ fuel) : ∃ rest, Reads (items fuel) ts is rest := by
  induction d generalizing fuel with
  | @nil pos ts after sep =>
    have hlen := sep.takes.length_le
    rw [List.length_cons] at hlen
    obtain ⟨fuel, rfl⟩ := Nat.exists_eq_add_one_of_ne_zero (show fuel ≠ 0 by omega)
    refine ⟨⟨pos, .eof⟩ :: after, ?_⟩
    rw [items]
    exact skipSeparators_complete sep (by simp [NextIsNot]) (reads_pure.mpr ⟨rfl, rfl⟩)
  | @cons i is ts ts' ts'' after sep first more ih =>
    have hsep := sep.takes.length_le
    have hfirst := first.past.length_lt
    obtain ⟨fuel, rfl⟩ := Nat.exists_eq_add_one_of_ne_zero (show fuel ≠ 0 by omega)
    -- the items that follow leave at least the end of the text
    obtain ⟨pos, hmore⟩ := more.takes
    have hlen := hmore.length_le
    rw [List.length_cons] at hlen
    obtain ⟨rest, hrest⟩ := @ih fuel (by omega)
    have hi : Reads (item fuel) ts' i ts'' := item_complete first (by omega) more.noElse
    refine ⟨rest, ?_⟩
    rw [items]
    refine skipSeparators_complete sep first.starts.noSeparator ?_
    rw [reads_peek_bind, if_neg first.starts.firstToken_ne_eof]
    exact reads_bind.mpr ⟨i, _, hi, reads_bind.mpr ⟨is, _, hrest, reads_pure.mpr ⟨rfl, rfl⟩⟩⟩

end Parser

namespace Program

/-- The parser is given the tokens and enough fuel for them. -/
theorem ofTokens_eq_ok {ts : Stream} {p : Program} :
    ofTokens ts = .ok p ↔
      ∃ rest, Parser.Reads (Parser.items (4 * ts.length + 8)) (closeTokens ts) p.items rest := by
  unfold ofTokens Parser.Reads StateT.run'
  cases hx : Parser.items (4 * ts.length + 8) (closeTokens ts) with
  | error e =>
    constructor
    · intro h
      cases h
    · rintro ⟨rest, h⟩
      cases h
  | ok r =>
    constructor
    · intro h
      cases h
      exact ⟨r.2, rfl⟩
    · rintro ⟨rest, h⟩
      cases h
      rfl

/-- Tokens that end with the end of the text are taken as they are. -/
theorem closeTokens_of_eof (init : Stream) (pos : Position) :
    closeTokens (init ++ [⟨pos, .eof⟩]) = init ++ [⟨pos, .eof⟩] := by
  unfold closeTokens
  rw [List.getLast?_concat]
  exact if_pos rfl

theorem derivation_of_ofTokens {init : Stream} {pos : Position} {p : Program}
    (h : ofTokens (init ++ [⟨pos, .eof⟩]) = .ok p) :
    Nonempty (Derivation (init ++ [⟨pos, .eof⟩]) p) := by
  obtain ⟨rest, hitems⟩ := ofTokens_eq_ok.mp h
  rw [closeTokens_of_eof] at hitems
  have hend : ∃ t ∈ init ++ [⟨pos, Token.eof⟩], t.item = .eof := ⟨⟨pos, .eof⟩, by simp, rfl⟩
  obtain ⟨after, ⟨entries⟩⟩ := Parser.items_sound hitems hend
  exact ⟨⟨after, entries⟩⟩

theorem ofTokens_of_derivation {init : Stream} {pos : Position} {p : Program}
    (d : Derivation (init ++ [⟨pos, .eof⟩]) p) :
    ofTokens (init ++ [⟨pos, .eof⟩]) = .ok p := by
  rw [ofTokens_eq_ok, closeTokens_of_eof]
  exact Parser.items_complete d.entries (by omega)

/-- Where the end of the text comes only once, a derivation reaches up to it. -/
theorem Derivation.after_eq_nil {init : Stream} {pos : Position} {p : Program}
    (d : Derivation (init ++ [⟨pos, .eof⟩]) p) (hinit : ∀ t ∈ init, t.item ≠ .eof) :
    d.after = [] := by
  obtain ⟨pos', taken, heq, -⟩ := d.entries.takes
  -- the end of the text in front of `after` can only be the last token
  rcases List.append_eq_append_iff.mp heq with ⟨mid, htaken, hend⟩ | ⟨mid, hmid, hend⟩
  · cases mid with
    | nil => exact (List.cons.inj hend).2.symm
    | cons t mid =>
      have hlen := congrArg List.length hend
      simp at hlen
  · cases mid with
    | nil => exact (List.cons.inj hend).2
    | cons t mid =>
      obtain ⟨rfl, -⟩ := List.cons.inj hend
      have hmem : ⟨pos', Token.eof⟩ ∈ init := by
        rw [hmid]
        simp
      exact absurd rfl (hinit _ hmem)

/-- The parser accepts exactly the grammar.  Tokens that end with the end of the text give a program
    just if there is a derivation of it, and there is no other derivation, of this program or of
    another one.  Where the end of the text comes only once, as in the tokens of a text, derivations
    take all tokens. -/
theorem ofTokens_iff_derivation (init : Stream) (pos : Position) :
    (∀ p, ofTokens (init ++ [⟨pos, .eof⟩]) = .ok p ↔
      Nonempty (Derivation (init ++ [⟨pos, .eof⟩]) p)) ∧
    Subsingleton (Σ p, Derivation (init ++ [⟨pos, .eof⟩]) p) ∧
    ((∀ t ∈ init, t.item ≠ .eof) →
      ∀ p (d : Derivation (init ++ [⟨pos, .eof⟩]) p), d.after = []) ∧
    (∀ source ts, tokenize source = .ok ts →
      ∃ init pos, ts = init ++ [⟨pos, .eof⟩] ∧ ∀ t ∈ init, t.item ≠ .eof) := by
  refine ⟨fun p => ⟨derivation_of_ofTokens, fun ⟨d⟩ => ofTokens_of_derivation d⟩, ⟨?_⟩,
    fun hinit p d => d.after_eq_nil hinit, fun source ts h => ?_⟩
  · rintro ⟨p, d⟩ ⟨p', d'⟩
    have hsame : p = p' := by
      have hp := ofTokens_of_derivation d
      have hp' := ofTokens_of_derivation d'
      rw [hp] at hp'
      exact Except.ok.inj hp'
    subst hsame
    rw [d.unique d']
  · obtain ⟨init, pos, rfl, hinit⟩ := closed_tokenize h
    refine ⟨init, pos, rfl, fun t ht heof => ?_⟩
    have hlex := hinit t ht
    rw [heof] at hlex
    exact hlex

/-- The tokens of an `if` with another one right after its `else`. -/
def elseIfTokens : Stream :=
  [⟨⟨1, 1⟩, .keyword .ifWord⟩, ⟨⟨1, 4⟩, .ident "x"⟩, ⟨⟨1, 6⟩, .sign .lbrace⟩,
   ⟨⟨1, 7⟩, .sign .rbrace⟩, ⟨⟨1, 9⟩, .keyword .elseWord⟩, ⟨⟨1, 14⟩, .keyword .ifWord⟩,
   ⟨⟨1, 17⟩, .ident "y"⟩, ⟨⟨1, 19⟩, .sign .lbrace⟩, ⟨⟨1, 20⟩, .sign .panic⟩,
   ⟨⟨1, 22⟩, .sign .rbrace⟩]

/-- The second `if` is all that the `else` block of the first one holds. -/
def elseIf : Program :=
  ⟨[.statement (.ifElse ⟨1, 1⟩ (.ident ⟨1, 4⟩ "x") []
    [.ifThen ⟨1, 14⟩ (.ident ⟨1, 17⟩ "y") [.panic ⟨1, 20⟩]])]⟩

/-- This program and no other one has a derivation, which takes all tokens; a `break` outside of
    loops has none. -/
theorem ofTokens_iff_derivation_elseIf :
    ofTokens (elseIfTokens ++ [⟨⟨2, 1⟩, .eof⟩]) = .ok elseIf ∧
    (∃ d : Derivation (elseIfTokens ++ [⟨⟨2, 1⟩, .eof⟩]) elseIf, d.after = []) ∧
    (∀ p, Derivation (elseIfTokens ++ [⟨⟨2, 1⟩, .eof⟩]) p → p = elseIf) ∧
    ∀ p, ¬ Nonempty (Derivation ([⟨⟨1, 1⟩, .keyword .breakWord⟩] ++ [⟨⟨2, 1⟩, .eof⟩]) p) := by
  obtain ⟨haccepts, hunique, htakesAll, -⟩ := ofTokens_iff_derivation elseIfTokens ⟨2, 1⟩
  obtain ⟨hbreak, -⟩ := ofTokens_iff_derivation [⟨⟨1, 1⟩, .keyword .breakWord⟩] ⟨2, 1⟩
  have hparses : ofTokens (elseIfTokens ++ [⟨⟨2, 1⟩, .eof⟩]) = .ok elseIf := rfl
  have hinner : ∀ t ∈ elseIfTokens, t.item ≠ .eof := by decide
  obtain ⟨d⟩ := (haccepts elseIf).mp hparses
  refine ⟨hparses, ⟨d, htakesAll hinner _ d⟩, fun p d' => ?_, fun p hd => ?_⟩
  · exact congrArg Sigma.fst (hunique.elim ⟨p, d'⟩ ⟨elseIf, d⟩)
  · cases (hbreak p).mpr hd

end Program

end WordLang
