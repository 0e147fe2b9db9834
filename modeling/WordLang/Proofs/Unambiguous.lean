import WordLang.Proofs.Grammar

/-! # The grammar is unambiguous

    Two derivations that take the same tokens and give the same tree are
    equal, and so is what they leave.  Parts that may be left out make this
    false for small pieces: a comma, a semicolon or a parameter list can be
    there without being taken.  It is what follows that decides, so it is
    looked at together with the piece.

    The tree is part of the statement on purpose.  An `if` can be read with
    or without its `else`; the two readings have different trees. -/

namespace WordLang

namespace Grammar

/-! ## Section 1: How pieces start -/

/-- The next token is not this one. -/
def NextIsNot (token : Token) : Stream → Prop
  | [] => True
  | t :: _ => t.item ≠ token

/-- How a statement or an item starts: not with a semicolon, not with `else`, and not with the end
    of the text. -/
def Starts (ts : Stream) : Prop :=
  ∃ t rest, ts = t :: rest ∧ t.item ≠ .sign .semicolon ∧ t.item ≠ .keyword .elseWord ∧
    t.item ≠ .sign .rbrace ∧ t.item ≠ .eof

theorem Starts.mk {pos : Position} {t : Token} {ts : Stream} (h₁ : t ≠ .sign .semicolon)
    (h₂ : t ≠ .keyword .elseWord) (h₃ : t ≠ .sign .rbrace) (h₄ : t ≠ .eof) :
    Starts (⟨pos, t⟩ :: ts) :=
  ⟨_, _, rfl, h₁, h₂, h₃, h₄⟩

theorem Starts.noSeparator {ts : Stream} (h : Starts ts) : NextIsNot (.sign .semicolon) ts := by
  obtain ⟨t, rest, rfl, h, -⟩ := h
  exact h

theorem Starts.noElse {ts : Stream} (h : Starts ts) : NextIsNot (.keyword .elseWord) ts := by
  obtain ⟨t, rest, rfl, -, h, -⟩ := h
  exact h

theorem Starts.noBrace {ts : Stream} (h : Starts ts) : NextIsNot (.sign .rbrace) ts := by
  obtain ⟨t, rest, rfl, -, -, h, -⟩ := h
  exact h

theorem Starts.firstToken_ne_eof {ts : Stream} (h : Starts ts) :
    (Parser.firstToken ts).item ≠ .eof := by
  obtain ⟨t, rest, rfl, -, -, -, h⟩ := h
  exact h

theorem Expression.starts {ts rest : Stream} {e : Expr} (d : Expression ts e rest) :
    Starts ts := by
  cases d <;> exact .mk (by simp) (by simp) (by simp) (by simp)

theorem Static.starts {ts rest : Stream} {decl : StaticDecl} (d : Static ts decl rest) :
    Starts ts := by
  cases d
  exact .mk (by simp) (by simp) (by simp) (by simp)

theorem Conditional.starts {ctx : Parser.Context} {ts rest : Stream} {s : Statement}
    (d : Conditional ctx ts s rest) : Starts ts := by
  cases d <;> exact .mk (by simp) (by simp) (by simp) (by simp)

theorem Stmt.starts {ctx : Parser.Context} {ts rest : Stream} {s : Statement}
    (d : Stmt ctx ts s rest) : Starts ts := by
  cases d with
  | static inside d => exact d.starts
  | cond c => exact c.starts
  | expr e => exact e.starts
  | _ => exact .mk (by simp) (by simp) (by simp) (by simp)

theorem Entry.starts {ts rest : Stream} {i : Item} (d : Entry ts i rest) : Starts ts := by
  cases d with
  | function d => cases d; exact .mk (by simp) (by simp) (by simp) (by simp)
  | static d => exact d.starts
  | const d => cases d; exact .mk (by simp) (by simp) (by simp) (by simp)
  | statement d => exact d.starts

/-- Semicolons do not start with `else`, so what follows them decides. -/
theorem Separators.noElse {ts rest : Stream} (d : Separators ts rest)
    (h : NextIsNot (.keyword .elseWord) rest) : NextIsNot (.keyword .elseWord) ts := by
  cases d with
  | none => exact h
  | more ss =>
    show Token.sign Sign.semicolon ≠ .keyword .elseWord
    exact Token.noConfusion

theorem Stmts.noElse {ctx : Parser.Context} {ts rest : Stream} {ss : List Statement}
    (d : Stmts ctx ts ss rest) : NextIsNot (.keyword .elseWord) ts := by
  cases d with
  | nil sep =>
    refine sep.noElse ?_
    show Token.sign Sign.rbrace ≠ .keyword .elseWord
    exact Token.noConfusion
  | cons sep first more => exact sep.noElse first.starts.noElse

theorem Entries.noElse {ts after : Stream} {is : List Item} (d : Entries ts is after) :
    NextIsNot (.keyword .elseWord) ts := by
  cases d with
  | nil sep =>
    refine sep.noElse ?_
    show Token.eof ≠ .keyword .elseWord
    exact Token.noConfusion
  | cons sep first more => exact sep.noElse first.starts.noElse

theorem Elements.noComma {ts rest : Stream} {ns : List Nat} (d : Elements ts ns rest) :
    NextIsNot (.sign .comma) ts := by
  cases d with
  | nil => show Token.sign Sign.rbracket ≠ .sign .comma; decide
  | cons c more => show Token.number _ ≠ .sign .comma; exact Token.noConfusion

theorem Params.noComma {ts rest : Stream} {ps : List Param} (d : Params ts ps rest) :
    NextIsNot (.sign .comma) ts := by
  cases d with
  | nil => show Token.sign Sign.rparen ≠ .sign .comma; decide
  | cons t c more => show Token.ident _ ≠ .sign .comma; exact Token.noConfusion

/-! ## Section 2: Types and declarations -/

/-- Semicolons before something that is none. -/
theorem Separators.unique {ts rest rest' : Stream} (d : Separators ts rest)
    (d' : Separators ts rest') (h : NextIsNot (.sign .semicolon) rest)
    (h' : NextIsNot (.sign .semicolon) rest') :
    (⟨rest, d⟩ : Σ r, Separators ts r) = ⟨rest', d'⟩ := by
  induction d with
  | none =>
    cases d' with
    | none => rfl
    | more ss => exact absurd rfl h
  | more ss ih =>
    cases d' with
    | none => exact absurd rfl h'
    | more ss' =>
      have heq := ih ss' h
      cases heq
      rfl

/-- A comma before something that is none. -/
theorem Comma.unique {ts rest rest' : Stream} (d : Comma ts rest) (d' : Comma ts rest')
    (h : NextIsNot (.sign .comma) rest) (h' : NextIsNot (.sign .comma) rest') :
    (⟨rest, d⟩ : Σ r, Comma ts r) = ⟨rest', d'⟩ := by
  cases d with
  | absent =>
    cases d' with
    | absent => rfl
    | present => exact absurd rfl h
  | present =>
    cases d' with
    | absent => exact absurd rfl h'
    | present => rfl

theorem WordType.unique {ts rest rest' : Stream} {w w' : Width} (d : WordType ts w rest)
    (d' : WordType ts w' rest') : (⟨w, rest, d⟩ : Σ w r, WordType ts w r) = ⟨w', rest', d'⟩ := by
  cases d with
  | word h =>
    cases d' with
    | word h' =>
      obtain ⟨bits, _, _⟩ := w
      obtain ⟨bits', _, _⟩ := w'
      cases h
      cases h'
      rfl

theorem TypeName.unique {ts rest rest' : Stream} {ty : Ty} (d : TypeName ts ty rest)
    (d' : TypeName ts ty rest') : (⟨rest, d⟩ : Σ r, TypeName ts ty r) = ⟨rest', d'⟩ := by
  cases d with
  | word t =>
    cases d' with
    | word t' =>
      have heq := t.unique t'
      cases heq
      rfl
  | array t =>
    cases d' with
    | array t' =>
      have heq := t.unique t'
      cases heq
      rfl

theorem Static.unique {ts rest rest' : Stream} {decl : StaticDecl} (d : Static ts decl rest)
    (d' : Static ts decl rest') : (⟨rest, d⟩ : Σ r, Static ts decl r) = ⟨rest', d'⟩ := by
  cases d with
  | mk t =>
    cases d' with
    | mk t' =>
      have heq := t.unique t'
      cases heq
      rfl

theorem Elements.unique {ts rest rest' : Stream} {ns : List Nat} (d : Elements ts ns rest)
    (d' : Elements ts ns rest') : (⟨rest, d⟩ : Σ r, Elements ts ns r) = ⟨rest', d'⟩ := by
  induction d with
  | nil =>
    cases d' with
    | nil => rfl
  | cons c more ih =>
    cases d' with
    | cons c' more' =>
      have hcomma := c.unique c' more.noComma more'.noComma
      cases hcomma
      have heq := ih more'
      cases heq
      rfl

theorem Const.unique {ts rest rest' : Stream} {decl : ConstDecl} (d : Const ts decl rest)
    (d' : Const ts decl rest') : (⟨rest, d⟩ : Σ r, Const ts decl r) = ⟨rest', d'⟩ := by
  cases d with
  | mk t es =>
    cases d' with
    | mk t' es' =>
      have htype := t.unique t'
      cases htype
      have heq := es.unique es'
      cases heq
      rfl

/-! ## Section 3: Expressions -/

mutual

theorem Expression.unique {ts rest rest' : Stream} {e : Expr} (d : Expression ts e rest)
    (d' : Expression ts e rest') : (⟨rest, d⟩ : Σ r, Expression ts e r) = ⟨rest', d'⟩ := by
  match d, d' with
  | .literal, .literal => rfl
  | .ident, .ident => rfl
  | .index e, .index e' =>
    have heq := e.unique e'
    cases heq
    rfl
  | .binary l r, .binary l' r' =>
    have hleft := l.unique l'
    cases hleft
    have hright := r.unique r'
    cases hright
    rfl
  | .call as, .call as' =>
    have heq := as.unique as'
    cases heq
    rfl

theorem Arguments.unique {ts rest rest' : Stream} {es : List Expr} (d : Arguments ts es rest)
    (d' : Arguments ts es rest') : (⟨rest, d⟩ : Σ r, Arguments ts es r) = ⟨rest', d'⟩ := by
  match d, d' with
  | .nil, .nil => rfl
  | .cons first more, .cons first' more' =>
    have hfirst := first.unique first'
    cases hfirst
    have hmore := more.unique more'
    cases hmore
    rfl

end

theorem Target.unique {ts rest rest' : Stream} {place : Place} (d : Target ts place rest)
    (d' : Target ts place rest') : (⟨rest, d⟩ : Σ r, Target ts place r) = ⟨rest', d'⟩ := by
  cases d with
  | var =>
    cases d' with
    | var => rfl
  | elem e =>
    cases d' with
    | elem e' =>
      have heq := e.unique e'
      cases heq
      rfl

/-! ## Section 4: Statements -/

mutual

theorem Stmt.unique {ctx : Parser.Context} {ts rest rest' : Stream} {s : Statement} :
    (d : Stmt ctx ts s rest) → (d' : Stmt ctx ts s rest') →
      (⟨rest, d⟩ : Σ r, Stmt ctx ts s r) = ⟨rest', d'⟩
  | .letVar t e, d' => by
    cases d' with
    | letVar t' e' =>
      have htype := t.unique t'
      cases htype
      have hvalue := e.unique e'
      cases hvalue
      rfl
    | cond c => cases c
  | .static _ decl, d' => by
    cases d' with
    | static _ decl' =>
      have heq := decl.unique decl'
      cases heq
      rfl
    | cond c => cases c
  | .assign target e, d' => by
    cases d' with
    | assign target' e' =>
      have htarget := target.unique target'
      cases htarget
      have hvalue := e.unique e'
      cases hvalue
      rfl
    | cond c => cases c
  | .cond c, d' => by
    cases d' with
    | cond c' =>
      have heq := c.unique c'
      cases heq
      rfl
    | _ => cases c
  | .forRange t low high b, d' => by
    cases d' with
    | forRange t' low' high' b' =>
      -- each part ends where it has to, so the next part starts at the same token
      have htype := t.unique t'
      cases htype
      have hlow := low.unique low'
      cases hlow
      have hhigh := high.unique high'
      cases hhigh
      have hbody := b.unique b'
      cases hbody
      rfl
    | cond c => cases c
  | .loop b, d' => by
    cases d' with
    | loop b' =>
      have heq := b.unique b'
      cases heq
      rfl
    | cond c => cases c
  | .breakLoop _, d' => by
    cases d' with
    | breakLoop _ => rfl
    | cond c => cases c
  | .continueLoop _, d' => by
    cases d' with
    | continueLoop _ => rfl
    | cond c => cases c
  | .bareReturn _ _, d' => by
    cases d' with
    | bareReturn _ _ => rfl
    | cond c => cases c
  | .valueReturn _ _ e, d' => by
    cases d' with
    | valueReturn _ _ e' =>
      have heq := e.unique e'
      cases heq
      rfl
    | cond c => cases c
  | .panic, d' => by
    cases d' with
    | panic => rfl
    | cond c => cases c
  | .expr e, d' => by
    cases d' with
    | expr e' =>
      have heq := e.unique e'
      cases heq
      rfl
    | cond c => cases c
termination_by structural d => d

theorem Conditional.unique {ctx : Parser.Context} {ts rest rest' : Stream} {s : Statement} :
    (d : Conditional ctx ts s rest) → (d' : Conditional ctx ts s rest') →
      (⟨rest, d⟩ : Σ r, Conditional ctx ts s r) = ⟨rest', d'⟩
  | .ifThen c b, d' => by
    cases d' with
    | ifThen c' b' =>
      have hcond := c.unique c'
      cases hcond
      have hyes := b.unique b'
      cases hyes
      rfl
  | .ifElse c b no, d' => by
    cases d' with
    | ifElse c' b' no' =>
      have hcond := c.unique c'
      cases hcond
      have hyes := b.unique b'
      cases hyes
      have hno := no.unique no'
      cases hno
      rfl
    | elseIf c' b' n' =>
      have hcond := c.unique c'
      cases hcond
      have hyes := b.unique b'
      cases hyes
      -- a brace cannot be an `if`
      cases no with
      | mk ss => cases n'
  | .elseIf c b n, d' => by
    cases d' with
    | ifElse c' b' no' =>
      have hcond := c.unique c'
      cases hcond
      have hyes := b.unique b'
      cases hyes
      cases no' with
      | mk ss => cases n
    | elseIf c' b' n' =>
      have hcond := c.unique c'
      cases hcond
      have hyes := b.unique b'
      cases hyes
      have hnested := n.unique n'
      cases hnested
      rfl
termination_by structural d => d

theorem Block.unique {ctx : Parser.Context} {ts rest rest' : Stream} {body : List Statement}
    (d : Block ctx ts body rest) (d' : Block ctx ts body rest') :
    (⟨rest, d⟩ : Σ r, Block ctx ts body r) = ⟨rest', d'⟩ := by
  match d, d' with
  | .mk ss, .mk ss' =>
    have heq := ss.unique ss'
    cases heq
    rfl
termination_by structural d

theorem Stmts.unique {ctx : Parser.Context} {ts rest rest' : Stream} {ss : List Statement}
    (d : Stmts ctx ts ss rest) (d' : Stmts ctx ts ss rest') :
    (⟨rest, d⟩ : Σ r, Stmts ctx ts ss r) = ⟨rest', d'⟩ := by
  match d, d' with
  | .nil sep, .nil sep' =>
    have hsep := sep.unique sep' (by simp [NextIsNot]) (by simp [NextIsNot])
    cases hsep
    rfl
  | .cons sep first more, .cons sep' first' more' =>
    -- a statement starts with no semicolon, so both take all of them
    have hsep := sep.unique sep' first.starts.noSeparator first'.starts.noSeparator
    cases hsep
    have hfirst := first.unique first'
    cases hfirst
    have hmore := more.unique more'
    cases hmore
    rfl
termination_by structural d

end

/-! ## Section 5: Programs -/

theorem Params.unique {ts rest rest' : Stream} {ps : List Param} (d : Params ts ps rest)
    (d' : Params ts ps rest') : (⟨rest, d⟩ : Σ r, Params ts ps r) = ⟨rest', d'⟩ := by
  induction d with
  | nil =>
    cases d' with
    | nil => rfl
  | cons t c more ih =>
    cases d' with
    | cons t' c' more' =>
      have htype := t.unique t'
      cases htype
      have hcomma := c.unique c' more.noComma more'.noComma
      cases hcomma
      have heq := ih more'
      cases heq
      rfl

/-- A list of parameters before something that is none. -/
theorem ParamList.unique {ts rest rest' : Stream} {ps : List Param} (d : ParamList ts ps rest)
    (d' : ParamList ts ps rest') (h : NextIsNot (.sign .lparen) rest)
    (h' : NextIsNot (.sign .lparen) rest') :
    (⟨rest, d⟩ : Σ r, ParamList ts ps r) = ⟨rest', d'⟩ := by
  cases d with
  | absent =>
    cases d' with
    | absent => rfl
    | present ps' => exact absurd rfl h
  | present ps =>
    cases d' with
    | absent => exact absurd rfl h'
    | present ps' =>
      have heq := ps.unique ps'
      cases heq
      rfl

theorem ReturnType.unique {ts rest rest' : Stream} {ret : Option Ty} (d : ReturnType ts ret rest)
    (d' : ReturnType ts ret rest') : (⟨rest, d⟩ : Σ r, ReturnType ts ret r) = ⟨rest', d'⟩ := by
  cases d with
  | absent =>
    cases d' with
    | absent => rfl
  | present t =>
    cases d' with
    | present t' =>
      have heq := t.unique t'
      cases heq
      rfl

/-- Between the parameters and the body there is a colon or a brace. -/
theorem ReturnType.noParen {ctx : Parser.Context} {ts ts' rest : Stream} {ret : Option Ty}
    {body : List Statement} (r : ReturnType ts ret ts') (b : Block ctx ts' body rest) :
    NextIsNot (.sign .lparen) ts := by
  cases r with
  | absent =>
    cases b
    show Token.sign Sign.lbrace ≠ .sign .lparen
    decide
  | present t =>
    show Token.sign Sign.colon ≠ .sign .lparen
    decide

theorem Fn.unique {ts rest rest' : Stream} {f : Function} (d : Fn ts f rest)
    (d' : Fn ts f rest') : (⟨rest, d⟩ : Σ r, Fn ts f r) = ⟨rest', d'⟩ := by
  cases d with
  | mk ps r b =>
    cases d' with
    | mk ps' r' b' =>
      have hparams := ps.unique ps' (r.noParen b) (r'.noParen b')
      cases hparams
      have hret := r.unique r'
      cases hret
      have hbody := b.unique b'
      cases hbody
      rfl

theorem Entry.unique {ts rest rest' : Stream} {i : Item} (d : Entry ts i rest)
    (d' : Entry ts i rest') : (⟨rest, d⟩ : Σ r, Entry ts i r) = ⟨rest', d'⟩ := by
  cases d with
  | function f =>
    cases d' with
    | function f' =>
      have heq := f.unique f'
      cases heq
      rfl
  | static decl =>
    cases d' with
    | static decl' =>
      have heq := decl.unique decl'
      cases heq
      rfl
  | const decl =>
    cases d' with
    | const decl' =>
      have heq := decl.unique decl'
      cases heq
      rfl
  | statement s =>
    cases d' with
    | statement s' =>
      have heq := s.unique s'
      cases heq
      rfl

theorem Entries.unique {ts after after' : Stream} {is : List Item} (d : Entries ts is after)
    (d' : Entries ts is after') : (⟨after, d⟩ : Σ r, Entries ts is r) = ⟨after', d'⟩ := by
  induction d with
  | nil sep =>
    cases d' with
    | nil sep' =>
      have hsep := sep.unique sep' (by simp [NextIsNot]) (by simp [NextIsNot])
      cases hsep
      rfl
  | cons sep first more ih =>
    cases d' with
    | cons sep' first' more' =>
      have hsep := sep.unique sep' first.starts.noSeparator first'.starts.noSeparator
      cases hsep
      have hfirst := first.unique first'
      cases hfirst
      have hmore := ih more'
      cases hmore
      rfl

end Grammar

/-- From given tokens, a program has at most one derivation. -/
theorem Program.Derivation.unique {ts : Grammar.Stream} {p : Program} (d d' : Derivation ts p) :
    d = d' := by
  obtain ⟨after, entries⟩ := d
  obtain ⟨after', entries'⟩ := d'
  have heq := entries.unique entries'
  cases heq
  rfl

end WordLang
