import WordLang.Program.Parser

/-! # The grammar of programs

    The grammar as it is written down for people: which sequences of tokens
    form a type, an expression, a statement, a program, and with which tree.
    A derivation of `ts`, `tree`, `rest` takes tokens from the front of `ts`
    and leaves `rest`; the places in the tree are those of its first tokens.

    There are no priorities and no decisions in it.  That a sequence of
    tokens has at most one derivation, and that the parser finds it, is a
    theorem and not a matter of definition.

    Two rules look at what they do not take: a `return` has a value just if
    the next token is on its line and can start one, and this has to agree
    with whether the function has a return type. -/

namespace WordLang

namespace Grammar

/-- Tokens, each with its place. -/
abbrev Stream := List (Located Token)

/-! ## Section 1: Types and declarations -/

/-- Any number of semicolons. -/
inductive Separators : Stream → Stream → Type where
  | none {ts : Stream} : Separators ts ts
  | more {pos : Position} {ts rest : Stream} (ss : Separators ts rest) :
      Separators (⟨pos, .sign .semicolon⟩ :: ts) rest

/-- A comma that may be left out. -/
inductive Comma : Stream → Stream → Type where
  | absent {ts : Stream} : Comma ts ts
  | present {pos : Position} {ts : Stream} : Comma (⟨pos, .sign .comma⟩ :: ts) ts

/-- The name of a word type, which has from 1 to 64 bits. -/
inductive WordType : Stream → Width → Stream → Type where
  | word {pos : Position} {bits : Nat} {w : Width} {ts : Stream} (h : w.bits = bits) :
      WordType (⟨pos, .uint bits⟩ :: ts) w ts

/-- A type. -/
inductive TypeName : Stream → Ty → Stream → Type where
  | word {w : Width} {ts rest : Stream} (t : WordType ts w rest) : TypeName ts (.uint w) rest
  | array {p₁ p₂ p₃ : Position} {w : Width} {len : Nat} {ts rest : Stream}
      (t : WordType ts w (⟨p₂, .number len⟩ :: ⟨p₃, .sign .rbracket⟩ :: rest)) :
      TypeName (⟨p₁, .sign .lbracket⟩ :: ts) (.array w len) rest

/-- A static. -/
inductive Static : Stream → StaticDecl → Stream → Type where
  | mk {pos p₁ p₂ : Position} {name : String} {ty : Ty} {ts rest : Stream}
      (t : TypeName ts ty rest) :
      Static (⟨pos, .keyword .staticWord⟩ :: ⟨p₁, .ident name⟩ :: ⟨p₂, .sign .colon⟩ :: ts)
        ⟨name, ty, pos⟩ rest

/-- The numbers of a table and the bracket after them. -/
inductive Elements : Stream → List Nat → Stream → Type where
  | nil {pos : Position} {rest : Stream} : Elements (⟨pos, .sign .rbracket⟩ :: rest) [] rest
  | cons {pos : Position} {n : Nat} {ns : List Nat} {ts ts' rest : Stream} (c : Comma ts ts')
      (more : Elements ts' ns rest) : Elements (⟨pos, .number n⟩ :: ts) (n :: ns) rest

/-- A constant table. -/
inductive Const : Stream → ConstDecl → Stream → Type where
  | mk {pos p₁ p₂ p₃ p₄ : Position} {name : String} {ty : Ty} {values : List Nat}
      {ts ts' rest : Stream}
      (t : TypeName ts ty (⟨p₃, .assign .set⟩ :: ⟨p₄, .sign .lbracket⟩ :: ts'))
      (es : Elements ts' values rest) :
      Const (⟨pos, .keyword .constWord⟩ :: ⟨p₁, .ident name⟩ :: ⟨p₂, .sign .colon⟩ :: ts)
        ⟨name, ty, values, pos⟩ rest

/-! ## Section 2: Expressions -/

mutual

/-- An expression. -/
inductive Expression : Stream → Expr → Stream → Type where
  | literal {pos : Position} {n : Nat} {rest : Stream} :
      Expression (⟨pos, .number n⟩ :: rest) (.literal pos n) rest
  | ident {pos : Position} {name : String} {rest : Stream} :
      Expression (⟨pos, .ident name⟩ :: rest) (.ident pos name) rest
  | index {pos p₁ p₂ : Position} {offset : Expr} {array : String} {ts rest : Stream}
      (e : Expression ts offset (⟨p₁, .sign .rbracket⟩ :: ⟨p₂, .ident array⟩ :: rest)) :
      Expression (⟨pos, .sign .lbracket⟩ :: ts) (.index pos offset array) rest
  /-- Every operator has two operands. -/
  | binary {pos p₁ p₂ : Position} {op : BinOp} {left right : Expr} {ts ts' rest : Stream}
      (l : Expression ts left ts') (r : Expression ts' right (⟨p₂, .sign .rparen⟩ :: rest)) :
      Expression (⟨pos, .sign .lparen⟩ :: ⟨p₁, .op op⟩ :: ts) (.binary pos op left right) rest
  | call {pos p₁ : Position} {function : String} {args : List Expr} {ts rest : Stream}
      (as : Arguments ts args rest) :
      Expression (⟨pos, .sign .lparen⟩ :: ⟨p₁, .ident function⟩ :: ts) (.call pos function args)
        rest

/-- Expressions and the parenthesis after them. -/
inductive Arguments : Stream → List Expr → Stream → Type where
  | nil {pos : Position} {rest : Stream} : Arguments (⟨pos, .sign .rparen⟩ :: rest) [] rest
  | cons {e : Expr} {es : List Expr} {ts ts' rest : Stream} (first : Expression ts e ts')
      (more : Arguments ts' es rest) : Arguments ts (e :: es) rest

end

/-- What an assignment changes. -/
inductive Target : Stream → Place → Stream → Type where
  | var {pos : Position} {name : String} {rest : Stream} :
      Target (⟨pos, .ident name⟩ :: rest) (.var name) rest
  | elem {pos p₁ p₂ : Position} {offset : Expr} {array : String} {ts rest : Stream}
      (e : Expression ts offset (⟨p₁, .sign .rbracket⟩ :: ⟨p₂, .ident array⟩ :: rest)) :
      Target (⟨pos, .sign .lbracket⟩ :: ts) (.elem offset array) rest

/-! ## Section 3: Statements -/

/-- Whether the tokens after a `return` at this place start with a value of it. -/
def ValueFollows (pos : Position) : Stream → Prop
  | [] => False
  | t :: _ => t.pos.line = pos.line ∧ t.item ≠ .sign .rbrace ∧ t.item ≠ .sign .semicolon ∧
      t.item ≠ .eof

mutual

/-- A statement in the surroundings `ctx`. -/
inductive Stmt : Parser.Context → Stream → Statement → Stream → Type where
  | letVar {ctx : Parser.Context} {pos p₁ p₂ p₃ : Position} {name : String} {ty : Ty} {value : Expr}
      {ts ts' rest : Stream} (t : TypeName ts ty (⟨p₃, .assign .set⟩ :: ts'))
      (e : Expression ts' value rest) :
      Stmt ctx (⟨pos, .keyword .letWord⟩ :: ⟨p₁, .ident name⟩ :: ⟨p₂, .sign .colon⟩ :: ts)
        (.letVar pos name ty value) rest
  | static {ctx : Parser.Context} {decl : StaticDecl} {ts rest : Stream}
      (inside : ctx.inFunction = true) (d : Static ts decl rest) : Stmt ctx ts (.static decl) rest
  | assign {ctx : Parser.Context} {pos p₁ p₂ : Position} {op : AssignOp} {place : Place}
      {value : Expr} {ts ts' rest : Stream} (target : Target ts place ts')
      (e : Expression ts' value (⟨p₂, .sign .rparen⟩ :: rest)) :
      Stmt ctx (⟨pos, .sign .lparen⟩ :: ⟨p₁, .assign op⟩ :: ts) (.assign pos op place value) rest
  | cond {ctx : Parser.Context} {s : Statement} {ts rest : Stream} (c : Conditional ctx ts s rest) :
      Stmt ctx ts s rest
  | forRange {ctx : Parser.Context} {pos p₁ p₂ p₃ p₄ : Position} {var : String} {w : Width}
      {start stop : Expr} {body : List Statement} {ts ts₁ ts₂ ts₃ rest : Stream}
      (t : WordType ts w (⟨p₃, .keyword .inWord⟩ :: ts₁))
      (low : Expression ts₁ start (⟨p₄, .sign .dotdot⟩ :: ts₂)) (high : Expression ts₂ stop ts₃)
      (b : Block { ctx with inLoop := true } ts₃ body rest) :
      Stmt ctx (⟨pos, .keyword .forWord⟩ :: ⟨p₁, .ident var⟩ :: ⟨p₂, .sign .colon⟩ :: ts)
        (.forRange pos var (.uint w) start stop body) rest
  | loop {ctx : Parser.Context} {pos : Position} {body : List Statement} {ts rest : Stream}
      (b : Block { ctx with inLoop := true } ts body rest) :
      Stmt ctx (⟨pos, .keyword .loopWord⟩ :: ts) (.loop pos body) rest
  | breakLoop {ctx : Parser.Context} {pos : Position} {rest : Stream} (inside : ctx.inLoop = true) :
      Stmt ctx (⟨pos, .keyword .breakWord⟩ :: rest) (.breakLoop pos) rest
  | continueLoop {ctx : Parser.Context} {pos : Position} {rest : Stream}
      (inside : ctx.inLoop = true) :
      Stmt ctx (⟨pos, .keyword .continueWord⟩ :: rest) (.continueLoop pos) rest
  | bareReturn {ctx : Parser.Context} {pos : Position} {rest : Stream}
      (returns : ctx.returns = none)
      (bare : ¬ ValueFollows pos rest) :
      Stmt ctx (⟨pos, .keyword .returnWord⟩ :: rest) (.ret pos none) rest
  | valueReturn {ctx : Parser.Context} {pos : Position} {value : Expr} {ts rest : Stream}
      (returns : ctx.returns ≠ none) (follows : ValueFollows pos ts)
      (e : Expression ts value rest) :
      Stmt ctx (⟨pos, .keyword .returnWord⟩ :: ts) (.ret pos (some value)) rest
  | panic {ctx : Parser.Context} {pos : Position} {rest : Stream} :
      Stmt ctx (⟨pos, .sign .panic⟩ :: rest) (.panic pos) rest
  | expr {ctx : Parser.Context} {pos : Position} {t : Token} {value : Expr} {ts rest : Stream}
      (e : Expression (⟨pos, t⟩ :: ts) value rest) :
      Stmt ctx (⟨pos, t⟩ :: ts) (.expr pos value) rest

/-- An `if` with all that belongs to it. -/
inductive Conditional : Parser.Context → Stream → Statement → Stream → Type where
  | ifThen {ctx : Parser.Context} {pos : Position} {cond : Expr} {yes : List Statement}
      {ts ts' rest : Stream} (c : Expression ts cond ts') (b : Block ctx ts' yes rest) :
      Conditional ctx (⟨pos, .keyword .ifWord⟩ :: ts) (.ifThen pos cond yes) rest
  | ifElse {ctx : Parser.Context} {pos p₁ : Position} {cond : Expr} {yes no : List Statement}
      {ts ts' ts'' rest : Stream} (c : Expression ts cond ts')
      (b : Block ctx ts' yes (⟨p₁, .keyword .elseWord⟩ :: ts'')) (b' : Block ctx ts'' no rest) :
      Conditional ctx (⟨pos, .keyword .ifWord⟩ :: ts) (.ifElse pos cond yes no) rest
  /-- An `if` right after `else` is the only statement of the `else` block. -/
  | elseIf {ctx : Parser.Context} {pos p₁ : Position} {cond : Expr} {yes : List Statement}
      {nested : Statement} {ts ts' ts'' rest : Stream} (c : Expression ts cond ts')
      (b : Block ctx ts' yes (⟨p₁, .keyword .elseWord⟩ :: ts''))
      (n : Conditional ctx ts'' nested rest) :
      Conditional ctx (⟨pos, .keyword .ifWord⟩ :: ts) (.ifElse pos cond yes [nested]) rest

/-- A block. -/
inductive Block : Parser.Context → Stream → List Statement → Stream → Type where
  | mk {ctx : Parser.Context} {pos : Position} {body : List Statement} {ts rest : Stream}
      (ss : Stmts ctx ts body rest) : Block ctx (⟨pos, .sign .lbrace⟩ :: ts) body rest

/-- Statements, with semicolons anywhere between them, and the brace after them. -/
inductive Stmts : Parser.Context → Stream → List Statement → Stream → Type where
  | nil {ctx : Parser.Context} {pos : Position} {ts rest : Stream}
      (sep : Separators ts (⟨pos, .sign .rbrace⟩ :: rest)) : Stmts ctx ts [] rest
  | cons {ctx : Parser.Context} {s : Statement} {ss : List Statement} {ts ts' ts'' rest : Stream}
      (sep : Separators ts ts') (first : Stmt ctx ts' s ts'') (more : Stmts ctx ts'' ss rest) :
      Stmts ctx ts (s :: ss) rest

end

/-! ## Section 4: Programs -/

/-- Parameters and the parenthesis after them. -/
inductive Params : Stream → List Param → Stream → Type where
  | nil {pos : Position} {rest : Stream} : Params (⟨pos, .sign .rparen⟩ :: rest) [] rest
  | cons {p₁ p₂ : Position} {name : String} {ty : Ty} {ps : List Param} {ts ts' ts'' rest : Stream}
      (t : TypeName ts ty ts') (c : Comma ts' ts'') (more : Params ts'' ps rest) :
      Params (⟨p₁, .ident name⟩ :: ⟨p₂, .sign .colon⟩ :: ts) (⟨name, ty⟩ :: ps) rest

/-- A list of parameters, which may be left out. -/
inductive ParamList : Stream → List Param → Stream → Type where
  | absent {ts : Stream} : ParamList ts [] ts
  | present {pos : Position} {ps : List Param} {ts rest : Stream} (ps' : Params ts ps rest) :
      ParamList (⟨pos, .sign .lparen⟩ :: ts) ps rest

/-- A return type, which may be left out. -/
inductive ReturnType : Stream → Option Ty → Stream → Type where
  | absent {ts : Stream} : ReturnType ts none ts
  | present {pos : Position} {ty : Ty} {ts rest : Stream} (t : TypeName ts ty rest) :
      ReturnType (⟨pos, .sign .colon⟩ :: ts) (some ty) rest

/-- A function. -/
inductive Fn : Stream → Function → Stream → Type where
  | mk {pos p₁ : Position} {name : String} {params : List Param} {ret : Option Ty}
      {body : List Statement} {ts ts' ts'' rest : Stream} (ps : ParamList ts params ts')
      (r : ReturnType ts' ret ts'')
      (b : Block { inFunction := true, returns := ret, inLoop := false } ts'' body rest) :
      Fn (⟨pos, .keyword .fnWord⟩ :: ⟨p₁, .ident name⟩ :: ts) ⟨name, params, ret, body, pos⟩ rest

/-- An item. -/
inductive Entry : Stream → Item → Stream → Type where
  | function {f : Function} {ts rest : Stream} (d : Fn ts f rest) : Entry ts (.function f) rest
  | static {decl : StaticDecl} {ts rest : Stream} (d : Static ts decl rest) :
      Entry ts (.static decl) rest
  | const {decl : ConstDecl} {ts rest : Stream} (d : Const ts decl rest) :
      Entry ts (.const decl) rest
  | statement {s : Statement} {ts rest : Stream}
      (d : Stmt { inFunction := false, returns := none, inLoop := false } ts s rest) :
      Entry ts (.statement s) rest

/-- Items, with semicolons anywhere between them, up to the end of the text. -/
inductive Entries : Stream → List Item → Stream → Type where
  | nil {pos : Position} {ts after : Stream} (sep : Separators ts (⟨pos, .eof⟩ :: after)) :
      Entries ts [] after
  | cons {i : Item} {is : List Item} {ts ts' ts'' after : Stream} (sep : Separators ts ts')
      (first : Entry ts' i ts'') (more : Entries ts'' is after) : Entries ts (i :: is) after

/-! ## Section 5: What derivations take -/

/-- Some tokens have been taken, and none of them was the end of the text. -/
def Takes (ts rest : Stream) : Prop :=
  ∃ taken, ts = taken ++ rest ∧ ∀ t ∈ taken, t.item ≠ .eof

/-- The same, with at least one token taken. -/
def Past (ts rest : Stream) : Prop :=
  ∃ t mid, ts = t :: mid ∧ t.item ≠ .eof ∧ Takes mid rest

namespace Takes

variable {ts mid rest : Stream}

theorem none (ts : Stream) : Takes ts ts := ⟨[], rfl, fun _ ht => nomatch ht⟩

theorem cons {pos : Position} {t : Token} (h : Takes mid rest) (ht : t ≠ .eof := by simp) :
    Takes (⟨pos, t⟩ :: mid) rest := by
  obtain ⟨taken, rfl, htaken⟩ := h
  refine ⟨⟨pos, t⟩ :: taken, rfl, fun u hu => ?_⟩
  rcases List.mem_cons.mp hu with rfl | hu
  · exact ht
  · exact htaken u hu

theorem trans (h : Takes ts mid) (h' : Takes mid rest) : Takes ts rest := by
  obtain ⟨first, rfl, hfirst⟩ := h
  obtain ⟨second, rfl, hsecond⟩ := h'
  refine ⟨first ++ second, (List.append_assoc _ _ _).symm, fun t ht => ?_⟩
  rcases List.mem_append.mp ht with ht | ht
  · exact hfirst t ht
  · exact hsecond t ht

theorem length_le (h : Takes ts rest) : rest.length ≤ ts.length := by
  obtain ⟨taken, rfl, -⟩ := h
  rw [List.length_append]
  omega

/-- The end of the text is never taken. -/
theorem mem_eof (h : Takes ts rest) (hts : ∃ t ∈ ts, t.item = .eof) :
    ∃ t ∈ rest, t.item = .eof := by
  obtain ⟨taken, rfl, htaken⟩ := h
  obtain ⟨t, ht, heof⟩ := hts
  rcases List.mem_append.mp ht with ht | ht
  · exact absurd heof (htaken t ht)
  · exact ⟨t, ht, heof⟩

end Takes

namespace Past

variable {ts mid rest : Stream} {pos : Position} {t : Token}

theorem takes (h : Past ts rest) : Takes ts rest := by
  obtain ⟨t, mid, rfl, ht, hmid⟩ := h
  exact hmid.cons ht

theorem one (ht : t ≠ .eof := by simp) : Past (⟨pos, t⟩ :: rest) rest :=
  ⟨_, rest, rfl, ht, .none rest⟩

theorem trans (h : Past ts mid) (h' : Takes mid rest) : Past ts rest := by
  obtain ⟨t, mid', rfl, ht, hmid⟩ := h
  exact ⟨t, mid', rfl, ht, hmid.trans h'⟩

theorem cons (h : Past mid rest) (ht : t ≠ .eof := by simp) : Past (⟨pos, t⟩ :: mid) rest :=
  (one ht).trans h.takes

theorem after (h : Takes ts mid) (h' : Past mid rest) : Past ts rest := by
  obtain ⟨taken, rfl, htaken⟩ := h
  cases taken with
  | nil => exact h'
  | cons t taken =>
    refine ⟨t, taken ++ mid, rfl, htaken t List.mem_cons_self, Takes.trans ?_ h'.takes⟩
    exact ⟨taken, rfl, fun u hu => htaken u (List.mem_cons_of_mem t hu)⟩

theorem length_lt (h : Past ts rest) : rest.length < ts.length := by
  obtain ⟨t, mid, rfl, -, hmid⟩ := h
  have hlen := hmid.length_le
  rw [List.length_cons]
  omega

end Past

theorem Separators.takes {ts rest : Stream} (d : Separators ts rest) : Takes ts rest := by
  induction d with
  | none => exact .none _
  | more ss ih => exact ih.cons

theorem Comma.takes {ts rest : Stream} (d : Comma ts rest) : Takes ts rest := by
  cases d with
  | absent => exact .none _
  | present => exact (Takes.none _).cons

theorem WordType.past {ts rest : Stream} {w : Width} (d : WordType ts w rest) : Past ts rest := by
  cases d
  exact .one

theorem TypeName.past {ts rest : Stream} {ty : Ty} (d : TypeName ts ty rest) : Past ts rest := by
  cases d with
  | word t => exact t.past
  | array t => exact .cons (t.past.trans (Past.cons .one).takes)

theorem Static.past {ts rest : Stream} {decl : StaticDecl} (d : Static ts decl rest) :
    Past ts rest := by
  cases d with
  | mk t => exact .cons (.cons (.cons t.past))

theorem Elements.past {ts rest : Stream} {ns : List Nat} (d : Elements ts ns rest) :
    Past ts rest := by
  induction d with
  | nil => exact .one
  | cons c more ih => exact .cons (.after c.takes ih)

theorem Const.past {ts rest : Stream} {decl : ConstDecl} (d : Const ts decl rest) :
    Past ts rest := by
  cases d with
  | mk t es =>
    have hvalues : Past _ rest := es.past
    exact .cons (.cons (.cons (t.past.trans (Past.cons (Past.cons hvalues)).takes)))

mutual

theorem Expression.past {ts rest : Stream} {e : Expr} : Expression ts e rest → Past ts rest
  | .literal => .one
  | .ident => .one
  | .index e => .cons (e.past.trans (Past.cons .one).takes)
  | .binary l r => .cons (.cons (l.past.trans (r.past.trans (Past.one).takes).takes))
  | .call as => .cons (.cons as.past)

theorem Arguments.past {ts rest : Stream} {es : List Expr} : Arguments ts es rest → Past ts rest
  | .nil => .one
  | .cons first more => first.past.trans more.past.takes

end

theorem Target.past {ts rest : Stream} {place : Place} (d : Target ts place rest) :
    Past ts rest := by
  cases d with
  | var => exact .one
  | elem e => exact .cons (e.past.trans (Past.cons .one).takes)

mutual

theorem Stmt.past {ctx : Parser.Context} {ts rest : Stream} {s : Statement} :
    Stmt ctx ts s rest → Past ts rest
  | .letVar t e => .cons (.cons (.cons (t.past.trans (Past.cons e.past).takes)))
  | .static _ d => d.past
  | .assign target e => .cons (.cons (target.past.trans (e.past.trans (Past.one).takes).takes))
  | .cond c => c.past
  | .forRange t low high b =>
    .cons (.cons (.cons (t.past.trans (Past.cons (low.past.trans
      (Past.cons (high.past.trans b.past.takes)).takes)).takes)))
  | .loop b => .cons b.past
  | .breakLoop _ => .one
  | .continueLoop _ => .one
  | .bareReturn _ _ => .one
  | .valueReturn _ _ e => .cons e.past
  | .panic => .one
  | .expr e => e.past

theorem Conditional.past {ctx : Parser.Context} {ts rest : Stream} {s : Statement} :
    Conditional ctx ts s rest → Past ts rest
  | .ifThen c b => .cons (c.past.trans b.past.takes)
  | .ifElse c b b' => .cons (c.past.trans (b.past.trans (Past.cons b'.past).takes).takes)
  | .elseIf c b n => .cons (c.past.trans (b.past.trans (Past.cons n.past).takes).takes)

theorem Block.past {ctx : Parser.Context} {ts rest : Stream} {body : List Statement} :
    Block ctx ts body rest → Past ts rest
  | .mk ss => .cons ss.past

theorem Stmts.past {ctx : Parser.Context} {ts rest : Stream} {ss : List Statement} :
    Stmts ctx ts ss rest → Past ts rest
  | .nil sep => .after sep.takes .one
  | .cons sep first more => .after sep.takes (first.past.trans more.past.takes)

end

theorem Params.past {ts rest : Stream} {ps : List Param} (d : Params ts ps rest) :
    Past ts rest := by
  induction d with
  | nil => exact .one
  | cons t c more ih => exact .cons (.cons (t.past.trans (Past.after c.takes ih).takes))

theorem ParamList.takes {ts rest : Stream} {ps : List Param} (d : ParamList ts ps rest) :
    Takes ts rest := by
  cases d with
  | absent => exact .none _
  | present ps' => exact (Past.cons ps'.past).takes

theorem ReturnType.takes {ts rest : Stream} {ret : Option Ty} (d : ReturnType ts ret rest) :
    Takes ts rest := by
  cases d with
  | absent => exact .none _
  | present t => exact (Past.cons t.past).takes

theorem Fn.past {ts rest : Stream} {f : Function} (d : Fn ts f rest) : Past ts rest := by
  cases d with
  | mk ps r b => exact .cons (.cons (.after ps.takes (.after r.takes b.past)))

theorem Entry.past {ts rest : Stream} {i : Item} (d : Entry ts i rest) : Past ts rest := by
  cases d with
  | function d => exact d.past
  | static d => exact d.past
  | const d => exact d.past
  | statement d => exact d.past

/-- The first end of the text is found, and `after` is what follows it. -/
theorem Entries.takes {ts after : Stream} {is : List Item} (d : Entries ts is after) :
    ∃ pos, Takes ts (⟨pos, .eof⟩ :: after) := by
  induction d with
  | nil sep => exact ⟨_, sep.takes⟩
  | cons sep first more ih =>
    obtain ⟨pos, h⟩ := ih
    exact ⟨pos, sep.takes.trans (first.past.takes.trans h)⟩

end Grammar

/-- A derivation of a program from tokens.  Whatever comes after the end of the text is not
    looked at. -/
structure Program.Derivation (ts : Grammar.Stream) (p : Program) where
  after : Grammar.Stream
  entries : Grammar.Entries ts p.items after

end WordLang
