import WordLang.Program.Printer
import WordLang.Proofs.Parsing

/-! # Trees that can be written down

    Not every tree is the tree of a text: a name may be a reserved word, a
    `break` may stand outside of all loops.  `WellFormed` rules this out and
    nothing else, and every tree that is read from a text is well-formed.

    A text does not show where the nodes of its tree came from, so trees are
    compared after `erase`, which puts every node at one place. -/

namespace WordLang

open Grammar Text

/-! ## Section 1: Trees without places -/

mutual

/-- An expression, with its places forgotten. -/
def Expr.erase : Expr → Expr
  | .literal _ value => .literal .start value
  | .ident _ name => .ident .start name
  | .index _ offset array => .index .start offset.erase array
  | .binary _ op left right => .binary .start op left.erase right.erase
  | .call _ function args => .call .start function (Expr.eraseAll args)

/-- Expressions, with their places forgotten. -/
def Expr.eraseAll : List Expr → List Expr
  | [] => []
  | e :: rest => e.erase :: Expr.eraseAll rest

end

/-- A target, with its places forgotten. -/
def Place.erase : Place → Place
  | .var name => .var name
  | .elem offset array => .elem offset.erase array

/-- A static, with its place forgotten. -/
def StaticDecl.erase (d : StaticDecl) : StaticDecl := { d with pos := .start }

mutual

/-- A statement, with its places forgotten. -/
def Statement.erase : Statement → Statement
  | .letVar _ name ty value => .letVar .start name ty value.erase
  | .static decl => .static decl.erase
  | .assign _ op place value => .assign .start op place.erase value.erase
  | .ifThen _ cond yes => .ifThen .start cond.erase (Statement.eraseAll yes)
  | .ifElse _ cond yes no =>
    .ifElse .start cond.erase (Statement.eraseAll yes) (Statement.eraseAll no)
  | .forRange _ var ty start stop body =>
    .forRange .start var ty start.erase stop.erase (Statement.eraseAll body)
  | .loop _ body => .loop .start (Statement.eraseAll body)
  | .breakLoop _ => .breakLoop .start
  | .continueLoop _ => .continueLoop .start
  | .ret _ none => .ret .start none
  | .ret _ (some value) => .ret .start (some value.erase)
  | .panic _ => .panic .start
  | .expr _ value => .expr .start value.erase

/-- Statements, with their places forgotten. -/
def Statement.eraseAll : List Statement → List Statement
  | [] => []
  | s :: rest => s.erase :: Statement.eraseAll rest

end

/-- A function, with its places forgotten. -/
def Function.erase (f : Function) : Function :=
  { f with body := Statement.eraseAll f.body, pos := .start }

/-- A constant table, with its place forgotten. -/
def ConstDecl.erase (c : ConstDecl) : ConstDecl := { c with pos := .start }

/-- An item, with its places forgotten. -/
def Item.erase : Item → Item
  | .function f => .function f.erase
  | .static decl => .static decl.erase
  | .const decl => .const decl.erase
  | .statement s => .statement s.erase

/-- A program, with its places forgotten. -/
def Program.erase (p : Program) : Program := ⟨p.items.map Item.erase⟩

/-! ## Section 2: Places are not written -/

mutual

theorem Expr.text_erase : (e : Expr) → e.erase.text = e.text
  | .literal _ _ => rfl
  | .ident _ _ => rfl
  | .index _ offset _ => by simp only [erase, text, text_erase offset]
  | .binary _ _ left right => by simp only [erase, text, text_erase left, text_erase right]
  | .call _ _ args => by simp only [erase, text, argsText_eraseAll args]

theorem Expr.argsText_eraseAll : (es : List Expr) → argsText (eraseAll es) = argsText es
  | [] => rfl
  | e :: rest => by simp only [eraseAll, argsText, text_erase e, argsText_eraseAll rest]

end

theorem Place.text_erase (p : Place) : p.erase.text = p.text := by
  cases p with
  | var name => rfl
  | elem offset array => simp only [erase, text, Expr.text_erase]

namespace Statement

theorem isConditional_erase (s : Statement) : s.erase.isConditional = s.isConditional := by
  cases s with
  | ret pos value => cases value <;> rfl
  | _ => rfl

theorem isLoneConditional_eraseAll (ss : List Statement) :
    isLoneConditional (eraseAll ss) = isLoneConditional ss := by
  match ss with
  | [] => rfl
  | [s] => exact s.isConditional_erase
  | _ :: _ :: _ => rfl

mutual

theorem text_erase (depth : Nat) : (s : Statement) → s.erase.text depth = s.text depth
  | .letVar _ _ _ value => by simp only [erase, text, Expr.text_erase]
  | .static _ => rfl
  | .assign _ _ place value => by simp only [erase, text, Expr.text_erase, Place.text_erase]
  | .ifThen _ _ yes => by
    simp only [erase, text, Expr.text_erase, linesText_eraseAll (depth + 1) yes]
  | .ifElse _ _ yes no => by
    simp only [erase, text, Expr.text_erase, linesText_eraseAll (depth + 1) yes,
      isLoneConditional_eraseAll, linesText_eraseAll (depth + 1) no, firstText_eraseAll depth no]
  | .forRange _ _ _ _ _ body => by
    simp only [erase, text, Expr.text_erase, linesText_eraseAll (depth + 1) body]
  | .loop _ body => by simp only [erase, text, linesText_eraseAll (depth + 1) body]
  | .breakLoop _ => rfl
  | .continueLoop _ => rfl
  | .ret _ none => rfl
  | .ret _ (some _) => by simp only [erase, text, Expr.text_erase]
  | .panic _ => rfl
  | .expr _ _ => by simp only [erase, text, Expr.text_erase]

theorem linesText_eraseAll (depth : Nat) :
    (ss : List Statement) → linesText depth (eraseAll ss) = linesText depth ss
  | [] => rfl
  | s :: rest => by
    simp only [eraseAll, linesText, text_erase depth s, linesText_eraseAll depth rest]

theorem firstText_eraseAll (depth : Nat) :
    (ss : List Statement) → firstText depth (eraseAll ss) = firstText depth ss
  | [] => rfl
  | s :: _ => by simp only [eraseAll, firstText, text_erase depth s]

end

end Statement

theorem Item.text_erase (i : Item) : i.erase.text = i.text := by
  cases i with
  | function f =>
    have hbody := Statement.linesText_eraseAll 1 f.body
    -- parameters and return type carry no places
    simp only [erase, text, Function.text, Function.erase, hbody]
    rfl
  | static decl => rfl
  | const decl => rfl
  | statement s => exact s.text_erase 0

theorem Item.isFunction_erase (i : Item) : i.erase.isFunction = i.isFunction := by
  cases i <;> rfl

theorem Program.itemsText_erase (before : Item) (is : List Item) :
    itemsText before.erase (is.map Item.erase) = itemsText before is := by
  induction is generalizing before with
  | nil => rfl
  | cons i is ih =>
    simp only [List.map_cons, itemsText, Item.isFunction_erase, Item.text_erase, ih]

/-- The text of a program does not depend on its places. -/
theorem Program.print_erase (p : Program) : p.erase.print = p.print := by
  obtain ⟨items⟩ := p
  cases items with
  | nil => rfl
  | cons i is => simp only [print, erase, List.map_cons, Item.text_erase, itemsText_erase]

/-! ## Section 3: Well-formed trees -/

/-- Lengths of arrays are numbers that can be written; widths are from 1 to 64 by their type. -/
def Ty.WellFormed : Ty → Prop
  | .uint _ => True
  | .array _ len => len < numeralLimit

mutual

/-- Names are names and numbers are below the limit. -/
def Expr.WellFormed : Expr → Prop
  | .literal _ value => value < numeralLimit
  | .ident _ name => IsName name
  | .index _ offset array => offset.WellFormed ∧ IsName array
  | .binary _ _ left right => left.WellFormed ∧ right.WellFormed
  | .call _ function args => IsName function ∧ Expr.AllWellFormed args

def Expr.AllWellFormed : List Expr → Prop
  | [] => True
  | e :: rest => e.WellFormed ∧ Expr.AllWellFormed rest

end

def Place.WellFormed : Place → Prop
  | .var name => IsName name
  | .elem offset array => offset.WellFormed ∧ IsName array

def StaticDecl.WellFormed (d : StaticDecl) : Prop := IsName d.name ∧ d.ty.WellFormed

mutual

/-- Statements stand where they may: statics in functions, `break` and `continue` in loops, and a
    `return` has a value just if the function has a return type. -/
def Statement.WellFormed (ctx : Parser.Context) : Statement → Prop
  | .letVar _ name ty value => IsName name ∧ ty.WellFormed ∧ value.WellFormed
  | .static decl => ctx.inFunction = true ∧ decl.WellFormed
  | .assign _ _ place value => place.WellFormed ∧ value.WellFormed
  | .ifThen _ cond yes => cond.WellFormed ∧ Statement.AllWellFormed ctx yes
  | .ifElse _ cond yes no =>
    cond.WellFormed ∧ Statement.AllWellFormed ctx yes ∧ Statement.AllWellFormed ctx no
  | .forRange _ var ty start stop body =>
    IsName var ∧ (∃ w, ty = .uint w) ∧ start.WellFormed ∧ stop.WellFormed ∧
      Statement.AllWellFormed { ctx with inLoop := true } body
  | .loop _ body => Statement.AllWellFormed { ctx with inLoop := true } body
  | .breakLoop _ | .continueLoop _ => ctx.inLoop = true
  | .ret _ none => ctx.returns = none
  | .ret _ (some value) => ctx.returns ≠ none ∧ value.WellFormed
  | .panic _ => True
  | .expr _ value => value.WellFormed

def Statement.AllWellFormed (ctx : Parser.Context) : List Statement → Prop
  | [] => True
  | s :: rest => s.WellFormed ctx ∧ Statement.AllWellFormed ctx rest

end

def Param.WellFormed (p : Param) : Prop := IsName p.name ∧ p.ty.WellFormed

/-- The body is not in a loop, even if the function is called from one. -/
def Function.WellFormed (f : Function) : Prop :=
  IsName f.name ∧ (∀ p ∈ f.params, p.WellFormed) ∧ (∀ ty ∈ f.ret, ty.WellFormed) ∧
    Statement.AllWellFormed { inFunction := true, returns := f.ret, inLoop := false } f.body

def ConstDecl.WellFormed (c : ConstDecl) : Prop :=
  IsName c.name ∧ c.ty.WellFormed ∧ ∀ n ∈ c.values, n < numeralLimit

def Item.WellFormed : Item → Prop
  | .function f => f.WellFormed
  | .static decl => decl.WellFormed
  | .const decl => decl.WellFormed
  | .statement s => s.WellFormed { inFunction := false, returns := none, inLoop := false }

/-- A program that can be written down. -/
def Program.WellFormed (p : Program) : Prop := ∀ i ∈ p.items, i.WellFormed

/-! ## Section 4: What is read is well-formed -/

/-- Tokens as texts have them. -/
def Legal (ts : Stream) : Prop := ∀ t ∈ ts, t.item = .eof ∨ t.item.Lexable

namespace Legal

variable {ts rest : Stream} {pos : Position} {t : Token}

theorem tail (h : Legal (⟨pos, t⟩ :: ts)) : Legal ts :=
  fun u hu => h u (List.mem_cons_of_mem _ hu)

theorem name {name : String} (h : Legal (⟨pos, .ident name⟩ :: ts)) : IsName name :=
  (h _ List.mem_cons_self).resolve_left (by simp)

theorem number {n : Nat} (h : Legal (⟨pos, .number n⟩ :: ts)) : n < numeralLimit :=
  (h _ List.mem_cons_self).resolve_left (by simp)

/-- So are the tokens that are left when some are taken. -/
theorem left (h : Legal ts) (htakes : Takes ts rest) : Legal rest := by
  obtain ⟨taken, rfl, -⟩ := htakes
  exact fun t ht => h t (List.mem_append_right taken ht)

end Legal

namespace Grammar

variable {ts rest : Stream} {ctx : Parser.Context}

theorem TypeName.wellFormed {ty : Ty} (d : TypeName ts ty rest) (h : Legal ts) :
    ty.WellFormed := by
  cases d with
  | word t => trivial
  | array t => exact (h.tail.left t.past.takes).number

theorem Static.wellFormed {decl : StaticDecl} (d : Static ts decl rest) (h : Legal ts) :
    decl.WellFormed := by
  cases d with
  | mk t => exact ⟨h.tail.name, t.wellFormed h.tail.tail.tail⟩

theorem Elements.wellFormed {ns : List Nat} (d : Elements ts ns rest) (h : Legal ts) :
    ∀ n ∈ ns, n < numeralLimit := by
  induction d with
  | nil => exact fun n hn => absurd hn List.not_mem_nil
  | cons c more ih =>
    intro n hn
    rcases List.mem_cons.mp hn with rfl | hn
    · exact h.number
    · exact ih (h.tail.left c.takes) n hn

theorem Const.wellFormed {decl : ConstDecl} (d : Const ts decl rest) (h : Legal ts) :
    decl.WellFormed := by
  cases d with
  | mk t es =>
    -- behind the keyword, the name and the colon
    have htype := h.tail.tail.tail
    exact ⟨h.tail.name, t.wellFormed htype, es.wellFormed (htype.left t.past.takes).tail.tail⟩

mutual

theorem Expression.wellFormed {ts rest : Stream} {e : Expr} :
    Expression ts e rest → Legal ts → e.WellFormed
  | .literal, h => h.number
  | .ident, h => h.name
  | .index e, h => ⟨e.wellFormed h.tail, (h.tail.left e.past.takes).tail.name⟩
  | .binary l r, h =>
    ⟨l.wellFormed h.tail.tail, r.wellFormed (h.tail.tail.left l.past.takes)⟩
  | .call as, h => ⟨h.tail.name, as.wellFormed h.tail.tail⟩

theorem Arguments.wellFormed {ts rest : Stream} {es : List Expr} :
    Arguments ts es rest → Legal ts → Expr.AllWellFormed es
  | .nil, _ => trivial
  | .cons first more, h => ⟨first.wellFormed h, more.wellFormed (h.left first.past.takes)⟩

end

theorem Target.wellFormed {place : Place} (d : Target ts place rest) (h : Legal ts) :
    place.WellFormed := by
  cases d with
  | var => exact h.name
  | elem e => exact ⟨e.wellFormed h.tail, (h.tail.left e.past.takes).tail.name⟩

mutual

theorem Stmt.wellFormed {ctx : Parser.Context} {ts rest : Stream} {s : Statement} :
    Stmt ctx ts s rest → Legal ts → s.WellFormed ctx
  | .letVar t e, h => by
    have htype := h.tail.tail.tail
    exact ⟨h.tail.name, t.wellFormed htype, e.wellFormed (htype.left t.past.takes).tail⟩
  | .static inside d, h => ⟨inside, d.wellFormed h⟩
  | .assign target e, h =>
    ⟨target.wellFormed h.tail.tail, e.wellFormed (h.tail.tail.left target.past.takes)⟩
  | .cond c, h => c.wellFormed h
  | .forRange t low high b, h => by
    have hlow := (h.tail.tail.tail.left t.past.takes).tail
    have hhigh := (hlow.left low.past.takes).tail
    exact ⟨h.tail.name, ⟨_, rfl⟩, low.wellFormed hlow, high.wellFormed hhigh,
      b.wellFormed (hhigh.left high.past.takes)⟩
  | .loop b, h => b.wellFormed h.tail
  | .breakLoop inside, _ => inside
  | .continueLoop inside, _ => inside
  | .bareReturn returns _, _ => returns
  | .valueReturn returns _ e, h => ⟨returns, e.wellFormed h.tail⟩
  | .panic, _ => trivial
  | .expr e, h => e.wellFormed h

theorem Conditional.wellFormed {ctx : Parser.Context} {ts rest : Stream} {s : Statement} :
    Conditional ctx ts s rest → Legal ts → s.WellFormed ctx
  | .ifThen c b, h => ⟨c.wellFormed h.tail, b.wellFormed (h.tail.left c.past.takes)⟩
  | .ifElse c b b', h => by
    have hyes := h.tail.left c.past.takes
    exact ⟨c.wellFormed h.tail, b.wellFormed hyes, b'.wellFormed (hyes.left b.past.takes).tail⟩
  -- the `else` block holds nothing but the nested `if`
  | .elseIf c b n, h => by
    have hyes := h.tail.left c.past.takes
    exact ⟨c.wellFormed h.tail, b.wellFormed hyes,
      n.wellFormed (hyes.left b.past.takes).tail, trivial⟩

theorem Block.wellFormed {ctx : Parser.Context} {ts rest : Stream} {body : List Statement} :
    Block ctx ts body rest → Legal ts → Statement.AllWellFormed ctx body
  | .mk ss, h => ss.wellFormed h.tail

theorem Stmts.wellFormed {ctx : Parser.Context} {ts rest : Stream} {ss : List Statement} :
    Stmts ctx ts ss rest → Legal ts → Statement.AllWellFormed ctx ss
  | .nil _, _ => trivial
  | .cons sep first more, h => by
    have hfirst := h.left sep.takes
    exact ⟨first.wellFormed hfirst, more.wellFormed (hfirst.left first.past.takes)⟩

end

theorem Params.wellFormed {ps : List Param} (d : Params ts ps rest) (h : Legal ts) :
    ∀ p ∈ ps, p.WellFormed := by
  induction d with
  | nil => exact fun p hp => absurd hp List.not_mem_nil
  | cons t c more ih =>
    intro p hp
    rcases List.mem_cons.mp hp with rfl | hp
    · exact ⟨h.name, t.wellFormed h.tail.tail⟩
    · exact ih ((h.tail.tail.left t.past.takes).left c.takes) p hp

theorem Fn.wellFormed {f : Function} (d : Fn ts f rest) (h : Legal ts) : f.WellFormed := by
  cases d with
  | mk ps r b =>
    have hret := h.tail.tail.left ps.takes
    refine ⟨h.tail.name, ?_, ?_, b.wellFormed (hret.left r.takes)⟩
    · cases ps with
      | absent => exact fun p hp => absurd hp List.not_mem_nil
      | present ps' => exact ps'.wellFormed h.tail.tail.tail
    · cases r with
      | absent => exact fun ty hty => nomatch hty
      | present t =>
        intro ty hty
        obtain rfl := Option.some.inj hty
        exact t.wellFormed hret.tail

theorem Entry.wellFormed {i : Item} (d : Entry ts i rest) (h : Legal ts) : i.WellFormed := by
  cases d with
  | function d => exact d.wellFormed h
  | static d => exact d.wellFormed h
  | const d => exact d.wellFormed h
  | statement d => exact d.wellFormed h

theorem Entries.wellFormed {is : List Item} (d : Entries ts is rest) (h : Legal ts) :
    ∀ i ∈ is, i.WellFormed := by
  induction d with
  | nil sep => exact fun i hi => absurd hi List.not_mem_nil
  | cons sep first more ih =>
    have hfirst := h.left sep.takes
    intro i hi
    rcases List.mem_cons.mp hi with rfl | hi
    · exact first.wellFormed hfirst
    · exact ih (hfirst.left first.past.takes) i hi

end Grammar

theorem Closed.legal {ts : Stream} (h : Closed ts) : Legal ts := by
  obtain ⟨init, pos, rfl, hinit⟩ := h
  intro t ht
  rcases List.mem_append.mp ht with ht | ht
  · exact .inr (hinit t ht)
  · rw [List.mem_singleton.mp ht]
    exact .inl rfl

namespace Program

/-- A text is cut into tokens and these are parsed. -/
theorem parse_eq_ok {source : String} {p : Program} :
    parse source = .ok p ↔ ∃ ts, tokenize source = .ok ts ∧ ofTokens ts = .ok p := by
  unfold parse
  cases tokenize source with
  | error e => simp
  | ok ts => cases hts : ofTokens ts <;> simp [hts]

/-- What is read from a text is well-formed. -/
theorem wellFormed_of_parse {source : String} {p : Program} (h : parse source = .ok p) :
    p.WellFormed := by
  obtain ⟨ts, htokens, hp⟩ := parse_eq_ok.mp h
  have hclosed := closed_tokenize htokens
  have hlegal := hclosed.legal
  obtain ⟨init, pos, rfl, -⟩ := hclosed
  -- whatever the parser accepts has a derivation, and its names and numbers are tokens
  obtain ⟨d⟩ := derivation_of_ofTokens hp
  exact d.entries.wellFormed hlegal

end Program

end WordLang
