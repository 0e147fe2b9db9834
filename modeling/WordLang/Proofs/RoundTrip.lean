import WordLang.Proofs.Spelling
import WordLang.Proofs.WellFormed

/-! # What is printed is read again

    The text of a well-formed tree is read as that tree, up to the places.
    The proof goes through tokens and grammar, not through the parser: from
    the tokens of what follows a text, `Scans` builds the tokens of the text,
    and a derivation takes these and leaves the others.  There is one such
    statement for every kind of tree, by recursion on the tree.

    Inside a line, the words of a text are kept apart by what follows them
    (`EndsWord`).  A statement is always followed by a line end, and this is
    what keeps a `return` without a value from taking the next statement for
    one. -/

namespace WordLang

open Grammar Text

/-! ## Section 1: What follows a word -/

theorem endsWord_blank (rest : List Char) : EndsWord (' ' :: rest) := by
  intro c hc
  obtain rfl := Option.some.inj hc
  decide

theorem endsWord_newline (rest : List Char) : EndsWord ('\n' :: rest) := by
  intro c hc
  obtain rfl := Option.some.inj hc
  decide

theorem endsWord_sign (s : Sign) (rest : List Char) :
    EndsWord ((Token.sign s).spelling.toList ++ rest) := by
  intro c hc
  cases s <;>
  · obtain rfl := Option.some.inj hc
    decide

theorem endsBefore_blank (t : Token) (rest : List Char) : t.EndsBefore (' ' :: rest) := by
  cases t with
  | ident | number | uint | keyword => exact endsWord_blank rest
  | op | assign => exact fun c hc => (Option.some.inj hc).symm
  | sign | eof => trivial

namespace Scans

variable {pos : Position} {rest : List Char} {ts : Stream}

theorem sign (s : Sign) (h : Scans (pos.after (Token.sign s).spelling.toList) rest ts) :
    Scans pos ((Token.sign s).spelling.toList ++ rest) (⟨pos, .sign s⟩ :: ts) :=
  .token trivial trivial h

/-- A token and a blank. -/
theorem spaced {t : Token} (ht : t.Writable)
    (h : Scans ((pos.after t.spelling.toList).advance 1) rest ts) :
    Scans pos (t.spelling.toList ++ ' ' :: rest) (⟨pos, t⟩ :: ts) :=
  .token ht (endsBefore_blank t rest) (.blank h)

theorem keyword (k : Keyword)
    (h : Scans ((pos.after (Token.keyword k).spelling.toList).advance 1) rest ts) :
    Scans pos ((Token.keyword k).spelling.toList ++ ' ' :: rest) (⟨pos, .keyword k⟩ :: ts) :=
  .spaced trivial h

theorem name {name : String} (hname : IsName name) (hrest : EndsWord rest)
    (h : Scans (pos.after (Token.ident name).spelling.toList) rest ts) :
    Scans pos ((Token.ident name).spelling.toList ++ rest) (⟨pos, .ident name⟩ :: ts) :=
  .token hname hrest h

theorem blanks (n : Nat) (h : Scans (pos.after (List.replicate n ' ')) rest ts) :
    Scans pos (List.replicate n ' ' ++ rest) ts := by
  induction n generalizing pos with
  | zero => exact h
  | succ n ih => exact .blank (ih h)

end Scans

/-- A line can be scanned from its start. -/
theorem ScansLines.here {pos : Position} {cs : List Char} {ts : Stream} (hpos : pos.column = 1)
    (h : Scans pos cs ts) : ScansLines pos.line cs ts := by
  have hstart : pos = ⟨pos.line, 1⟩ := by rw [← hpos]
  rw [hstart] at h
  exact .line h

theorem toList_indent (depth : Nat) : (indent depth).toList = List.replicate (4 * depth) ' ' := by
  unfold indent
  generalize 4 * depth = n
  rw [String.pushn_eq_repeat_push]
  induction n with
  | zero => rfl
  | succ n ih => rw [Nat.repeat, String.toList_push, ih, List.replicate_succ']

/-! ## Section 2: Types and expressions -/

theorem Width.writable (w : Width) : (Token.uint w.bits).Writable := by
  show w.bits ≤ 0xFFFFFFFF
  have := w.le_size
  omega

theorem toList_array (w : Width) (len : Nat) :
    (toString (Ty.array w len)).toList = (Token.sign .lbracket).spelling.toList ++
      ((Token.uint w.bits).spelling.toList ++ ' ' :: ((Token.number len).spelling.toList ++
        (Token.sign .rbracket).spelling.toList)) := by
  show (toString "[" ++ toString w ++ toString " " ++ toString len ++ toString "]").toList = _
  simp only [String.toList_append, List.append_assoc]
  rfl

/-- The text of a type is read as this type. -/
theorem Ty.scans {ty : Ty} (h : ty.WellFormed) {pos : Position} {rest : List Char} {ts : Stream}
    (hrest : EndsWord rest) (hscan : Scans (pos.after (toString ty).toList) rest ts) :
    ∃ ts', Scans pos ((toString ty).toList ++ rest) ts' ∧ Nonempty (TypeName ts' ty ts) := by
  cases ty with
  | uint w => exact ⟨_, .token (t := .uint w.bits) w.writable hrest hscan, ⟨.word (.word rfl)⟩⟩
  | array w len =>
    simp only [toList_array, Position.after_append, Position.after_blank, List.append_assoc,
      List.cons_append] at hscan ⊢
    have hlen := Scans.token (t := .number len) h (endsWord_sign .rbracket rest) (.sign _ hscan)
    exact ⟨_, .sign _ (.spaced w.writable hlen), ⟨.array (.word rfl)⟩⟩

namespace Expr

theorem toList_text_index (pos : Position) (offset : Expr) (array : String) :
    (Expr.index pos offset array).text.toList = (Token.sign .lbracket).spelling.toList ++
      (offset.text.toList ++ ((Token.sign .rbracket).spelling.toList ++
        (Token.ident array).spelling.toList)) := by
  simp only [text, String.toList_append, List.append_assoc]
  rfl

theorem toList_text_binary (pos : Position) (op : BinOp) (left right : Expr) :
    (Expr.binary pos op left right).text.toList = (Token.sign .lparen).spelling.toList ++
      ((Token.op op).spelling.toList ++ ' ' :: (left.text.toList ++ ' ' :: (right.text.toList ++
        (Token.sign .rparen).spelling.toList))) := by
  simp only [text, String.toList_append, List.append_assoc]
  rfl

theorem toList_text_call (pos : Position) (function : String) (args : List Expr) :
    (Expr.call pos function args).text.toList = (Token.sign .lparen).spelling.toList ++
      ((Token.ident function).spelling.toList ++ ((argsText args).toList ++
        (Token.sign .rparen).spelling.toList)) := by
  simp only [text, String.toList_append, List.append_assoc]
  rfl

theorem toList_argsText_cons (e : Expr) (es : List Expr) :
    (argsText (e :: es)).toList = ' ' :: (e.text.toList ++ (argsText es).toList) := by
  simp only [argsText, String.toList_append, List.append_assoc]
  rfl

/-- Arguments start with a blank. -/
theorem endsWord_argsText (es : List Expr) {rest : List Char} (h : EndsWord rest) :
    EndsWord ((argsText es).toList ++ rest) := by
  cases es with
  | nil => exact h
  | cons e es =>
    rw [toList_argsText_cons]
    exact endsWord_blank _

mutual

/-- The text of an expression is read as this expression. -/
theorem scans {pos : Position} {rest : List Char} {ts : Stream} : (e : Expr) → e.WellFormed →
    EndsWord rest → Scans (pos.after e.text.toList) rest ts →
    ∃ e' ts', Scans pos (e.text.toList ++ rest) ts' ∧ Nonempty (Expression ts' e' ts) ∧
      e'.erase = e.erase ∧ e'.pos = pos
  | .literal _ n => by
    intro h hrest hscan
    exact ⟨.literal pos n, _, .token (t := .number n) h hrest hscan, ⟨.literal⟩, rfl, rfl⟩
  | .ident _ name => by
    intro h hrest hscan
    exact ⟨.ident pos name, _, .name h hrest hscan, ⟨.ident⟩, rfl, rfl⟩
  | .index _ offset array => by
    intro h hrest hscan
    obtain ⟨hoffset, harray⟩ := h
    simp only [toList_text_index, Position.after_append, List.append_assoc] at hscan ⊢
    obtain ⟨offset', ts', hscan', ⟨d⟩, herase, -⟩ := offset.scans hoffset
      (endsWord_sign .rbracket _) (.sign .rbracket (.name harray hrest hscan))
    exact ⟨.index pos offset' array, _, .sign _ hscan', ⟨.index d⟩,
      by simp only [erase, herase], rfl⟩
  | .binary _ op left right => by
    intro h hrest hscan
    obtain ⟨hleft, hright⟩ := h
    simp only [toList_text_binary, Position.after_append, Position.after_blank, List.append_assoc,
      List.cons_append] at hscan ⊢
    -- texts are scanned from their end, so the right operand comes first
    obtain ⟨right', ts₁, hscan₁, ⟨d₁⟩, hr, -⟩ := right.scans hright (endsWord_sign .rparen rest)
      (.sign .rparen hscan)
    obtain ⟨left', ts₂, hscan₂, ⟨d₂⟩, hl, -⟩ := left.scans hleft (endsWord_blank _) (.blank hscan₁)
    exact ⟨.binary pos op left' right', _, .sign _ (.spaced (t := .op op) trivial hscan₂),
      ⟨.binary d₂ d₁⟩, by simp only [erase, hl, hr], rfl⟩
  | .call _ function args => by
    intro h hrest hscan
    obtain ⟨hfunction, hargs⟩ := h
    simp only [toList_text_call, Position.after_append, List.append_assoc] at hscan ⊢
    obtain ⟨args', ts', hscan', ⟨d⟩, herase⟩ := scansArgs args hargs (endsWord_sign .rparen rest)
      (.sign .rparen hscan)
    -- without arguments the parenthesis ends the name, with arguments their first blank
    have hname := Scans.name hfunction (endsWord_argsText args (endsWord_sign .rparen rest)) hscan'
    exact ⟨.call pos function args', _, .sign _ hname, ⟨.call d⟩, by simp only [erase, herase], rfl⟩

theorem scansArgs {pos p : Position} {rest : List Char} {ts : Stream} :
    (es : List Expr) → AllWellFormed es → EndsWord rest →
    Scans (pos.after (argsText es).toList) rest (⟨p, .sign .rparen⟩ :: ts) →
    ∃ es' ts', Scans pos ((argsText es).toList ++ rest) ts' ∧ Nonempty (Arguments ts' es' ts) ∧
      eraseAll es' = eraseAll es
  | [] => fun _ _ hscan => ⟨[], _, hscan, ⟨.nil⟩, rfl⟩
  | e :: es => by
    intro h hrest hscan
    obtain ⟨he, hes⟩ := h
    simp only [toList_argsText_cons, Position.after_append, Position.after_blank,
      List.append_assoc, List.cons_append] at hscan ⊢
    obtain ⟨es', ts₁, hscan₁, ⟨d₁⟩, herase⟩ := scansArgs es hes hrest hscan
    obtain ⟨e', ts₂, hscan₂, ⟨d₂⟩, herase', -⟩ := e.scans he (endsWord_argsText es hrest) hscan₁
    exact ⟨e' :: es', _, .blank hscan₂, ⟨.cons d₂ d₁⟩, by simp only [eraseAll, herase, herase']⟩

end

end Expr

theorem Place.toList_text_elem (offset : Expr) (array : String) :
    (Place.elem offset array).text.toList = (Token.sign .lbracket).spelling.toList ++
      (offset.text.toList ++ ((Token.sign .rbracket).spelling.toList ++
        (Token.ident array).spelling.toList)) :=
  Expr.toList_text_index .start offset array

/-- The text of a target is read as this target. -/
theorem Place.scans {place : Place} (h : place.WellFormed) {pos : Position} {rest : List Char}
    {ts : Stream} (hrest : EndsWord rest) (hscan : Scans (pos.after place.text.toList) rest ts) :
    ∃ place' ts', Scans pos (place.text.toList ++ rest) ts' ∧ Nonempty (Target ts' place' ts) ∧
      place'.erase = place.erase := by
  cases place with
  | var name => exact ⟨.var name, _, .name h hrest hscan, ⟨.var⟩, rfl⟩
  | elem offset array =>
    obtain ⟨hoffset, harray⟩ := h
    simp only [toList_text_elem, Position.after_append, List.append_assoc] at hscan ⊢
    obtain ⟨offset', ts', hscan', ⟨d⟩, herase, -⟩ := offset.scans hoffset
      (endsWord_sign .rbracket _) (.sign .rbracket (.name harray hrest hscan))
    exact ⟨.elem offset' array, _, .sign _ hscan', ⟨.elem d⟩, by simp only [erase, herase]⟩

/-! ## Section 3: Statements -/

/-- The text of a name, a colon and a type. -/
theorem Scans.typed {name : String} {ty : Ty} {pos : Position} {rest : List Char} {ts : Stream}
    (hname : IsName name) (hty : ty.WellFormed) (hrest : EndsWord rest)
    (hscan : Scans (((pos.after (Token.ident name).spelling.toList).after
      (Token.sign .colon).spelling.toList).after (toString ty).toList) rest ts) :
    ∃ p₁ p₂ ts', Scans pos ((Token.ident name).spelling.toList ++
        ((Token.sign .colon).spelling.toList ++ ((toString ty).toList ++ rest)))
        (⟨p₁, .ident name⟩ :: ⟨p₂, .sign .colon⟩ :: ts') ∧ Nonempty (TypeName ts' ty ts) := by
  obtain ⟨ts', hscan', ht⟩ := Ty.scans hty hrest hscan
  exact ⟨_, _, ts', .name hname (endsWord_sign .colon _) (.sign _ hscan'), ht⟩

theorem StaticDecl.toList_text (d : StaticDecl) :
    d.text.toList = (Token.keyword .staticWord).spelling.toList ++ ' ' ::
      ((Token.ident d.name).spelling.toList ++ ((Token.sign .colon).spelling.toList ++
        (toString d.ty).toList)) := by
  simp only [text, String.toList_append, List.append_assoc]
  rfl

/-- The text of a static is read as this static. -/
theorem StaticDecl.scans {decl : StaticDecl} (h : decl.WellFormed) {pos : Position}
    {rest : List Char} {ts : Stream} (hrest : EndsWord rest)
    (hscan : Scans (pos.after decl.text.toList) rest ts) :
    ∃ decl' ts', Scans pos (decl.text.toList ++ rest) ts' ∧ Nonempty (Static ts' decl' ts) ∧
      decl'.erase = decl.erase := by
  obtain ⟨hname, hty⟩ := h
  simp only [toList_text, Position.after_append, Position.after_blank, List.append_assoc,
    List.cons_append] at hscan ⊢
  obtain ⟨p₁, p₂, ts', hscan', ⟨t⟩⟩ := Scans.typed hname hty hrest hscan
  exact ⟨{ decl with pos := pos }, _, .keyword _ hscan', ⟨.mk t⟩, rfl⟩

theorem toList_braces (depth : Nat) (inner : String) :
    (braces depth inner).toList = (Token.sign .lbrace).spelling.toList ++ '\n' ::
      (inner.toList ++
        (List.replicate (4 * depth) ' ' ++ (Token.sign .rbrace).spelling.toList)) := by
  simp only [braces, String.toList_append, List.append_assoc, toList_indent]
  rfl

namespace Statement

/-- These lines are read as these statements, up to the brace that comes after them. -/
def LinesScan (ctx : Parser.Context) (body : List Statement) (lines : List Char) : Prop :=
  ∀ {number : Nat} {p : Position} {rest : List Char} {ts : Stream},
    ScansLines ((⟨number, 1⟩ : Position).after lines).line rest (⟨p, .sign .rbrace⟩ :: ts) →
    ∃ body' ts', ScansLines number (lines ++ rest) ts' ∧ Nonempty (Stmts ctx ts' body' ts) ∧
      eraseAll body' = eraseAll body

theorem toList_linesText_cons (depth : Nat) (s : Statement) (ss : List Statement) :
    (linesText depth (s :: ss)).toList = List.replicate (4 * depth) ' ' ++
      ((s.text depth).toList ++ '\n' :: (linesText depth ss).toList) := by
  simp only [linesText, String.toList_append, List.append_assoc, toList_indent]
  rfl

/-- After whole lines, a new line starts. -/
theorem column_after_linesText (depth : Nat) (ss : List Statement) (number : Nat) :
    ((⟨number, 1⟩ : Position).after (linesText depth ss).toList).column = 1 := by
  induction ss generalizing number with
  | nil => rfl
  | cons s ss ih =>
    simp only [toList_linesText_cons, Position.after_append, Position.after_newline]
    exact ih _

/-- A block is read if its lines are. -/
theorem scansBlock {ctx : Parser.Context} {depth : Nat} {body : List Statement} {pos : Position}
    {rest : List Char} {ts : Stream}
    (hbody : LinesScan ctx body (linesText (depth + 1) body).toList)
    (hscan : Scans (pos.after (braces depth (linesText (depth + 1) body)).toList) rest ts) :
    ∃ body' ts', Scans pos ((braces depth (linesText (depth + 1) body)).toList ++ rest) ts' ∧
      Nonempty (Block ctx ts' body' ts) ∧ eraseAll body' = eraseAll body := by
  simp only [toList_braces, Position.after_append, Position.after_newline, List.append_assoc,
    List.cons_append] at hscan ⊢
  have hbrace := Scans.blanks _ (.sign .rbrace hscan)
  obtain ⟨body', ts', hscan', ⟨d⟩, herase⟩ :=
    hbody (.here (column_after_linesText (depth + 1) body _) hbrace)
  exact ⟨body', _, .sign _ (.newline hscan'), ⟨.mk d⟩, herase⟩

theorem toList_text_letVar (depth : Nat) (pos : Position) (name : String) (ty : Ty)
    (value : Expr) :
    ((Statement.letVar pos name ty value).text depth).toList =
      (Token.keyword .letWord).spelling.toList ++ ' ' :: ((Token.ident name).spelling.toList ++
        ((Token.sign .colon).spelling.toList ++ ((toString ty).toList ++ ' ' ::
          ((Token.assign .set).spelling.toList ++ ' ' :: value.text.toList)))) := by
  simp only [text, String.toList_append, List.append_assoc]
  rfl

theorem toList_text_assign (depth : Nat) (pos : Position) (op : AssignOp) (place : Place)
    (value : Expr) :
    ((Statement.assign pos op place value).text depth).toList =
      (Token.sign .lparen).spelling.toList ++ ((Token.assign op).spelling.toList ++ ' ' ::
        (place.text.toList ++ ' ' :: (value.text.toList ++
          (Token.sign .rparen).spelling.toList))) := by
  simp only [text, String.toList_append, List.append_assoc]
  rfl

theorem toList_text_ifThen (depth : Nat) (pos : Position) (cond : Expr) (yes : List Statement) :
    ((Statement.ifThen pos cond yes).text depth).toList =
      (Token.keyword .ifWord).spelling.toList ++ ' ' :: (cond.text.toList ++ ' ' ::
        (braces depth (linesText (depth + 1) yes)).toList) := by
  simp only [text, String.toList_append, List.append_assoc]
  rfl

theorem toList_text_ifElse (depth : Nat) (pos : Position) (cond : Expr)
    (yes no : List Statement) :
    ((Statement.ifElse pos cond yes no).text depth).toList =
      (Token.keyword .ifWord).spelling.toList ++ ' ' :: (cond.text.toList ++ ' ' ::
        ((braces depth (linesText (depth + 1) yes)).toList ++ ' ' ::
          ((Token.keyword .elseWord).spelling.toList ++ ' ' ::
            (if isLoneConditional no then firstText depth no
             else braces depth (linesText (depth + 1) no)).toList))) := by
  simp only [text, String.toList_append, List.append_assoc]
  rfl

theorem toList_text_forRange (depth : Nat) (pos : Position) (var : String) (w : Width)
    (start stop : Expr) (body : List Statement) :
    ((Statement.forRange pos var (.uint w) start stop body).text depth).toList =
      (Token.keyword .forWord).spelling.toList ++ ' ' :: ((Token.ident var).spelling.toList ++
        ((Token.sign .colon).spelling.toList ++ ((Token.uint w.bits).spelling.toList ++ ' ' ::
          ((Token.keyword .inWord).spelling.toList ++ ' ' :: (start.text.toList ++
            ((Token.sign .dotdot).spelling.toList ++ (stop.text.toList ++ ' ' ::
              (braces depth (linesText (depth + 1) body)).toList))))))) := by
  simp only [text, String.toList_append, List.append_assoc]
  rfl

theorem toList_text_loop (depth : Nat) (pos : Position) (body : List Statement) :
    ((Statement.loop pos body).text depth).toList =
      (Token.keyword .loopWord).spelling.toList ++ ' ' ::
        (braces depth (linesText (depth + 1) body)).toList := by
  simp only [text, String.toList_append]
  rfl

theorem toList_text_ret (depth : Nat) (pos : Position) (value : Expr) :
    ((Statement.ret pos (some value)).text depth).toList =
      (Token.keyword .returnWord).spelling.toList ++ ' ' :: value.text.toList := by
  simp only [text, String.toList_append]
  rfl

/-- An expression starts at its place, with a token that can be the value of a `return`. -/
theorem exists_first {ts rest : Stream} {e : Expr} (d : Expression ts e rest) :
    ∃ t more, ts = ⟨e.pos, t⟩ :: more ∧
      t ≠ .sign .rbrace ∧ t ≠ .sign .semicolon ∧ t ≠ .eof := by
  cases d <;> exact ⟨_, _, rfl, by simp, by simp, by simp⟩

/-- On later lines there is no value of a `return`. -/
theorem not_valueFollows {pos : Position} {number : Nat} {rest : List Char} {ts : Stream}
    (h : ScansLines number rest ts) (hnumber : pos.line < number) : ¬ ValueFollows pos ts := by
  have hle := h.line_le
  cases ts with
  | nil => exact id
  | cons t ts =>
    rintro ⟨hline, -⟩
    have := hle t List.mem_cons_self
    omega

/-- The condition and the first block of an `if`, whatever comes after them. -/
theorem scansIf {ctx : Parser.Context} {depth : Nat} {cond : Expr} {yes : List Statement}
    {pos : Position} {rest : List Char} {ts : Stream} (hcond : cond.WellFormed)
    (hyes : LinesScan ctx yes (linesText (depth + 1) yes).toList)
    (hscan : Scans (((((pos.after (Token.keyword .ifWord).spelling.toList).advance 1).after
      cond.text.toList).advance 1).after (braces depth (linesText (depth + 1) yes)).toList)
      rest ts) :
    ∃ cond' yes' ts₁ ts₂,
      Scans pos ((Token.keyword .ifWord).spelling.toList ++ ' ' :: (cond.text.toList ++ ' ' ::
        ((braces depth (linesText (depth + 1) yes)).toList ++ rest)))
        (⟨pos, .keyword .ifWord⟩ :: ts₁) ∧
      Nonempty (Expression ts₁ cond' ts₂) ∧ Nonempty (Block ctx ts₂ yes' ts) ∧
      cond'.erase = cond.erase ∧ eraseAll yes' = eraseAll yes := by
  obtain ⟨yes', ts₂, hscan₂, hblock, hy⟩ := scansBlock hyes hscan
  obtain ⟨cond', ts₁, hscan₁, hexpr, hc, -⟩ := cond.scans hcond (endsWord_blank _) (.blank hscan₂)
  exact ⟨cond', yes', ts₁, ts₂, .keyword _ hscan₁, hexpr, hblock, hc, hy⟩

mutual

/-- The text of a statement and the line end after it are read as this statement; an `if` is
    read as one. -/
theorem scans {ctx : Parser.Context} {depth : Nat} {pos : Position} {rest : List Char}
    {ts : Stream} : (s : Statement) → s.WellFormed ctx →
    ScansLines ((pos.after (s.text depth).toList).line + 1) rest ts →
    ∃ s' ts', Scans pos ((s.text depth).toList ++ '\n' :: rest) ts' ∧
      Nonempty (Stmt ctx ts' s' ts) ∧
      (s.isConditional = true → Nonempty (Conditional ctx ts' s' ts)) ∧ s'.erase = s.erase
  | .letVar _ name ty value => by
    intro ⟨hname, hty, hvalue⟩ hlines
    have hscan := Scans.newline hlines
    simp only [toList_text_letVar, Position.after_append, Position.after_blank, List.append_assoc,
      List.cons_append] at hscan ⊢
    obtain ⟨value', ts₁, hscan₁, ⟨d₁⟩, herase, -⟩ :=
      value.scans hvalue (endsWord_newline rest) hscan
    obtain ⟨p₁, p₂, ts₂, hscan₂, ⟨d₂⟩⟩ := Scans.typed hname hty (endsWord_blank _)
      (.blank (.spaced (t := .assign .set) trivial hscan₁))
    exact ⟨.letVar pos name ty value', _, .keyword _ hscan₂, ⟨.letVar d₂ d₁⟩, nofun,
      by simp only [erase, herase]⟩
  | .static decl => by
    intro ⟨hinside, hdecl⟩ hlines
    obtain ⟨decl', ts', hscan', ⟨d⟩, herase⟩ := StaticDecl.scans hdecl (endsWord_newline rest)
      (.newline hlines)
    exact ⟨.static decl', _, hscan', ⟨.static hinside d⟩, nofun, by simp only [erase, herase]⟩
  | .assign _ op place value => by
    intro ⟨hplace, hvalue⟩ hlines
    have hscan := Scans.newline hlines
    simp only [toList_text_assign, Position.after_append, Position.after_blank, List.append_assoc,
      List.cons_append] at hscan ⊢
    obtain ⟨value', ts₁, hscan₁, ⟨d₁⟩, hv, -⟩ := value.scans hvalue (endsWord_sign .rparen _)
      (.sign .rparen hscan)
    obtain ⟨place', ts₂, hscan₂, ⟨d₂⟩, hp⟩ := Place.scans hplace (endsWord_blank _) (.blank hscan₁)
    exact ⟨.assign pos op place' value', _, .sign _ (.spaced (t := .assign op) trivial hscan₂),
      ⟨.assign d₂ d₁⟩, nofun, by simp only [erase, hv, hp]⟩
  | .ifThen _ cond yes => by
    intro ⟨hcond, hyes⟩ hlines
    have hscan := Scans.newline hlines
    simp only [toList_text_ifThen, Position.after_append, Position.after_blank, List.append_assoc,
      List.cons_append] at hscan ⊢
    obtain ⟨cond', yes', ts₁, ts₂, hscan', ⟨c⟩, ⟨b⟩, hc, hy⟩ :=
      scansIf hcond (scansLines yes hyes) hscan
    exact ⟨.ifThen pos cond' yes', _, hscan', ⟨.cond (.ifThen c b)⟩, fun _ => ⟨.ifThen c b⟩,
      by simp only [erase, hc, hy]⟩
  | .ifElse _ cond yes no => by
    intro ⟨hcond, hyes, hno⟩ hlines
    -- the printer and the grammar agree on which `else` blocks lose their braces
    by_cases hlone : isLoneConditional no = true
    · simp only [toList_text_ifElse, if_pos hlone, Position.after_append, Position.after_blank,
        List.append_assoc, List.cons_append] at hlines ⊢
      obtain ⟨no', ts₀, hscan₀, ⟨n⟩, hn⟩ := scansFirst no hlone hno hlines
      obtain ⟨cond', yes', ts₁, ts₂, hscan', ⟨c⟩, ⟨b⟩, hc, hy⟩ :=
        scansIf hcond (scansLines yes hyes) (.blank (.keyword .elseWord hscan₀))
      exact ⟨.ifElse pos cond' yes' [no'], _, hscan', ⟨.cond (.elseIf c b n)⟩,
        fun _ => ⟨.elseIf c b n⟩, by simp only [erase, hc, hy, hn]⟩
    · have hscan := Scans.newline hlines
      simp only [toList_text_ifElse, if_neg hlone, Position.after_append, Position.after_blank,
        List.append_assoc, List.cons_append] at hscan ⊢
      obtain ⟨no', ts₀, hscan₀, ⟨b'⟩, hn⟩ := scansBlock (scansLines no hno) hscan
      obtain ⟨cond', yes', ts₁, ts₂, hscan', ⟨c⟩, ⟨b⟩, hc, hy⟩ :=
        scansIf hcond (scansLines yes hyes) (.blank (.keyword .elseWord hscan₀))
      exact ⟨.ifElse pos cond' yes' no', _, hscan', ⟨.cond (.ifElse c b b')⟩,
        fun _ => ⟨.ifElse c b b'⟩, by simp only [erase, hc, hy, hn]⟩
  | .forRange _ var ty start stop body => by
    intro ⟨hvar, ⟨w, hw⟩, hstart, hstop, hbody⟩ hlines
    subst hw
    -- the bound before the dots may be a number: dots are no part of it
    have hscan := Scans.newline hlines
    simp only [toList_text_forRange, Position.after_append, Position.after_blank,
      List.append_assoc, List.cons_append] at hscan ⊢
    obtain ⟨body', ts₀, hscan₀, ⟨d₀⟩, hb⟩ := scansBlock (scansLines body hbody) hscan
    obtain ⟨stop', ts₁, hscan₁, ⟨d₁⟩, hs, -⟩ := stop.scans hstop (endsWord_blank _) (.blank hscan₀)
    obtain ⟨start', ts₂, hscan₂, ⟨d₂⟩, hs', -⟩ := start.scans hstart (endsWord_sign .dotdot _)
      (.sign .dotdot hscan₁)
    have hcolon := Scans.sign .colon (.spaced w.writable (.keyword .inWord hscan₂))
    exact ⟨.forRange pos var (.uint w) start' stop' body', _,
      .keyword _ (.name hvar (endsWord_sign .colon _) hcolon),
      ⟨.forRange (.word rfl) d₂ d₁ d₀⟩, nofun, by simp only [erase, hb, hs, hs']⟩
  | .loop _ body => by
    intro hbody hlines
    have hscan := Scans.newline hlines
    simp only [toList_text_loop, Position.after_append, Position.after_blank, List.append_assoc,
      List.cons_append] at hscan ⊢
    obtain ⟨body', ts₁, hscan₁, ⟨d₁⟩, hb⟩ := scansBlock (scansLines body hbody) hscan
    exact ⟨.loop pos body', _, .keyword _ hscan₁, ⟨.loop d₁⟩, nofun, by simp only [erase, hb]⟩
  | .breakLoop _ => by
    intro hinside hlines
    exact ⟨.breakLoop pos, _, .token (t := .keyword .breakWord) trivial (endsWord_newline rest)
      (.newline hlines), ⟨.breakLoop hinside⟩, nofun, rfl⟩
  | .continueLoop _ => by
    intro hinside hlines
    exact ⟨.continueLoop pos, _, .token (t := .keyword .continueWord) trivial
      (endsWord_newline rest) (.newline hlines), ⟨.continueLoop hinside⟩, nofun, rfl⟩
  | .ret _ none => by
    intro hreturns hlines
    -- nothing but the line end keeps what follows from being a value
    have hline : pos.line < (pos.after (Token.keyword .returnWord).spelling.toList).line + 1 := by
      rw [line_after_spelling (by trivial)]
      omega
    have hbare := not_valueFollows hlines hline
    exact ⟨.ret pos none, _, .token (t := .keyword .returnWord) trivial (endsWord_newline rest)
      (.newline hlines), ⟨.bareReturn hreturns hbare⟩, nofun, rfl⟩
  | .ret _ (some value) => by
    intro ⟨hreturns, hvalue⟩ hlines
    have hscan := Scans.newline hlines
    simp only [toList_text_ret, Position.after_append, Position.after_blank, List.append_assoc,
      List.cons_append] at hscan ⊢
    obtain ⟨value', ts₁, hscan₁, ⟨d₁⟩, hv, hpos⟩ := value.scans hvalue (endsWord_newline rest) hscan
    -- the value starts where it is written, on the line of the `return`
    obtain ⟨t, more, rfl, hfirst⟩ := exists_first d₁
    have hline : value'.pos.line = pos.line := by rw [hpos]; rfl
    exact ⟨.ret pos (some value'), _, .keyword _ hscan₁,
      ⟨.valueReturn hreturns ⟨hline, hfirst⟩ d₁⟩, nofun, by simp only [erase, hv]⟩
  | .panic _ => by
    intro _ hlines
    exact ⟨.panic pos, _, .sign .panic (.newline hlines), ⟨.panic⟩, nofun, rfl⟩
  | .expr _ value => by
    intro hvalue hlines
    obtain ⟨value', ts₁, hscan₁, ⟨d₁⟩, hv, -⟩ := value.scans hvalue (endsWord_newline rest)
      (.newline hlines)
    obtain ⟨t, more, rfl, -⟩ := exists_first d₁
    exact ⟨.expr value'.pos value', _, hscan₁, ⟨.expr d₁⟩, nofun, by simp only [erase, hv]⟩

/-- The lines of a block are read as its statements. -/
theorem scansLines {ctx : Parser.Context} {depth : Nat} : (ss : List Statement) →
    AllWellFormed ctx ss → LinesScan ctx ss (linesText depth ss).toList
  | [] => by
    intro _ number p rest ts hlines
    exact ⟨[], _, hlines, ⟨.nil .none⟩, rfl⟩
  | s :: ss => by
    intro ⟨hs, hss⟩ number p rest ts hlines
    simp only [toList_linesText_cons, Position.after_append, Position.after_newline,
      List.append_assoc, List.cons_append] at hlines ⊢
    obtain ⟨ss', ts₁, hlines₁, ⟨d₁⟩, hss'⟩ := scansLines ss hss hlines
    obtain ⟨s', ts₂, hscan₂, ⟨d₂⟩, -, hs'⟩ := scans s hs hlines₁
    exact ⟨s' :: ss', _, .line (.blanks _ hscan₂), ⟨.cons .none d₂ d₁⟩,
      by simp only [eraseAll, hs', hss']⟩

/-- An `if` that is all of an `else` block is read as such. -/
theorem scansFirst {ctx : Parser.Context} {depth : Nat} {pos : Position} {rest : List Char}
    {ts : Stream} : (ss : List Statement) → isLoneConditional ss = true → AllWellFormed ctx ss →
    ScansLines ((pos.after (firstText depth ss).toList).line + 1) rest ts →
    ∃ s' ts', Scans pos ((firstText depth ss).toList ++ '\n' :: rest) ts' ∧
      Nonempty (Conditional ctx ts' s' ts) ∧ eraseAll [s'] = eraseAll ss
  | [] => nofun
  | s :: ss => by
    intro hlone ⟨hs, _⟩ hlines
    cases ss with
    | nil =>
      obtain ⟨s', ts', hscan, -, hcond, herase⟩ := scans s hs hlines
      exact ⟨s', ts', hscan, hcond hlone, by simp only [eraseAll, herase]⟩
    | cons t ss => cases hlone

end

end Statement

/-! ## Section 4: Items and programs -/

theorem toList_intercalate_cons_cons (first second : String) (others : List String) :
    (" ".intercalate (first :: second :: others)).toList =
      first.toList ++ ' ' :: (" ".intercalate (second :: others)).toList := by
  simp [String.toList_intercalate]

/-- In front of whatever members of a list are still to come, the text is read as one more. -/
def MemberScans {α : Type} (Members : Stream → List α → Stream → Type) (ts : Stream) (a : α)
    (text : List Char) : Prop :=
  ∀ {pos : Position} {rest : List Char} {as : List α} {ts₀ : Stream}, EndsWord rest →
    Scans (pos.after text) rest ts₀ → Members ts₀ as ts →
    ∃ ts', Scans pos (text ++ rest) ts' ∧ Nonempty (Members ts' (a :: as) ts)

/-- A list with blanks between its members is read if each member is. -/
theorem scansSpaced {α : Type} {text : α → String} (Members : Stream → List α → Stream → Type)
    {pos : Position} {rest : List Char} {ts₀ ts : Stream} (as : List α)
    (hmember : ∀ a ∈ as, MemberScans Members ts a (text a).toList) (hrest : EndsWord rest)
    (hscan : Scans (pos.after (" ".intercalate (as.map text)).toList) rest ts₀)
    (d : Members ts₀ [] ts) :
    ∃ ts', Scans pos ((" ".intercalate (as.map text)).toList ++ rest) ts' ∧
      Nonempty (Members ts' as ts) := by
  induction as generalizing pos with
  | nil => exact ⟨ts₀, by simpa using hscan, ⟨d⟩⟩
  | cons a as ih =>
    have hothers : ∀ b ∈ as, MemberScans Members ts b (text b).toList := fun b hb =>
      hmember b (List.mem_cons_of_mem a hb)
    cases as with
    | nil =>
      simp only [List.map_cons, List.map_nil, String.intercalate_singleton] at hscan ⊢
      exact hmember a List.mem_cons_self hrest hscan d
    | cons b bs =>
      simp only [List.map_cons, toList_intercalate_cons_cons, Position.after_append,
        Position.after_blank, List.append_assoc, List.cons_append] at hscan ih ⊢
      obtain ⟨ts', hscan', ⟨d'⟩⟩ := ih hothers hscan
      exact hmember a List.mem_cons_self (endsWord_blank _) (.blank hscan') d'

theorem ConstDecl.toList_text (c : ConstDecl) :
    c.text.toList = (Token.keyword .constWord).spelling.toList ++ ' ' ::
      ((Token.ident c.name).spelling.toList ++ ((Token.sign .colon).spelling.toList ++
        ((toString c.ty).toList ++ ' ' :: ((Token.assign .set).spelling.toList ++ ' ' ::
          ((Token.sign .lbracket).spelling.toList ++
            ((" ".intercalate (c.values.map toString)).toList ++
              (Token.sign .rbracket).spelling.toList)))))) := by
  simp only [text, String.toList_append, List.append_assoc]
  rfl

/-- The text of a constant table is read as this table. -/
theorem ConstDecl.scans {decl : ConstDecl} (h : decl.WellFormed) {pos : Position}
    {rest : List Char} {ts : Stream} (hscan : Scans (pos.after decl.text.toList) rest ts) :
    ∃ decl' ts', Scans pos (decl.text.toList ++ rest) ts' ∧ Nonempty (Const ts' decl' ts) ∧
      decl'.erase = decl.erase := by
  obtain ⟨hname, hty, hvalues⟩ := h
  simp only [toList_text, Position.after_append, Position.after_blank, List.append_assoc,
    List.cons_append] at hscan ⊢
  have hnumber : ∀ n ∈ decl.values, MemberScans Elements ts n (toString n).toList := by
    intro n hn pos rest ns ts₀ hrest hscan d
    exact ⟨_, .token (t := .number n) (hvalues n hn) hrest hscan, ⟨.cons .absent d⟩⟩
  obtain ⟨ts₁, hscan₁, ⟨d₁⟩⟩ := scansSpaced Elements decl.values hnumber
    (endsWord_sign .rbracket rest) (.sign .rbracket hscan) .nil
  obtain ⟨p₁, p₂, ts₂, hscan₂, ⟨d₂⟩⟩ := Scans.typed hname hty (endsWord_blank _)
    (.blank (.spaced (t := .assign .set) trivial (.sign .lbracket hscan₁)))
  exact ⟨{ decl with pos := pos }, _, .keyword _ hscan₂, ⟨.mk d₂ d₁⟩, rfl⟩

namespace Function

theorem toList_text (f : Function) :
    f.text.toList = (Token.keyword .fnWord).spelling.toList ++ ' ' ::
      ((Token.ident f.name).spelling.toList ++ (f.paramsText.toList ++ (f.retText.toList ++ ' ' ::
        (braces 0 (Statement.linesText 1 f.body)).toList))) := by
  simp only [text, String.toList_append, List.append_assoc]
  rfl

/-- Parameters are read, and no parameter list where there are none. -/
theorem scansParams {f : Function} (h : ∀ p ∈ f.params, p.WellFormed) {pos : Position}
    {rest : List Char} {ts : Stream} (hrest : EndsWord rest)
    (hscan : Scans (pos.after f.paramsText.toList) rest ts) :
    EndsWord (f.paramsText.toList ++ rest) ∧
    ∃ ts', Scans pos (f.paramsText.toList ++ rest) ts' ∧ Nonempty (ParamList ts' f.params ts) := by
  have hparam : ∀ p ∈ f.params, MemberScans Params ts p s!"{p.name}:{p.ty}".toList := by
    intro p hp pos rest ps ts₀ hrest hscan d
    obtain ⟨hname, hty⟩ := h p hp
    have htext : s!"{p.name}:{p.ty}".toList = (Token.ident p.name).spelling.toList ++
        ((Token.sign .colon).spelling.toList ++ (toString p.ty).toList) := by
      simp only [String.toList_append, List.append_assoc]
      rfl
    simp only [htext, Position.after_append, List.append_assoc] at hscan ⊢
    obtain ⟨p₁, p₂, ts', hscan', ⟨t⟩⟩ := Scans.typed hname hty hrest hscan
    exact ⟨_, hscan', ⟨.cons t .absent d⟩⟩
  by_cases hempty : f.params.isEmpty = true
  · have hnone : f.params = [] := List.isEmpty_iff.mp hempty
    have htext : f.paramsText.toList = [] := by
      rw [paramsText, if_pos hempty]
      rfl
    rw [htext] at hscan ⊢
    rw [hnone]
    exact ⟨hrest, ts, hscan, ⟨.absent⟩⟩
  · have htext : f.paramsText.toList = (Token.sign .lparen).spelling.toList ++
        ((" ".intercalate (f.params.map fun p => s!"{p.name}:{p.ty}")).toList ++
          (Token.sign .rparen).spelling.toList) := by
      rw [paramsText, if_neg hempty]
      simp only [String.toList_append, List.append_assoc]
      rfl
    simp only [htext, Position.after_append, List.append_assoc] at hscan ⊢
    obtain ⟨ts', hscan', ⟨d⟩⟩ := scansSpaced Params f.params hparam (endsWord_sign .rparen rest)
      (.sign .rparen hscan) .nil
    exact ⟨endsWord_sign .lparen _, _, .sign _ hscan', ⟨.present d⟩⟩

/-- A return type is read, if there is one. -/
theorem scansRet {f : Function} (h : ∀ ty ∈ f.ret, ty.WellFormed) {pos : Position}
    {rest : List Char} {ts : Stream} (hrest : EndsWord rest)
    (hscan : Scans (pos.after f.retText.toList) rest ts) :
    EndsWord (f.retText.toList ++ rest) ∧
    ∃ ts', Scans pos (f.retText.toList ++ rest) ts' ∧ Nonempty (ReturnType ts' f.ret ts) := by
  unfold retText at hscan ⊢
  cases hret : f.ret with
  | none =>
    rw [hret] at hscan
    exact ⟨hrest, ts, hscan, ⟨.absent⟩⟩
  | some ty =>
    have htext : s!":{ty}".toList =
        (Token.sign .colon).spelling.toList ++ (toString ty).toList := by
      simp only [String.toList_append]
      rfl
    rw [hret] at hscan
    simp only [htext, Position.after_append, List.append_assoc] at hscan ⊢
    obtain ⟨ts', hscan', ⟨t⟩⟩ := Ty.scans (h ty hret) hrest hscan
    exact ⟨endsWord_sign .colon _, _, .sign _ hscan', ⟨.present t⟩⟩

/-- The text of a function is read as this function. -/
theorem scans {f : Function} (h : f.WellFormed) {pos : Position} {rest : List Char} {ts : Stream}
    (hscan : Scans (pos.after f.text.toList) rest ts) :
    ∃ f' ts', Scans pos (f.text.toList ++ rest) ts' ∧ Nonempty (Fn ts' f' ts) ∧
      f'.erase = f.erase := by
  obtain ⟨hname, hparams, hret, hbody⟩ := h
  simp only [toList_text, Position.after_append, Position.after_blank, List.append_assoc,
    List.cons_append] at hscan ⊢
  obtain ⟨body', ts₁, hscan₁, ⟨d₁⟩, herase⟩ :=
    Statement.scansBlock (Statement.scansLines f.body hbody) hscan
  -- the name ends at whichever of parameters, return type and body comes first
  obtain ⟨hends₂, ts₂, hscan₂, ⟨d₂⟩⟩ := scansRet hret (endsWord_blank _) (.blank hscan₁)
  obtain ⟨hends₃, ts₃, hscan₃, ⟨d₃⟩⟩ := scansParams hparams hends₂ hscan₂
  exact ⟨{ f with body := body', pos := pos }, _, .keyword _ (.name hname hends₃ hscan₃),
    ⟨.mk d₃ d₂ d₁⟩, by simp only [erase, herase]⟩

end Function

/-- The text of an item and the line end after it are read as this item. -/
theorem Item.scans {i : Item} (h : i.WellFormed) {pos : Position} {rest : List Char} {ts : Stream}
    (hlines : ScansLines ((pos.after i.text.toList).line + 1) rest ts) :
    ∃ i' ts', Scans pos (i.text.toList ++ '\n' :: rest) ts' ∧ Nonempty (Entry ts' i' ts) ∧
      i'.erase = i.erase := by
  cases i with
  | function f =>
    obtain ⟨f', ts', hscan, ⟨d⟩, herase⟩ := Function.scans h (.newline hlines)
    exact ⟨.function f', ts', hscan, ⟨.function d⟩, by simp only [erase, herase]⟩
  | static decl =>
    obtain ⟨decl', ts', hscan, ⟨d⟩, herase⟩ := StaticDecl.scans h (endsWord_newline rest)
      (.newline hlines)
    exact ⟨.static decl', ts', hscan, ⟨.static d⟩, by simp only [erase, herase]⟩
  | const decl =>
    obtain ⟨decl', ts', hscan, ⟨d⟩, herase⟩ := ConstDecl.scans h (.newline hlines)
    exact ⟨.const decl', ts', hscan, ⟨.const d⟩, by simp only [erase, herase]⟩
  | statement s =>
    obtain ⟨s', ts', hscan, ⟨d⟩, -, herase⟩ := Statement.scans s h hlines
    exact ⟨.statement s', ts', hscan, ⟨.statement d⟩, by simp only [erase, herase]⟩

namespace Program

theorem toList_itemsText_cons (before i : Item) (is : List Item) :
    (itemsText before (i :: is)).toList =
      (if i.isFunction || before.isFunction then ['\n'] else []) ++
        (i.text.toList ++ '\n' :: (itemsText i is).toList) := by
  simp only [itemsText, String.toList_append, List.append_assoc]
  split <;> rfl

/-- The text of an item and those after it is read as these items, wherever it starts. -/
theorem scansItems {i : Item} {is : List Item} (hi : i.WellFormed) (his : ∀ j ∈ is, j.WellFormed)
    (number : Nat) :
    ∃ is' ts, ScansLines number (i.text.toList ++ '\n' :: (itemsText i is).toList) ts ∧
      Nonempty (Entries ts is' []) ∧ is'.map Item.erase = (i :: is).map Item.erase := by
  -- it is enough that the text after the line end is read, whatever line that is
  suffices hothers : ∀ n, ∃ is' ts, ScansLines n (itemsText i is).toList ts ∧
      Nonempty (Entries ts is' []) ∧ is'.map Item.erase = is.map Item.erase by
    obtain ⟨is', ts₁, hlines, ⟨d₁⟩, hrest⟩ :=
      hothers (((⟨number, 1⟩ : Position).after i.text.toList).line + 1)
    obtain ⟨i', ts₂, hscan, ⟨d₂⟩, hfirst⟩ := Item.scans hi hlines
    exact ⟨i' :: is', ts₂, .line hscan, ⟨.cons .none d₂ d₁⟩, by simp [hfirst, hrest]⟩
  intro n
  cases is with
  | nil => exact ⟨[], _, .done, ⟨.nil .none⟩, rfl⟩
  | cons j js =>
    have hj := his j List.mem_cons_self
    have hjs := fun k hk => his k (List.mem_cons_of_mem j hk)
    rw [toList_itemsText_cons]
    split
    · -- an empty line comes first
      obtain ⟨is', ts, hlines, hd, herase⟩ := scansItems hj hjs (n + 1)
      exact ⟨is', ts, .line (.newline hlines), hd, herase⟩
    · exact scansItems hj hjs n
termination_by structural is

/-- The text of a well-formed program is read as this program. -/
theorem parse_of_wellFormed {p : Program} (h : p.WellFormed) :
    ∃ q, parse p.print = .ok q ∧ q.erase = p.erase := by
  obtain ⟨items⟩ := p
  have hscan : ∃ is' ts, ScansLines 1 (print ⟨items⟩).toList ts ∧ Nonempty (Entries ts is' []) ∧
      is'.map Item.erase = items.map Item.erase := by
    cases items with
    | nil => exact ⟨[], _, .done, ⟨.nil .none⟩, rfl⟩
    | cons i is =>
      have hi := h i List.mem_cons_self
      have his := fun j hj => h j (List.mem_cons_of_mem i hj)
      have htext : (print ⟨i :: is⟩).toList = i.text.toList ++ '\n' :: (itemsText i is).toList := by
        simp only [print, String.toList_append, List.append_assoc]
        rfl
      rw [htext]
      exact scansItems hi his 1
  obtain ⟨is', ts, hlines, ⟨d⟩, herase⟩ := hscan
  have htokens := tokenize_of_scansLines hlines
  obtain ⟨init, pos, rfl, -⟩ := closed_tokenize htokens
  exact ⟨⟨is'⟩, parse_eq_ok.mpr ⟨_, htokens, ofTokens_of_derivation ⟨[], d⟩⟩,
    congrArg Program.mk herase⟩

/-- Texts and well-formed programs correspond.  What is read from a text is well-formed, and a
    well-formed program is read again from its canonical text, up to the places in it.  So
    printing what was read from a canonical text gives this text. -/
theorem parse_print :
    (∀ source p, parse source = .ok p → p.WellFormed) ∧
    (∀ p : Program, p.WellFormed →
      ∃ q, parse p.print = .ok q ∧ q.erase = p.erase ∧ q.print = p.print) := by
  refine ⟨fun source p h => wellFormed_of_parse h, fun p h => ?_⟩
  obtain ⟨q, hq, herase⟩ := parse_of_wellFormed h
  refine ⟨q, hq, herase, ?_⟩
  calc q.print = q.erase.print := q.print_erase.symm
    _ = p.erase.print := by rw [herase]
    _ = p.print := p.print_erase

/-- A text with few blanks, with commas and semicolons that could be left out, and a comment. -/
def crampedText : String :=
  "fn f(a:u8,):u8\x7bstatic n:[u8 2](+=[a]n 0x1F)if a\x7breturn[0]n\x7delse if(f 0)\x7b!!\x7d\x7d;;"
    ++ "(f 1)//end"

/-- The canonical text of its program. -/
def crampedLaidOut : String :=
  "fn f(a:u8):u8 \x7b\n    static n:[u8 2]\n    (+= [a]n 31)\n    if a \x7b\n"
    ++ "        return [0]n\n    \x7d else if (f 0) \x7b\n        !!\n    \x7d\n\x7d\n\n(f 1)\n"

/-- Its program is well-formed, and is read again from the canonical text. -/
theorem parse_print_cramped :
    ∃ p, parse crampedText = .ok p ∧ p.WellFormed ∧ p.print = crampedLaidOut ∧
      ∃ q, parse crampedLaidOut = .ok q ∧ q.erase = p.erase ∧ q.print = crampedLaidOut := by
  obtain ⟨hread, hprinted⟩ := parse_print
  have hprints : (parse crampedText).toOption.map print = some crampedLaidOut := by
    decide +kernel
  cases hparse : parse crampedText with
  | error e =>
    rw [hparse] at hprints
    cases hprints
  | ok p =>
    rw [hparse] at hprints
    have hlaidOut : p.print = crampedLaidOut := Option.some.inj hprints
    have hwf : p.WellFormed := hread _ p hparse
    obtain ⟨q, hq, herase, hsame⟩ := hprinted p hwf
    rw [hlaidOut] at hq hsame
    exact ⟨p, rfl, hwf, hlaidOut, q, hq, herase, hsame⟩

end Program

end WordLang
