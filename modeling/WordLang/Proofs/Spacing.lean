import WordLang.Proofs.Lexemes
import WordLang.Proofs.Relocation

/-! # Texts side by side

    A line can be divided before a character that starts something new: one
    that is in no sign and that does not go on with a word.  A lexeme that
    ends before it stays what it is whatever comes after, and so does a place
    where nothing can stand.  So the line is cut into the tokens of its two
    parts, those of the second part moved to the right; only a comment in the
    first part would hide the second.

    A blank divides every line.  Tokens that are written with blanks between
    them are therefore read again, one by one. -/

namespace WordLang

open Text

/-! ## Section 1: Where a line can be divided -/

/-- What stands at the front of a text and does not hold some character stands there without this
    character and all that follows it. -/
theorem isPrefix_of_append_cons {text cs more : List Char} {x : Char} (hx : x ∉ text)
    (h : text <+: cs ++ x :: more) : text <+: cs := by
  rcases List.prefix_or_prefix_of_prefix h (List.prefix_append cs (x :: more)) with h' | h'
  · exact h'
  · obtain ⟨rest, rfl⟩ := h'
    have hrest : rest <+: x :: more := (List.prefix_append_right_inj cs).mp h
    cases rest with
    | nil => exact (List.append_nil cs).symm ▸ List.prefix_rfl
    | cons c rest =>
      obtain rfl : c = x := (List.cons_prefix_cons.mp hrest).1
      exact absurd (List.mem_append_right cs List.mem_cons_self) hx

/-- After the line the character starts something new: it is in no sign, and it is not part of a
    word that the line ends with. -/
structure Divides (line : List Char) (x : Char) : Prop where
  noSign : ∀ t : Token, t.isSign = true → x ∉ t.spelling.toList
  noWord : ∀ c ∈ line.getLast?, isWordPart c = true → isWordPart x = false

theorem isWordPart_of_mem_number {c : Char} {cs : List Char} (hc : c.isDigit = true)
    (hcs : ∀ d ∈ cs, isWordPart d = true) : ∀ d ∈ c :: cs, isWordPart d = true :=
  List.forall_mem_cons.mpr ⟨isWordPart_of_isDigit hc, hcs⟩

/-- No sign has a character that the table of signs does not have. -/
theorem not_mem_sign {x : Char} (h : ∀ s ∈ signs, x ∉ s.1) (t : Token) (ht : t.isSign = true) :
    x ∉ t.spelling.toList :=
  h _ (mem_signs_iff.mpr ⟨ht, rfl⟩)

theorem divides_blank (line : List Char) : Divides line ' ' :=
  ⟨not_mem_sign (by decide), fun _ _ _ => by decide⟩

namespace Divides

variable {x : Char}

/-- What divides a line from what follows divides every end of it from that. -/
theorem of_append {before line : List Char} (h : Divides (before ++ line) x) : Divides line x := by
  refine ⟨h.noSign, fun c hc => h.noWord c ?_⟩
  rw [Option.mem_def] at hc ⊢
  rw [List.getLast?_append, hc]
  rfl

theorem ne_slash {line : List Char} (h : Divides line x) : x ≠ '/' := by
  rintro rfl
  exact h.noSign (.op .div) rfl (by decide)

/-- A word still ends where it ended. -/
theorem endsWord {word rest : List Char} (h : Divides (word ++ rest) x) (hne : word ≠ [])
    (hword : ∀ c ∈ word, isWordPart c = true) (hrest : EndsWord rest) (more : List Char) :
    EndsWord (rest ++ x :: more) := by
  cases rest with
  | cons d rest => exact hrest
  | nil =>
    -- the line ends with the word, so the character is not part of it
    intro c hc
    obtain rfl : x = c := Option.some.inj hc
    rw [List.append_nil] at h
    exact h.noWord _ (List.getLast?_eq_some_getLast hne) (hword _ (List.getLast_mem hne))

end Divides

section

variable {x : Char} (more : List Char)

theorem IsLongestSign.append {t : Token} {cs : List Char} (h : IsLongestSign t cs)
    (hx : Divides cs x) : IsLongestSign t (cs ++ x :: more) := by
  refine ⟨h.isSign, h.front.trans (List.prefix_append cs _), fun t' hsign hfront => ?_⟩
  exact h.longest t' hsign (isPrefix_of_append_cons (hx.noSign t' hsign) hfront)

theorem Lexeme.append {text rest : List Char} {t : Token} (h : Lexeme text t rest)
    (hx : Divides (text ++ rest) x) : Lexeme text t (rest ++ x :: more) := by
  cases h with
  | word starts parts ends token =>
    have hword := isWordPart_of_mem_word starts parts
    exact .word starts parts (hx.endsWord (List.cons_ne_nil _ _) hword ends more) token
  | number starts parts ends value below =>
    have hword := isWordPart_of_mem_number starts parts
    exact .number starts parts (hx.endsWord (List.cons_ne_nil _ _) hword ends more) value below
  | sign longest noComment =>
    have hlongest := longest.append more hx
    rw [List.append_assoc] at hlongest
    refine .sign hlongest (fun hcomment => noComment ?_)
    rw [← List.append_assoc] at hcomment
    exact isPrefix_of_append_cons (by simpa using hx.ne_slash) hcomment

theorem Unlexable.append {cs : List Char} {cause : LexCause} (h : Unlexable cs cause)
    (hx : Divides cs x) : Unlexable (cs ++ x :: more) cause := by
  cases h with
  | number starts parts ends noValue =>
    have hword := isWordPart_of_mem_number starts parts
    rw [List.append_assoc]
    exact .number starts parts (hx.endsWord (List.cons_ne_nil _ _) hword ends more) noValue
  | char notBlank notDigit notWord noSign =>
    refine .char notBlank notDigit notWord (fun t hsign hfront => noSign t hsign ?_)
    exact isPrefix_of_append_cons (hx.noSign t hsign) hfront

theorem Splits.append {line rest : List Char} {ps : List Piece} (h : Splits line ps rest)
    (hx : Divides line x) : Splits (line ++ x :: more) ps (rest ++ x :: more) := by
  induction h with
  | done => exact .done
  | @blank c cs rest ps blank next ih =>
    have hcs : Divides ([c] ++ cs) x := hx
    exact .blank blank (ih hcs.of_append)
  | lexeme lexeme next ih =>
    rw [List.append_assoc]
    exact .lexeme (lexeme.append more hx) (ih hx.of_append)

end

/-! ## Section 2: The same text further to the right -/

/-- What is found on a line that starts with these tokens in so many characters and then goes on
    with a text of which this is known. -/
def followedBy (first : List (Located Token)) (width : Nat) :
    Except LexError (List (Located Token)) → Except LexError (List (Located Token))
  | .ok ts => .ok (first ++ ts.map (Located.relocate (·.advance width)))
  | .error e => .error (e.relocate (·.advance width))

theorem Position.advance_comm (pos : Position) (m n : Nat) :
    (pos.advance m).advance n = (pos.advance n).advance m := by
  simp only [Position.advance, Nat.add_right_comm]

/-- Cutting a text does not depend on its column, nor on the tokens before it. -/
theorem tokenizeFrom_advance (width : Nat) (pos : Position) (cs : List Char)
    (first found : List (Located Token)) :
    tokenizeFrom (pos.advance width) cs
        (found.map (Located.relocate (·.advance width)) ++ first.reverse) =
      followedBy first width (tokenizeFrom pos cs found) := by
  fun_induction tokenizeFrom pos cs found with
  | case1 pos cs found hfront =>
    rw [tokenizeFrom_stop hfront]
    simp [followedBy]
  | case2 pos cs found rest hfront hlt ih =>
    rw [tokenizeFrom_blank hfront, Position.advance_comm]
    exact ih
  | case3 pos cs found t size rest hfront hlt ih =>
    rw [tokenizeFrom_token hfront, Position.advance_comm]
    exact ih
  | case4 pos cs found cause hfront =>
    rw [tokenizeFrom_bad hfront]
    rfl

/-- What follows what follows. -/
theorem followedBy_followedBy (first second : List (Located Token)) (width width' : Nat)
    (rest : Except LexError (List (Located Token))) :
    followedBy first width (followedBy second width' rest) =
      followedBy (first ++ second.map (Located.relocate (·.advance width))) (width + width')
        rest := by
  have hadvance : ∀ {α : Type} (l : Located α),
      (l.relocate (·.advance width')).relocate (·.advance width) =
        l.relocate (·.advance (width + width')) := by
    intro α l
    simp only [Located.relocate, Position.advance, Nat.add_assoc, Nat.add_comm width']
  cases rest with
  | error e => simp [followedBy, hadvance]
  | ok ts => simp [followedBy, hadvance]

section

variable {cs rest : List Char} (number : Nat)

/-- A line that starts with a blank. -/
theorem tokenizeLine_blank (h : front cs = .blank rest) :
    tokenizeLine number cs = followedBy [] 1 (tokenizeLine number rest) := by
  rw [tokenizeLine, tokenizeFrom_blank h]
  exact tokenizeFrom_advance 1 ⟨number, 1⟩ rest [] []

/-- A line that starts with a token. -/
theorem tokenizeLine_token {t : Token} {size : Nat} (h : front cs = .token t size rest) :
    tokenizeLine number cs = followedBy [⟨⟨number, 1⟩, t⟩] size (tokenizeLine number rest) := by
  rw [tokenizeLine, tokenizeFrom_token h]
  exact tokenizeFrom_advance size ⟨number, 1⟩ rest [⟨⟨number, 1⟩, t⟩] []

end

/-! ## Section 3: Lines that are divided -/

/-- A line that can be cut splits up to its end, unless a comment ends it. -/
theorem splits_of_tokenizeLine {number : Nat} {line : List Char} {ts : List (Located Token)}
    (h : tokenizeLine number line = .ok ts) (hcomment : ¬ ['/', '/'] <:+: line) :
    ∃ ps, Splits line ps [] ∧ ts = (lexemesFrom number [] ps).map tokenAt := by
  obtain ⟨ps, rest, hsplits, hends | ⟨cause, hbad⟩⟩ := exists_splits line
  · have hcut := LineSplits.tokenizeLine_eq ⟨rest, hsplits, hends⟩ number
    rw [h] at hcut
    have hrest : rest = [] := by
      refine hends.resolve_right (fun hslashes => hcomment ?_)
      rw [hsplits.eq_append]
      exact hslashes.isInfix.trans (List.suffix_append _ rest).isInfix
    exact ⟨ps, hrest ▸ hsplits, Except.ok.inj hcut⟩
  · rw [hsplits.tokenizeLine_error hbad] at h
    cases h

/-- A line that is divided has the tokens before the character, then those from there on. -/
theorem tokenizeLine_append {number : Nat} {line : List Char} {ts : List (Located Token)}
    (h : tokenizeLine number line = .ok ts) (hcomment : ¬ ['/', '/'] <:+: line) {x : Char}
    (hx : Divides line x) (more : List Char) :
    tokenizeLine number (line ++ x :: more) =
      followedBy ts line.length (tokenizeLine number (x :: more)) := by
  obtain ⟨ps, hsplits, rfl⟩ := splits_of_tokenizeLine h hcomment
  have htext : Piece.textOf ps = line := by
    rw [hsplits.eq_append, List.append_nil]
  have hcut := (hsplits.append more hx).tokenizeFrom_eq number [] []
  rw [List.nil_append, List.nil_append, List.append_nil, htext] at hcut
  have hmoved := tokenizeFrom_advance line.length ⟨number, 1⟩ (x :: more)
    ((lexemesFrom number [] ps).map tokenAt) []
  rw [tokenizeLine, tokenizeLine, ← hmoved]
  simpa [Position.advance, Nat.add_comm] using hcut

/-- A line with a blank in it has the tokens before the blank, then those after it. -/
theorem tokenizeLine_append_blank {number : Nat} {line : List Char} {ts : List (Located Token)}
    (h : tokenizeLine number line = .ok ts) (hcomment : ¬ ['/', '/'] <:+: line)
    (more : List Char) :
    tokenizeLine number (line ++ ' ' :: more) =
      followedBy ts (line.length + 1) (tokenizeLine number more) := by
  rw [tokenizeLine_append h hcomment (divides_blank line), tokenizeLine_blank number rfl,
    followedBy_followedBy]
  simp

/-- A comment after a blank changes nothing, whatever is before it. -/
theorem tokenizeLine_append_comment (number : Nat) (line comment : List Char) :
    tokenizeLine number (line ++ ' ' :: '/' :: '/' :: comment) = tokenizeLine number line := by
  obtain ⟨ps, rest, hsplits, hends | ⟨cause, hbad⟩⟩ := exists_splits line
  · have hline := LineSplits.tokenizeLine_eq ⟨rest, hsplits, hends⟩ number
    have hmore := hsplits.append ('/' :: '/' :: comment) (divides_blank line)
    rcases hends with rfl | hslashes
    -- the line is over, and after one more blank it is over again
    · have hcut := hmore.tokenizeFrom_eq number [] []
      have hblank : front ([] ++ ' ' :: '/' :: '/' :: comment) = .blank ('/' :: '/' :: comment) :=
        rfl
      have hstop : front ('/' :: '/' :: comment) = .stop := rfl
      rw [tokenizeFrom_blank hblank, tokenizeFrom_stop hstop] at hcut
      rw [hline]
      simpa [tokenizeLine] using hcut
    · have hends' : EndsLine (rest ++ ' ' :: '/' :: '/' :: comment) :=
        .inr (hslashes.trans (List.prefix_append rest _))
      rw [hline]
      exact LineSplits.tokenizeLine_eq ⟨_, hmore, hends'⟩ number
  · have hmore := hsplits.append ('/' :: '/' :: comment) (divides_blank line)
    rw [hsplits.tokenizeLine_error hbad]
    exact hmore.tokenizeLine_error (hbad.append _ (divides_blank rest)) number

/-! ## Section 4: Tokens with blanks between them -/

/-- Tokens that some line has. -/
def Token.Found (t : Token) : Prop :=
  ∃ number line ts, tokenizeLine number line = .ok ts ∧ ∃ l ∈ ts, l.item = t

/-- Some tokens as they are written, with a blank between each two. -/
def spaced (ts : List Token) : String := " ".intercalate (ts.map Token.spelling)

/-- A token on a line of its own. -/
theorem tokenizeLine_spelling {t : Token} (h : t.Writable) (number : Nat) :
    tokenizeLine number t.spelling.toList = .ok [⟨⟨number, 1⟩, t⟩] := by
  have hends : t.EndsBefore [] := by cases t <;> simp [Token.EndsBefore, EndsWord]
  have hfront := front_spelling h hends
  rw [List.append_nil] at hfront
  rw [tokenizeLine, tokenizeFrom_token hfront, tokenizeFrom_stop rfl]
  rfl

theorem IsWordToken.writable {word : List Char} {t : Token} (h : IsWordToken word t) :
    t.Writable := by
  induction h with
  | keyword k => trivial
  | width written => exact Nat.min_le_right _ _
  | name free => exact free

theorem Lexeme.writable {text rest : List Char} {t : Token} (h : Lexeme text t rest) :
    t.Writable := by
  cases h with
  | word starts parts ends token => exact token.writable
  | number starts parts ends value below => exact below
  | sign longest noComment =>
    have hsign := longest.isSign
    cases t with
    | sign s => trivial
    | op o => trivial
    | assign o => trivial
    | _ => cases hsign

/-- The tokens that lines have are those that can be written. -/
theorem Token.found_iff_writable (t : Token) : t.Found ↔ t.Writable := by
  constructor
  · rintro ⟨number, line, ts, hline, l, hl, rfl⟩
    obtain ⟨ps, rest, hsplits, hends | ⟨cause, hbad⟩⟩ := exists_splits line
    · rw [LineSplits.tokenizeLine_eq ⟨rest, hsplits, hends⟩] at hline
      cases hline
      obtain ⟨lexeme, hlexeme, rfl⟩ := List.mem_map.mp hl
      obtain ⟨_, _, -, -, hwritten⟩ := hsplits.written hlexeme
      exact hwritten.writable
    · rw [hsplits.tokenizeLine_error hbad] at hline
      cases hline
  · intro h
    exact ⟨1, t.spelling.toList, _, tokenizeLine_spelling h 1, _, List.mem_singleton_self _, rfl⟩

/-- Words and numbers are written in word characters. -/
theorem isWordPart_of_mem_spelling {t : Token} (h : t.Writable) (hsign : t.isSign = false) :
    ∀ c ∈ t.spelling.toList, isWordPart c = true := by
  have hword : ∀ {c cs}, t.spelling.toList = c :: cs → isWordStart c = true →
      (∀ d ∈ cs, isWordPart d = true) → ∀ d ∈ t.spelling.toList, isWordPart d = true := by
    intro c cs heq hc hcs
    rw [heq]
    exact isWordPart_of_mem_word hc hcs
  have hdigits : ∀ n, ∀ d ∈ Nat.toDigits 10 n, isWordPart d = true := fun n d hd =>
    isWordPart_of_isDigit (isDigit_of_mem_toDigits hd)
  cases t with
  | ident name =>
    obtain ⟨c, cs, hname, hc, hcs⟩ := h.word
    exact hword hname hc hcs
  | number n =>
    rw [toList_number]
    exact hdigits n
  | uint bits => exact hword (toList_uint bits) (by decide) (hdigits bits)
  | keyword k =>
    obtain ⟨c, cs, hk, hc, hcs⟩ := keyword_word k
    exact hword hk hc hcs
  | eof => cases h
  | _ => cases hsign

/-- No token is written with two slashes. -/
theorem no_comment_in_spelling {t : Token} (h : t.Writable) :
    ¬ ['/', '/'] <:+: t.spelling.toList := by
  intro hslashes
  cases hsign : t.isSign with
  | true =>
    have hall : ∀ s ∈ signs, ¬ ['/', '/'] <:+: s.1 := by decide
    exact hall _ (mem_signs_iff.mpr ⟨hsign, rfl⟩) hslashes
  | false =>
    have hslash : '/' ∈ t.spelling.toList := hslashes.subset List.mem_cons_self
    exact absurd (isWordPart_of_mem_spelling h hsign '/' hslash) (by decide)

theorem toList_spaced_cons (t u : Token) (us : List Token) :
    (spaced (t :: u :: us)).toList = t.spelling.toList ++ ' ' :: (spaced (u :: us)).toList := by
  simp [spaced, String.toList_intercalate]

/-- Tokens with blanks between them are read again. -/
theorem tokenizeLine_spaced {ts : List Token} (h : ∀ t ∈ ts, t.Writable) (number : Nat) :
    ∃ found, tokenizeLine number (spaced ts).toList = .ok found ∧ found.map Located.item = ts := by
  induction ts with
  | nil => exact ⟨[], tokenizeFrom_stop rfl, rfl⟩
  | cons t ts ih =>
    have ht := h t List.mem_cons_self
    have hone := tokenizeLine_spelling ht number
    cases ts with
    | nil =>
      refine ⟨[⟨⟨number, 1⟩, t⟩], ?_, rfl⟩
      simpa [spaced] using hone
    | cons u us =>
      obtain ⟨found, hfound, hitems⟩ := ih (fun v hv => h v (List.mem_cons_of_mem t hv))
      have hline := tokenizeLine_append_blank hone (no_comment_in_spelling ht)
        (spaced (u :: us)).toList
      rw [← toList_spaced_cons, hfound] at hline
      refine ⟨_, hline, ?_⟩
      -- moving the tokens to the right does not change them
      have hmoved : (found.map (Located.relocate (·.advance (t.spelling.toList.length + 1)))).map
          Located.item = found.map Located.item := by
        rw [List.map_map]
        rfl
      rw [List.map_append, hmoved, hitems]
      rfl

theorem newline_not_mem_spaced {ts : List Token} (h : ∀ t ∈ ts, t.Writable) :
    '\n' ∉ (spaced ts).toList := by
  induction ts with
  | nil => exact List.not_mem_nil
  | cons t ts ih =>
    have ht := (not_mem_spelling (h t List.mem_cons_self)).1
    cases ts with
    | nil => simpa [spaced] using ht
    | cons u us =>
      have hrest := ih (fun v hv => h v (List.mem_cons_of_mem t hv))
      rw [toList_spaced_cons]
      simp [ht, hrest]

/-- A text without line ends is one line, or none if it is empty. -/
theorem linesFrom_of_not_mem {cs : List Char} (h : '\n' ∉ cs) (read : List Char) :
    linesFrom read cs = if (read.reverse ++ cs).isEmpty then [] else [read.reverse ++ cs] := by
  induction cs generalizing read with
  | nil => simp [linesFrom]
  | cons c cs ih =>
    obtain ⟨hc, hcs⟩ : ¬ '\n' = c ∧ '\n' ∉ cs := by simpa using h
    rw [linesFrom, if_neg (Ne.symm hc), ih hcs]
    simp

theorem tokenize_of_tokenizeLine {source : String} {found : List (Located Token)}
    (hline : '\n' ∉ source.toList) (h : tokenizeLine 1 source.toList = .ok found) :
    ∃ pos, tokenize source = .ok (found ++ [⟨pos, .eof⟩]) := by
  have hlines : lines source.toList = if source.toList.isEmpty then [] else [source.toList] :=
    linesFrom_of_not_mem hline []
  rw [tokenize, hlines]
  split
  · next hempty =>
    rw [List.isEmpty_iff.mp hempty] at h
    cases (tokenizeFrom_stop rfl).symm.trans h
    exact ⟨⟨1, 1⟩, rfl⟩
  · refine ⟨⟨2, 1⟩, ?_⟩
    rw [tokenizeLines, h]
    rfl

/-! ## Section 5: The law -/

/-- A blank divides a line into two that can be cut apart.  A line without a comment that can be
    cut, a blank and any other line give the tokens of the one and then those of the other, moved to
    the right by the length of the first and one more; or the other's error, moved alike.  A comment
    after a blank changes nothing, whatever stands before it.  The tokens that lines have are those
    that can be written, and any of them, written with a blank between each two, are read again as
    they were, on a line of any number and as a text. -/
theorem tokens_join_at_blanks (number : Nat) :
    (∀ line more ts, tokenizeLine number line = .ok ts → ¬ ['/', '/'] <:+: line →
      tokenizeLine number (line ++ ' ' :: more) =
        followedBy ts (line.length + 1) (tokenizeLine number more)) ∧
    (∀ line comment,
      tokenizeLine number (line ++ ' ' :: '/' :: '/' :: comment) = tokenizeLine number line) ∧
    (∀ t : Token, t.Found ↔ t.Writable) ∧
    (∀ ts : List Token, (∀ t ∈ ts, t.Found) →
      (∃ found, tokenizeLine number (spaced ts).toList = .ok found ∧
        found.map Located.item = ts) ∧
      ∃ found pos, tokenize (spaced ts) = .ok (found ++ [⟨pos, .eof⟩]) ∧
        found.map Located.item = ts) := by
  refine ⟨fun line more ts h hcomment => tokenizeLine_append_blank h hcomment more,
    tokenizeLine_append_comment number, Token.found_iff_writable, fun ts hts => ?_⟩
  have hwritable : ∀ t ∈ ts, t.Writable := fun t ht => t.found_iff_writable.mp (hts t ht)
  refine ⟨tokenizeLine_spaced hwritable number, ?_⟩
  obtain ⟨found, hfound, hitems⟩ := tokenizeLine_spaced hwritable 1
  obtain ⟨pos, htext⟩ := tokenize_of_tokenizeLine (newline_not_mem_spaced hwritable) hfound
  exact ⟨found, pos, htext, hitems⟩

/-- A blank keeps the characters of an operator apart, and two slashes are then no comment. -/
theorem tokens_join_at_blanks_lessEqual :
    tokenizeLine 3 ['<'] = .ok [⟨⟨3, 1⟩, .op .lt⟩] ∧
    tokenizeLine 3 ['<', ' ', '='] = .ok [⟨⟨3, 1⟩, .op .lt⟩, ⟨⟨3, 3⟩, .assign .set⟩] ∧
    tokenizeLine 3 ['<', ' ', '/', '/', '='] = .ok [⟨⟨3, 1⟩, .op .lt⟩] ∧
    ∃ found, tokenizeLine 3 (spaced [.op .div, .op .div]).toList = .ok found ∧
      found.map Located.item = [.op .div, .op .div] := by
  obtain ⟨hjoin, hcomment, hfound, hspaced⟩ := tokens_join_at_blanks 3
  have hless : tokenizeLine 3 ['<'] = .ok [⟨⟨3, 1⟩, .op .lt⟩] :=
    tokenizeLine_spelling (t := .op .lt) trivial 3
  have hset : tokenizeLine 3 ['='] = .ok [⟨⟨3, 1⟩, .assign .set⟩] :=
    tokenizeLine_spelling (t := .assign .set) trivial 3
  refine ⟨hless, ?_, (hcomment ['<'] ['=']).trans hless, (hspaced _ ?_).1⟩
  · have hline := hjoin ['<'] ['='] _ hless (by decide)
    rw [hset] at hline
    exact hline
  · intro t ht
    obtain rfl : t = .op .div := by simpa using ht
    exact (hfound _).mpr trivial

end WordLang
