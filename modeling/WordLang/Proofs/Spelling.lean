import Mathlib.Data.List.Chain
import WordLang.Proofs.Lexing

/-! # Reading back what is written

    A token that is written down is read as that token again, provided that
    what follows does not run into it: words and numbers must not be followed
    by a letter or digit, operators must be followed by a blank.  Signs that
    no longer sign starts with can be followed by anything.

    `Scans` says of a text made of such tokens, of blanks and of line ends
    which tokens it has and where.  It is put together from the end of the
    text to its start, the way texts are written out in proofs; that it
    agrees with cutting the text line by line is proved once, here. -/

namespace WordLang

open Text

/-! ## Section 1: Classes of characters -/

namespace Text

/-- It is enough to compare each range with the next one. -/
theorem Increasing.of_isChain {ranges : List (Nat × Nat)} (hle : ∀ r ∈ ranges, r.1 ≤ r.2)
    (hchain : ranges.IsChain (fun r s => r.2 < s.1 ∧ s.1 ≤ s.2)) : Increasing ranges := by
  have htrans : Trans (fun r s : Nat × Nat => r.2 < s.1 ∧ s.1 ≤ s.2)
      (fun r s : Nat × Nat => r.2 < s.1 ∧ s.1 ≤ s.2)
      (fun r s : Nat × Nat => r.2 < s.1 ∧ s.1 ≤ s.2) := ⟨fun hrs hst => by omega⟩
  exact ⟨hle, hchain.pairwise.imp And.left⟩

theorem increasing_alphabeticRanges : Increasing alphabeticRanges :=
  .of_isChain (by decide +kernel) (by decide +kernel)

theorem increasing_numericRanges : Increasing numericRanges :=
  .of_isChain (by decide +kernel) (by decide +kernel)

theorem increasing_blankRanges : Increasing blankRanges :=
  .of_isChain (by decide) (by decide)

theorem increasing_digits : Increasing [(48, 57)] := .of_isChain (by decide) (by decide)

/-- Ranges of which none meets one of the others. -/
def Disjoint (ranges others : List (Nat × Nat)) : Prop :=
  ∀ r ∈ ranges, ∀ s ∈ others, r.2 < s.1 ∨ s.2 < r.1

instance (ranges others : List (Nat × Nat)) : Decidable (Disjoint ranges others) :=
  inferInstanceAs (Decidable (∀ r ∈ ranges, ∀ s ∈ others, r.2 < s.1 ∨ s.2 < r.1))

theorem Disjoint.inRanges_eq_false {ranges others : List (Nat × Nat)} {code : Nat}
    (hdisj : Disjoint ranges others) (hranges : Increasing ranges) (hothers : Increasing others)
    (h : inRanges ranges code = true) : inRanges others code = false := by
  rw [Bool.eq_false_iff, Ne, inRanges_iff hothers]
  rintro ⟨s, hs, hlow', hhigh'⟩
  obtain ⟨r, hr, hlow, hhigh⟩ := (inRanges_iff hranges code).mp h
  have := hdisj r hr s hs
  omega

theorem toNat_of_isDigit {c : Char} (h : c.isDigit = true) : 48 ≤ c.toNat ∧ c.toNat ≤ 57 := by
  simpa [Char.isDigit, UInt32.le_iff_toNat_le] using h

/-- The decimal digits are a range of their own. -/
theorem inRanges_of_isDigit {c : Char} (h : c.isDigit = true) :
    inRanges [(48, 57)] c.toNat = true :=
  (inRanges_iff increasing_digits c.toNat).mpr ⟨_, List.mem_singleton_self _, toNat_of_isDigit h⟩

theorem not_isBlank_of_isDigit {c : Char} (h : c.isDigit = true) : isBlank c = false :=
  Disjoint.inRanges_eq_false (by decide) increasing_digits increasing_blankRanges
    (inRanges_of_isDigit h)

theorem not_isAlphabetic_of_isDigit {c : Char} (h : c.isDigit = true) : isAlphabetic c = false :=
  Disjoint.inRanges_eq_false (by decide +kernel) increasing_digits increasing_alphabeticRanges
    (inRanges_of_isDigit h)

theorem not_isAlphabetic_of_isBlank {c : Char} (h : isBlank c = true) : isAlphabetic c = false :=
  Disjoint.inRanges_eq_false (by decide +kernel) increasing_blankRanges increasing_alphabeticRanges
    h

/-- The decimal digits are among the numeric characters. -/
theorem isNumeric_of_isDigit {c : Char} (h : c.isDigit = true) : isNumeric c = true :=
  (inRanges_iff increasing_numericRanges c.toNat).mpr
    ⟨(48, 57), List.mem_cons_self, toNat_of_isDigit h⟩

end Text

theorem not_isDigit_of_isWordStart {c : Char} (h : isWordStart c = true) : c.isDigit = false := by
  rw [Bool.eq_false_iff]
  intro hdigit
  have halpha := not_isAlphabetic_of_isDigit hdigit
  simp only [isWordStart, halpha, Bool.false_or, beq_iff_eq] at h
  subst h
  cases hdigit

theorem not_isBlank_of_isWordStart {c : Char} (h : isWordStart c = true) : isBlank c = false := by
  rw [Bool.eq_false_iff]
  intro hblank
  have halpha := not_isAlphabetic_of_isBlank hblank
  simp only [isWordStart, halpha, Bool.false_or, beq_iff_eq] at h
  subst h
  cases hblank

theorem isWordPart_of_isDigit {c : Char} (h : c.isDigit = true) : isWordPart c = true := by
  simp [isWordPart, isNumeric_of_isDigit h]

theorem isWordPart_of_isWordStart {c : Char} (h : isWordStart c = true) : isWordPart c = true := by
  simp only [isWordStart, Bool.or_eq_true] at h
  simp only [isWordPart, Bool.or_eq_true]
  rcases h with h | h
  · exact .inl (.inl h)
  · exact .inr h

theorem isWordPart_of_mem_word {c : Char} {cs : List Char} (hc : isWordStart c = true)
    (hcs : ∀ d ∈ cs, isWordPart d = true) : ∀ d ∈ c :: cs, isWordPart d = true := by
  intro d hd
  rcases List.mem_cons.mp hd with rfl | hd
  · exact isWordPart_of_isWordStart hc
  · exact hcs d hd

/-- A word ends where no character follows that could be part of it. -/
def EndsWord (rest : List Char) : Prop := ∀ c ∈ rest.head?, isWordPart c = false

theorem takeWhile_of_endsWord {word rest : List Char} (hword : ∀ c ∈ word, isWordPart c = true)
    (hrest : EndsWord rest) : (word ++ rest).takeWhile isWordPart = word := by
  rw [List.takeWhile_append_of_pos hword]
  cases rest with
  | nil => simp
  | cons c rest => simp [hrest c rfl]

theorem dropWhile_of_endsWord {word rest : List Char} (hword : ∀ c ∈ word, isWordPart c = true)
    (hrest : EndsWord rest) : (word ++ rest).dropWhile isWordPart = rest := by
  rw [List.dropWhile_append_of_pos hword]
  cases rest with
  | nil => simp
  | cons c rest => simp [hrest c rfl]

/-! ## Section 2: Words and numbers -/

theorem digitsFrom_of_isDigit {cs : List Char} (h : ∀ c ∈ cs, c.isDigit = true) (n : Nat) :
    digitsFrom 10 decimalDigit? n cs = some (Nat.ofDigitChars 10 cs n) := by
  induction cs generalizing n with
  | nil => rfl
  | cons c cs ih =>
    have hc : c.isDigit = true := h c List.mem_cons_self
    have hcs : ∀ d ∈ cs, d.isDigit = true := fun d hd => h d (List.mem_cons_of_mem c hd)
    simp [digitsFrom, decimalDigit?, hc, ih hcs, Nat.ofDigitChars_cons, Nat.mul_comm]

theorem isDigit_of_mem_toDigits {n : Nat} {c : Char} (h : c ∈ Nat.toDigits 10 n) :
    c.isDigit = true :=
  Nat.isDigit_of_mem_toDigits (by decide) (by decide) h

/-- The decimal digits of a number stand for it. -/
theorem decimal?_toDigits (n : Nat) : decimal? (Nat.toDigits 10 n) = some n := by
  have hne : Nat.toDigits 10 n ≠ [] := Nat.toDigits_ne_nil
  rw [decimal?, if_neg (by simp [hne]), digitsFrom_of_isDigit fun c => isDigit_of_mem_toDigits,
    Nat.ofDigitChars_ten_toDigits]

theorem numeral?_toDigits {n : Nat} (h : n < numeralLimit) :
    numeral? (Nat.toDigits 10 n) = some n := by
  have hvalue : numeralValue? (Nat.toDigits 10 n) = decimal? (Nat.toDigits 10 n) := by
    unfold numeralValue?
    -- digits never go on with the letter that starts a hexadecimal number
    split
    · next heq => cases isDigit_of_mem_toDigits (n := n) (c := 'x') (by simp [heq])
    · next heq => cases isDigit_of_mem_toDigits (n := n) (c := 'X') (by simp [heq])
    · rfl
  simp [numeral?, hvalue, decimal?_toDigits, h]

theorem front_number {n : Nat} {rest : List Char} (hn : n < numeralLimit)
    (hrest : EndsWord rest) :
    front (Nat.toDigits 10 n ++ rest) = .token (.number n) (Nat.toDigits 10 n).length rest := by
  -- the first digit decides that a number is read, the others belong to it
  obtain ⟨c, cs, hcs⟩ := List.exists_cons_of_ne_nil (Nat.toDigits_ne_nil (n := n) (b := 10))
  have hdigits : ∀ d ∈ c :: cs, d.isDigit = true := by
    rw [← hcs]
    exact fun d => isDigit_of_mem_toDigits
  have hc : c.isDigit = true := hdigits c List.mem_cons_self
  have hparts : ∀ d ∈ cs, isWordPart d = true := fun d hd =>
    isWordPart_of_isDigit (hdigits d (List.mem_cons_of_mem c hd))
  have hnumeral : numeral? (c :: cs) = some n := by rw [← hcs, numeral?_toDigits hn]
  rw [hcs]
  simp only [List.cons_append, front, not_isBlank_of_isDigit hc, hc,
    takeWhile_of_endsWord hparts hrest, dropWhile_of_endsWord hparts hrest, hnumeral]
  simp

/-- A word is read as the token that it stands for. -/
theorem front_word {c : Char} {cs rest : List Char} (hc : isWordStart c = true)
    (hcs : ∀ d ∈ cs, isWordPart d = true) (hrest : EndsWord rest) :
    front (c :: cs ++ rest) = .token (wordToken (c :: cs)) (c :: cs).length rest := by
  simp [front, not_isBlank_of_isWordStart hc, not_isDigit_of_isWordStart hc, hc,
    takeWhile_of_endsWord hcs hrest, dropWhile_of_endsWord hcs hrest]

theorem wordToken_of_isName {name : String} (h : IsName name) :
    wordToken name.toList = .ident name := by
  have hkeyword : Keyword.ofText? name = none := ofText?_eq_none.mpr h.notKeyword
  have hwidth : widthName? name.toList = none := widthName?_eq_none.mpr h.notWidth
  simp [wordToken, hkeyword, hwidth]

theorem wordToken_keyword (k : Keyword) : wordToken k.text.toList = .keyword k := by
  cases k <;> decide

/-- No reserved word starts like the name of a word type. -/
theorem keyword_ne_u (k : Keyword) (digits : List Char) : k.text.toList ≠ 'u' :: digits := by
  intro h
  have hhead : k.text.toList.head? = some 'u' := by rw [h, List.head?_cons]
  revert hhead
  cases k <;> decide

theorem wordToken_uint {bits : Nat} (h : bits ≤ 0xFFFFFFFF) :
    wordToken ('u' :: Nat.toDigits 10 bits) = .uint bits := by
  -- reserved words are tried first
  have hkeyword : Keyword.ofText? (String.ofList ('u' :: Nat.toDigits 10 bits)) = none := by
    refine ofText?_eq_none.mpr fun k heq => keyword_ne_u k (Nat.toDigits 10 bits) ?_
    rw [← heq, String.toList_ofList]
  have hwidth : widthName? ('u' :: Nat.toDigits 10 bits) = some bits := by
    simp [widthName?, decimal?_toDigits, Nat.min_eq_left h]
  unfold wordToken
  rw [hkeyword, hwidth]

/-! ## Section 3: Tokens -/

/-- Tokens that are read as they are written.  The names of word types are only that long. -/
def Token.Writable : Token → Prop
  | .ident name => IsName name
  | .number value => value < numeralLimit
  | .uint bits => bits ≤ 0xFFFFFFFF
  | .keyword _ | .sign _ | .op _ | .assign _ => True
  | .eof => False

/-- What can follow a token without running into it. -/
def Token.EndsBefore (rest : List Char) : Token → Prop
  | .ident _ | .number _ | .uint _ | .keyword _ => EndsWord rest
  -- many operators are the start of another one, or of a comment
  | .op _ | .assign _ => ∀ c ∈ rest.head?, c = ' '
  | .sign _ | .eof => True

/-- Reserved words are words. -/
theorem keyword_word (k : Keyword) : ∃ c cs, k.text.toList = c :: cs ∧ isWordStart c = true ∧
    ∀ d ∈ cs, isWordPart d = true := by
  have hfirst : k.text.toList.head?.any isWordStart = true := by cases k <;> decide
  have hparts : k.text.toList.all isWordPart = true := by cases k <;> decide
  cases htext : k.text.toList with
  | nil =>
    rw [htext] at hfirst
    cases hfirst
  | cons c cs =>
    rw [htext] at hfirst hparts
    have hcs := List.all_eq_true.mp hparts
    exact ⟨c, cs, rfl, by simpa using hfirst, fun d hd => hcs d (List.mem_cons_of_mem c hd)⟩

theorem toList_uint (bits : Nat) :
    (Token.uint bits).spelling.toList = 'u' :: Nat.toDigits 10 bits := by
  show ("u" ++ toString bits).toList = _
  simp

theorem toList_number (n : Nat) : (Token.number n).spelling.toList = Nat.toDigits 10 n := by
  simp [Token.spelling]

theorem front_sign (s : Sign) (rest : List Char) :
    front ((Token.sign s).spelling.toList ++ rest) =
      .token (.sign s) (Token.sign s).spelling.toList.length rest := by
  cases s <;> rfl

/-- With a blank after it, no operator is taken for the start of another one. -/
theorem front_operator {t : Token} {rest : List Char}
    (ht : (∃ o, t = .op o) ∨ ∃ o, t = .assign o) (hrest : ∀ c ∈ rest.head?, c = ' ') :
    front (t.spelling.toList ++ rest) = .token t t.spelling.toList.length rest := by
  cases rest with
  | nil => rcases ht with ⟨o, rfl⟩ | ⟨o, rfl⟩ <;> cases o <;> rfl
  | cons c rest =>
    obtain rfl : c = ' ' := hrest c rfl
    rcases ht with ⟨o, rfl⟩ | ⟨o, rfl⟩ <;> cases o <;> rfl

/-- A token that is written down is read again. -/
theorem front_spelling {t : Token} {rest : List Char} (ht : t.Writable)
    (hrest : t.EndsBefore rest) :
    front (t.spelling.toList ++ rest) = .token t t.spelling.toList.length rest := by
  cases t with
  | ident name =>
    obtain ⟨c, cs, hname, hc, hcs⟩ := ht.word
    have hfront := front_word hc hcs hrest
    rwa [← hname, wordToken_of_isName ht] at hfront
  | number n =>
    rw [toList_number]
    exact front_number ht hrest
  | uint bits =>
    rw [toList_uint]
    have hdigits : ∀ d ∈ Nat.toDigits 10 bits, isWordPart d = true := fun d hd =>
      isWordPart_of_isDigit (isDigit_of_mem_toDigits hd)
    have hfront := front_word (c := 'u') (by decide) hdigits hrest
    rwa [wordToken_uint ht] at hfront
  | keyword k =>
    obtain ⟨c, cs, hk, hc, hcs⟩ := keyword_word k
    have hfront := front_word hc hcs hrest
    rwa [← hk, wordToken_keyword] at hfront
  | sign s => exact front_sign s rest
  | op o => exact front_operator (.inl ⟨o, rfl⟩) hrest
  | assign o => exact front_operator (.inr ⟨o, rfl⟩) hrest
  | eof => cases ht

/-- A token is written on one line. -/
theorem not_mem_spelling {t : Token} (ht : t.Writable) :
    '\n' ∉ t.spelling.toList ∧ '\r' ∉ t.spelling.toList := by
  have hword : ∀ {c cs}, t.spelling.toList = c :: cs → isWordStart c = true →
      (∀ d ∈ cs, isWordPart d = true) → '\n' ∉ t.spelling.toList ∧ '\r' ∉ t.spelling.toList := by
    intro c cs heq hc hcs
    have hparts := isWordPart_of_mem_word hc hcs
    rw [heq]
    exact ⟨fun h => (by decide : isWordPart '\n' ≠ true) (hparts _ h),
      fun h => (by decide : isWordPart '\r' ≠ true) (hparts _ h)⟩
  cases t with
  | ident name =>
    obtain ⟨c, cs, hname, hc, hcs⟩ := ht.word
    exact hword hname hc hcs
  | number n =>
    rw [toList_number]
    exact ⟨fun h => (by cases isDigit_of_mem_toDigits h),
      fun h => (by cases isDigit_of_mem_toDigits h)⟩
  | uint bits =>
    exact hword (toList_uint bits) (by decide) fun d hd =>
      isWordPart_of_isDigit (isDigit_of_mem_toDigits hd)
  | keyword k =>
    obtain ⟨c, cs, hk, hc, hcs⟩ := keyword_word k
    exact hword hk hc hcs
  | sign s => cases s <;> decide
  | op o => cases o <;> decide
  | assign o => cases o <;> decide
  | eof => cases ht

/-! ## Section 4: Texts -/

namespace Position

/-- The place after some characters. -/
def after (pos : Position) : List Char → Position
  | [] => pos
  | c :: cs => if c = '\n' then after ⟨pos.line + 1, 1⟩ cs else after (pos.advance 1) cs

@[simp] theorem after_nil (pos : Position) : pos.after [] = pos := rfl

@[simp] theorem after_newline (pos : Position) (cs : List Char) :
    pos.after ('\n' :: cs) = (⟨pos.line + 1, 1⟩ : Position).after cs := rfl

@[simp] theorem after_blank (pos : Position) (cs : List Char) :
    pos.after (' ' :: cs) = (pos.advance 1).after cs := rfl

@[simp] theorem after_append (pos : Position) (cs ds : List Char) :
    pos.after (cs ++ ds) = (pos.after cs).after ds := by
  induction cs generalizing pos with
  | nil => rfl
  | cons c cs ih =>
    simp only [List.cons_append, after]
    split
    · exact ih _
    · exact ih _

/-- On one line, only the column grows. -/
theorem after_eq_advance {pos : Position} {cs : List Char} (h : '\n' ∉ cs) :
    pos.after cs = pos.advance cs.length := by
  induction cs generalizing pos with
  | nil => rfl
  | cons c cs ih =>
    obtain ⟨hc, hcs⟩ : ¬ '\n' = c ∧ '\n' ∉ cs := by simpa using h
    rw [after, if_neg (Ne.symm hc), ih hcs, List.length_cons]
    simp only [advance, Position.mk.injEq, true_and]
    omega

end Position

/-- A token ends on the line that it starts on. -/
theorem line_after_spelling {t : Token} (ht : t.Writable) (pos : Position) :
    (pos.after t.spelling.toList).line = pos.line := by
  rw [Position.after_eq_advance (not_mem_spelling ht).1]
  rfl

mutual

/-- From this place on, the text has these tokens, up to the end of the text.  The line that the
    place is on ends with a line end. -/
inductive Scans : Position → List Char → List (Located Token) → Prop where
  | newline {pos : Position} {cs : List Char} {ts : List (Located Token)}
      (next : ScansLines (pos.line + 1) cs ts) : Scans pos ('\n' :: cs) ts
  | blank {pos : Position} {cs : List Char} {ts : List (Located Token)}
      (next : Scans (pos.advance 1) cs ts) : Scans pos (' ' :: cs) ts
  | token {pos : Position} {t : Token} {cs : List Char} {ts : List (Located Token)}
      (writable : t.Writable) (ends : t.EndsBefore cs)
      (next : Scans (pos.after t.spelling.toList) cs ts) :
      Scans pos (t.spelling.toList ++ cs) (⟨pos, t⟩ :: ts)

/-- The lines of the text, numbered from this one on, have these tokens. -/
inductive ScansLines : Nat → List Char → List (Located Token) → Prop where
  | done {number : Nat} : ScansLines number [] [⟨⟨number, 1⟩, .eof⟩]
  | line {number : Nat} {cs : List Char} {ts : List (Located Token)}
      (first : Scans ⟨number, 1⟩ cs ts) : ScansLines number cs ts

end

theorem linesFrom_line {read line : List Char} (rest : List Char) (hread : read.head? ≠ some '\r')
    (hn : '\n' ∉ line) (hr : '\r' ∉ line) :
    linesFrom read (line ++ '\n' :: rest) = (read.reverse ++ line) :: lines rest := by
  induction line generalizing read with
  | nil =>
    -- the line so far does not end with a carriage return
    have hdrop : dropReturn read = read := by
      unfold dropReturn
      split
      · exact absurd rfl hread
      · rfl
    simp [linesFrom, hdrop, lines]
  | cons c line ih =>
    obtain ⟨hc, hn⟩ : ¬ '\n' = c ∧ '\n' ∉ line := by simpa using hn
    obtain ⟨hc', hr⟩ : ¬ '\r' = c ∧ '\r' ∉ line := by simpa using hr
    have hread' : (c :: read).head? ≠ some '\r' := by simpa using Ne.symm hc'
    rw [List.cons_append, linesFrom, if_neg (Ne.symm hc), ih hread' hn hr]
    simp

theorem lines_line {line : List Char} (rest : List Char) (hn : '\n' ∉ line) (hr : '\r' ∉ line) :
    lines (line ++ '\n' :: rest) = line :: lines rest :=
  linesFrom_line rest (by simp) hn hr

theorem tokenizeFrom_blank {pos : Position} {cs rest : List Char} {found : List (Located Token)}
    (h : front cs = .blank rest) :
    tokenizeFrom pos cs found = tokenizeFrom (pos.advance 1) rest found := by
  rw [tokenizeFrom]
  split <;> simp_all

theorem tokenizeFrom_token {pos : Position} {cs rest : List Char} {t : Token} {size : Nat}
    {found : List (Located Token)} (h : front cs = .token t size rest) :
    tokenizeFrom pos cs found = tokenizeFrom (pos.advance size) rest (⟨pos, t⟩ :: found) := by
  rw [tokenizeFrom]
  split <;> simp_all

/-- What a token must not run into is on the same line. -/
theorem Token.EndsBefore.of_line {t : Token} {line rest : List Char}
    (h : t.EndsBefore (line ++ '\n' :: rest)) : t.EndsBefore line := by
  cases line with
  | nil => cases t <;> simp [Token.EndsBefore, EndsWord]
  | cons c line => cases t <;> simp_all [Token.EndsBefore, EndsWord]

mutual

/-- The first line is cut into the first tokens, the lines after it into the others. -/
theorem Scans.tokenizes {pos : Position} {cs : List Char} {ts : List (Located Token)} :
    Scans pos cs ts → ∃ line rest here there, cs = line ++ '\n' :: rest ∧
      '\n' ∉ line ∧ '\r' ∉ line ∧ ts = here ++ there ∧
      (∀ found, tokenizeFrom pos line found = .ok (found.reverse ++ here)) ∧
      tokenizeLines (pos.line + 1) (lines rest) = .ok there
  | .newline next => by
    refine ⟨[], _, [], _, rfl, List.not_mem_nil, List.not_mem_nil, rfl, fun found => ?_,
      next.tokenizes⟩
    rw [tokenizeFrom]
    simp [front]
  | .blank next => by
    obtain ⟨line, rest, here, there, rfl, hn, hr, rfl, hhere, hthere⟩ := next.tokenizes
    refine ⟨' ' :: line, rest, here, there, rfl, by simp [hn], by simp [hr], rfl,
      fun found => ?_, hthere⟩
    have hfront : front (' ' :: line) = .blank line := rfl
    rw [tokenizeFrom_blank hfront, hhere]
  | .token (t := t) writable ends next => by
    obtain ⟨line, rest, here, there, rfl, hn, hr, rfl, hhere, hthere⟩ := next.tokenizes
    obtain ⟨hn', hr'⟩ := not_mem_spelling writable
    -- the token is on this line, so only the column has changed
    rw [Position.after_eq_advance hn'] at hhere hthere
    refine ⟨t.spelling.toList ++ line, rest, ⟨pos, t⟩ :: here, there,
      (List.append_assoc _ _ _).symm, by simp [hn, hn'], by simp [hr, hr'], rfl,
      fun found => ?_, hthere⟩
    rw [tokenizeFrom_token (front_spelling writable ends.of_line), hhere]
    simp

theorem ScansLines.tokenizes {number : Nat} {cs : List Char} {ts : List (Located Token)} :
    ScansLines number cs ts → tokenizeLines number (lines cs) = .ok ts
  | .done => rfl
  | .line first => by
    obtain ⟨line, rest, here, there, rfl, hn, hr, rfl, hhere, hthere⟩ := first.tokenizes
    rw [lines_line rest hn hr, tokenizeLines, tokenizeLine, hhere, hthere]
    rfl

end

/-- The tokens of a text are found where they are. -/
theorem tokenize_of_scansLines {source : String} {ts : List (Located Token)}
    (h : ScansLines 1 source.toList ts) : tokenize source = .ok ts :=
  h.tokenizes

mutual

/-- No token is on an earlier line. -/
theorem Scans.line_le {pos : Position} {cs : List Char} {ts : List (Located Token)} :
    Scans pos cs ts → ∀ t ∈ ts, pos.line ≤ t.pos.line
  | .newline next => fun t ht => Nat.le_of_succ_le (next.line_le t ht)
  | .blank next => next.line_le
  | .token writable ends next => by
    intro t ht
    rcases List.mem_cons.mp ht with rfl | ht
    · exact Nat.le_refl _
    · have hle := next.line_le t ht
      rwa [line_after_spelling writable] at hle

theorem ScansLines.line_le {number : Nat} {cs : List Char} {ts : List (Located Token)} :
    ScansLines number cs ts → ∀ t ∈ ts, number ≤ t.pos.line
  | .done => by simp
  | .line first => first.line_le

end

end WordLang
