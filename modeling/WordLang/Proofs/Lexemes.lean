import Mathlib.Data.List.Forall2
import WordLang.Proofs.Spelling

/-! # How lines split into lexemes

    `Lexeme` says what can stand for a token and how far it reaches: a word
    or a number takes all the word characters that follow, a sign is the
    longest one that stands there.  `Splits` puts blanks and lexemes side by
    side.  Neither of them mentions how a text is cut into tokens.

    A line that does not split up to its end or to a comment has a first
    place where nothing can stand (`Unlexable`).  Cutting a text into tokens
    gives the lexemes of its lines, each with the line and the number of
    characters before it, or the first such place. -/

namespace WordLang

open Text

/-! ## Section 1: Numerals and words -/

/-- A text of one digit or more, and the number that it stands for, the first digit counting
    most. -/
def IsWritten (base : Nat) (digit? : Char → Option Nat) (text : List Char) (value : Nat) : Prop :=
  ∃ digits : List Nat, digits ≠ [] ∧ text.map digit? = digits.map some ∧
    digits.foldl (fun n d => n * base + d) 0 = value

/-- A text in one of the two notations for numbers, and the number. -/
inductive IsNumeral : List Char → Nat → Prop where
  | decimal {text : List Char} {value : Nat} (written : IsWritten 10 decimalDigit? text value) :
      IsNumeral text value
  | hexadecimal {x : Char} {text : List Char} {value : Nat} (marked : x = 'x' ∨ x = 'X')
      (written : IsWritten 16 hexDigit? text value) : IsNumeral ('0' :: x :: text) value

/-- The token of a word: reserved words and the names of word types are not taken for names. -/
inductive IsWordToken : List Char → Token → Prop where
  | keyword (k : Keyword) : IsWordToken k.text.toList (.keyword k)
  | width {text : List Char} {bits : Nat} (written : IsWritten 10 decimalDigit? text bits) :
      IsWordToken ('u' :: text) (.uint (min bits 0xFFFFFFFF))
  | name {name : String} (free : IsName name) : IsWordToken name.toList (.ident name)

theorem digitsFrom_eq_some {base : Nat} {digit? : Char → Option Nat} {cs : List Char}
    {n value : Nat} :
    digitsFrom base digit? n cs = some value ↔ ∃ digits : List Nat,
      cs.map digit? = digits.map some ∧ digits.foldl (fun n d => n * base + d) n = value := by
  induction cs generalizing n with
  | nil => simp [digitsFrom]
  | cons c cs ih =>
    cases hc : digit? c with
    | none =>
      simp only [digitsFrom, hc, List.map_cons]
      constructor
      · intro h
        cases h
      · rintro ⟨digits, hdigits, -⟩
        obtain ⟨d, _, _, hd, _⟩ := List.map_eq_cons_iff.mp hdigits.symm
        cases hd
    | some d =>
      simp only [digitsFrom, hc, ih, List.map_cons]
      constructor
      · rintro ⟨digits, hdigits, hvalue⟩
        exact ⟨d :: digits, by simp [hdigits], hvalue⟩
      · rintro ⟨digits, hdigits, hvalue⟩
        obtain ⟨d', digits', rfl, hd, hdigits'⟩ := List.map_eq_cons_iff.mp hdigits.symm
        cases hd
        exact ⟨digits', hdigits'.symm, hvalue⟩

/-- Digits are read for what they stand for, if there are any. -/
theorem isWritten_iff {base : Nat} {digit? : Char → Option Nat} {text : List Char} {value : Nat} :
    IsWritten base digit? text value ↔
      (if text.isEmpty then none else digitsFrom base digit? 0 text) = some value := by
  cases text with
  | nil => simp [IsWritten]
  | cons c cs =>
    rw [if_neg (by simp), digitsFrom_eq_some]
    refine exists_congr (fun digits => ⟨And.right, fun h => ⟨?_, h⟩⟩)
    rintro rfl
    cases h.1

/-- Each character of a number in decimal is a digit. -/
theorem IsWritten.isDigit {text : List Char} {value : Nat}
    (h : IsWritten 10 decimalDigit? text value) : ∀ c ∈ text, c.isDigit = true := by
  have hsome : (decimal? text).isSome = true := by
    rw [decimal?, isWritten_iff.mp h]
    rfl
  exact ((isSome_decimal? text).mp hsome).2

theorem numeralValue?_eq_some {text : List Char} {value : Nat} :
    numeralValue? text = some value ↔ IsNumeral text value := by
  constructor
  · intro h
    unfold numeralValue? at h
    split at h
    · exact .hexadecimal (.inl rfl) (isWritten_iff.mpr h)
    · exact .hexadecimal (.inr rfl) (isWritten_iff.mpr h)
    · exact .decimal (isWritten_iff.mpr h)
  · intro h
    cases h with
    | decimal written =>
      unfold numeralValue?
      -- the marks of hexadecimal numbers are no digits
      split
      · cases written.isDigit 'x' (by simp)
      · cases written.isDigit 'X' (by simp)
      · exact isWritten_iff.mp written
    | hexadecimal marked written =>
      rcases marked with rfl | rfl
      · exact isWritten_iff.mp written
      · exact isWritten_iff.mp written

/-- A word is read as a number just if it is a numeral below the limit. -/
theorem numeral?_eq_some {text : List Char} {value : Nat} :
    numeral? text = some value ↔ IsNumeral text value ∧ value < numeralLimit := by
  rw [numeral?, Option.filter_eq_some_iff, numeralValue?_eq_some, decide_eq_true_iff]

/-- A word is read as its token. -/
theorem IsWordToken.wordToken_eq {word : List Char} {t : Token} (h : IsWordToken word t) :
    wordToken word = t := by
  cases h with
  | keyword k => exact wordToken_keyword k
  | @width text bits written =>
    have hkeyword : Keyword.ofText? (String.ofList ('u' :: text)) = none := by
      refine ofText?_eq_none.mpr fun k heq => keyword_ne_u k text ?_
      rw [← heq, String.toList_ofList]
    have hwidth : widthName? ('u' :: text) = some (min bits 0xFFFFFFFF) := by
      rw [widthName?, decimal?, isWritten_iff.mp written]
      rfl
    rw [wordToken, hkeyword]
    dsimp only
    rw [hwidth]
  | name free => exact wordToken_of_isName free

/-- Every word has a token. -/
theorem isWordToken_wordToken {c : Char} {cs : List Char} (hc : isWordStart c = true)
    (hcs : ∀ d ∈ cs, isWordPart d = true) : IsWordToken (c :: cs) (wordToken (c :: cs)) := by
  cases hkeyword : Keyword.ofText? (String.ofList (c :: cs)) with
  | some k =>
    have htext : k.text = String.ofList (c :: cs) := by simpa using List.find?_some hkeyword
    have hword : k.text.toList = c :: cs := by rw [htext, String.toList_ofList]
    rw [← hword, wordToken_keyword]
    exact .keyword k
  | none =>
    cases hwidth : widthName? (c :: cs) with
    | some bits =>
      have htoken : wordToken (c :: cs) = .uint bits := by
        rw [wordToken, hkeyword]
        dsimp only
        rw [hwidth]
      rw [htoken]
      unfold widthName? at hwidth
      split at hwidth
      · next digits heq =>
        cases heq
        obtain ⟨n, hn, rfl⟩ := Option.map_eq_some_iff.mp hwidth
        exact .width (isWritten_iff.mpr hn)
      · cases hwidth
    | none =>
      have hname : IsName (String.ofList (c :: cs)) := by
        refine ⟨⟨c, cs, String.toList_ofList, hc, hcs⟩, ofText?_eq_none.mp hkeyword, ?_⟩
        rw [String.toList_ofList]
        exact widthName?_eq_none.mp hwidth
      have htoken := wordToken_of_isName hname
      rw [String.toList_ofList] at htoken
      rw [htoken]
      have hself := IsWordToken.name hname
      rwa [String.toList_ofList] at hself

/-! ## Section 2: Signs -/

/-- Operators and punctuation. -/
def Token.isSign : Token → Bool
  | .sign _ | .op _ | .assign _ => true
  | _ => false

/-- The sign stands at the front of the text, and no longer one does. -/
structure IsLongestSign (t : Token) (cs : List Char) : Prop where
  isSign : t.isSign = true
  front : t.spelling.toList <+: cs
  longest : ∀ t' : Token, t'.isSign = true → t'.spelling.toList <+: cs →
    t'.spelling.toList.length ≤ t.spelling.toList.length

/-- The table has every sign, as it is written. -/
theorem mem_signs_iff {text : List Char} {t : Token} :
    (text, t) ∈ signs ↔ t.isSign = true ∧ text = t.spelling.toList := by
  constructor
  · intro h
    have hall : ∀ s ∈ signs, s.2.isSign = true ∧ s.1 = s.2.spelling.toList := by decide
    exact hall _ h
  · rintro ⟨hsign, rfl⟩
    cases t with
    | sign s => cases s <;> decide
    | op o => cases o <;> decide
    | assign o => cases o <;> decide
    | _ => cases hsign

theorem signs_sorted : signs.Pairwise (fun s s' => s'.1.length ≤ s.1.length) := by decide

/-- No two signs are written alike. -/
theorem eq_of_spelling {t t' : Token} (h : t.isSign = true) (h' : t'.isSign = true)
    (heq : t.spelling.toList = t'.spelling.toList) : t = t' := by
  have hall : ∀ s ∈ signs, ∀ s' ∈ signs, s.1 = s'.1 → s.2 = s'.2 := by decide
  exact hall _ (mem_signs_iff.mpr ⟨h, rfl⟩) _ (mem_signs_iff.mpr ⟨h', rfl⟩) heq

theorem IsLongestSign.unique {t t' : Token} {cs : List Char} (h : IsLongestSign t cs)
    (h' : IsLongestSign t' cs) : t = t' := by
  apply eq_of_spelling h.isSign h'.isSign
  have hlength := Nat.le_antisymm (h'.longest t h.isSign h.front) (h.longest t' h'.isSign h'.front)
  rw [List.prefix_iff_eq_take.mp h.front, List.prefix_iff_eq_take.mp h'.front, hlength]

theorem isLongestSign_of_sign? {cs text : List Char} {t : Token} (h : sign? cs = some (text, t)) :
    IsLongestSign t cs ∧ text = t.spelling.toList := by
  obtain ⟨hfront, before, after, hsigns, hbefore⟩ := List.find?_eq_some_iff_append.mp h
  obtain ⟨hsign, rfl⟩ := mem_signs_iff.mp (List.mem_of_find?_eq_some h)
  refine ⟨⟨hsign, List.isPrefixOf_iff_prefix.mp hfront, fun t' hsign' hfront' => ?_⟩, rfl⟩
  -- a sign that stands there too is this one or comes after it in the table
  have hmem := mem_signs_iff.mpr ⟨hsign', rfl⟩
  have hsorted := signs_sorted
  rw [hsigns] at hmem hsorted
  rcases List.mem_append.mp hmem with hmem | hmem
  · have hnot := hbefore _ hmem
    rw [List.isPrefixOf_iff_prefix.mpr hfront'] at hnot
    cases hnot
  · rcases List.mem_cons.mp hmem with heq | hmem
    · exact Nat.le_of_eq (congrArg (fun s => s.1.length) heq)
    · exact List.rel_of_pairwise_cons (List.pairwise_append.mp hsorted).2.1 hmem

theorem sign?_eq_none {cs : List Char} :
    sign? cs = none ↔ ∀ t : Token, t.isSign = true → ¬ t.spelling.toList <+: cs := by
  rw [sign?, List.find?_eq_none]
  constructor
  · intro h t hsign hfront
    exact h _ (mem_signs_iff.mpr ⟨hsign, rfl⟩) (List.isPrefixOf_iff_prefix.mpr hfront)
  · rintro h ⟨text, t⟩ hmem hfront
    obtain ⟨hsign, rfl⟩ := mem_signs_iff.mp hmem
    exact h t hsign (List.isPrefixOf_iff_prefix.mp hfront)

/-- The longest sign is the one that is found. -/
theorem IsLongestSign.sign?_eq {cs : List Char} {t : Token} (h : IsLongestSign t cs) :
    sign? cs = some (t.spelling.toList, t) := by
  cases hfound : sign? cs with
  | none => exact absurd h.front (sign?_eq_none.mp hfound t h.isSign)
  | some found =>
    obtain ⟨text, t'⟩ := found
    obtain ⟨hlongest, rfl⟩ := isLongestSign_of_sign? hfound
    rw [hlongest.unique h]

/-- Signs are told from all else by their first character. -/
theorem exists_cons_of_isSign {t : Token} (h : t.isSign = true) :
    ∃ c cs, t.spelling.toList = c :: cs ∧ isBlank c = false ∧ c.isDigit = false ∧
      isWordStart c = false := by
  have hall : ∀ s ∈ signs, s.1.head?.any
      (fun c => !isBlank c && !c.isDigit && !isWordStart c) = true := by decide
  have hfirst := hall _ (mem_signs_iff.mpr ⟨h, rfl⟩)
  cases htext : t.spelling.toList with
  | nil =>
    rw [htext] at hfirst
    cases hfirst
  | cons c cs =>
    rw [htext] at hfirst
    simp only [List.head?_cons, Option.any_some, Bool.and_eq_true, Bool.not_eq_true'] at hfirst
    exact ⟨c, cs, rfl, hfirst.1.1, hfirst.1.2, hfirst.2⟩

/-! ## Section 3: What can stand at the front of a line -/

/-- The text stands for the token where this rest of the line follows. -/
inductive Lexeme : List Char → Token → List Char → Prop where
  | word {c : Char} {cs rest : List Char} {t : Token} (starts : isWordStart c = true)
      (parts : ∀ d ∈ cs, isWordPart d = true) (ends : EndsWord rest)
      (token : IsWordToken (c :: cs) t) : Lexeme (c :: cs) t rest
  | number {c : Char} {cs rest : List Char} {n : Nat} (starts : c.isDigit = true)
      (parts : ∀ d ∈ cs, isWordPart d = true) (ends : EndsWord rest)
      (value : IsNumeral (c :: cs) n) (below : n < numeralLimit) : Lexeme (c :: cs) (.number n) rest
  /-- Two slashes are no two divisions. -/
  | sign {t : Token} {rest : List Char} (longest : IsLongestSign t (t.spelling.toList ++ rest))
      (noComment : ¬ ['/', '/'] <+: t.spelling.toList ++ rest) : Lexeme t.spelling.toList t rest

/-- The line is over, but for a comment. -/
def EndsLine (rest : List Char) : Prop := rest = [] ∨ ['/', '/'] <+: rest

/-- What stands at the front of the line stands for nothing. -/
inductive Unlexable : List Char → LexCause → Prop where
  | number {c : Char} {cs rest : List Char} (starts : c.isDigit = true)
      (parts : ∀ d ∈ cs, isWordPart d = true) (ends : EndsWord rest)
      (noValue : ¬ ∃ n, IsNumeral (c :: cs) n ∧ n < numeralLimit) :
      Unlexable (c :: cs ++ rest) (.invalidNumber (String.ofList (c :: cs)))
  | char {c : Char} {rest : List Char} (notBlank : isBlank c = false)
      (notDigit : c.isDigit = false) (notWord : isWordStart c = false)
      (noSign : ∀ t : Token, t.isSign = true → ¬ t.spelling.toList <+: c :: rest) :
      Unlexable (c :: rest) (.unrecognizedChar c)

/-- One of four things stands at the front of a line. -/
theorem front_cases (cs : List Char) :
    EndsLine cs ∨ (∃ c rest, cs = c :: rest ∧ isBlank c = true) ∨
      (∃ text t rest, cs = text ++ rest ∧ Lexeme text t rest) ∨ ∃ cause, Unlexable cs cause := by
  cases cs with
  | nil => exact .inl (.inl rfl)
  | cons c cs =>
    -- the run of word characters at the front
    have hrun : c :: cs = c :: cs.takeWhile isWordPart ++ cs.dropWhile isWordPart := by simp
    have hparts : ∀ d ∈ cs.takeWhile isWordPart, isWordPart d = true :=
      fun d hd => List.all_eq_true.mp List.all_takeWhile d hd
    have hends : EndsWord (cs.dropWhile isWordPart) := by
      intro d hd
      have hhead := List.head?_dropWhile_not isWordPart cs
      rw [hd] at hhead
      exact hhead
    by_cases hblank : isBlank c = true
    · exact .inr (.inl ⟨c, cs, rfl, hblank⟩)
    by_cases hdigit : c.isDigit = true
    · by_cases hvalue : ∃ n, IsNumeral (c :: cs.takeWhile isWordPart) n ∧ n < numeralLimit
      · obtain ⟨n, value, below⟩ := hvalue
        exact .inr (.inr (.inl ⟨_, _, _, hrun, .number hdigit hparts hends value below⟩))
      · have hbad := Unlexable.number hdigit hparts hends hvalue
        rw [← hrun] at hbad
        exact .inr (.inr (.inr ⟨_, hbad⟩))
    by_cases hword : isWordStart c = true
    · exact .inr (.inr (.inl ⟨_, _, _, hrun,
        .word hword hparts hends (isWordToken_wordToken hword hparts)⟩))
    by_cases hcomment : ['/', '/'] <+: c :: cs
    · exact .inl (.inr hcomment)
    cases hsign : sign? (c :: cs) with
    | none =>
      exact .inr (.inr (.inr ⟨_, .char (Bool.eq_false_iff.mpr hblank)
        (Bool.eq_false_iff.mpr hdigit) (Bool.eq_false_iff.mpr hword) (sign?_eq_none.mp hsign)⟩))
    | some found =>
      obtain ⟨text, t⟩ := found
      obtain ⟨hlongest, rfl⟩ := isLongestSign_of_sign? hsign
      obtain ⟨rest, hrest⟩ := hlongest.front
      rw [← hrest] at hlongest hcomment ⊢
      exact .inr (.inr (.inl ⟨_, t, rest, rfl, .sign hlongest hcomment⟩))

theorem front_of_lexeme {text rest : List Char} {t : Token} (h : Lexeme text t rest) :
    front (text ++ rest) = .token t text.length rest := by
  cases h with
  | word starts parts ends token =>
    have hfront := front_word starts parts ends
    rwa [token.wordToken_eq] at hfront
  | number starts parts ends value below =>
    have hnumeral := numeral?_eq_some.mpr ⟨value, below⟩
    simp [front, not_isBlank_of_isDigit starts, starts, takeWhile_of_endsWord parts ends,
      dropWhile_of_endsWord parts ends, hnumeral]
  | sign longest noComment =>
    obtain ⟨c, cs, htext, hblank, hdigit, hword⟩ := exists_cons_of_isSign longest.isSign
    have hsign := longest.sign?_eq
    rw [htext, List.cons_append] at noComment hsign
    have hslashes := mt List.isPrefixOf_iff_prefix.mp noComment
    rw [htext, List.cons_append]
    simp only [front, hblank, hdigit, hword, Bool.false_eq_true, if_false, if_neg hslashes, hsign]
    simp

theorem front_of_unlexable {cs : List Char} {cause : LexCause} (h : Unlexable cs cause) :
    front cs = .bad cause := by
  cases h with
  | @number c cs rest starts parts ends noValue =>
    have hnumeral : numeral? (c :: cs) = none := by
      refine Option.eq_none_iff_forall_ne_some.mpr (fun n hn => noValue ?_)
      exact ⟨n, numeral?_eq_some.mp hn⟩
    simp [front, not_isBlank_of_isDigit starts, starts, takeWhile_of_endsWord parts ends, hnumeral]
  | @char c rest notBlank notDigit notWord noSign =>
    -- a slash is a sign, so this is no comment either
    have hcomment : ¬ ['/', '/'] <+: c :: rest :=
      fun h => noSign (.op .div) rfl ((List.prefix_append ['/'] ['/']).trans h)
    have hslashes := mt List.isPrefixOf_iff_prefix.mp hcomment
    simp only [front, notBlank, notDigit, notWord, Bool.false_eq_true, if_false, if_neg hslashes,
      sign?_eq_none.mpr noSign]

theorem front_of_endsLine {cs : List Char} (h : EndsLine cs) : front cs = .stop := by
  rcases h with rfl | ⟨rest, rfl⟩
  · rfl
  · rfl

/-! ## Section 4: Lines -/

/-- A part of a line. -/
inductive Piece where
  | blank (c : Char)
  | lexeme (text : List Char) (t : Token)

/-- The characters of some parts of a line. -/
def Piece.textOf : List Piece → List Char
  | [] => []
  | .blank c :: ps => c :: textOf ps
  | .lexeme text _ :: ps => text ++ textOf ps

/-- From left to right, the line splits into these parts, up to a rest. -/
inductive Splits : List Char → List Piece → List Char → Prop where
  | done {rest : List Char} : Splits rest [] rest
  | blank {c : Char} {cs rest : List Char} {ps : List Piece} (blank : isBlank c = true)
      (next : Splits cs ps rest) : Splits (c :: cs) (.blank c :: ps) rest
  | lexeme {text cs rest : List Char} {t : Token} {ps : List Piece} (lexeme : Lexeme text t cs)
      (next : Splits cs ps rest) : Splits (text ++ cs) (.lexeme text t :: ps) rest

/-- The line splits into these parts, with nothing or a comment after them. -/
def LineSplits (line : List Char) (ps : List Piece) : Prop :=
  ∃ comment, Splits line ps comment ∧ EndsLine comment

/-- The lexemes among parts of a line, each at the place after the characters before it. -/
def lexemesFrom (number : Nat) (before : List Char) :
    List Piece → List (Located (List Char × Token))
  | [] => []
  | .blank c :: ps => lexemesFrom number (before ++ [c]) ps
  | .lexeme text t :: ps =>
    ⟨⟨number, before.length + 1⟩, (text, t)⟩ :: lexemesFrom number (before ++ text) ps

/-- The token of a lexeme, where the lexeme is. -/
def tokenAt (l : Located (List Char × Token)) : Located Token := ⟨l.pos, l.item.2⟩

theorem Lexeme.ne_nil {text rest : List Char} {t : Token} (h : Lexeme text t rest) : text ≠ [] := by
  cases h with
  | word starts parts ends token => exact List.cons_ne_nil _ _
  | number starts parts ends value below => exact List.cons_ne_nil _ _
  | sign longest noComment =>
    obtain ⟨c, cs, htext, -⟩ := exists_cons_of_isSign longest.isSign
    rw [htext]
    exact List.cons_ne_nil _ _

/-- Nothing is lost. -/
theorem Splits.eq_append {line rest : List Char} {ps : List Piece} (h : Splits line ps rest) :
    line = Piece.textOf ps ++ rest := by
  induction h with
  | done => rfl
  | blank blank next ih => rw [Piece.textOf, List.cons_append, ← ih]
  | lexeme lexeme next ih => rw [Piece.textOf, List.append_assoc, ← ih]

/-- Every line splits up to its end or to a place where nothing can stand. -/
theorem exists_splits (line : List Char) :
    ∃ ps rest, Splits line ps rest ∧ (EndsLine rest ∨ ∃ cause, Unlexable rest cause) := by
  induction hlength : line.length using Nat.strongRecOn generalizing line with
  | ind n ih =>
    rcases front_cases line with hends | ⟨c, cs, rfl, hblank⟩ | ⟨text, t, cs, rfl, hlexeme⟩ | hbad
    · exact ⟨[], line, .done, .inl hends⟩
    · obtain ⟨ps, rest, hsplits, hrest⟩ := ih cs.length (by simp at hlength; omega) cs rfl
      exact ⟨_, rest, .blank hblank hsplits, hrest⟩
    · have hpos := List.length_pos_iff.mpr hlexeme.ne_nil
      obtain ⟨ps, rest, hsplits, hrest⟩ := ih cs.length (by simp at hlength; omega) cs rfl
      exact ⟨_, rest, .lexeme hlexeme hsplits, hrest⟩
    · exact ⟨[], line, .done, .inr hbad⟩

theorem tokenizeFrom_stop {pos : Position} {cs : List Char} {found : List (Located Token)}
    (h : front cs = .stop) : tokenizeFrom pos cs found = .ok found.reverse := by
  rw [tokenizeFrom]
  split <;> simp_all

theorem tokenizeFrom_bad {pos : Position} {cs : List Char} {found : List (Located Token)}
    {cause : LexCause} (h : front cs = .bad cause) :
    tokenizeFrom pos cs found = .error ⟨pos, cause⟩ := by
  rw [tokenizeFrom]
  split <;> simp_all

/-- The parts of a line are cut off one after another. -/
theorem Splits.tokenizeFrom_eq {line rest : List Char} {ps : List Piece} (h : Splits line ps rest)
    (number : Nat) (before : List Char) (found : List (Located Token)) :
    tokenizeFrom ⟨number, before.length + 1⟩ line found =
      tokenizeFrom ⟨number, (before ++ Piece.textOf ps).length + 1⟩ rest
        (((lexemesFrom number before ps).map tokenAt).reverse ++ found) := by
  induction h generalizing before found with
  | done => simp [Piece.textOf, lexemesFrom]
  | @blank c cs rest ps blank next ih =>
    have hfront : front (c :: cs) = .blank cs := by rw [front, if_pos blank]
    have hpos : (⟨number, before.length + 1⟩ : Position).advance 1 =
        ⟨number, (before ++ [c]).length + 1⟩ := by simp [Position.advance]
    rw [tokenizeFrom_blank hfront, hpos, ih, Piece.textOf, lexemesFrom, List.append_assoc]
    rfl
  | @lexeme text cs rest t ps lexeme next ih =>
    have hpos : (⟨number, before.length + 1⟩ : Position).advance text.length =
        ⟨number, (before ++ text).length + 1⟩ := by
      simp only [Position.advance, List.length_append, Position.mk.injEq, true_and]
      omega
    rw [tokenizeFrom_token (front_of_lexeme lexeme), hpos, ih, Piece.textOf, lexemesFrom,
      List.append_assoc, List.map_cons, List.reverse_cons, List.append_assoc]
    rfl

theorem LineSplits.tokenizeLine_eq {line : List Char} {ps : List Piece} (h : LineSplits line ps)
    (number : Nat) :
    tokenizeLine number line = .ok ((lexemesFrom number [] ps).map tokenAt) := by
  obtain ⟨comment, hsplits, hends⟩ := h
  have hcut := hsplits.tokenizeFrom_eq number [] []
  rw [tokenizeFrom_stop (front_of_endsLine hends)] at hcut
  simpa [tokenizeLine] using hcut

/-- A line that does not split is reported at the first place where nothing can stand. -/
theorem Splits.tokenizeLine_error {line rest : List Char} {ps : List Piece} {cause : LexCause}
    (h : Splits line ps rest) (hbad : Unlexable rest cause) (number : Nat) :
    tokenizeLine number line = .error ⟨⟨number, (Piece.textOf ps).length + 1⟩, cause⟩ := by
  have hcut := h.tokenizeFrom_eq number [] []
  rwa [tokenizeFrom_bad (front_of_unlexable hbad)] at hcut

/-! ## Section 5: Texts -/

/-- The lexemes of lines that are numbered from this one on. -/
def textLexemes (number : Nat) : List (List Piece) → List (Located (List Char × Token))
  | [] => []
  | ps :: rest => lexemesFrom number [] ps ++ textLexemes (number + 1) rest

/-- The tokens of lines that are numbered from this one on, and the end of the text. -/
def textTokens (number : Nat) (cuts : List (List Piece)) : List (Located Token) :=
  (textLexemes number cuts).map tokenAt ++ [⟨⟨number + cuts.length, 1⟩, .eof⟩]

/-- The first place in the lines where nothing can stand, with what is wrong there. -/
def FirstFault (number : Nat) (lines : List (List Char)) (e : LexError) : Prop :=
  ∃ before line after ps rest, lines = before ++ line :: after ∧
    (∀ l ∈ before, ∃ ps, LineSplits l ps) ∧ Splits line ps rest ∧ Unlexable rest e.item ∧
    e.pos = ⟨number + before.length, (Piece.textOf ps).length + 1⟩

theorem tokenizeLines_of_splits {lines : List (List Char)} {cuts : List (List Piece)}
    (h : List.Forall₂ LineSplits lines cuts) (number : Nat) :
    tokenizeLines number lines = .ok (textTokens number cuts) := by
  induction h generalizing number with
  | nil => rfl
  | @cons line ps lines cuts hline hrest ih =>
    rw [tokenizeLines, hline.tokenizeLine_eq, ih]
    simp [textTokens, textLexemes, bind, Except.bind, pure, Except.pure]
    omega

theorem tokenizeLines_of_fault {lines : List (List Char)} {number : Nat} {e : LexError}
    (h : FirstFault number lines e) : tokenizeLines number lines = .error e := by
  obtain ⟨before, line, after, ps, rest, rfl, hbefore, hsplits, hbad, hpos⟩ := h
  induction before generalizing number with
  | nil =>
    rw [List.nil_append, tokenizeLines, hsplits.tokenizeLine_error hbad]
    obtain ⟨pos, cause⟩ := e
    cases hpos
    rfl
  | cons first before ih =>
    obtain ⟨ps', hfirst⟩ := hbefore first List.mem_cons_self
    have hpos' : e.pos = ⟨number + 1 + before.length, (Piece.textOf ps).length + 1⟩ := by
      rw [hpos, List.length_cons]
      congr 1
      omega
    have hrest := ih (fun l hl => hbefore l (List.mem_cons_of_mem _ hl)) hpos'
    rw [List.cons_append, tokenizeLines, hfirst.tokenizeLine_eq, hrest]
    rfl

/-- Lines split, or there is a first one that does not. -/
theorem splits_or_fault (number : Nat) (lines : List (List Char)) :
    (∃ cuts, List.Forall₂ LineSplits lines cuts) ∨ ∃ e, FirstFault number lines e := by
  induction lines generalizing number with
  | nil => exact .inl ⟨[], .nil⟩
  | cons line lines ih =>
    obtain ⟨ps, rest, hsplits, hends | ⟨cause, hbad⟩⟩ := exists_splits line
    · obtain ⟨cuts, hcuts⟩ | ⟨e, before, line', after, ps', rest', rfl, hbefore, hfault⟩ :=
        ih (number + 1)
      · exact .inl ⟨ps :: cuts, .cons ⟨rest, hsplits, hends⟩ hcuts⟩
      · refine .inr ⟨e, line :: before, line', after, ps', rest', rfl, ?_, hfault.1, hfault.2.1, ?_⟩
        · intro l hl
          rcases List.mem_cons.mp hl with rfl | hl
          · exact ⟨ps, rest, hsplits, hends⟩
          · exact hbefore l hl
        · rw [hfault.2.2, List.length_cons]
          congr 1
          omega
    · exact .inr ⟨⟨⟨number, (Piece.textOf ps).length + 1⟩, cause⟩, [], line, lines, ps, rest, rfl,
        fun l hl => absurd hl List.not_mem_nil, hsplits, hbad, rfl⟩

theorem tokenizeLines_eq_ok {lines : List (List Char)} {number : Nat}
    {ts : List (Located Token)} :
    tokenizeLines number lines = .ok ts ↔
      ∃ cuts, List.Forall₂ LineSplits lines cuts ∧ ts = textTokens number cuts := by
  constructor
  · intro h
    obtain ⟨cuts, hcuts⟩ | ⟨e, hfault⟩ := splits_or_fault number lines
    · rw [tokenizeLines_of_splits hcuts] at h
      cases h
      exact ⟨cuts, hcuts, rfl⟩
    · rw [tokenizeLines_of_fault hfault] at h
      cases h
  · rintro ⟨cuts, hcuts, rfl⟩
    exact tokenizeLines_of_splits hcuts number

theorem tokenizeLines_eq_error {lines : List (List Char)} {number : Nat} {e : LexError} :
    tokenizeLines number lines = .error e ↔ FirstFault number lines e := by
  refine ⟨fun h => ?_, tokenizeLines_of_fault⟩
  obtain ⟨cuts, hcuts⟩ | ⟨e', hfault⟩ := splits_or_fault number lines
  · rw [tokenizeLines_of_splits hcuts] at h
    cases h
  · rw [tokenizeLines_of_fault hfault] at h
    cases h
    exact hfault

/-! ## Section 6: The lexemes of a text -/

theorem Lexeme.ne_eof {text rest : List Char} {t : Token} (h : Lexeme text t rest) : t ≠ .eof := by
  rintro rfl
  exact lexable_of_front (front_of_lexeme h)

/-- The lexemes of a line stand on it, after what has gone before. -/
theorem pos_of_mem_lexemesFrom {number : Nat} {before : List Char} {ps : List Piece}
    {l : Located (List Char × Token)} (h : l ∈ lexemesFrom number before ps) :
    l.pos.line = number ∧ before.length < l.pos.column := by
  fun_induction lexemesFrom number before ps with
  | case1 before => cases h
  | case2 before c ps ih =>
    obtain ⟨hline, hcolumn⟩ := ih h
    rw [List.length_append] at hcolumn
    exact ⟨hline, by omega⟩
  | case3 before text t ps ih =>
    rcases List.mem_cons.mp h with rfl | h
    · exact ⟨rfl, Nat.lt_succ_self _⟩
    · obtain ⟨hline, hcolumn⟩ := ih h
      rw [List.length_append] at hcolumn
      exact ⟨hline, by omega⟩

/-- Each lexeme of a line is what stands there, as far as it reaches. -/
theorem Splits.written {line comment : List Char} {ps : List Piece} (h : Splits line ps comment)
    {number : Nat} {before : List Char} {l : Located (List Char × Token)}
    (hl : l ∈ lexemesFrom number before ps) :
    ∃ left rest, before ++ line = left ++ l.item.1 ++ rest ∧ l.pos.column = left.length + 1 ∧
      Lexeme l.item.1 l.item.2 rest := by
  induction h generalizing before with
  | done => cases hl
  | blank blank next ih =>
    obtain ⟨left, rest, hleft, hrest⟩ := ih hl
    exact ⟨left, rest, by rw [← hleft]; simp, hrest⟩
  | @lexeme text cs comment t ps lexeme next ih =>
    rcases List.mem_cons.mp hl with rfl | hl
    · exact ⟨before, cs, (List.append_assoc _ _ _).symm, rfl, lexeme⟩
    · obtain ⟨left, rest, hleft, hrest⟩ := ih hl
      exact ⟨left, rest, by rw [← hleft]; simp, hrest⟩

theorem Splits.ordered {line comment : List Char} {ps : List Piece} (h : Splits line ps comment)
    (number : Nat) (before : List Char) :
    (lexemesFrom number before ps).Pairwise (fun l l' => l.pos < l'.pos) := by
  induction h generalizing before with
  | done => exact .nil
  | blank blank next ih => exact ih _
  | @lexeme text cs comment t ps lexeme next ih =>
    refine List.pairwise_cons.mpr ⟨fun l hl => ?_, ih _⟩
    obtain ⟨hline, hcolumn⟩ := pos_of_mem_lexemesFrom hl
    have hpos := List.length_pos_iff.mpr lexeme.ne_nil
    rw [List.length_append] at hcolumn
    exact .inr ⟨hline.symm, by show before.length + 1 < _; omega⟩

/-- Whether a lexeme takes up the character at this place. -/
def TakesUp (p : Position) (l : Located (List Char × Token)) : Bool :=
  l.pos.line == p.line && decide (l.pos.column ≤ p.column) &&
    decide (p.column < l.pos.column + l.item.1.length)

/-- A lexeme on another line, or further to the right, does not. -/
theorem countP_takesUp_eq_zero {p : Position} {ls : List (Located (List Char × Token))}
    (h : ∀ l ∈ ls, l.pos.line = p.line → p.column < l.pos.column) : ls.countP (TakesUp p) = 0 := by
  refine List.countP_eq_zero.mpr (fun l hl htakes => ?_)
  simp only [TakesUp, Bool.and_eq_true, beq_iff_eq, decide_eq_true_eq] at htakes
  have := h l hl htakes.1.1
  omega

/-- On a line, each character outside of the comment that is no blank is in one lexeme. -/
theorem Splits.owned {line comment : List Char} {ps : List Piece} (h : Splits line ps comment)
    (number : Nat) (before : List Char) {col : Nat} {c : Char}
    (hc : (Piece.textOf ps)[col]? = some c)
    (hblank : isBlank c = false) :
    (lexemesFrom number before ps).countP (TakesUp ⟨number, before.length + col + 1⟩) = 1 := by
  induction h generalizing before col with
  | done => cases hc
  | @blank b cs rest ps blank next ih =>
    cases col with
    | zero =>
      cases hc
      rw [blank] at hblank
      cases hblank
    | succ col =>
      have hrest := ih (before ++ [b]) hc
      have hplace : (before ++ [b]).length + col + 1 = before.length + (col + 1) + 1 := by
        rw [List.length_append, List.length_singleton]
        omega
      rw [hplace] at hrest
      exact hrest
  | @lexeme text cs rest t ps lexeme next ih =>
    rw [lexemesFrom, List.countP_cons]
    by_cases hcol : col < text.length
    -- the lexeme itself; the others are further to the right
    · have hothers : (lexemesFrom number (before ++ text) ps).countP
          (TakesUp ⟨number, before.length + col + 1⟩) = 0 := by
        refine countP_takesUp_eq_zero (fun l hl _ => ?_)
        obtain ⟨-, hcolumn⟩ := pos_of_mem_lexemesFrom hl
        rw [List.length_append] at hcolumn
        show before.length + col + 1 < _
        omega
      have htakes : TakesUp ⟨number, before.length + col + 1⟩
          ⟨⟨number, before.length + 1⟩, (text, t)⟩ = true := by
        simp only [TakesUp, Bool.and_eq_true, beq_self_eq_true, decide_eq_true_eq, true_and]
        omega
      rw [hothers, htakes]
      rfl
    · have hc' : (Piece.textOf ps)[col - text.length]? = some c := by
        rwa [Piece.textOf, List.getElem?_append_right (by omega)] at hc
      have hrest := ih (before ++ text) hc'
      have hplace :
          (before ++ text).length + (col - text.length) + 1 = before.length + col + 1 := by
        rw [List.length_append]
        omega
      have hpast : TakesUp ⟨number, before.length + col + 1⟩
          ⟨⟨number, before.length + 1⟩, (text, t)⟩ = false := by
        refine Bool.eq_false_iff.mpr (fun htakes => ?_)
        simp only [TakesUp, Bool.and_eq_true, decide_eq_true_eq] at htakes
        omega
      rw [hplace] at hrest
      rw [hrest, hpast]
      rfl

/-! ## Section 7: The whole text -/

/-- The lexemes of lines are on lines of these numbers. -/
theorem line_of_mem_textLexemes {number : Nat} {cuts : List (List Piece)}
    {l : Located (List Char × Token)} (h : l ∈ textLexemes number cuts) :
    number ≤ l.pos.line ∧ l.pos.line < number + cuts.length := by
  fun_induction textLexemes number cuts with
  | case1 number => cases h
  | case2 number ps rest ih =>
    rw [List.length_cons]
    rcases List.mem_append.mp h with h | h
    · obtain ⟨hline, -⟩ := pos_of_mem_lexemesFrom h
      omega
    · have hrest := ih h
      omega

/-- What the lexemes of lines are like that have been split into these parts. -/
structure Lossless (number : Nat) (lines : List (List Char)) (cuts : List (List Piece)) : Prop where
  /-- Each lexeme is what stands after so many characters of its line, as far as it reaches. -/
  written : ∀ l ∈ textLexemes number cuts, ∃ line left rest,
    lines[l.pos.line - number]? = some line ∧ line = left ++ l.item.1 ++ rest ∧
      l.pos.column = left.length + 1 ∧ Lexeme l.item.1 l.item.2 rest
  /-- Each character outside of comments that is no blank is in one lexeme. -/
  owned : ∀ i chars ps col c, lines[i]? = some chars → cuts[i]? = some ps →
    chars[col]? = some c → col < (Piece.textOf ps).length → isBlank c = false →
    (textLexemes number cuts).countP (TakesUp ⟨number + i, col + 1⟩) = 1
  /-- The places of the tokens strictly increase, up to the end of the text. -/
  ordered : (textTokens number cuts).Pairwise (fun t t' => t.pos < t'.pos)

theorem written_of_splits {number : Nat} {lines : List (List Char)} {cuts : List (List Piece)}
    (h : List.Forall₂ LineSplits lines cuts) {l : Located (List Char × Token)}
    (hl : l ∈ textLexemes number cuts) :
    ∃ line left rest, lines[l.pos.line - number]? = some line ∧ line = left ++ l.item.1 ++ rest ∧
      l.pos.column = left.length + 1 ∧ Lexeme l.item.1 l.item.2 rest := by
  induction h generalizing number with
  | nil => cases hl
  | @cons line ps lines cuts hline hrest ih =>
    rcases List.mem_append.mp hl with hl | hl
    · obtain ⟨comment, hsplits, -⟩ := hline
      obtain ⟨left, rest, hleft, hwritten⟩ := hsplits.written hl
      refine ⟨line, left, rest, ?_, hleft, hwritten⟩
      rw [(pos_of_mem_lexemesFrom hl).1, Nat.sub_self]
      rfl
    · obtain ⟨line', left, rest, hfound, hwritten⟩ := ih hl
      refine ⟨line', left, rest, ?_, hwritten⟩
      have hafter := (line_of_mem_textLexemes hl).1
      have hindex : l.pos.line - number = l.pos.line - (number + 1) + 1 := by omega
      rw [hindex]
      exact hfound

theorem owned_of_splits {number : Nat} {lines : List (List Char)} {cuts : List (List Piece)}
    (h : List.Forall₂ LineSplits lines cuts) {i col : Nat} {chars : List Char} {ps : List Piece}
    {c : Char} (hline : lines[i]? = some chars) (hps : cuts[i]? = some ps)
    (hc : chars[col]? = some c) (hcol : col < (Piece.textOf ps).length)
    (hblank : isBlank c = false) :
    (textLexemes number cuts).countP (TakesUp ⟨number + i, col + 1⟩) = 1 := by
  induction h generalizing number i with
  | nil => cases hline
  | @cons first qs lines cuts hfirst hrest ih =>
    rw [textLexemes, List.countP_append]
    cases i with
    | zero =>
      cases hline
      cases hps
      obtain ⟨comment, hsplits, -⟩ := hfirst
      rw [hsplits.eq_append, List.getElem?_append_left hcol] at hc
      have hhere := hsplits.owned number [] hc hblank
      rw [List.length_nil, Nat.zero_add] at hhere
      -- the other lines have other numbers
      have hbelow : (textLexemes (number + 1) cuts).countP (TakesUp ⟨number + 0, col + 1⟩) = 0 := by
        refine countP_takesUp_eq_zero (fun l hl hsame => ?_)
        have hafter := (line_of_mem_textLexemes hl).1
        rw [hsame] at hafter
        exact absurd hafter (Nat.not_succ_le_self number)
      rw [hbelow, Nat.add_zero]
      exact hhere
    | succ i =>
      have habove :
          (lexemesFrom number [] qs).countP (TakesUp ⟨number + (i + 1), col + 1⟩) = 0 := by
        refine countP_takesUp_eq_zero (fun l hl hsame => ?_)
        have hnumber := (pos_of_mem_lexemesFrom hl).1.symm.trans hsame
        exact absurd hnumber (by simp)
      have hnumber : number + (i + 1) = number + 1 + i := by omega
      rw [habove, Nat.zero_add, hnumber]
      exact ih hline hps

theorem ordered_of_splits {number : Nat} {lines : List (List Char)} {cuts : List (List Piece)}
    (h : List.Forall₂ LineSplits lines cuts) :
    (textLexemes number cuts).Pairwise (fun l l' => l.pos < l'.pos) := by
  induction h generalizing number with
  | nil => exact .nil
  | @cons line ps lines cuts hline hrest ih =>
    obtain ⟨comment, hsplits, -⟩ := hline
    refine List.pairwise_append.mpr ⟨hsplits.ordered number [], ih, fun l hl l' hl' => .inl ?_⟩
    have hhere := (pos_of_mem_lexemesFrom hl).1
    have hthere := (line_of_mem_textLexemes hl').1
    omega

theorem lossless_of_splits {number : Nat} {lines : List (List Char)} {cuts : List (List Piece)}
    (h : List.Forall₂ LineSplits lines cuts) : Lossless number lines cuts := by
  refine ⟨fun l hl => written_of_splits h hl,
    fun i chars ps col c => owned_of_splits h, List.pairwise_append.mpr ⟨?_, ?_, ?_⟩⟩
  · exact List.pairwise_map.mpr (ordered_of_splits h)
  · exact List.pairwise_singleton _ _
  · intro t ht last hlast
    obtain ⟨l, hl, rfl⟩ := List.mem_map.mp ht
    rw [List.mem_singleton.mp hlast]
    exact .inl (line_of_mem_textLexemes hl).2

/-- Cutting a text into tokens loses nothing.  It succeeds exactly if every line splits into blanks
    and lexemes with at most a comment after them, and the tokens are those of the lexemes, at
    their places, with the end of the text as the only other one, on the line after the last.
    However the lines split, each lexeme is what stands at its place as far as it reaches, each
    character outside of comments that is no blank is in one of them, and places strictly increase.
    Otherwise the error is the first place in the text where nothing can stand. -/
theorem tokenize_lossless (source : String) :
    (∀ ts, tokenize source = .ok ts ↔
      ∃ cuts, List.Forall₂ LineSplits (lines source.toList) cuts ∧
        ts = (textLexemes 1 cuts).map tokenAt ++
          [⟨⟨(lines source.toList).length + 1, 1⟩, .eof⟩] ∧
        ∀ t ∈ (textLexemes 1 cuts).map tokenAt, t.item ≠ .eof) ∧
    (∀ cuts, List.Forall₂ LineSplits (lines source.toList) cuts →
      Lossless 1 (lines source.toList) cuts) ∧
    (∀ e, tokenize source = .error e ↔ FirstFault 1 (lines source.toList) e) := by
  refine ⟨fun ts => tokenizeLines_eq_ok.trans (exists_congr fun cuts => and_congr_right ?_),
    fun cuts => lossless_of_splits, fun e => tokenizeLines_eq_error⟩
  intro hcuts
  have hlexemes : ∀ t ∈ (textLexemes 1 cuts).map tokenAt, t.item ≠ .eof := by
    intro t ht
    obtain ⟨l, hl, rfl⟩ := List.mem_map.mp ht
    obtain ⟨_, _, _, _, _, _, hlexeme⟩ := written_of_splits hcuts hl
    exact hlexeme.ne_eof
  rw [textTokens, ← hcuts.length_eq, Nat.add_comm 1]
  exact ⟨fun hts => ⟨hts, hlexemes⟩, And.left⟩

/-- A text with two signs that run together, a comment, and a number right before a sign. -/
def joinedText : String := "a<<=1// <<=\n 0xFF..b"

/-- A text in which letters run into a number. -/
def spoiltText : String := "a\n 0xFFu // 8"

/-- The longer sign is taken first, the comment gives no token, and the number ends where the sign
    starts.  In the other text there is a first fault. -/
theorem tokenize_lossless_joined :
    (∃ cuts, List.Forall₂ LineSplits (lines joinedText.toList) cuts ∧
      (textLexemes 1 cuts).map tokenAt =
        [⟨⟨1, 1⟩, .ident "a"⟩, ⟨⟨1, 2⟩, .op .shl⟩, ⟨⟨1, 4⟩, .assign .set⟩, ⟨⟨1, 5⟩, .number 1⟩,
         ⟨⟨2, 2⟩, .number 255⟩, ⟨⟨2, 6⟩, .sign .dotdot⟩, ⟨⟨2, 8⟩, .ident "b"⟩] ∧
      Lossless 1 (lines joinedText.toList) cuts) ∧
    ∃ e, FirstFault 1 (lines spoiltText.toList) e := by
  obtain ⟨hsplits, hlossless, -⟩ := tokenize_lossless joinedText
  obtain ⟨-, -, hfault⟩ := tokenize_lossless spoiltText
  constructor
  · have htokens : (tokenize joinedText).toOption = some
        [⟨⟨1, 1⟩, .ident "a"⟩, ⟨⟨1, 2⟩, .op .shl⟩, ⟨⟨1, 4⟩, .assign .set⟩, ⟨⟨1, 5⟩, .number 1⟩,
         ⟨⟨2, 2⟩, .number 255⟩, ⟨⟨2, 6⟩, .sign .dotdot⟩, ⟨⟨2, 8⟩, .ident "b"⟩,
         ⟨⟨3, 1⟩, .eof⟩] := by
      decide +kernel
    cases htext : tokenize joinedText with
    | error e =>
      rw [htext] at htokens
      cases htokens
    | ok ts =>
      rw [htext] at htokens
      obtain rfl := Option.some.inj htokens
      obtain ⟨cuts, hcuts, hts, -⟩ := (hsplits _).mp htext
      have hlexemes := congrArg List.dropLast hts
      rw [List.dropLast_concat] at hlexemes
      exact ⟨cuts, hcuts, hlexemes.symm, hlossless cuts hcuts⟩
  · have hnone : (tokenize spoiltText).toOption = none := by decide +kernel
    cases htext : tokenize spoiltText with
    | error e => exact ⟨e, (hfault e).mp htext⟩
    | ok ts =>
      rw [htext] at hnone
      cases hnone

end WordLang
