import Mathlib.Data.Nat.Digits.Defs
import WordLang.Proofs.Alignment
import WordLang.Proofs.Spacing

/-! # Words of digits

    A run of word characters that starts with a digit is one number or none
    at all, and a `u` with digits after it names a word type.  What the digits
    stand for is said here by place value (`Nat.ofDigits`), for texts of any
    length and with any number of leading zeros.

    More can be written than there are numbers of 64 bits and widths up to 64.
    A number that is too large is refused where it stands.  A width that is
    too large still gives a token, one and the same for all that pass 32 bits;
    no type can be read from it, so none of them is taken for what it would be
    modulo `2 ^ 32`. -/

namespace WordLang

open Text

/-! ## Section 1: What digits denote -/

/-- The character is the digit for `d`, in either case. -/
def IsDigitOf (base : Nat) (c : Char) (d : Nat) : Prop :=
  d < base ∧ (c = d.digitChar ∨ c = d.digitChar.toUpper)

instance (base : Nat) (c : Char) (d : Nat) : Decidable (IsDigitOf base c d) :=
  inferInstanceAs (Decidable (_ ∧ _))

/-- A text of one digit or more, and the number with these digits. -/
def Denotes (base : Nat) (text : List Char) (n : Nat) : Prop :=
  ∃ digits, digits ≠ [] ∧ List.Forall₂ (IsDigitOf base) text digits ∧
    -- the lowest digit is the last one
    Nat.ofDigits base digits.reverse = n

/-- A word that denotes a number: in decimal, or in hexadecimal after a mark. -/
def NumberWord (word : List Char) (n : Nat) : Prop :=
  Denotes 10 word n ∨
    ∃ mark digits, word = '0' :: mark :: digits ∧ (mark = 'x' ∨ mark = 'X') ∧ Denotes 16 digits n

/-- No character after `f` is a hexadecimal digit. -/
theorem toNat_of_hexDigit? {c : Char} {d : Nat} (h : hexDigit? c = some d) :
    c.toNat ≤ 'f'.toNat := by
  unfold hexDigit? at h
  split at h
  · next hc => exact (toNat_of_isDigit hc).2.trans (by decide)
  · split at h
    · next hc => exact hc.2
    · split at h
      · next hc => exact Nat.le_trans hc.2 (by decide)
      · cases h

theorem hexDigit?_eq_some {c : Char} {d : Nat} : hexDigit? c = some d ↔ IsDigitOf 16 c d := by
  constructor
  · intro h
    have hall : ∀ code ≤ 'f'.toNat,
        ∀ d ∈ hexDigit? (Char.ofNat code), IsDigitOf 16 (Char.ofNat code) d := by decide
    have hc := hall c.toNat (toNat_of_hexDigit? h) d
    rw [Char.ofNat_toNat] at hc
    exact hc h
  · rintro ⟨hd, hc⟩
    have hall : ∀ d < 16,
        hexDigit? d.digitChar = some d ∧ hexDigit? d.digitChar.toUpper = some d := by decide
    rcases hc with rfl | rfl
    · exact (hall d hd).1
    · exact (hall d hd).2

/-- The decimal digits are the hexadecimal ones below ten. -/
theorem decimalDigit?_iff_hexDigit? {c : Char} {d : Nat} :
    decimalDigit? c = some d ↔ hexDigit? c = some d ∧ d < 10 := by
  unfold decimalDigit? hexDigit?
  by_cases hc : c.isDigit = true
  · have hbounds := toNat_of_isDigit hc
    have hzero : '0'.toNat = 48 := rfl
    simp only [hc, if_true, Option.some.injEq]
    omega
  · rw [if_neg hc, if_neg hc]
    constructor
    · intro h
      cases h
    · rintro ⟨h, hd⟩
      -- the letters count ten and more
      split at h
      · cases h
        omega
      · split at h
        · cases h
          omega
        · cases h

theorem decimalDigit?_eq_some {c : Char} {d : Nat} :
    decimalDigit? c = some d ↔ IsDigitOf 10 c d := by
  rw [decimalDigit?_iff_hexDigit?, hexDigit?_eq_some]
  unfold IsDigitOf
  constructor
  · rintro ⟨⟨-, hc⟩, hd⟩
    exact ⟨hd, hc⟩
  · rintro ⟨hd, hc⟩
    exact ⟨⟨by omega, hc⟩, hd⟩

/-- Reading digits from the left gives their value by place. -/
theorem foldl_eq_ofDigits (base : Nat) (digits : List Nat) :
    digits.foldl (fun n d => n * base + d) 0 = Nat.ofDigits base digits.reverse := by
  rw [Nat.ofDigits_eq_foldr, List.foldr_reverse]
  congr 1
  funext n d
  rw [Nat.mul_comm, Nat.add_comm]
  rfl

theorem isWritten_iff_denotes {base : Nat} {digit? : Char → Option Nat}
    (hdigit : ∀ {c d}, digit? c = some d ↔ IsDigitOf base c d) {text : List Char} {n : Nat} :
    IsWritten base digit? text n ↔ Denotes base text n := by
  have htext : ∀ digits : List Nat, text.map digit? = digits.map some ↔
      List.Forall₂ (IsDigitOf base) text digits := by
    intro digits
    rw [← List.forall₂_eq_eq_eq, List.forall₂_map_left_iff, List.forall₂_map_right_iff]
    simp only [hdigit]
  unfold IsWritten Denotes
  simp only [htext, foldl_eq_ofDigits]

/-- The words that denote numbers are the numerals. -/
theorem isNumeral_iff {word : List Char} {n : Nat} : IsNumeral word n ↔ NumberWord word n := by
  constructor
  · intro h
    cases h with
    | decimal written => exact .inl ((isWritten_iff_denotes decimalDigit?_eq_some).mp written)
    | hexadecimal marked written =>
      exact .inr ⟨_, _, rfl, marked, (isWritten_iff_denotes hexDigit?_eq_some).mp written⟩
  · rintro (written | ⟨mark, digits, rfl, marked, written⟩)
    · exact .decimal ((isWritten_iff_denotes decimalDigit?_eq_some).mpr written)
    · exact .hexadecimal marked ((isWritten_iff_denotes hexDigit?_eq_some).mpr written)

theorem numeral?_iff {word : List Char} {n : Nat} :
    numeral? word = some n ↔ NumberWord word n ∧ n < 2 ^ 64 := by
  have hlimit : numeralLimit = 2 ^ 64 := by decide
  rw [numeral?_eq_some, isNumeral_iff, hlimit]

theorem numeral?_eq_none {word : List Char} :
    numeral? word = none ↔ ¬ ∃ n, NumberWord word n ∧ n < 2 ^ 64 := by
  simp only [Option.eq_none_iff_forall_ne_some, ne_eq, numeral?_iff, not_exists]

theorem decimal?_iff {text : List Char} {n : Nat} : decimal? text = some n ↔ Denotes 10 text n := by
  rw [decimal?, ← isWritten_iff]
  exact isWritten_iff_denotes decimalDigit?_eq_some

/-! ## Section 2: Words in the middle of a line -/

/-- A line up to some place has these tokens, and something new can start there: no comment hides
    the place, and no word goes on. -/
structure CutUpTo (number : Nat) (before : List Char) (ts : List (Located Token)) : Prop where
  tokens : tokenizeLine number before = .ok ts
  noComment : ¬ ['/', '/'] <:+: before
  noWord : ∀ c ∈ before.getLast?, isWordPart c = false

/-- Wherever the whole word stands, it gives the token, and the line goes on after it. -/
def CutAs (word : List Char) (t : Token) : Prop :=
  ∀ number before ts rest, CutUpTo number before ts → EndsWord rest →
    tokenizeLine number (before ++ (word ++ rest)) =
      followedBy (ts ++ [⟨⟨number, before.length + 1⟩, t⟩]) (before.length + word.length)
        (tokenizeLine number rest)

/-- Wherever the whole word stands, the line is refused there. -/
def RefusedAs (word : List Char) (cause : LexCause) : Prop :=
  ∀ number before ts rest, CutUpTo number before ts → EndsWord rest →
    tokenizeLine number (before ++ (word ++ rest)) =
      .error ⟨⟨number, before.length + 1⟩, cause⟩

theorem endsWord_nil : EndsWord [] := fun _ h => by cases h

theorem cutUpTo_nil (number : Nat) : CutUpTo number [] [] :=
  ⟨tokenizeFrom_stop rfl, by decide, fun _ h => by cases h⟩

/-- Words are written without the characters of signs. -/
theorem CutUpTo.divides {number : Nat} {before : List Char} {ts : List (Located Token)}
    (h : CutUpTo number before ts) {x : Char} (hx : isWordPart x = true) : Divides before x := by
  have hsigns : ∀ s ∈ signs, s.1.any isWordPart = false := by decide
  refine ⟨not_mem_sign fun s hs hmem => ?_, fun c hc hpart => ?_⟩
  · exact List.any_eq_false.mp (hsigns s hs) x hmem hx
  · rw [h.noWord c hc] at hpart
    cases hpart

section

variable {c : Char} {cs : List Char} (hc : isWordPart c = true)

include hc

/-- A word that can be cut off by itself can be cut off anywhere. -/
theorem cutAs_of_lexeme {t : Token} (h : ∀ rest, EndsWord rest → Lexeme (c :: cs) t rest) :
    CutAs (c :: cs) t := by
  intro number before ts rest hbefore hrest
  have hfront := front_of_lexeme (h rest hrest)
  -- the line is divided before the word, which is then the front of what is left
  have hline := tokenizeLine_append hbefore.tokens hbefore.noComment (hbefore.divides hc)
    (cs ++ rest)
  rw [← List.cons_append, tokenizeLine_token number hfront, followedBy_followedBy] at hline
  rw [hline]
  simp [Located.relocate, Position.advance, Nat.add_comm]

/-- A word that stands for nothing by itself stands for nothing anywhere. -/
theorem refusedAs_of_unlexable {cause : LexCause}
    (h : ∀ rest, EndsWord rest → Unlexable (c :: cs ++ rest) cause) :
    RefusedAs (c :: cs) cause := by
  intro number before ts rest hbefore hrest
  have hbad : tokenizeLine number (c :: cs ++ rest) = .error ⟨⟨number, 1⟩, cause⟩ :=
    tokenizeFrom_bad (front_of_unlexable (h rest hrest))
  have hline := tokenizeLine_append hbefore.tokens hbefore.noComment (hbefore.divides hc)
    (cs ++ rest)
  rw [← List.cons_append, hbad] at hline
  rw [hline]
  simp [followedBy, Located.relocate, Position.advance, Nat.add_comm]

end

/-- A word on a line of its own. -/
theorem CutAs.alone {word : List Char} {t : Token} (h : CutAs word t) (number : Nat) :
    tokenizeLine number word = .ok [⟨⟨number, 1⟩, t⟩] := by
  have hline := h number [] [] [] (cutUpTo_nil number) endsWord_nil
  rw [(cutUpTo_nil number).tokens] at hline
  simpa [followedBy] using hline

theorem RefusedAs.alone {word : List Char} {cause : LexCause} (h : RefusedAs word cause)
    (number : Nat) : tokenizeLine number word = .error ⟨⟨number, 1⟩, cause⟩ := by
  simpa using h number [] [] [] (cutUpTo_nil number) endsWord_nil

/-- No word is cut in two ways. -/
theorem CutAs.unique {word : List Char} {t t' : Token} (h : CutAs word t) (h' : CutAs word t') :
    t = t' := by
  have hline := (h.alone 1).symm.trans (h'.alone 1)
  simpa using hline

/-- A word that is refused has no token. -/
theorem CutAs.not_refusedAs {word : List Char} {t : Token} {cause : LexCause} (h : CutAs word t) :
    ¬ RefusedAs word cause := by
  intro h'
  cases (h.alone 1).symm.trans (h'.alone 1)

/-! ## Section 3: Words that start with a digit -/

section

variable {c : Char} {cs : List Char} (hc : c.isDigit = true) (hcs : ∀ d ∈ cs, isWordPart d = true)

include hc hcs

theorem cutAs_number {n : Nat} (h : NumberWord (c :: cs) n) (hn : n < 2 ^ 64) :
    CutAs (c :: cs) (.number n) := by
  obtain ⟨value, below⟩ := numeral?_eq_some.mp (numeral?_iff.mpr ⟨h, hn⟩)
  exact cutAs_of_lexeme (isWordPart_of_isDigit hc)
    fun rest hrest => .number hc hcs hrest value below

theorem refusedAs_invalidNumber (h : ¬ ∃ n, NumberWord (c :: cs) n ∧ n < 2 ^ 64) :
    RefusedAs (c :: cs) (.invalidNumber (String.ofList (c :: cs))) := by
  have noValue : ¬ ∃ n, IsNumeral (c :: cs) n ∧ n < numeralLimit := by
    rintro ⟨n, hn⟩
    exact h ⟨n, numeral?_iff.mp (numeral?_eq_some.mpr hn)⟩
  exact refusedAs_of_unlexable (isWordPart_of_isDigit hc)
    fun rest hrest => .number hc hcs hrest noValue

/-- The word is cut as a number just if it denotes this number. -/
theorem cutAs_number_iff {n : Nat} :
    CutAs (c :: cs) (.number n) ↔ NumberWord (c :: cs) n ∧ n < 2 ^ 64 := by
  constructor
  · intro h
    by_cases hvalue : ∃ n, NumberWord (c :: cs) n ∧ n < 2 ^ 64
    · -- the number that the word denotes is its token, and it has no other
      obtain ⟨n', hword, hlt⟩ := hvalue
      cases h.unique (cutAs_number hc hcs hword hlt)
      exact ⟨hword, hlt⟩
    · exact absurd (refusedAs_invalidNumber hc hcs hvalue) h.not_refusedAs
  · rintro ⟨hword, hlt⟩
    exact cutAs_number hc hcs hword hlt

theorem refusedAs_invalidNumber_iff :
    RefusedAs (c :: cs) (.invalidNumber (String.ofList (c :: cs))) ↔
      ¬ ∃ n, NumberWord (c :: cs) n ∧ n < 2 ^ 64 := by
  constructor
  · rintro h ⟨n, hword, hlt⟩
    exact (cutAs_number hc hcs hword hlt).not_refusedAs h
  · exact refusedAs_invalidNumber hc hcs

end

/-! ## Section 4: Names of word types -/

namespace Parser

/-- Wherever a type is read, the token is taken for this width. -/
structure NamesWidth (t : Token) (w : Width) : Prop where
  width : ∀ pos ts, Reads width (⟨pos, t⟩ :: ts) w ts
  word : ∀ pos ts, Reads type (⟨pos, t⟩ :: ts) (.uint w) ts
  element : ∀ opening pos place closing len ts,
    Reads type (⟨opening, .sign .lbracket⟩ :: ⟨pos, t⟩ :: ⟨place, .number len⟩ ::
      ⟨closing, .sign .rbracket⟩ :: ts) (.array w len) ts

/-- Wherever a type is read, the token is refused, whatever follows it. -/
structure NamesNoWidth (t : Token) (cause : ParseCause) : Prop where
  width : ∀ pos ts, width (⟨pos, t⟩ :: ts) = .error ⟨pos, cause⟩
  word : ∀ pos ts, type (⟨pos, t⟩ :: ts) = .error ⟨pos, cause⟩
  element : ∀ opening pos ts,
    type (⟨opening, .sign .lbracket⟩ :: ⟨pos, t⟩ :: ts) = .error ⟨pos, cause⟩

theorem namesWidth_uint (w : Width) : NamesWidth (.uint w.bits) w where
  width _ _ := reads_width.mpr ⟨.word rfl⟩
  word _ _ := reads_type.mpr ⟨.word (.word rfl)⟩
  element _ _ _ _ _ _ := reads_type.mpr ⟨.array (.word rfl)⟩

/-- A token for a number of bits that no word has. -/
theorem width_eq_error {bits : Nat} (h : ¬ (1 ≤ bits ∧ bits ≤ 64)) (pos : Position)
    (ts : Grammar.Stream) :
    width (⟨pos, .uint bits⟩ :: ts) = .error ⟨pos, .unknownType bits⟩ := by
  have hpeek : Reads peek (⟨pos, .uint bits⟩ :: ts) ⟨pos, .uint bits⟩ _ := rfl
  have htake : Reads advance (⟨pos, .uint bits⟩ :: ts) ⟨pos, .uint bits⟩ _ := rfl
  unfold width
  rw [bind_of_reads hpeek]
  dsimp only
  rw [bind_of_reads htake, Width.ofBits, dif_neg h]
  rfl

theorem namesNoWidth_uint {bits : Nat} (h : ¬ (1 ≤ bits ∧ bits ≤ 64)) :
    NamesNoWidth (.uint bits) (.unknownType bits) := by
  -- with a bracket or without, the first thing that a type needs is the name of a word type
  refine ⟨width_eq_error h, fun pos ts => ?_, fun opening pos ts => ?_⟩
  · have hnext : Reads (eat (.sign .lbracket)) (⟨pos, .uint bits⟩ :: ts) false _ :=
      (reads_eat _ Token.noConfusion).mpr (.inr ⟨rfl, rfl, Token.noConfusion⟩)
    unfold type
    rw [bind_of_reads hnext]
    exact bind_error (width_eq_error h pos ts)
  · have hnext : Reads (eat (.sign .lbracket))
        (⟨opening, .sign .lbracket⟩ :: ⟨pos, .uint bits⟩ :: ts) true _ :=
      (reads_eat _ Token.noConfusion).mpr (.inl ⟨rfl, opening, rfl⟩)
    unfold type
    rw [bind_of_reads hnext]
    exact bind_error (width_eq_error h pos ts)

section

variable {bits : Nat}

/-- Taking all great widths for one keeps them apart from those that exist. -/
theorem namesWidth_min_iff {w : Width} :
    NamesWidth (.uint (min bits 0xFFFFFFFF)) w ↔ w.bits = bits := by
  have hsize := w.le_size
  constructor
  · intro h
    -- no width reaches the number that stands for all great ones
    obtain ⟨⟨hw⟩⟩ := reads_width.mp (h.width .start [])
    omega
  · rintro rfl
    have hmin : min w.bits 0xFFFFFFFF = w.bits := by omega
    rw [hmin]
    exact namesWidth_uint w

theorem namesNoWidth_min_iff :
    NamesNoWidth (.uint (min bits 0xFFFFFFFF)) (.unknownType (min bits 0xFFFFFFFF)) ↔
      ¬ (1 ≤ bits ∧ bits ≤ 64) := by
  constructor
  · intro h hbits
    have hnames : NamesWidth (.uint (min bits 0xFFFFFFFF)) ⟨bits, hbits.1, hbits.2⟩ :=
      namesWidth_min_iff.mpr rfl
    cases (hnames.width .start []).symm.trans (h.width .start [])
  · intro h
    exact namesNoWidth_uint (by omega)

end

end Parser

/-- A `u` with digits after it is the name of a word type. -/
theorem cutAs_uint {digits : List Char} {bits : Nat} (h : Denotes 10 digits bits) :
    CutAs ('u' :: digits) (.uint (min bits 0xFFFFFFFF)) := by
  have written := (isWritten_iff_denotes decimalDigit?_eq_some).mpr h
  have hparts : ∀ d ∈ digits, isWordPart d = true :=
    fun d hd => isWordPart_of_isDigit (written.isDigit d hd)
  exact cutAs_of_lexeme (by decide)
    fun rest hrest => .word (by decide) hparts hrest (.width written)

/-! ## Section 5: The law -/

/-- Words that start with a digit are cut as numbers just if they denote one below `2 ^ 64`, and
    then as this number; all others are refused, with the word as the fault's text.  Words of a `u`
    and digits are cut as names of word types, and where a type is read they stand for the width
    that the digits denote, if there is one, and for nothing else; all others are refused. -/
theorem numeric_words_exact :
    (∀ c cs, c.isDigit = true → (∀ d ∈ cs, isWordPart d = true) →
      (∀ n, CutAs (c :: cs) (.number n) ↔ NumberWord (c :: cs) n ∧ n < 2 ^ 64) ∧
      (RefusedAs (c :: cs) (.invalidNumber (String.ofList (c :: cs))) ↔
        ¬ ∃ n, NumberWord (c :: cs) n ∧ n < 2 ^ 64)) ∧
    (∀ digits bits, Denotes 10 digits bits → ∃ t, CutAs ('u' :: digits) t ∧
      (∀ w, Parser.NamesWidth t w ↔ w.bits = bits) ∧
      (Parser.NamesNoWidth t (.unknownType (min bits 0xFFFFFFFF)) ↔
        ¬ (1 ≤ bits ∧ bits ≤ 64))) := by
  refine ⟨fun c cs hc hcs => ?_, fun digits bits h => ?_⟩
  · exact ⟨fun n => cutAs_number_iff hc hcs, refusedAs_invalidNumber_iff hc hcs⟩
  · exact ⟨_, cutAs_uint h, fun w => Parser.namesWidth_min_iff, Parser.namesNoWidth_min_iff⟩

/-- At the limits: the greatest number and the first one past it, a word with a digit of another
    script, zeros in front, and a width that is 8 modulo `2 ^ 32`. -/
theorem numeric_words_exact_limits :
    CutAs ('0' :: 'x' :: List.replicate 16 'F') (.number 0xFFFFFFFFFFFFFFFF) ∧
    RefusedAs (Nat.toDigits 10 0x10000000000000000) (.invalidNumber "18446744073709551616") ∧
    RefusedAs ['1', '٣'] (.invalidNumber "1٣") ∧
    tokenizeLine 3 ['+', '=', '0', '0', '7', ';'] =
      .ok [⟨⟨3, 1⟩, .assign .add⟩, ⟨⟨3, 3⟩, .number 7⟩, ⟨⟨3, 6⟩, .sign .semicolon⟩] ∧
    (∃ t, CutAs ('u' :: List.replicate 9 '0' ++ ['6', '4']) t ∧ Parser.NamesWidth t .word) ∧
    ∃ t, CutAs ('u' :: Nat.toDigits 10 0x100000008) t ∧
      Parser.NamesNoWidth t (.unknownType 0xFFFFFFFF) := by
  obtain ⟨hnumber, hwidth⟩ := numeric_words_exact
  refine ⟨?_, ?_, ?_, ?_, ?_, ?_⟩
  · have hcut := (hnumber '0' ('x' :: List.replicate 16 'F') (by decide)
      (List.all_eq_true.mp (by decide))).1
    exact (hcut _).mpr (numeral?_iff.mp (by decide))
  · have hrefused := (hnumber '1' (Nat.toDigits 10 8446744073709551616) (by decide)
      (List.all_eq_true.mp (by decide))).2
    exact hrefused.mpr (numeral?_eq_none.mp (by decide))
  · have hrefused := (hnumber '1' ['٣'] (by decide) (List.all_eq_true.mp (by decide))).2
    exact hrefused.mpr (numeral?_eq_none.mp (by decide))
  · have hcut := (hnumber '0' ['0', '7'] (by decide) (List.all_eq_true.mp (by decide))).1
    have hadd : tokenizeLine 3 ['+', '='] = .ok [⟨⟨3, 1⟩, .assign .add⟩] :=
      tokenizeLine_spelling (t := .assign .add) trivial 3
    have hend : tokenizeLine 3 [';'] = .ok [⟨⟨3, 1⟩, .sign .semicolon⟩] :=
      tokenizeLine_spelling (t := .sign .semicolon) trivial 3
    have hlast : ∀ c ∈ ['+', '='].getLast?, isWordPart c = false := by
      intro c h
      cases h
      decide
    have hrest : EndsWord [';'] := by
      intro c h
      cases h
      decide
    have hline := (hcut 7).mpr (numeral?_iff.mp (by decide)) 3 ['+', '='] _ [';']
      ⟨hadd, by decide, hlast⟩ hrest
    rw [hend] at hline
    exact hline
  · obtain ⟨t, hcut, hnames, -⟩ := hwidth (List.replicate 9 '0' ++ ['6', '4']) 64
      (decimal?_iff.mp (by decide))
    exact ⟨t, hcut, (hnames .word).mpr rfl⟩
  · obtain ⟨t, hcut, -, hnone⟩ := hwidth (Nat.toDigits 10 0x100000008) 0x100000008
      (decimal?_iff.mp (by decide))
    exact ⟨t, hcut, hnone.mpr (by decide)⟩

end WordLang
