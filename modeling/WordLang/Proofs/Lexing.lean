import WordLang.Token.Lexer

/-! # What the tokens of a text are like

    A text that can be cut into tokens gives tokens that can be written
    again: names that no rule takes for something else, numbers below the
    limit.  The end of the text is the last token and no other. -/

namespace WordLang

open Text

/-! ## Section 1: Names and tokens that can be written -/

/-- A word that stands for itself: it starts with a letter or a low line, goes on with letters,
    digits and low lines, and is neither a reserved word nor the name of a word type. -/
structure IsName (name : String) : Prop where
  word : ∃ c cs, name.toList = c :: cs ∧ isWordStart c = true ∧ ∀ d ∈ cs, isWordPart d = true
  notKeyword : ∀ k : Keyword, name ≠ k.text
  notWidth : ¬ ∃ digits, digits ≠ [] ∧ name.toList = 'u' :: digits ∧ ∀ d ∈ digits, d.isDigit = true

/-- Tokens that a text can hold. -/
def Token.Lexable : Token → Prop
  | .ident name => IsName name
  | .number value => value < numeralLimit
  | .uint _ | .keyword _ | .sign _ | .op _ | .assign _ => True
  | .eof => False

/-- Decimal digits, at least one, are a number, and nothing else is. -/
theorem isSome_decimal? (cs : List Char) :
    (decimal? cs).isSome = true ↔ cs ≠ [] ∧ ∀ d ∈ cs, d.isDigit = true := by
  have hdigits : ∀ n, (digitsFrom 10 decimalDigit? n cs).isSome = true ↔
      ∀ d ∈ cs, d.isDigit = true := by
    induction cs with
    | nil => simp [digitsFrom]
    | cons c cs ih =>
      intro n
      by_cases hc : c.isDigit = true
      · simp [digitsFrom, decimalDigit?, hc, ih]
      · simp [digitsFrom, decimalDigit?, hc]
  cases cs with
  | nil => simp [decimal?]
  | cons c cs => simpa [decimal?] using hdigits 0

theorem mem_all (k : Keyword) : k ∈ Keyword.all := by
  cases k <;> decide

theorem ofText?_eq_none {text : String} :
    Keyword.ofText? text = none ↔ ∀ k : Keyword, text ≠ k.text := by
  unfold Keyword.ofText?
  rw [List.find?_eq_none]
  constructor
  · intro h k heq
    exact h k (mem_all k) (by simp [heq])
  · intro h k _
    simpa using (h k).symm

theorem widthName?_eq_none {word : List Char} :
    widthName? word = none ↔
      ¬ ∃ digits, digits ≠ [] ∧ word = 'u' :: digits ∧ ∀ d ∈ digits, d.isDigit = true := by
  unfold widthName?
  split
  · next digits =>
    rw [Option.map_eq_none_iff, ← Option.not_isSome_iff_eq_none, isSome_decimal?]
    refine not_congr ⟨?_, ?_⟩
    · rintro ⟨hne, hall⟩
      exact ⟨digits, hne, rfl, hall⟩
    · rintro ⟨digits', hne, heq, hall⟩
      cases heq
      exact ⟨hne, hall⟩
  · next hword =>
    refine ⟨fun _ => ?_, fun _ => rfl⟩
    rintro ⟨digits, -, rfl, -⟩
    exact hword digits rfl

/-- The token of a word can be written. -/
theorem lexable_wordToken {c : Char} {cs : List Char} (hc : isWordStart c = true)
    (hcs : ∀ d ∈ cs, isWordPart d = true) : (wordToken (c :: cs)).Lexable := by
  unfold wordToken
  split
  · trivial
  · next hkeyword =>
    split
    · trivial
    · next hwidth =>
      refine ⟨⟨c, cs, String.toList_ofList, hc, hcs⟩, ofText?_eq_none.mp hkeyword, ?_⟩
      rw [String.toList_ofList]
      exact widthName?_eq_none.mp hwidth

theorem lexable_of_mem_signs {s : List Char × Token} (h : s ∈ signs) : s.2.Lexable := by
  have hsigns : ∀ s ∈ signs, s.2.Lexable := by
    simp [signs, Token.Lexable]
  exact hsigns s h

/-- What stands at the front of a line as a token can be written. -/
theorem lexable_of_front {cs rest : List Char} {t : Token} {size : Nat}
    (h : front cs = .token t size rest) : t.Lexable := by
  unfold front at h
  split at h
  · cases h
  · next c cs =>
    split at h
    · cases h
    · split at h
      · dsimp only at h
        split at h
        · next n hn =>
          cases h
          obtain ⟨-, hlt⟩ := Option.filter_eq_some_iff.mp hn
          show n < numeralLimit
          exact of_decide_eq_true hlt
        · cases h
      · split at h
        · next hc =>
          cases h
          exact lexable_wordToken hc (fun d hd => List.all_eq_true.mp List.all_takeWhile d hd)
        · split at h
          · cases h
          · split at h
            · next text t' hs =>
              cases h
              exact lexable_of_mem_signs (List.mem_of_find?_eq_some hs)
            · cases h

/-! ## Section 2: The tokens of a text -/

theorem lexable_tokenizeFrom {pos : Position} {cs : List Char} {found ts : List (Located Token)}
    (hfound : ∀ t ∈ found, t.item.Lexable) (h : tokenizeFrom pos cs found = .ok ts) :
    ∀ t ∈ ts, t.item.Lexable := by
  fun_induction tokenizeFrom pos cs found with
  | case1 pos cs found hfront =>
    cases h
    intro t ht
    exact hfound t (List.mem_reverse.mp ht)
  -- blanks add nothing, a token adds itself
  | case2 pos cs found rest hfront hlt ih => exact ih hfound h
  | case3 pos cs found t size rest hfront hlt ih =>
    refine ih (fun u hu => ?_) h
    rcases List.mem_cons.mp hu with rfl | hu
    · exact lexable_of_front hfront
    · exact hfound u hu
  | case4 pos cs found cause hfront => cases h

/-- Tokens that can be written, and after them the end of the text. -/
def Closed (ts : List (Located Token)) : Prop :=
  ∃ init pos, ts = init ++ [⟨pos, .eof⟩] ∧ ∀ t ∈ init, t.item.Lexable

theorem closed_tokenizeLines {number : Nat} {lines : List (List Char)}
    {ts : List (Located Token)} (h : tokenizeLines number lines = .ok ts) : Closed ts := by
  induction lines generalizing number ts with
  | nil =>
    cases h
    exact ⟨[], _, rfl, fun t ht => nomatch ht⟩
  | cons line rest ih =>
    unfold tokenizeLines at h
    cases hhere : tokenizeLine number line with
    | error e => rw [hhere] at h; cases h
    | ok here =>
      rw [hhere] at h
      cases hthere : tokenizeLines (number + 1) rest with
      | error e => rw [hthere] at h; cases h
      | ok there =>
        rw [hthere] at h
        cases h
        -- the end of the text comes from the lines below
        obtain ⟨init, pos, rfl, hinit⟩ := ih hthere
        refine ⟨here ++ init, pos, (List.append_assoc _ _ _).symm, fun t ht => ?_⟩
        rcases List.mem_append.mp ht with ht | ht
        · exact lexable_tokenizeFrom (fun u hu => absurd hu List.not_mem_nil) hhere t ht
        · exact hinit t ht

/-- The tokens of a text can be written, and the end of the text is the last of them. -/
theorem closed_tokenize {source : String} {ts : List (Located Token)}
    (h : tokenize source = .ok ts) : Closed ts :=
  closed_tokenizeLines h

end WordLang
