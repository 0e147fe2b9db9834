import WordLang.Text.Alphabetic
import WordLang.Text.Blank
import WordLang.Text.Lines
import WordLang.Text.Numeral
import WordLang.Text.Numeric
import WordLang.Token

/-! # Cutting text into tokens

    No token crosses a line end, so a text is cut line by line.  At each
    place the longest possible token is taken: a word or number is the whole
    run of word characters, a sign the longest one that stands there.  Two
    slashes start a comment, which goes to the end of the line.

    `front` says what stands at the front of a line and what follows it;
    `tokenizeFrom` repeats it.  What follows is always shorter, which is why
    the repetition ends. -/

namespace WordLang

open Text

/-! ## Section 1: Words, numbers and signs -/

/-- Characters that can start a word. -/
def isWordStart (c : Char) : Bool := isAlphabetic c || c == '_'

/-- Characters that can continue a word or a number. -/
def isWordPart (c : Char) : Bool := isAlphabetic c || isNumeric c || c == '_'

/-- The width named by `u` and decimal digits.  Widths past every existing one are all
    taken for the greatest number of 32 bits. -/
def widthName? : List Char → Option Nat
  | 'u' :: digits => (decimal? digits).map (fun n => min n 0xFFFFFFFF)
  | _ => none

/-- The token that a word stands for. -/
def wordToken (word : List Char) : Token :=
  match Keyword.ofText? (String.ofList word) with
  | some k => .keyword k
  | none =>
    match widthName? word with
    | some bits => .uint bits
    | none => .ident (String.ofList word)

/-- Every sign with its characters, longer signs before shorter ones. -/
def signs : List (List Char × Token) :=
  [(['.', '.'], .sign .dotdot), (['!', '!'], .sign .panic),
   (['+', '='], .assign .add), (['-', '='], .assign .sub),
   (['=', '='], .op .eq), (['!', '='], .op .ne), (['<', '='], .op .le), (['>', '='], .op .ge),
   (['<', '<'], .op .shl), (['>', '>'], .op .shr),
   (['('], .sign .lparen), ([')'], .sign .rparen),
   (['\x7b'], .sign .lbrace), (['\x7d'], .sign .rbrace),
   (['['], .sign .lbracket), ([']'], .sign .rbracket),
   ([':'], .sign .colon), ([','], .sign .comma), ([';'], .sign .semicolon),
   (['='], .assign .set), (['+'], .op .add), (['-'], .op .sub), (['*'], .op .mul),
   (['/'], .op .div), (['%'], .op .rem), (['^'], .op .xor), (['|'], .op .or), (['&'], .op .and),
   (['<'], .op .lt), (['>'], .op .gt)]

/-- The longest sign at the front of a line, with its characters. -/
def sign? (cs : List Char) : Option (List Char × Token) :=
  signs.find? (fun s => s.1.isPrefixOf cs)

theorem signs_ne_nil {s : List Char × Token} (h : s ∈ signs) : s.1 ≠ [] := by
  revert s; decide

/-! ## Section 2: The front of a line -/

/-- What stands at the front of a line. -/
inductive Front where
  /-- Nothing more, or a comment. -/
  | stop
  /-- A blank, and what follows it. -/
  | blank (rest : List Char)
  /-- A token, the number of its characters and what follows it. -/
  | token (t : Token) (size : Nat) (rest : List Char)
  /-- No token. -/
  | bad (cause : LexCause)

/-- What stands at the front of a line. -/
def front : List Char → Front
  | [] => .stop
  | c :: cs =>
    if isBlank c then .blank cs
    -- letters may follow a digit: they belong to the number, and spoil it unless it is hexadecimal
    else if c.isDigit then
      let word := c :: cs.takeWhile isWordPart
      match numeral? word with
      | some n => .token (.number n) word.length (cs.dropWhile isWordPart)
      | none => .bad (.invalidNumber (String.ofList word))
    else if isWordStart c then
      let word := c :: cs.takeWhile isWordPart
      .token (wordToken word) word.length (cs.dropWhile isWordPart)
    -- a comment hides the rest of the line; a single slash is an operator
    else if ['/', '/'].isPrefixOf (c :: cs) then .stop
    else
      match sign? (c :: cs) with
      | some (text, t) => .token t text.length ((c :: cs).drop text.length)
      | none => .bad (.unrecognizedChar c)

theorem length_dropWhile_le {α : Type} (p : α → Bool) (l : List α) :
    (l.dropWhile p).length ≤ l.length :=
  (List.dropWhile_sublist p).length_le

/-- A token takes at least one character. -/
theorem length_lt_of_front_token {cs rest : List Char} {t : Token} {size : Nat}
    (h : front cs = .token t size rest) : rest.length < cs.length := by
  unfold front at h
  split at h
  · cases h
  · next c cs =>
    have hdrop := length_dropWhile_le isWordPart cs
    split at h
    · cases h
    · split at h
      · dsimp only at h
        split at h <;> cases h
        simp only [List.length_cons]; omega
      · split at h
        · cases h
          simp only [List.length_cons]; omega
        · split at h
          · cases h
          · split at h
            · next text t' hs =>
              have hne : text ≠ [] := signs_ne_nil (List.mem_of_find?_eq_some hs)
              have hpos := List.length_pos_iff.mpr hne
              cases h
              simp only [List.length_drop, List.length_cons]; omega
            · cases h

/-- A blank takes one character. -/
theorem length_lt_of_front_blank {cs rest : List Char} (h : front cs = .blank rest) :
    rest.length < cs.length := by
  unfold front at h
  split at h
  · cases h
  · split at h
    · cases h; simp
    · split at h
      · dsimp only at h; split at h <;> cases h
      · split at h
        · cases h
        · split at h
          · cases h
          · split at h <;> cases h

/-! ## Section 3: Lines and texts -/

/-- The tokens of a line from a place on, after those already `found`, newest first. -/
def tokenizeFrom (pos : Position) (cs : List Char) (found : List (Located Token)) :
    Except LexError (List (Located Token)) :=
  match h : front cs with
  | .stop => .ok found.reverse
  | .blank rest =>
    have := length_lt_of_front_blank h
    tokenizeFrom (pos.advance 1) rest found
  | .token t size rest =>
    have := length_lt_of_front_token h
    tokenizeFrom (pos.advance size) rest (⟨pos, t⟩ :: found)
  | .bad cause => .error ⟨pos, cause⟩
termination_by cs.length

/-- The tokens of one line, which has the given number. -/
def tokenizeLine (number : Nat) (line : List Char) : Except LexError (List (Located Token)) :=
  tokenizeFrom ⟨number, 1⟩ line []

/-- The tokens of the lines from a number on, and the end of the text on a line of its own. -/
def tokenizeLines (number : Nat) : List (List Char) → Except LexError (List (Located Token))
  | [] => .ok [⟨⟨number, 1⟩, .eof⟩]
  | line :: rest => do
    let here ← tokenizeLine number line
    let there ← tokenizeLines (number + 1) rest
    return here ++ there

/-- The tokens of a text, of which the end of the text is the last. -/
def tokenize (source : String) : Except LexError (List (Located Token)) :=
  tokenizeLines 1 (lines source.toList)

end WordLang
