import WordLang.Text.Ranges

/-! # Blank characters

    The characters with the Unicode property White_Space, line ends included,
    as of version 17.0 of the standard. -/

namespace WordLang.Text

/-- The code points with the property White_Space. -/
def blankRanges : List (Nat × Nat) :=
  [(9, 13), (32, 32), (133, 133), (160, 160), (5760, 5760), (8192, 8202), (8232, 8233),
   (8239, 8239), (8287, 8287), (12288, 12288)]

/-- Whether a character separates words without standing for anything. -/
def isBlank (c : Char) : Bool := inRanges blankRanges c.toNat

end WordLang.Text
