/-! # Lines of a text

    A line ends at a line feed; a carriage return right before the line feed
    belongs to the line end.  What follows the last line feed is a line only
    if it is not empty. -/

namespace WordLang.Text

/-- A line read backwards, without the carriage return that ended it. -/
def dropReturn : List Char → List Char
  | '\r' :: cs => cs
  | cs => cs

/-- The lines of a text, of which `read` holds the start of the first, backwards. -/
def linesFrom (read : List Char) : List Char → List (List Char)
  | [] => if read.isEmpty then [] else [read.reverse]
  | c :: cs =>
    if c = '\n' then (dropReturn read).reverse :: linesFrom [] cs
    else linesFrom (c :: read) cs

/-- The lines of a text without their line ends. -/
def lines (text : List Char) : List (List Char) := linesFrom [] text

end WordLang.Text
