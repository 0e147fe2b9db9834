import WordLang.Operator
import WordLang.Position

/-! # Tokens

    The words and signs that programs are written with, and how error
    messages name them. -/

namespace WordLang

/-! ## Section 1: Reserved words and signs -/

/-- The reserved words. -/
inductive Keyword where
  | fnWord | staticWord | constWord | letWord | ifWord | elseWord
  | forWord | inWord | returnWord | loopWord | breakWord | continueWord
deriving DecidableEq, Inhabited

namespace Keyword

/-- Every reserved word. -/
def all : List Keyword :=
  [.fnWord, .staticWord, .constWord, .letWord, .ifWord, .elseWord,
   .forWord, .inWord, .returnWord, .loopWord, .breakWord, .continueWord]

/-- How a reserved word is written. -/
def text : Keyword → String
  | .fnWord => "fn"
  | .staticWord => "static"
  | .constWord => "const"
  | .letWord => "let"
  | .ifWord => "if"
  | .elseWord => "else"
  | .forWord => "for"
  | .inWord => "in"
  | .returnWord => "return"
  | .loopWord => "loop"
  | .breakWord => "break"
  | .continueWord => "continue"

/-- The reserved word written like this. -/
def ofText? (text : String) : Option Keyword := all.find? (fun k => k.text == text)

end Keyword

/-- Signs that are not operators. -/
inductive Sign where
  | lparen | rparen | lbrace | rbrace | lbracket | rbracket
  | colon | comma | semicolon | dotdot | panic
deriving DecidableEq, Inhabited

namespace Sign

/-- How a sign is written. -/
def text : Sign → String
  | .lparen => "("
  | .rparen => ")"
  | .lbrace => "\x7b"
  | .rbrace => "\x7d"
  | .lbracket => "["
  | .rbracket => "]"
  | .colon => ":"
  | .comma => ","
  | .semicolon => ";"
  | .dotdot => ".."
  | .panic => "!!"

end Sign

/-! ## Section 2: Tokens -/

/-- A word or sign of a program, or the end of the text. -/
inductive Token where
  | ident (name : String)
  | number (value : Nat)
  /-- The name of a word type; whether that width exists is not settled here. -/
  | uint (bits : Nat)
  | keyword (k : Keyword)
  | sign (s : Sign)
  | op (op : BinOp)
  | assign (op : AssignOp)
  | eof
deriving DecidableEq, Inhabited

namespace Token

/-- How a token is written; the end of the text is written by writing nothing. -/
def spelling : Token → String
  | .ident name => name
  | .number value => toString value
  | .uint bits => s!"u{bits}"
  | .keyword k => k.text
  | .sign s => s.text
  | .op o => o.symbol
  | .assign o => o.symbol
  | .eof => ""

/-- How messages name a token. -/
protected def toString : Token → String
  | .ident name => s!"identifier '{name}'"
  | .number value => s!"number {value}"
  | .uint bits => s!"type 'u{bits}'"
  | .eof => "end of input"
  | .keyword k => s!"'{k.text}'"
  | .sign s => s!"'{s.text}'"
  | .op o => s!"'{o.symbol}'"
  | .assign o => s!"'{o.symbol}'"

instance : ToString Token := ⟨Token.toString⟩

end Token

/-! ## Section 3: What no token is made of -/

/-- Why text could not be cut into tokens. -/
inductive LexCause where
  | unrecognizedChar (c : Char)
  | invalidNumber (text : String)
deriving DecidableEq

/-- A fault of the text, and where it is. -/
abbrev LexError := Located LexCause

namespace LexCause

/-- The wording of a fault, without its place. -/
def message : LexCause → String
  | .unrecognizedChar c => s!"unrecognized character '{c}'"
  | .invalidNumber text => s!"malformed integer literal '{text}'"

end LexCause

end WordLang
