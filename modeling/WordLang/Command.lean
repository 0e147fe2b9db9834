import WordLang.Program.Printer
import WordLang.Run
import WordLang.Text.Numeral

/-! # The command line

    `run`, `check` and `fmt` each take a file.  What the arguments mean is
    settled before the file is read, so a wrong flag is reported even if
    there is no such file.  `perform` turns the text of the file into what
    is printed and the exit code. -/

namespace WordLang

/-- What a command prints, and its exit code. -/
structure Output where
  exit   : Nat
  stdout : String
  stderr : String

namespace Output

/-- Success. -/
def ok (stdout : String) : Output := ⟨0, stdout, ""⟩

/-- A message and an exit code. -/
def failed (exit : Nat) (message : String) : Output := ⟨exit, "", message ++ "\n"⟩

end Output

/-! ## Section 1: Arguments -/

/-- What is done with a program. -/
inductive Verb where
  | run | check | fmt
deriving DecidableEq

namespace Verb

/-- How a verb is written. -/
def text : Verb → String
  | .run => "run"
  | .check => "check"
  | .fmt => "fmt"

/-- The verb written like this. -/
def ofText? (text : String) : Option Verb :=
  [Verb.run, .check, .fmt].find? (fun v => v.text == text)

/-- The arguments that a verb takes. -/
def synopsis : Verb → String
  | .run => "run <file.bit> [--max-depth N] [--trap-overflow]"
  | .check => "check <file.bit>"
  | .fmt => "fmt <file.bit>"

/-- What a verb does. -/
def summary : Verb → String
  | .run => "Check and execute a program"
  | .check => "Parse and check a program"
  | .fmt => "Print canonical source"

/-- A verb's line in the list of commands, what it does in a column of its own. -/
def usageLine (v : Verb) : String :=
  "  " ++ v.synopsis ++ "".pushn ' ' (51 - v.synopsis.length) ++ v.summary ++ "\n"

end Verb

/-- A verb and a file, with the configuration of a run. -/
structure Command where
  verb   : Verb
  path   : String
  config : Config

/-- Why arguments are not a command. -/
inductive UsageError where
  | noCommand
  /-- No error in fact: the list of commands was asked for. -/
  | help
  | unknownCommand (name : String)
  | missingFile (verb : Verb)
  | missingDepth
  | invalidDepth (value : String)
  | unknownFlag (flag : String)
deriving DecidableEq

/-- The list of commands. -/
def usage : String :=
  "Usage: bitlang <command> [args]\n\nCommands:\n"
    ++ String.join ([Verb.run, .check, .fmt].map Verb.usageLine)

namespace UsageError

/-- What is printed for arguments that are not a command. -/
def output : UsageError → Output
  | .noCommand => ⟨1, "", usage⟩
  | .help => ⟨0, "", usage⟩
  | .unknownCommand name => ⟨1, "", s!"error: unknown command '{name}'\n\n" ++ usage⟩
  | .missingFile verb =>
    .failed 1 (s!"error: {verb.text} requires an input file\n"
      ++ s!"Usage: bitlang {verb.synopsis}")
  | .missingDepth => .failed 1 "error: --max-depth requires a value"
  | .invalidDepth value => .failed 1 s!"error: invalid --max-depth '{value}'"
  | .unknownFlag flag => .failed 1 s!"error: unknown flag '{flag}'"

end UsageError

/-- A depth limit: decimal digits, with a plus sign if one likes, below `2 ^ 64`. -/
def depthLimit? (text : String) : Option Nat :=
  let digits := match text.toList with
    | '+' :: cs => cs
    | cs => cs
  (Text.decimal? digits).filter (fun n => decide (n < Text.numeralLimit))

/-- The configuration that flags ask for; a later flag overrides an earlier one. -/
def Config.ofFlags (config : Config) : List String → Except UsageError Config
  | [] => .ok config
  | flag :: rest =>
    if flag = "--trap-overflow" then Config.ofFlags { config with overflow := .trap } rest
    else if flag = "--max-depth" then
      match rest with
      | [] => .error .missingDepth
      | value :: rest =>
        match depthLimit? value with
        | some n => Config.ofFlags { config with maxDepth := n } rest
        | none => .error (.invalidDepth value)
    else .error (.unknownFlag flag)

namespace Command

/-- The command that arguments stand for.  Only `run` looks past the file's name. -/
def ofArgs : List String → Except UsageError Command
  | [] => .error .noCommand
  | name :: args =>
    match Verb.ofText? name with
    | none =>
      if name ∈ ["--help", "-h", "help"] then .error .help else .error (.unknownCommand name)
    | some verb =>
      match args with
      | [] => .error (.missingFile verb)
      | path :: flags =>
        match verb with
        | .run => do
          let config ← Config.default.ofFlags flags
          return ⟨verb, path, config⟩
        | .check | .fmt => .ok ⟨verb, path, .default⟩

end Command

/-! ## Section 2: Files -/

/-- Why a file gave no text. -/
inductive ReadError where
  | notFound
  | isDirectory
  | invalidText
  | other (message : String)

namespace ReadError

/-- The wording of the reason. -/
def message : ReadError → String
  | .notFound => "No such file or directory (os error 2)"
  | .isDirectory => "Is a directory (os error 21)"
  | .invalidText => "stream did not contain valid UTF-8"
  | .other message => message

end ReadError

/-- The text of a file's bytes. -/
def decodeSource (bytes : ByteArray) : Except ReadError String :=
  match String.fromUTF8? bytes with
  | some text => .ok text
  | none => .error .invalidText

/-! ## Section 3: Commands -/

/-- The exit code of a kind of error. -/
def ErrorKind.exitCode : ErrorKind → Nat
  | .lex | .parse => 1
  | .declaration => 2
  | .runtime => 3
  | .explicitPanic => 4

/-- What is printed for an error. -/
def Error.output (e : Error) : Output := .failed e.kind.exitCode e.message

namespace Command

/-- Checks a program and counts what it declares. -/
def checkOutput (path : String) (p : Program) : Output :=
  match p.check with
  | .error errors => (Error.declarations errors).output
  | .ok decls =>
    let functions := decls.functions.size
    let slots := decls.store.size
    let statements := p.statements.length
    .ok (s!"OK: {path} ({functions} functions, {slots} slots, "
      ++ s!"{statements} top-level statements)\n")

/-- Runs a program and prints its memory. -/
def runOutput (config : Config) (fuel : Nat) (p : Program) : Option Output :=
  (p.run config fuel).map fun
    | .ok memory => .ok (toString memory)
    | .error e => e.output

/-- What a command prints, given the text of its file; `none` if the fuel did not suffice. -/
def perform (c : Command) (fuel : Nat) (source : Except ReadError String) : Option Output :=
  match source with
  | .error e => some (.failed 1 s!"error: cannot read '{c.path}': {e.message}")
  | .ok text =>
    match Program.parse text with
    | .error e => some (Error.source e).output
    | .ok p =>
      match c.verb with
      | .run => runOutput c.config fuel p
      | .check => some (checkOutput c.path p)
      | .fmt => some (.ok p.print)

end Command

end WordLang
