import WordLang.Declaration.Check
import WordLang.Machine.Semantics
import WordLang.Memory
import WordLang.Program.Parser

/-! # From source text to memory

    A program is read, checked and run; the first of these to find fault
    gives the error.  Running takes a fuel: without an answer, `none`, it
    was not enough. -/

namespace WordLang

/-! ## Section 1: Errors -/

/-- The stage that rejected a program; an explicit panic is a kind of its own. -/
inductive ErrorKind where
  | lex | parse | declaration | runtime | explicitPanic
deriving DecidableEq

namespace ErrorKind

/-- How messages name a kind. -/
protected def toString : ErrorKind → String
  | .lex => "lex error"
  | .parse => "parse error"
  | .declaration => "declaration error"
  | .runtime => "runtime error"
  | .explicitPanic => "explicit panic"

instance : ToString ErrorKind := ⟨ErrorKind.toString⟩

end ErrorKind

/-- Anything that keeps a source text from giving a memory. -/
inductive Error where
  | source (e : SourceError)
  | declarations (errors : List DeclError)
  | runtime (e : RuntimeError)
deriving DecidableEq

namespace Error

/-- The kind of an error. -/
def kind : Error → ErrorKind
  | .source (.lex _) => .lex
  | .source (.parse _) => .parse
  | .declarations _ => .declaration
  | .runtime ⟨_, .explicitPanic _⟩ => .explicitPanic
  | .runtime _ => .runtime

/-- The place of an error, or of the first of several. -/
def pos? : Error → Option Position
  | .source (.lex e) => some e.pos
  | .source (.parse e) => some e.pos
  | .declarations errors => errors.head?.map Located.pos
  | .runtime e => some e.pos

/-- A place and what is wrong there. -/
def line (pos : Position) (message : String) : String := s!"{pos}: {message}"

/-- The whole wording of an error: the kind, the place and the cause, on a line for each fault.
    Of an explicit panic the kind is not named. -/
def message (e : Error) : String :=
  match e with
  | .source (.lex f) => s!"{e.kind}: " ++ line f.pos f.item.message
  | .source (.parse f) => s!"{e.kind}: " ++ line f.pos f.item.message
  | .declarations errors =>
    "\n".intercalate (errors.map fun f => s!"{e.kind}: " ++ line f.pos f.item.message)
  | .runtime f =>
    if e.kind = .explicitPanic then line f.pos f.item.message
    else s!"{e.kind}: " ++ line f.pos f.item.message

end Error

/-! ## Section 2: Runs -/

namespace Program

/-- What stays the same during the runs of a program with this configuration.  The declarations
    are those that the check gives if it accepts the program. -/
def env (p : Program) (config : Config) : Env := ⟨p.declarations.1.functions, config⟩

/-- The state before the first execution of a program. -/
def start (p : Program) : Machine := .initial p.declarations.1.store

/-- Running the top-level statements of a program, whose functions and slots have been
    declared. -/
def execution (p : Program) (env : Env) (fuel : Nat) : Exec Unit :=
  runTopLevel env fuel p.statements

/-- How running the top-level statements on a machine ends. -/
def execute (p : Program) (env : Env) (fuel : Nat) (m : Machine) : Outcome Unit :=
  (p.execution env fuel m).outcome

/-- Checks and runs a program: the events of the run in order, and its result. -/
def trace (p : Program) (config : Config) (fuel : Nat) :
    Option (List Event × Except Error Memory) :=
  match p.check with
  | .error errors => some ([], .error (.declarations errors))
  | .ok decls =>
    match p.execute ⟨decls.functions, config⟩ fuel (.initial decls.store) with
    | .done () m => some (m.events.reverse, .ok (.ofStore m.store))
    | .fault e m => some (m.events.reverse, .error (.runtime e))
    | .outOfFuel => none

/-- Checks and runs a program. -/
def run (p : Program) (config : Config) (fuel : Nat) : Option (Except Error Memory) :=
  (p.trace config fuel).map Prod.snd

end Program

/-- Reads, checks and runs a source text. -/
def runSource (source : String) (config : Config) (fuel : Nat) : Option (Except Error Memory) :=
  match Program.parse source with
  | .error e => some (.error (.source e))
  | .ok p => p.run config fuel

end WordLang
