import WordLang.Command

/-! # The program

    Reads the arguments and the file, prints, and exits.  A run that does
    not end in the fuel given is started again with twice as much. -/

namespace WordLang

/-- The text of a file. -/
def readSource (path : String) : IO (Except ReadError String) := do
  try
    return decodeSource (← IO.FS.readBinFile path)
  catch
    | .noFileOrDirectory .. => return .error .notFound
    | .inappropriateType .. => return .error .isDirectory
    | e => return .error (.other (toString e))

/-- The fuel of the first attempt, more than most runs ever use. -/
def firstFuel : Nat := 0x1000000000000000

/-- Performs a command, with more and more fuel. -/
partial def performWith (fuel : Nat) (c : Command) (source : Except ReadError String) : IO Output :=
  match c.perform fuel source with
  | some output => return output
  | none => performWith (2 * fuel) c source

/-- Prints what a command prints and gives its exit code. -/
def present (output : Output) : IO UInt32 := do
  IO.print output.stdout
  IO.eprint output.stderr
  return output.exit.toUInt32

/-- Performs the command that the arguments stand for, and gives the exit code. -/
def start (args : List String) : IO UInt32 := do
  match Command.ofArgs args with
  | .error e => present e.output
  | .ok c => present (← performWith firstFuel c (← readSource c.path))

end WordLang

/-- The program. -/
def main (args : List String) : IO UInt32 := WordLang.start args
