/-
  The program.

  Reads the command line, carries it out on the real machine and reports its failure, if any.  All
  that is decided is decided in `CommandLine`; this file connects it to files and streams.
-/
import OneTimeChannel.CommandLine.Run

namespace OneTimeChannel.CommandLine

/-- The help text. -/
def usage : String :=
  "\n".intercalate [
    "Usage: tunnel [OPTIONS] [COMMAND]",
    "",
    "Commands:",
    "  scheme      Parse and instantiate a scheme, print its properties",
    "  tag         Compute the tag of a file, or of stdin if no file is given",
    "  validate    Validate tunnel configuration files",
    "  gen-config  Generate a tunnel config file with fresh init keys",
    "  help        Print this message",
    "",
    "Options:",
    "      --log-level <LOG_LEVEL>  Lowest log level to show",
    "  -v, --verbose                Show verbose log output",
    "  -q, --quiet                  Show less log output",
    "  -h, --help                   Print help",
    "  -V, --version                Print version"]

/-- How a mistake in the command line is reported. -/
def UsageError.text : UsageError → String
  | nothing => usage
  | help => usage
  | version => "tunnel 0.1.0"
  | missingArgument => "a required argument was not provided"
  | unknownArgument => "unexpected argument"
  | unknownCommand => "unrecognized subcommand"
  | conflict => "an argument cannot be used with another, or more than once"
  | badValue => "invalid value for an option"
  | missingValue => "a value is required but none was supplied"
  | unwantedValue => "unexpected value for an option"

/-- Whether the program was only asked about itself. -/
def UsageError.isRequest : UsageError → Bool
  | help => true
  | version => true
  | _ => false

def fileErrorOf : IO.Error → FileError
  | .noFileOrDirectory _ _ _ => .notFound
  | .noSuchThing _ _ _ => .notFound
  | .inappropriateType _ code _ => if code = 20 then .notDirectory else .isDirectory
  | .invalidArgument _ 36 _ => .nameTooLong
  | e => .other (toString e)

/-- Whether a path that cannot be read leads somewhere nevertheless. -/
def leadsSomewhere : FileError → Bool
  | .isDirectory => true
  | .other _ => true
  | _ => false

def attempt {α : Type} (action : IO α) : IO (Except FileError α) := do
  try return .ok (← action)
  catch e => return .error (fileErrorOf e)

/-- Everything that is left in a stream. -/
partial def readAll (stream : IO.FS.Stream) (read : ByteArray) : IO ByteArray := do
  let chunk ← stream.read 65536
  if chunk.isEmpty then return read else readAll stream (read ++ chunk)

/-- A random key that is not all zeros. -/
partial def drawKey (length : Nat) : IO Key := do
  let bytes ← IO.getRandomBytes (USize.ofNat length)
  if bytes.toList.all (· == 0) then drawKey length else return ⟨bytes.toList⟩

/-- Where a level stands between nothing and everything. -/
def verbosity (level : LogLevel) : Nat := LogLevel.all.idxOf level

/-- The machine that the program runs on, with log lines up to a level. -/
def machine (level : LogLevel) : Host IO where
  load path := attempt do return (← IO.FS.readBinFile path).toList
  save path bytes := attempt (IO.FS.writeBinFile path ⟨bytes.toArray⟩)
  isPresent path := do
    match ← attempt (IO.FS.readBinFile path) with
    | .ok _ => return true
    | .error e => return leadsSomewhere e
  readInput := do return (← readAll (← IO.getStdin) .empty).toList
  print := IO.println
  report := IO.eprintln
  log line := do
    if verbosity line.level ≤ verbosity level then IO.eprintln line.render
  freshKey := drawKey

end OneTimeChannel.CommandLine

open OneTimeChannel CommandLine

def main (args : List String) : IO UInt32 := do
  match parse args with
  | .error e =>
    if e.isRequest then
      IO.println e.text
      return 0
    else
      IO.eprintln e.text
      return 2
  | .ok arguments =>
    let host := machine (arguments.logLevel.getD .error)
    match ← run host arguments with
    | .ok () => return 0
    | .error causes =>
      host.log (.error (": ".intercalate causes))
      return 1
