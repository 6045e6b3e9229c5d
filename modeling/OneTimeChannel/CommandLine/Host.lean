/-
  What the commands need from their surroundings.

  A command reads and writes files, reads its input, prints, reports, logs and draws keys.  `Host`
  lists these as operations in any monad, so the commands are the same on a real machine and on
  files that are only values.

  Core only.
-/
import OneTimeChannel.Key
import OneTimeChannel.Log

namespace OneTimeChannel.CommandLine

/-- Why a file is not read or not written. -/
inductive FileError where
  | notFound
  /-- A file was expected. -/
  | isDirectory
  /-- A directory was expected. -/
  | notDirectory
  | nameTooLong
  /-- The path contains the character that ends paths. -/
  | nulByte
  /-- Any other reason, in the words of the system. -/
  | other (text : String)
  deriving DecidableEq, Repr

def FileError.message : FileError → String
  | notFound => "No such file or directory (os error 2)"
  | isDirectory => "Is a directory (os error 21)"
  | notDirectory => "Not a directory (os error 20)"
  | nameTooLong => "File name too long (os error 36)"
  | nulByte => "file name contained an unexpected NUL byte"
  | other text => text

/-- The surroundings of a command. -/
structure Host (m : Type → Type) where
  load : String → m (Except FileError Bytes)
  save : String → Bytes → m (Except FileError Unit)
  isPresent : String → m Bool
  /-- The whole standard input. -/
  readInput : m Bytes
  /-- Prints a line of the result. -/
  print : String → m Unit
  /-- Prints a line beside the result. -/
  report : String → m Unit
  log : LogLine → m Unit
  /-- A random key of the given length that is not all zeros. -/
  freshKey : Nat → m Key

end OneTimeChannel.CommandLine
