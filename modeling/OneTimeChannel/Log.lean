/-
  Log lines.

  What the library reports beside its results: a level and a text.  Which lines there are follows
  from the result alone, so they are computed from it and nothing has to be threaded through.

  Core only.
-/

namespace OneTimeChannel

/-- How much is logged, from nothing to everything. -/
inductive LogLevel where
  | off
  | error
  | warn
  | info
  | debug
  | trace
  deriving DecidableEq, Repr

namespace LogLevel

def all : List LogLevel := [off, error, warn, info, debug, trace]

def name : LogLevel → String
  | off => "OFF"
  | error => "ERROR"
  | warn => "WARN"
  | info => "INFO"
  | debug => "DEBUG"
  | trace => "TRACE"

/-- The level of a name, in letters of either case. -/
def ofName? (text : String) : Option LogLevel :=
  all.find? fun level => level.name.toList == text.toList.map Char.toUpper

/-- Every level is found under its name. -/
theorem ofName?_name (level : LogLevel) : ofName? level.name = some level := by
  cases level <;> decide

end LogLevel

/-- A line of the log. -/
structure LogLine where
  level : LogLevel
  text : String
  deriving DecidableEq, Repr

namespace LogLine

def warning (text : String) : LogLine := ⟨.warn, text⟩

def error (text : String) : LogLine := ⟨.error, text⟩

/-- The line with its level in front. -/
def render (l : LogLine) : String := l.level.name ++ " " ++ l.text

end LogLine

end OneTimeChannel
