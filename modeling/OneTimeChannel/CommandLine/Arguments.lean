/-
  Command lines.

  A command line is a list of words: options, then the name of a command, then the words of that
  command.  `Form` says which options and which places a level has; one reader, `readWords`, serves
  all levels.  An option that takes a value may have it attached or in the next word, and what was
  read is checked only when the next thing is read or the words end (`settle`), so that of two
  mistakes the one that shows first is reported.

  Core only.
-/
import OneTimeChannel.Log
import OneTimeChannel.Text.Fields

namespace OneTimeChannel.CommandLine

/-! ## Results -/

/-- What a command line asks for. -/
inductive Command where
  /-- The properties of a scheme. -/
  | scheme (text : String)
  /-- The tag of a file, or of the standard input. -/
  | tag (scheme finalKey : String) (file : Option String)
  /-- The checks of configuration files. -/
  | validate (files : List String)
  /-- A new configuration file. -/
  | generate (file : String) (force : Bool)
  deriving DecidableEq, Repr

/-- A command line that was understood. -/
structure Arguments where
  logLevel : Option LogLevel
  command : Option Command
  deriving DecidableEq, Repr

/-- Why a command line is not carried out. -/
inductive UsageError where
  /-- Nothing is asked for. -/
  | nothing
  | help
  | version
  | missingArgument
  | unknownArgument
  | unknownCommand
  /-- An argument is given twice, or with one that excludes it. -/
  | conflict
  | badValue
  | missingValue
  | unwantedValue
  deriving DecidableEq, Repr

/-! ## Arguments -/

/-- The arguments of all levels. -/
inductive Argument where
  | help
  | version
  | verbose
  | quiet
  | logLevel
  | scheme
  | finalKey
  | force
  | schemeText
  | tagFile
  | configFiles
  | configFile
  deriving DecidableEq, Repr

namespace Argument

/-- Whether the argument is an option that needs a value. -/
def takesValue : Argument → Bool
  | logLevel => true
  | scheme => true
  | finalKey => true
  | _ => false

/-- Whether the argument may have several values. -/
def isRepeatable : Argument → Bool
  | configFiles => true
  | _ => false

/-- What is wrong with a value.  The name of a file must not be empty. -/
def objection? (a : Argument) (value : String) : Option UsageError :=
  match a with
  | logLevel => if (LogLevel.ofName? value).isNone then some .badValue else none
  | tagFile => if value.isEmpty then some .missingValue else none
  | configFiles => if value.isEmpty then some .missingValue else none
  | configFile => if value.isEmpty then some .missingValue else none
  | _ => none

end Argument

/-- An option of a level. -/
structure OptionForm where
  short : Option Char
  long : String
  argument : Argument

/-- What a level of the command line accepts. -/
structure Form where
  options : List OptionForm
  /-- The arguments without a name, in their order. -/
  places : List Argument := []
  /-- The commands that may follow. -/
  commands : List String := []

/-! ## Reading -/

/-- What was read of a level. -/
structure Reading where
  /-- The arguments that were settled, with their values. -/
  given : List (Argument × List String) := []
  /-- The argument that was read last, with its values so far. -/
  pending : Option (Argument × List String) := none
  /-- The places that are still free. -/
  places : List Argument
  /-- Whether all further words are values. -/
  onlyValues : Bool := false

namespace Reading

variable (r : Reading)

def has (a : Argument) : Bool := r.given.any fun g => decide (g.1 = a)

def value? (a : Argument) : Option String :=
  (r.given.find? fun g => decide (g.1 = a)).bind fun g => g.2.head?

def values (a : Argument) : List String :=
  ((r.given.find? fun g => decide (g.1 = a)).map Prod.snd).getD []

/-- The option that waits for a value. -/
def waiting? : Option Argument :=
  match r.pending with
  | some (a, []) => if a.takesValue then some a else none
  | _ => none

/-- Checks the argument that was read last and adds it to the others. -/
def settle : Except UsageError Reading :=
  match r.pending with
  | none => .ok r
  | some (a, values) =>
    if a.takesValue && values.isEmpty then .error .missingValue
    else if r.has a then .error .conflict
    else match values.findSome? a.objection? with
      | some e => .error e
      | none => .ok { r with given := r.given ++ [(a, values)], pending := none }

/-- Settles what came before and puts an argument in its place. -/
def next (a : Argument) (values : List String) : Except UsageError Reading :=
  r.settle.map fun r => { r with pending := some (a, values) }

/-- An option without a value. -/
def flag (a : Argument) : Except UsageError Reading :=
  match r.settle with
  | .error e => .error e
  | .ok r =>
    match a with
    | .help => .error .help
    | .version => .error .version
    | _ => Reading.settle { r with pending := some (a, []) }

/-- An option with its value attached. -/
def attached (a : Argument) (value : String) : Except UsageError Reading :=
  match r.next a [value] with
  | .ok r => r.settle
  | .error e => .error e

/-- A word that starts with two dashes. -/
def long (form : Form) (name : String) (value : Option String) : Except UsageError Reading :=
  match form.options.find? fun o => o.long == name with
  | none => .error .unknownArgument
  | some o =>
    match o.argument.takesValue, value with
    | true, some v => r.attached o.argument v
    | true, none => r.next o.argument []
    | false, some _ => .error .unwantedValue
    | false, none => r.flag o.argument

/-- The letters of a word that starts with one dash. -/
def short (r : Reading) (form : Form) : List Char → Except UsageError Reading
  | [] => .ok r
  | c :: cs =>
    match form.options.find? fun o => o.short == some c with
    | none => .error .unknownArgument
    | some o =>
      if o.argument.takesValue then
        match cs with
        | [] => r.next o.argument []
        | '=' :: cs => r.attached o.argument (String.ofList cs)
        | cs => r.attached o.argument (String.ofList cs)
      else
        match r.flag o.argument with
        | .ok r => short r form cs
        | .error e => .error e

/-- A word that is a value. -/
def place (form : Form) (word : String) : Except UsageError Reading :=
  match r.places with
  | [] =>
    if form.commands.isEmpty || (r.onlyValues && form.commands.contains word) then
      .error .unknownArgument
    else .error .unknownCommand
  | a :: rest =>
    match a.isRepeatable, r.pending with
    | true, some (b, values) =>
      if a = b then .ok { r with pending := some (a, values ++ [word]) } else r.next a [word]
    | true, none => r.next a [word]
    | false, _ => (r.next a [word]).map fun r => { r with places := rest }

/-- A word that is neither a command nor the value of an option that waits for one. -/
def word (form : Form) (w : String) : Except UsageError Reading :=
  if r.onlyValues then r.place form w
  else match w.toList with
    | ['-', '-'] => .ok { r with onlyValues := true }
    | '-' :: '-' :: rest =>
      match Text.splitOnce? '=' rest with
      | some (name, value) => r.long form (String.ofList name) (some (String.ofList value))
      | none => r.long form (String.ofList rest) none
    | '-' :: c :: rest => r.short form (c :: rest)
    | _ =>
      match r.waiting? with
      | some a => .ok { r with pending := some (a, [w]) }
      | none => r.place form w

end Reading

/-- Reads the words of a level up to the name of a command; also returns that name and the words
    behind it. -/
def readWords (form : Form) (r : Reading) :
    List String → Except UsageError (Reading × Option (String × List String))
  | [] => .ok (r, none)
  | w :: rest =>
    if !r.onlyValues && r.waiting?.isNone && form.commands.contains w then .ok (r, some (w, rest))
    else match r.word form w with
      | .ok r => readWords form r rest
      | .error e => .error e

/-- Reads the words of a level without commands. -/
def readLevel (form : Form) (words : List String) : Except UsageError Reading :=
  match readWords form { places := form.places } words with
  | .ok (r, _) => r.settle
  | .error e => .error e

/-! ## The levels of this program -/

def helpOption : OptionForm := ⟨some 'h', "help", .help⟩

/-- The options in front of the command. -/
def topForm : Form where
  options := [helpOption, ⟨some 'V', "version", .version⟩, ⟨none, "log-level", .logLevel⟩,
    ⟨some 'v', "verbose", .verbose⟩, ⟨some 'q', "quiet", .quiet⟩]
  commands := ["scheme", "tag", "validate", "gen-config", "help"]

def schemeForm : Form where
  options := [helpOption]
  places := [.schemeText]

def tagForm : Form where
  options := [helpOption, ⟨some 's', "scheme", .scheme⟩, ⟨some 'f', "final-key", .finalKey⟩]
  places := [.tagFile]

def validateForm : Form where
  options := [helpOption]
  places := [.configFiles]

def generateForm : Form where
  options := [helpOption, ⟨some 'f', "force", .force⟩]
  places := [.configFile]

/-- The command of a name, with the words behind it. -/
def readCommand (name : String) (words : List String) : Except UsageError Command :=
  match name with
  | "scheme" => do
    let r ← readLevel schemeForm words
    match r.value? .schemeText with
    | some text => return .scheme text
    | none => throw .missingArgument
  | "tag" => do
    let r ← readLevel tagForm words
    match r.value? .scheme, r.value? .finalKey with
    | some scheme, some finalKey => return .tag scheme finalKey (r.value? .tagFile)
    | _, _ => throw .missingArgument
  | "validate" => do
    let r ← readLevel validateForm words
    return .validate (r.values .configFiles)
  | "gen-config" => do
    let r ← readLevel generateForm words
    match r.value? .configFile with
    | some file => return .generate file (r.has .force)
    | none => throw .missingArgument
  | _ =>
    match words with
    | [] => throw .help
    | [topic] => throw (if topForm.commands.contains topic then .help else .unknownCommand)
    | _ => throw .unknownCommand

/-- The log level of the options in front, of which at most one may be given. -/
def logLevelOf (r : Reading) : Except UsageError (Option LogLevel) :=
  match r.has .verbose, r.has .quiet, r.has .logLevel with
  | false, false, _ => .ok ((r.value? .logLevel).bind LogLevel.ofName?)
  | true, false, false => .ok (some .info)
  | false, true, false => .ok (some .warn)
  | _, _, _ => .error .conflict

/-- Reads a command line, without the name of the program. -/
def parse (words : List String) : Except UsageError Arguments := do
  let (r, rest) ← readWords topForm { places := [] } words
  let command ← match rest with
    | some (name, words) => some <$> readCommand name words
    | none => pure none
  let r ← r.settle
  if command.isNone && r.given.isEmpty then throw .nothing
  return { logLevel := ← logLevelOf r, command }

end OneTimeChannel.CommandLine
