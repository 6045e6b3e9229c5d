/-
  Carrying out commands.

  Each command either succeeds or fails with an error and what caused it.  A configuration file
  that is not valid is no failure of the command that checks it: the check goes on with the next
  file.

  Core only.
-/
import OneTimeChannel.CommandLine.Arguments
import OneTimeChannel.CommandLine.Host
import OneTimeChannel.Config

namespace OneTimeChannel.CommandLine

variable {m : Type → Type} [Monad m] (host : Host m)

/-- The error and what caused it, the outermost first. -/
abbrev Causes := List String

/-- Prints the properties of a scheme. -/
def showScheme (text : String) : m (Except Causes Unit) := do
  match Context.create text with
  | .error e => return .error e.causes
  | .ok c =>
    host.print s!"scheme:          {c.scheme.render}"
    host.print s!"init key size:   {c.initKeySize}"
    host.print s!"final key size:  {c.finalKeySize}"
    host.print s!"result size:     {c.resultSize}"
    host.print s!"cloneable:       {c.isCloneable}"
    host.print s!"reuses init key: {c.reusesInitKey}"
    host.print s!"key per byte:    {c.consumesKeyPerByte}"
    return .ok ()

/-- The context and the final key of a tag. -/
def tagInputs (scheme finalKey : String) : Except Causes (Context × Key) :=
  match Context.create scheme with
  | .error e => .error e.causes
  | .ok c =>
    match Key.ofHex finalKey with
    | .error e => .error ["final key is not valid hex", e.message]
    | .ok key =>
      if c.acceptsFinalKey key then .ok (c, key)
      else .error [s!"{c.name} needs a final key of {c.finalKeySize} bytes, got {key.length}"]

/-- The tag of data. -/
def tagOf (c : Context) (key : Key) (data : Bytes) : Except Causes Bytes :=
  match c.add data with
  | .error e => .error [e.message]
  | .ok c =>
    match c.finalize key with
    | .error e => .error [e.message]
    | .ok (_, tag) => .ok tag

/-- The data to be tagged. -/
def tagData : Option String → m (Except Causes Bytes)
  | none => Except.ok <$> host.readInput
  | some file => do
    match ← host.load file with
    | .ok data => return .ok data
    | .error e => return .error [s!"could not read {Text.quoted file}", e.message]

/-- Prints the tag of a file or of the input. -/
def showTag (scheme finalKey : String) (file : Option String) : m (Except Causes Unit) := do
  match tagInputs scheme finalKey with
  | .error e => return .error e
  | .ok (c, key) =>
    match ← tagData host file with
    | .error e => return .error e
    | .ok data =>
      match tagOf c key data with
      | .error e => return .error e
      | .ok tag =>
        host.print (Hex.encode tag)
        return .ok ()

/-- Checks the configuration that was read from a file. -/
def checkConfig (file : String) (config : TunnelConfig) : m Unit := do
  host.report s!"{file} is valid TOML and conforms to the expected schema"
  config.warnings.forM host.log
  match config.validate.bind fun _ => config.keyPlan with
  | .ok plan =>
    let perByte := plan.incomingPerByte + plan.outgoingPerByte
    host.report s!"{file} has passed all logical checks"
    host.print (s!"{file}: {plan.incoming} bytes incoming, {plan.outgoing} bytes outgoing per " ++
      s!"round, plus {perByte} key bytes per payload byte")
  | .error flaw =>
    let causes := ": ".intercalate flaw.causes
    host.report s!"{file} contains logical errors: '{causes}'"

/-- Checks a configuration file. -/
def checkFile (file : String) : m Unit := do
  let shown := Text.quoted file
  match ← host.load file with
  | .error e => host.report s!"{shown} is not valid: {e.message}"
  | .ok bytes =>
    match TunnelConfig.ofBytes file bytes with
    | .error e => host.report s!"{shown} is not valid: {e.message}"
    | .ok config => checkConfig host shown config

/-- Writes a configuration to a file. -/
def storeConfig (file : String) (config : TunnelConfig) : m (Except Causes Unit) := do
  match config.render? with
  | none => return .error ["out-of-range value for u64 type"]
  | some text =>
    match ← host.save file (Utf8.encode text) with
    | .ok () => return .ok ()
    | .error e => return .error [e.message]

/-- Writes a first configuration to a file, which must not exist unless `force` says so. -/
def generateConfig (file : String) (force : Bool) : m (Except Causes Unit) := do
  if !force && (← host.isPresent file) then
    return .error [s!"config file {Text.quoted file} already exists"]
  else
    let incomingKey ← host.freshKey 12
    let outgoingKey ← host.freshKey 12
    storeConfig host file (.start incomingKey outgoingKey)

/-- Carries out a command. -/
def runCommand : Command → m (Except Causes Unit)
  | .scheme text => showScheme host text
  | .tag scheme finalKey file => showTag host scheme finalKey file
  | .validate files => do
    files.forM (checkFile host)
    return .ok ()
  | .generate file force => generateConfig host file force

/-- Carries out a command line. -/
def run (a : Arguments) : m (Except Causes Unit) :=
  match a.command with
  | some command => runCommand host command
  | none => pure (.ok ())

end OneTimeChannel.CommandLine
