/-
  Reading TOML documents.

  A document is a sequence of lines: headers in brackets, keys with values, and blank lines, each
  with an optional comment.  Every reader takes the characters in front and returns the rest; none
  succeeds without taking at least one, so the length of the text bounds the number of values and
  lines, and serves as fuel.  How deep brackets nest and how long a dotted key is has a limit of
  its own.

  Core only.
-/
import OneTimeChannel.Text.Quoted
import OneTimeChannel.Toml.Scalar

namespace OneTimeChannel.Toml

open Text (apostrophe backslash quoteMark)

/-! ## Characters -/

/-- A blank between the parts of a line. -/
def isSpace (c : Char) : Bool := c == ' ' || c == '\t'

/-- A control character other than the tab, which stands nowhere but in escaped form. -/
def isControl (c : Char) : Bool := (c.toNat < 0x20 && c != '\t') || c.toNat == 0x7f

def isKeyChar (c : Char) : Bool := c.isAlphanum || c == '-' || c == '_'

/-! ## Blanks and line ends -/

def skipSpaces (cs : List Char) : List Char := cs.dropWhile isSpace

/-- The text behind a comment in front, if there is one. -/
def skipComment (cs : List Char) : List Char :=
  match cs with
  | '#' :: rest => rest.dropWhile fun c => !isControl c
  | _ => cs

/-- The text behind the line break in front. -/
def lineBreak? : List Char → Option (List Char)
  | '\n' :: rest => some rest
  | '\r' :: '\n' :: rest => some rest
  | _ => none

/-- The text behind the end of a line: blanks, a comment, and a line break unless the text ends. -/
def lineEnd? (cs : List Char) : Option (List Char) :=
  match skipComment (skipSpaces cs) with
  | [] => some []
  | rest => lineBreak? rest

/-- The text behind blanks, comments and line breaks. -/
def skipLines : Nat → List Char → List Char
  | 0, cs => cs
  | fuel + 1, cs =>
    let rest := skipComment (skipSpaces cs)
    match lineBreak? rest with
    | some rest => skipLines fuel rest
    | none => rest

/-! ## Strings -/

/-- What an escaped character stands for. -/
def escaped? : Char → Option Char
  | 'b' => some '\x08'
  | 't' => some '\t'
  | 'n' => some '\n'
  | 'f' => some '\x0c'
  | 'r' => some '\r'
  | '\x22' => some quoteMark
  | '\x5c' => some backslash
  | _ => none

/-- The character of a number, which is no surrogate. -/
def character? (n : Nat) : Option Char := if n.isValidChar then some (Char.ofNat n) else none

/-- Where a reader of escapes stands. -/
inductive Escape where
  | outside
  /-- Behind a backslash. -/
  | begun
  /-- That many digits are missing. -/
  | digits (missing value : Nat)
  /-- Behind a backslash and blanks, where the line has to end. -/
  | lineEnd
  /-- Behind a line that a backslash ended.  Blanks and line breaks are skipped. -/
  | skipping
  deriving DecidableEq, Repr

/-- Reads what follows a backslash: how it goes on and the character that was completed. -/
def Escape.step? (e : Escape) (c : Char) : Option (Escape × Option Char) :=
  match e with
  | outside => some (outside, some c)
  | begun =>
    if c = 'u' then some (digits 4 0, none)
    else if c = 'U' then some (digits 8 0, none)
    else (escaped? c).map fun d => (outside, some d)
  | digits missing value =>
    match Hex.digitValue? c with
    | none => none
    | some d =>
      if 1 < missing then some (digits (missing - 1) (16 * value + d), none)
      else (character? (16 * value + d)).map fun c => (outside, some c)
  | lineEnd => none
  | skipping => none

/-- Whether a character is a blank or belongs to a line break. -/
def isBlank (c : Char) (cs : List Char) : Bool :=
  isSpace c || c == '\n' || (c == '\r' && cs.head? == some '\n')

/-- Reads what follows a backslash in a string over several lines. -/
def Escape.stepLong? (e : Escape) (c : Char) (cs : List Char) : Option (Escape × Option Char) :=
  match e with
  | skipping => some (skipping, none)
  | digits _ _ => e.step? c
  | _ =>
    if c = '\n' then some (skipping, none)
    else if isBlank c cs then some (lineEnd, none)
    else e.step? c

/-- Where a reader stands at the next character: skipping ends at anything that is not blank. -/
def Escape.resume (e : Escape) (c : Char) (cs : List Char) : Escape :=
  if e = skipping ∧ !isBlank c cs then outside else e

/-- The rest of a string with escapes on one line. -/
def basicString (text : List Char) (e : Escape) : List Char → Option (String × List Char)
  | [] => none
  | c :: cs =>
    match e with
    | .outside =>
      if c = quoteMark then some (String.ofList text.reverse, cs)
      else if c = backslash then basicString text .begun cs
      else if isControl c then none
      else basicString (c :: text) .outside cs
    | e =>
      match e.step? c with
      | some (e, some d) => basicString (d :: text) e cs
      | some (e, none) => basicString text e cs
      | none => none

/-- The rest of a string without escapes on one line. -/
def literalString (cs : List Char) : Option (String × List Char) :=
  match cs.span fun c => c != apostrophe && !isControl c with
  | (text, '\x27' :: rest) => some (String.ofList text, rest)
  | _ => none

/-- The rest of a string over several lines, without escapes if the mark is an apostrophe.  `run`
    counts the marks directly before; three end the string, and up to two more belong to it. -/
def longString (mark : Char) (text : List Char) (e : Escape) (run : Nat) :
    List Char → Option (String × List Char)
  | [] => if 3 ≤ run then some (String.ofList text.reverse, []) else none
  | c :: cs =>
    let withRun := List.replicate run mark ++ text
    match e.resume c cs with
    | .outside =>
      if c = mark then
        if run = 5 then none
        else if 3 ≤ run then longString mark (mark :: text) .outside (run + 1) cs
        else longString mark text .outside (run + 1) cs
      else if 3 ≤ run then some (String.ofList text.reverse, c :: cs)
      else if c = backslash ∧ mark = quoteMark then longString mark withRun .begun 0 cs
      else if c = '\n' then longString mark (c :: withRun) .outside 0 cs
      else if c = '\r' then
        if cs.head? = some '\n' then longString mark withRun .outside 0 cs else none
      else if isControl c then none
      else longString mark (c :: withRun) .outside 0 cs
    | e =>
      match e.stepLong? c cs with
      | some (e, some d) => longString mark (d :: text) e 0 cs
      | some (e, none) => longString mark text e 0 cs
      | none => none

/-- The string in front. -/
def string? : List Char → Option (String × List Char)
  | '\x22' :: '\x22' :: '\x22' :: rest =>
    longString quoteMark [] .outside 0 ((lineBreak? rest).getD rest)
  | '\x22' :: rest => basicString [] .outside rest
  | '\x27' :: '\x27' :: '\x27' :: rest =>
    longString apostrophe [] .outside 0 ((lineBreak? rest).getD rest)
  | '\x27' :: rest => literalString rest
  | _ => none

/-! ## Keys -/

/-- The part of a key in front. -/
def keyPart? (cs : List Char) : Option (String × List Char) :=
  match cs with
  | '\x22' :: rest => basicString [] .outside rest
  | '\x27' :: rest => literalString rest
  | _ =>
    match cs.span isKeyChar with
    | ([], _) => none
    | (part, rest) => some (String.ofList part, rest)

/-- How many brackets may be open at a time, and how many parts a dotted key may have. -/
def maxDepth : Nat := 127

/-- The dotted key in front, of a bounded number of parts, with the blanks around it. -/
def dottedKey? : Nat → List Char → Option (List String × List Char)
  | 0, _ => none
  | parts + 1, cs =>
    match keyPart? (skipSpaces cs) with
    | none => none
    | some (part, rest) =>
      match skipSpaces rest with
      | '.' :: rest => (dottedKey? parts rest).map fun (key, rest) => (part :: key, rest)
      | rest => some ([part], rest)

/-- The key in front, with the blanks around it. -/
def key? (cs : List Char) : Option (List String × List Char) := dottedKey? maxDepth cs

/-! ## Values -/

/-- The number, word or date in front. -/
def scalar? (cs : List Char) : Option (Value × List Char) :=
  match moment? cs with
  | some (text, rest) => some (.moment text, rest)
  | none =>
    let (token, rest) := cs.span isTokenChar
    (token? token).map fun v => (v, rest)

mutual

/-- The value in front, in which up to `depth` more brackets may be open at a time. -/
def value? : Nat → Nat → List Char → Option (Value × List Char)
  | 0, _, _ => none
  | _ + 1, _, [] => none
  | fuel + 1, depth, c :: cs =>
    if c = quoteMark ∨ c = apostrophe then
      (string? (c :: cs)).map fun (text, rest) => (.string text, rest)
    else if c = '[' ∨ c = '\x7b' then
      match depth with
      | 0 => none
      | depth + 1 =>
        if c = '[' then (items? fuel depth cs).map fun (items, rest) => (.array items, rest)
        else match skipSpaces cs with
          | '\x7d' :: rest => some (.table .inline [], rest)
          | rest =>
            (fields? fuel depth [] rest).map fun (fields, rest) => (.table .inline fields, rest)
    else scalar? (c :: cs)

/-- The items of an array and the bracket behind them. -/
def items? : Nat → Nat → List Char → Option (List Value × List Char)
  | 0, _, _ => none
  | fuel + 1, depth, cs =>
    match skipLines fuel cs with
    | ']' :: rest => some ([], rest)
    | cs =>
      match value? fuel depth cs with
      | none => none
      | some (v, rest) =>
        match skipLines fuel rest with
        | ']' :: rest => some ([v], rest)
        | ',' :: rest => (items? fuel depth rest).map fun (vs, rest) => (v :: vs, rest)
        | _ => none

/-- The fields of a table in braces and the brace behind them. -/
def fields? : Nat → Nat → Fields → List Char → Option (Fields × List Char)
  | 0, _, _, _ => none
  | fuel + 1, depth, fs, cs =>
    match key? cs with
    | some (path, '=' :: rest) =>
      match value? fuel depth (skipSpaces rest) with
      | none => none
      | some (v, rest) =>
        match fs.insertInline? path v, skipSpaces rest with
        | some fs, '\x7d' :: rest => some (fs, rest)
        | some fs, ',' :: rest => fields? fuel depth fs rest
        | _, _ => none
    | _ => none

end

/-! ## Documents -/

/-- The header in front, of a table or of the next one of several tables: its path, whether it is
    the latter, and the text behind its brackets. -/
def header? (cs : List Char) : Option (List String × Bool × List Char) :=
  match cs with
  | '[' :: rest =>
    match key? rest with
    | some (path, ']' :: ']' :: rest) => some (path, true, rest)
    | _ => none
  | _ =>
    match key? cs with
    | some (path, ']' :: rest) => some (path, false, rest)
    | _ => none

/-- What a header does to the fields of a document. -/
def openTable? (fs : Fields) (path : List String) (next : Bool) : Option Fields :=
  match path.getLast? with
  | none => none
  | some key =>
    fs.within? path.dropLast fun inner => if next then inner.defineNext? key else inner.define? key

/-- The header or the field on the line in front: the fields with it, the path of the header that
    holds from here on, and the text behind the line. -/
def line? (fuel : Nat) (fs : Fields) (header : List String) (cs : List Char) :
    Option (Fields × List String × List Char) :=
  match cs with
  | '[' :: rest =>
    match header? rest with
    | some (path, next, rest) =>
      match openTable? fs path next, lineEnd? rest with
      | some fs, some rest => some (fs, path, rest)
      | _, _ => none
    | none => none
  | _ =>
    match key? cs with
    | some (path, '=' :: rest) =>
      match value? fuel maxDepth (skipSpaces rest) with
      | none => none
      | some (v, rest) =>
        match fs.within? header fun inner => inner.insert? path v, lineEnd? rest with
        | some fs, some rest => some (fs, header, rest)
        | _, _ => none
    | _ => none

/-- Reads lines to the end of the text. -/
def lines? : Nat → Fields → List String → List Char → Option Fields
  | 0, _, _, _ => none
  | fuel + 1, fs, header, cs =>
    match skipLines fuel cs with
    | [] => some fs
    | cs =>
      match line? fuel fs header cs with
      | some (fs, header, rest) => lines? fuel fs header rest
      | none => none

/-- The fields of a document.  A byte order mark in front is skipped. -/
def parse? (text : String) : Option Fields :=
  let cs := match text.toList with
    | '\ufeff' :: rest => rest
    | cs => cs
  lines? (cs.length + 1) [] [] cs

end OneTimeChannel.Toml
