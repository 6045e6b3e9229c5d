/-
  TOML documents as values.

  A document is a table, a list of fields in the order in which they first appear.  Which tables may
  be extended later depends on how they came about (`TableKind`): a header may name a table once,
  and a dotted key may extend what other dotted keys made, but nothing that a header defined.  A
  table in braces is extended inside its own braces only.

  Core only.
-/

namespace OneTimeChannel.Toml

/-- How a table came about. -/
inductive TableKind where
  /-- A header named something inside it. -/
  | implied
  /-- A dotted key named something inside it. -/
  | dotted
  /-- By its own header. -/
  | defined
  /-- In braces. -/
  | inline
  deriving DecidableEq, Repr

/-- A value of a document. -/
inductive Value where
  | string (text : String)
  | integer (n : Int)
  /-- A number with a fraction or an exponent, as it was written. -/
  | float (text : String)
  | boolean (b : Bool)
  /-- A date, a time of day or both, as it was written. -/
  | moment (text : String)
  | array (items : List Value)
  | table (kind : TableKind) (fields : List (String × Value))
  /-- Tables under one header in double brackets, of which the last one may still be extended. -/
  | tables (earlier : List (List (String × Value))) (last : List (String × Value))

/-- The fields of a table. -/
abbrev Fields := List (String × Value)

namespace Fields

def find? (fs : Fields) (key : String) : Option Value :=
  (List.find? (fun f => f.1 == key) fs).map Prod.snd

/-- Replaces the value of a field that is there. -/
def replace (fs : Fields) (key : String) (value : Value) : Fields :=
  fs.map fun f => if f.1 == key then (key, value) else f

/-- Adds a field that is not there yet. -/
def add? (fs : Fields) (key : String) (value : Value) : Option Fields :=
  match fs.find? key with
  | none => some (fs ++ [(key, value)])
  | some _ => none

/-- Adds a field under a dotted key.  The key may pass through tables that no header defined and
    through the last of several tables, and ends in a table that dotted keys made or in the one it
    starts from. -/
def insert? (fs : Fields) (path : List String) (value : Value) : Option Fields :=
  match path with
  | [] => none
  | [key] => fs.add? key value
  | key :: rest =>
    match fs.find? key with
    | none => (insert? [] rest value).map fun inner => fs ++ [(key, .table .dotted inner)]
    | some (.table kind inner) =>
      if kind = .dotted ∨ (kind = .implied ∧ 1 < rest.length) then
        (insert? inner rest value).map fun inner => fs.replace key (.table kind inner)
      else none
    | some (.tables earlier last) =>
      if 1 < rest.length then
        (insert? last rest value).map fun last => fs.replace key (.tables earlier last)
      else none
    | some _ => none

/-- Adds a field under a dotted key inside braces.  Here the key may pass through any table. -/
def insertInline? (fs : Fields) (path : List String) (value : Value) : Option Fields :=
  match path with
  | [] => none
  | [key] => fs.add? key value
  | key :: rest =>
    match fs.find? key with
    | none => (insertInline? [] rest value).map fun inner => fs ++ [(key, .table .inline inner)]
    | some (.table kind inner) =>
      (insertInline? inner rest value).map fun inner => fs.replace key (.table kind inner)
    | some _ => none

/-- Changes the fields at the end of a path of headers, which may pass through any table that is
    not in braces.  What the path names first on its way is implied. -/
def within? (fs : Fields) (path : List String) (change : Fields → Option Fields) : Option Fields :=
  match path with
  | [] => change fs
  | key :: rest =>
    match fs.find? key with
    | none => (within? [] rest change).map fun inner => fs ++ [(key, .table .implied inner)]
    | some (.table .inline _) => none
    | some (.table kind inner) =>
      (within? inner rest change).map fun inner => fs.replace key (.table kind inner)
    | some (.tables earlier last) =>
      (within? last rest change).map fun last => fs.replace key (.tables earlier last)
    | some _ => none

/-- Defines a table that no header, key or brace made before. -/
def define? (fs : Fields) (key : String) : Option Fields :=
  match fs.find? key with
  | some (.table .implied inner) => some (fs.replace key (.table .defined inner))
  | _ => fs.add? key (.table .defined [])

/-- Begins the next one of several tables, or the first. -/
def defineNext? (fs : Fields) (key : String) : Option Fields :=
  match fs.find? key with
  | some (.tables earlier last) => some (fs.replace key (.tables (earlier ++ [last]) []))
  | _ => fs.add? key (.tables [] [])

end Fields

end OneTimeChannel.Toml
