/-!
# TOML values

What a TOML text holds.  Numbers, dates and times are told apart from strings,
Booleans and collections, but their values play no part here.

A table remembers how it came about, because the text may add to some tables
later on and not to others.
-/

namespace Landing.Toml

/-- How a table came about. -/
inductive Origin where
  /-- Written in braces; nothing can be added to it. -/
  | braces
  /-- Named by a header. -/
  | header
  /-- Passed through by the header of a table inside it. -/
  | passed
  /-- Made by a dotted key. -/
  | dotted
  deriving DecidableEq

/-- What stands under a key. -/
inductive Value where
  | string (s : String)
  | bool (b : Bool)
  /-- A number, a date or a time. -/
  | scalar
  | array (items : List Value)
  | table (origin : Origin) (entries : List (String × Value))
  /-- Tables listed by headers in double brackets, the latest one first. -/
  | tables (latestFirst : List (List (String × Value)))
  deriving Inhabited

/-- The entries of a table. -/
abbrev Entries := List (String × Value)

/-- What stands under a key. -/
def Entries.get? (t : Entries) (key : String) : Option Value := (t.find? (·.1 == key)).map (·.2)

/-- Put a value under a key, in place of what stood there. -/
def Entries.put (t : Entries) (key : String) (v : Value) : Entries :=
  t.filter (·.1 != key) ++ [(key, v)]

/-- Add a value under a key that holds none yet. -/
def Entries.add? (t : Entries) (key : String) (v : Value) : Option Entries :=
  if (t.get? key).isSome then none else some (t.put key v)

/-- Whether a dotted key may pass through a table of this origin. -/
def Origin.isOpen : Origin → Bool
  | passed => true
  | dotted => true
  | _ => false

/-- Change the table at the end of a path of dotted keys. The change is told whether the path led
to a table that a dotted key made. -/
def Entries.alongDots (change : (dotted : Bool) → Entries → Option Entries) :
    (isDotted : Bool) → (path : List String) → Entries → Option Entries
  | isDotted, [], t => change isDotted t
  | _, key :: path, t =>
    match t.get? key with
    | none => (alongDots change true path []).map fun inner => t.put key (.table .dotted inner)
    | some (.table origin inner) =>
      if origin.isOpen then
        (alongDots change (origin == .dotted) path inner).map fun inner =>
          t.put key (.table origin inner)
      else none
    | some (.tables (latest :: earlier)) =>
      (alongDots change false path latest).map fun latest => t.put key (.tables (latest :: earlier))
    | some _ => none

/-- Add a value under a dotted key. -/
def Entries.addDotted? (t : Entries) (path : List String) (key : String) (v : Value) :
    Option Entries :=
  t.alongDots
    (fun isDotted inner => if isDotted == path.isEmpty then none else inner.add? key v) false path

/-- Change the table at the end of the path of a header. -/
def Entries.alongHeader (change : Entries → Option Entries) :
    (path : List String) → Entries → Option Entries
  | [], t => change t
  | key :: path, t =>
    match t.get? key with
    | none => (alongHeader change path []).map fun inner => t.put key (.table .passed inner)
    | some (.table .braces _) => none
    | some (.table origin inner) =>
      (alongHeader change path inner).map fun inner => t.put key (.table origin inner)
    | some (.tables (latest :: earlier)) =>
      (alongHeader change path latest).map fun latest => t.put key (.tables (latest :: earlier))
    | some _ => none

/-- Begin the table that a header in single brackets names. -/
def Entries.beginTable? (t : Entries) (path : List String) (key : String) : Option Entries :=
  t.alongHeader (fun outer =>
    match outer.get? key with
    | none => some (outer.put key (.table .header []))
    | some (.table .passed inner) => some (outer.put key (.table .header inner))
    | some _ => none) path

/-- Begin the next of the tables that a header in double brackets names. -/
def Entries.beginListed? (t : Entries) (path : List String) (key : String) : Option Entries :=
  t.alongHeader (fun outer =>
    match outer.get? key with
    | none => some (outer.put key (.tables [[]]))
    | some (.tables ts) => some (outer.put key (.tables ([] :: ts)))
    | some _ => none) path

end Landing.Toml
