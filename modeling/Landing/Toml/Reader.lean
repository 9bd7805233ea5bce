import Landing.Toml.Scalar

/-!
# Reading TOML

A text is a sequence of lines: blank ones, comments, headers of tables, and keys
with values.  A key may be defined once only, and a table may be named once only.
Collections may be nested less than eighty levels deep, and a dotted key has fewer
than eighty parts.
-/

namespace Landing.Toml

/-- One more than the deepest nesting of collections. -/
def depthLimit : Nat := 80

/-! ### Keys -/

/-- A character of a bare key. -/
def isBareKeyChar (c : Char) : Bool :=
  ('a' ≤ c && c ≤ 'z') || ('A' ≤ c && c ≤ 'Z') || ('0' ≤ c && c ≤ '9') || c = '-' || c = '_'

/-- Read a part of a key. -/
def simpleKey? (cs : List Char) : Option (String × List Char) :=
  match cs with
  | '"' :: rest => (basic? (rest.length + 1) rest).map fun (k, cs) => (String.ofList k, cs)
  | '\x27' :: rest => (literal? rest).map fun (k, cs) => (String.ofList k, cs)
  | cs =>
    let bare := cs.takeWhile isBareKeyChar
    if bare.isEmpty then none else some (String.ofList bare, cs.dropWhile isBareKeyChar)

/-- Read the parts of a key with points between them, and blanks around every part. -/
def keyParts? : (bound : Nat) → List Char → Option (List String × List Char)
  | 0, _ => none
  | bound + 1, cs =>
    match simpleKey? (skipBlank cs) with
    | none => none
    | some (part, cs) =>
      match skipBlank cs with
      | '.' :: cs => (keyParts? bound cs).map fun (parts, cs) => (part :: parts, cs)
      | cs => some ([part], cs)

/-- Read a key: the parts before the last one, and the last one. -/
def key? (cs : List Char) : Option (List String × String × List Char) :=
  match keyParts? depthLimit cs with
  | some (parts, cs) =>
    match parts.getLast? with
    | some last => if parts.length < depthLimit then some (parts.dropLast, last, cs) else none
    | none => none
  | none => none

/-! ### Values -/

/-- The rest of a text after a comment, if one begins here. -/
def skipComment : List Char → List Char
  | '#' :: cs => cs.dropWhile isPrintable
  | cs => cs

/-- The rest of a text after blanks, line ends and comments between the items of an array. -/
def skipBetween : (bound : Nat) → List Char → List Char
  | 0, cs => cs
  | bound + 1, cs =>
    let cs := skipBlank cs
    match newline? (skipComment cs) with
    | some cs => skipBetween bound cs
    | none => cs

/-- Read the items of an array up to and with its closing bracket. -/
def items? (value? : List Char → Option (Value × List Char)) :
    (bound : Nat) → List Char → Option (List Value × List Char)
  | 0, _ => none
  | bound + 1, cs =>
    match skipBetween cs.length cs with
    | ']' :: cs => some ([], cs)
    | cs =>
      match value? cs with
      | none => none
      | some (v, cs) =>
        match skipBetween cs.length cs with
        | ']' :: cs => some ([v], cs)
        | ',' :: cs => (items? value? bound cs).map fun (vs, cs) => (v :: vs, cs)
        | _ => none

/-- Read a key with its value. -/
def pair? (value? : List Char → Option (Value × List Char)) (cs : List Char) :
    Option (List String × String × Value × List Char) :=
  match key? cs with
  | some (path, key, '=' :: cs) =>
    (value? (skipBlank cs)).map fun (v, cs) => (path, key, v, skipBlank cs)
  | _ => none

/-- Read the pairs of a table in braces up to and with its closing brace. -/
def pairs? (value? : List Char → Option (Value × List Char)) :
    (bound : Nat) → Entries → List Char → Option (Entries × List Char)
  | 0, _, _ => none
  | bound + 1, t, cs =>
    match pair? value? cs with
    | none => none
    | some (path, key, v, cs) =>
      match t.addDotted? path key v with
      | none => none
      | some t =>
        match cs with
        | '\x7d' :: cs => some (t, cs)
        | ',' :: cs => pairs? value? bound t cs
        | _ => none

/-- Close every table in a table in braces. -/
def closed (t : Entries) : Value := .table .braces t

/-- Read a value whose collections are nested at most `depth` levels deep. -/
def value? : (depth : Nat) → List Char → Option (Value × List Char)
  | depth, cs =>
    match cs with
    | '"' :: _ => (string? cs).map fun (s, cs) => (.string (String.ofList s), cs)
    | '\x27' :: _ => (string? cs).map fun (s, cs) => (.string (String.ofList s), cs)
    | 't' :: 'r' :: 'u' :: 'e' :: cs => some (.bool true, cs)
    | 'f' :: 'a' :: 'l' :: 's' :: 'e' :: cs => some (.bool false, cs)
    | '[' :: cs =>
      match depth with
      | 0 => none
      | depth + 1 => (items? (value? depth) (cs.length + 1) cs).map fun (vs, cs) => (.array vs, cs)
    | '\x7b' :: cs =>
      match depth with
      | 0 => none
      | depth + 1 =>
        match skipBlank cs with
        | '\x7d' :: cs => some (closed [], cs)
        | cs => (pairs? (value? depth) (cs.length + 1) [] cs).map fun (t, cs) => (closed t, cs)
    | cs => (scalar? cs).map fun cs => (.scalar, cs)

/-! ### Documents -/

/-- The rest of a text after the end of a line: blanks, perhaps a comment, and a line end or the
end of the text. -/
def lineEnd? (cs : List Char) : Option (List Char) :=
  match skipComment (skipBlank cs) with
  | [] => some []
  | cs => newline? cs

/-- Where keys go: the table begun last. -/
structure Document where
  root : Entries
  /-- The path of the table begun last. -/
  current : List String

/-- Add a value to the table begun last. -/
def Document.add? (d : Document) (path : List String) (key : String) (v : Value) :
    Option Document :=
  (d.root.alongHeader (fun t => t.addDotted? path key v) d.current).map fun root => { d with root }

/-- Begin a table or the next one of several. -/
def Document.begin? (d : Document) (listed : Bool) (path : List String) (key : String) :
    Option Document :=
  (if listed then d.root.beginListed? path key else d.root.beginTable? path key).map fun root =>
    ⟨root, path ++ [key]⟩

def header? (d : Document) (listed : Bool) (cs : List Char) : Option (Document × List Char) :=
  match key? cs with
  | some (path, key, ']' :: cs) =>
    match listed, cs with
    | true, ']' :: cs => (d.begin? true path key).map fun d => (d, cs)
    | true, _ => none
    | false, cs => (d.begin? false path key).map fun d => (d, cs)
  | _ => none

def line? (d : Document) (cs : List Char) : Option (Document × List Char) :=
  match skipBlank cs with
  | '[' :: '[' :: cs => header? d true cs
  | '[' :: cs => header? d false cs
  | [] => some (d, [])
  | '#' :: cs => some (d, '#' :: cs)
  | '\n' :: cs => some (d, '\n' :: cs)
  | '\r' :: cs => some (d, '\r' :: cs)
  | cs =>
    match pair? (value? (depthLimit - 1)) cs with
    | some (path, key, v, cs) => (d.add? path key v).map fun d => (d, cs)
    | none => none

def lines? : (bound : Nat) → Document → List Char → Option Document
  | 0, _, _ => none
  | bound + 1, d, cs =>
    match line? d cs with
    | none => none
    | some (d, cs) =>
      match lineEnd? cs with
      | none => none
      | some [] => some d
      | some cs => lines? bound d cs

/-- A byte order mark at the beginning is no part of the text. -/
def dropMark : List Char → List Char
  | c :: cs => if c = Char.ofNat 0xfeff then cs else c :: cs
  | [] => []

/-- The entries of the table that a text holds. -/
def ofText? (s : String) : Option Entries :=
  let cs := dropMark s.toList
  (lines? (cs.length + 1) ⟨[], []⟩ cs).map (·.root)

end Landing.Toml
