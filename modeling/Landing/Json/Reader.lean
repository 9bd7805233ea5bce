import Landing.Json
import Landing.Text.Hex

/-!
# Reading JSON

A text is one value with blanks allowed around it; blanks are the space, the
tab, the line feed and the carriage return.  Numbers have no superfluous leading
zero, a string holds no raw control character, and arrays and objects may be
nested to any depth.

An escape may name one half of a surrogate pair without the other.  Such a
string is well formed but denotes no text, and an object with such a name
denotes no object; both read as `Json.garbled`.

Every reader below takes the characters that are left and gives back what it
read with the characters after it.  The two mutually recursive readers carry a
count that bounds their calls; twice the length of the text is enough, because
every second call consumes a character.
-/

namespace Landing.Json

/-- The characters allowed between the parts of a text. -/
def isSpace (c : Char) : Bool := c = ' ' || c = '\t' || c = '\n' || c = '\r'

/-- The rest of a text from its first character that is no blank. -/
def skipSpace (cs : List Char) : List Char := cs.dropWhile isSpace

/-! ### Strings -/

/-- What stands at one place between quotes: a character, or an escaped code unit. -/
inductive Piece where
  | char (c : Char)
  | unit (code : Nat)

/-- The character a short escape stands for. -/
def shortEscape? : Char → Option Char
  | '"' => some '"'
  | '\\' => some '\\'
  | '/' => some '/'
  | 'b' => some (Char.ofNat 0x08)
  | 'f' => some (Char.ofNat 0x0c)
  | 'n' => some '\n'
  | 'r' => some '\r'
  | 't' => some '\t'
  | _ => none

/-- Read up to and with the closing quote. -/
def pieces? : List Char → Option (List Piece × List Char)
  | [] => none
  | '"' :: rest => some ([], rest)
  | '\\' :: 'u' :: a :: b :: c :: d :: rest =>
    match Hex.value? [a, b, c, d], pieces? rest with
    | some code, some (ps, rest) => some (.unit code :: ps, rest)
    | _, _ => none
  | '\\' :: e :: rest =>
    match shortEscape? e, pieces? rest with
    | some c, some (ps, rest) => some (.char c :: ps, rest)
    | _, _ => none
  | c :: rest =>
    if c.toNat < 0x20 || c = '\\' then none
    else
      match pieces? rest with
      | some (ps, rest) => some (.char c :: ps, rest)
      | none => none

/-- The first half of a surrogate pair. -/
def isHighSurrogate (u : Nat) : Bool := 0xd800 ≤ u && u ≤ 0xdbff

/-- The second half of a surrogate pair. -/
def isLowSurrogate (u : Nat) : Bool := 0xdc00 ≤ u && u ≤ 0xdfff

/-- The text that pieces denote, if every surrogate in them stands in a pair. -/
def text? : List Piece → Option (List Char)
  | [] => some []
  | .char c :: rest => (text? rest).map (c :: ·)
  | .unit u :: rest =>
    if isHighSurrogate u then
      match rest with
      | .unit low :: rest =>
        if isLowSurrogate low then
          (text? rest).map (Char.ofNat (0x10000 + (u - 0xd800) * 0x400 + (low - 0xdc00)) :: ·)
        else none
      | _ => none
    else if isLowSurrogate u then none
    else (text? rest).map (Char.ofNat u :: ·)

/-- Read a string after its opening quote. -/
def stringRest? (cs : List Char) : Option (Option String × List Char) :=
  (pieces? cs).map fun (ps, rest) => ((text? ps).map String.ofList, rest)

/-! ### Numbers -/

/-- A decimal digit. -/
def isDigit (c : Char) : Bool := '0' ≤ c && c ≤ '9'

/-- The value of a list of decimal digits. -/
def decimalValue (ds : List Char) : Nat := ds.foldl (fun n c => n * 10 + (c.toNat - 48)) 0

/-- Split the leading digits off. -/
def spanDigits (cs : List Char) : List Char × List Char :=
  (cs.takeWhile isDigit, cs.dropWhile isDigit)

/-- Digits, without a superfluous leading zero. -/
def wholePart? (cs : List Char) : Option (List Char × List Char) :=
  match spanDigits cs with
  | ([], _) => none
  | ('0' :: _ :: _, _) => none
  | (ds, rest) => some (ds, rest)

/-- A point and at least one digit, or nothing. -/
def fraction? : List Char → Option (List Char × List Char)
  | '.' :: cs =>
    match spanDigits cs with
    | ([], _) => none
    | (ds, rest) => some ('.' :: ds, rest)
  | cs => some ([], cs)

/-- The sign of an exponent. -/
def exponentSign : List Char → List Char × List Char
  | '+' :: cs => (['+'], cs)
  | '-' :: cs => (['-'], cs)
  | cs => ([], cs)

/-- An exponent mark with at least one digit, or nothing. -/
def exponent? : List Char → Option (List Char × List Char)
  | [] => some ([], [])
  | c :: cs =>
    if c = 'e' || c = 'E' then
      let (sign, cs) := exponentSign cs
      match spanDigits cs with
      | ([], _) => none
      | (ds, rest) => some (c :: sign ++ ds, rest)
    else some ([], c :: cs)

/-- The minus sign of a number, or nothing. -/
def minus : List Char → List Char × List Char
  | '-' :: cs => (['-'], cs)
  | cs => ([], cs)

def number? (cs : List Char) : Option (Json × List Char) := do
  let (sign, cs) := minus cs
  let (whole, cs) ← wholePart? cs
  let (fraction, cs) ← fraction? cs
  let (exponent, cs) ← exponent? cs
  let plain := sign.isEmpty && fraction.isEmpty && exponent.isEmpty
  let j := if plain then .nat (decimalValue whole)
    else .number (String.ofList (sign ++ whole ++ fraction ++ exponent))
  some (j, cs)

/-! ### Values -/

/-- Put a member in front of the rest of an object; a name that denotes no text spoils it all. -/
def consMember (name : Option String) (j : Json) (rest : Option (List (String × Json))) :
    Option (List (String × Json)) :=
  match name, rest with
  | some name, some rest => some ((name, j) :: rest)
  | _, _ => none

/-- Read a member's name with its colon. -/
def memberName? (cs : List Char) : Option (Option String × List Char) :=
  match skipSpace cs with
  | '"' :: cs =>
    match stringRest? cs with
    | some (name, cs) =>
      match skipSpace cs with
      | ':' :: cs => some (name, cs)
      | _ => none
    | none => none
  | _ => none

mutual

def value? : (bound : Nat) → List Char → Option (Json × List Char)
  | 0, _ => none
  | bound + 1, cs =>
    match skipSpace cs with
    | 'n' :: 'u' :: 'l' :: 'l' :: cs => some (.null, cs)
    | 't' :: 'r' :: 'u' :: 'e' :: cs => some (.bool true, cs)
    | 'f' :: 'a' :: 'l' :: 's' :: 'e' :: cs => some (.bool false, cs)
    | '"' :: cs =>
      match stringRest? cs with
      | some (some s, cs) => some (.string s, cs)
      | some (none, cs) => some (.garbled, cs)
      | none => none
    | '[' :: cs =>
      match skipSpace cs with
      | ']' :: cs => some (.array [], cs)
      | cs =>
        match items? bound cs with
        | some (items, cs) => some (.array items, cs)
        | none => none
    | '\x7b' :: cs =>
      match skipSpace cs with
      | '\x7d' :: cs => some (.object [], cs)
      | cs =>
        match members? bound cs with
        | some (some members, cs) => some (.object members, cs)
        | some (none, cs) => some (.garbled, cs)
        | none => none
    | cs => number? cs

/-- Read the items of an array up to and with its closing bracket. -/
def items? : (bound : Nat) → List Char → Option (List Json × List Char)
  | 0, _ => none
  | bound + 1, cs =>
    match value? bound cs with
    | none => none
    | some (j, cs) =>
      match skipSpace cs with
      | ']' :: cs => some ([j], cs)
      | ',' :: cs =>
        match items? bound cs with
        | some (items, cs) => some (j :: items, cs)
        | none => none
      | _ => none

/-- Read the members of an object up to and with its closing brace. -/
def members? : (bound : Nat) → List Char → Option (Option (List (String × Json)) × List Char)
  | 0, _ => none
  | bound + 1, cs =>
    match memberName? cs with
    | none => none
    | some (name, cs) =>
      match value? bound cs with
      | none => none
      | some (j, cs) =>
        match skipSpace cs with
        | '\x7d' :: cs => some (consMember name j (some []), cs)
        | ',' :: cs =>
          match members? bound cs with
          | some (rest, cs) => some (consMember name j rest, cs)
          | none => none
        | _ => none

end

/-- The value of a list of characters that is one JSON text. -/
def ofChars? (cs : List Char) : Option Json :=
  match value? (2 * cs.length + 2) cs with
  | some (j, rest) => if (skipSpace rest).isEmpty then some j else none
  | none => none

/-- The value a text denotes, if it is one JSON text. -/
def ofText? (s : String) : Option Json := ofChars? s.toList

end Landing.Json
