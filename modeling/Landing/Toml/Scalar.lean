import Landing.Text.Hex
import Landing.Text.Numeral
import Landing.Toml

/-!
# The scalars of TOML

Strings in their four forms, numbers, dates and times.  Every reader takes the
characters that are left and gives back what it read with the characters after
it.
-/

namespace Landing.Toml

/-- Blanks within a line. -/
def isBlank (c : Char) : Bool := c = ' ' || c = '\t'

/-- The rest of a text after blanks. -/
def skipBlank (cs : List Char) : List Char := cs.dropWhile isBlank

def newline? : List Char → Option (List Char)
  | '\n' :: rest => some rest
  | '\r' :: '\n' :: rest => some rest
  | _ => none

/-- A character that may stand in a comment. -/
def isPrintable (c : Char) : Bool :=
  c = '\t' || (0x20 ≤ c.toNat && c.toNat ≤ 0x7e) || 0x80 ≤ c.toNat

/-- A character that stands for itself in a string with escapes. -/
def isPlain (c : Char) : Bool := isPrintable c && c != '"' && c != '\\'

/-- A character that may stand in a string without escapes. -/
def isLiteral (c : Char) : Bool := isPrintable c && c != '\x27'

/-! ### Strings -/

/-- Read exactly `count` hexadecimal digits as the number of a character. -/
def codePoint? (count : Nat) (cs : List Char) : Option (Char × List Char) :=
  let ds := cs.take count
  if ds.length = count then
    match Hex.value? ds with
    | some n =>
      if n.isValidChar then some (Char.ofNat n, cs.drop count) else none
    | none => none
  else none

def escape? : List Char → Option (Char × List Char)
  | 'b' :: cs => some (Char.ofNat 0x08, cs)
  | 't' :: cs => some ('\t', cs)
  | 'n' :: cs => some ('\n', cs)
  | 'f' :: cs => some (Char.ofNat 0x0c, cs)
  | 'r' :: cs => some ('\r', cs)
  | '"' :: cs => some ('"', cs)
  | '\\' :: cs => some ('\\', cs)
  | 'u' :: cs => codePoint? 4 cs
  | 'U' :: cs => codePoint? 8 cs
  | _ => none

/-- Read a one-line string with escapes, up to and with its closing quote. -/
def basic? : (bound : Nat) → List Char → Option (List Char × List Char)
  | 0, _ => none
  | _, [] => none
  | bound + 1, c :: cs =>
    if c = '"' then some ([], cs)
    else if c = '\\' then
      match escape? cs with
      | some (e, cs) => (basic? bound cs).map fun (text, cs) => (e :: text, cs)
      | none => none
    else if isPlain c then (basic? bound cs).map fun (text, cs) => (c :: text, cs)
    else none

/-- Read a one-line string without escapes, up to and with its closing quote. -/
def literal? : List Char → Option (List Char × List Char)
  | [] => none
  | c :: cs =>
    if c = '\x27' then some ([], cs)
    else if isLiteral c then (literal? cs).map fun (text, cs) => (c :: text, cs)
    else none

/-- How a run of `n` quotes ends a string of several lines: the quotes that belong to the text and
the ones that are left over. Fewer than three quotes do not end it. -/
def closing? (n : Nat) : Option (Nat × Nat) :=
  if n < 3 then none else some (min (n - 3) 2, n - 3 - min (n - 3) 2)

/-- Read quotes inside a string of several lines; `rest` reads what follows if the string goes
on. -/
def quoteRun (quote : Char) (cs : List Char)
    (rest : List Char → Option (List Char × List Char)) : Option (List Char × List Char) :=
  let run := cs.takeWhile (· == quote)
  let after := cs.dropWhile (· == quote)
  match closing? run.length with
  | some (own, left) => some (List.replicate own quote, List.replicate left quote ++ after)
  | none => (rest after).map fun (text, cs) => (run ++ text, cs)

/-- The rest of a text after a backslash at the end of a line: blanks and line ends are skipped. -/
def lineContinuation? (cs : List Char) : Option (List Char) :=
  (newline? (skipBlank cs)).map (skip cs.length)
where
  /-- Skip blanks and line ends. -/
  skip : (bound : Nat) → List Char → List Char
    | 0, cs => cs
    | bound + 1, cs =>
      let cs := skipBlank cs
      match newline? cs with
      | some cs => skip bound cs
      | none => cs

/-- Read a string of several lines with escapes, up to and with its closing quotes. -/
def basicLines? : (bound : Nat) → List Char → Option (List Char × List Char)
  | 0, _ => none
  | _, [] => none
  | bound + 1, c :: cs =>
    if c = '"' then quoteRun '"' (c :: cs) (basicLines? bound)
    else if c = '\\' then
      match lineContinuation? cs with
      | some cs => basicLines? bound cs
      | none =>
        match escape? cs with
        | some (e, cs) => (basicLines? bound cs).map fun (text, cs) => (e :: text, cs)
        | none => none
    else
      match newline? (c :: cs) with
      | some cs => (basicLines? bound cs).map fun (text, cs) => ('\n' :: text, cs)
      | none =>
        if isPlain c then (basicLines? bound cs).map fun (text, cs) => (c :: text, cs) else none

/-- Read a string of several lines without escapes, up to and with its closing quotes. -/
def literalLines? : (bound : Nat) → List Char → Option (List Char × List Char)
  | 0, _ => none
  | _, [] => none
  | bound + 1, c :: cs =>
    if c = '\x27' then quoteRun '\x27' (c :: cs) (literalLines? bound)
    else
      match newline? (c :: cs) with
      | some cs => (literalLines? bound cs).map fun (text, cs) => ('\n' :: text, cs)
      | none =>
        if isLiteral c then (literalLines? bound cs).map fun (text, cs) => (c :: text, cs)
        else none

/-- A line end right after the opening quotes does not belong to the text. -/
def dropFirstNewline (cs : List Char) : List Char := (newline? cs).getD cs

def string? (cs : List Char) : Option (List Char × List Char) :=
  match cs with
  | '"' :: '"' :: '"' :: cs => basicLines? (cs.length + 1) (dropFirstNewline cs)
  | '"' :: cs => basic? (cs.length + 1) cs
  | '\x27' :: '\x27' :: '\x27' :: cs => literalLines? (cs.length + 1) (dropFirstNewline cs)
  | '\x27' :: cs => literal? cs
  | _ => none

/-! ### Numbers -/

/-- Read digits with single underscores between them; the underscores are dropped. -/
def grouped? (isDigit : Char → Bool) : List Char → Option (List Char × List Char)
  | [] => none
  | c :: cs => if isDigit c then (more cs).map fun (ds, cs) => (c :: ds, cs) else none
where
  /-- Read the digits after the first one. -/
  more : List Char → Option (List Char × List Char)
    | '_' :: d :: cs =>
      if isDigit d then (more cs).map fun (ds, cs) => (d :: ds, cs) else none
    | ['_'] => none
    | [] => some ([], [])
    | c :: cs =>
      if isDigit c then (more cs).map fun (ds, cs) => (c :: ds, cs) else some ([], c :: cs)

/-- Integers are less than this and not less than its negative. -/
def integerBound : Nat := 1 <<< 63

/-- The sign of a number. -/
def sign : List Char → Bool × List Char
  | '-' :: cs => (true, cs)
  | '+' :: cs => (false, cs)
  | cs => (false, cs)

/-- Read the digits of a decimal integer; a zero stands alone. -/
def decimal? : List Char → Option (List Char × List Char)
  | '0' :: cs => some (['0'], cs)
  | cs => grouped? Text.isDecimalDigit cs

def fraction? : List Char → Option (Option (List Char) × List Char)
  | '.' :: cs => (grouped? Text.isDecimalDigit cs).map fun (ds, cs) => (some ds, cs)
  | cs => some (none, cs)

def exponent? : List Char → Option (Option Int × List Char)
  | c :: cs =>
    if c = 'e' || c = 'E' then
      let (negative, cs) := sign cs
      (grouped? Text.isDecimalDigit cs).map fun (ds, cs) =>
        let n : Int := Text.decimalDigitsValue ds
        (some (if negative then -n else n), cs)
    else some (none, c :: cs)
  | [] => some (none, [])

/-- Whether `n · 10 ^ e` is too large for a double: it is at least half way from the largest double
to the next power of two. -/
def overflows (n : Nat) (e : Int) : Bool :=
  let digits := if n = 0 then 0 else (Nat.toDigits 10 n).length
  let magnitude : Int := digits + e
  if n = 0 || magnitude < 309 then false
  else if 309 < magnitude then true
  else
    let limit := ((1 <<< 54) - 1) <<< 970
    if 0 ≤ e then limit ≤ n * Nat.pow 10 e.toNat else limit * Nat.pow 10 (-e).toNat ≤ n

/-- Read a decimal integer or a number with a fraction or an exponent. -/
def decimalNumber? (cs : List Char) : Option (List Char) := do
  let (negative, cs) := sign cs
  let (whole, cs) ← decimal? cs
  let (fraction, cs) ← fraction? cs
  let (exponent, cs) ← exponent? cs
  match fraction, exponent with
  | none, none =>
    let bound := integerBound + (if negative then 1 else 0)
    if Text.decimalDigitsValue whole < bound then some cs else none
  | _, _ =>
    let fraction := fraction.getD []
    let n := Text.decimalDigitsValue (whole ++ fraction)
    let e := exponent.getD 0 - fraction.length
    if !negative && overflows n e then none else some cs

/-- Read digits of a base after its mark. -/
def based? (base : Nat) (cs : List Char) : Option (List Char) := do
  let (ds, cs) ← grouped? (fun c => (Hex.digitValue? c).any (· < base)) cs
  if Text.placeValue base (ds.filterMap Hex.digitValue?) < integerBound then some cs else none

def special? (cs : List Char) : Option (List Char) :=
  match (sign cs).2 with
  | 'i' :: 'n' :: 'f' :: cs => some cs
  | 'n' :: 'a' :: 'n' :: cs => some cs
  | _ => none

def number? (cs : List Char) : Option (List Char) :=
  match special? cs with
  | some cs => some cs
  | none =>
    match cs with
    | '0' :: 'x' :: cs => based? 16 cs
    | '0' :: 'o' :: cs => based? 8 cs
    | '0' :: 'b' :: cs => based? 2 cs
    | cs => decimalNumber? cs

/-! ### Dates and times -/

/-- Read exactly `count` decimal digits. -/
def fixed? (count : Nat) (cs : List Char) : Option (Nat × List Char) :=
  let ds := cs.take count
  if ds.length = count && ds.all Text.isDecimalDigit then
    some (Text.decimalDigitsValue ds, cs.drop count)
  else none

/-- Read one given character. -/
def mark? (c : Char) : List Char → Option (List Char)
  | d :: cs => if d = c then some cs else none
  | [] => none

/-- The number of days of a month. -/
def monthDays (year month : Nat) : Nat :=
  let leap := year % 4 = 0 ∧ (year % 100 ≠ 0 ∨ year % 400 = 0)
  if month = 2 then (if leap then 29 else 28)
  else if month = 4 ∨ month = 6 ∨ month = 9 ∨ month = 11 then 30
  else 31

def monthAndDay? (year : Nat) (cs : List Char) : Option (List Char) := do
  let (month, cs) ← fixed? 2 cs
  let cs ← mark? '-' cs
  let (day, cs) ← fixed? 2 cs
  if 1 ≤ month ∧ month ≤ 12 ∧ 1 ≤ day ∧ day ≤ monthDays year month then some cs else none

def secondFraction? : List Char → Option (List Char)
  | '.' :: cs =>
    if (cs.head?).any Text.isDecimalDigit then some (cs.dropWhile Text.isDecimalDigit) else none
  | cs => some cs

def minuteAndSecond? (cs : List Char) : Option (List Char) := do
  let (minute, cs) ← fixed? 2 cs
  let cs ← mark? ':' cs
  let (second, cs) ← fixed? 2 cs
  if minute ≤ 59 ∧ second ≤ 60 then secondFraction? cs else none

/-- The text after an hour and its colon, if a time begins here. -/
def hourMark? (cs : List Char) : Option (Nat × List Char) := do
  let (hour, cs) ← fixed? 2 cs
  let cs ← mark? ':' cs
  if hour ≤ 23 then some (hour, cs) else none

/-- Read the distance from universal time, or nothing. -/
def offset? : List Char → Option (List Char)
  | c :: cs =>
    if c = 'Z' || c = 'z' then some cs
    else if c = '+' || c = '-' then do
      let (_, cs) ← hourMark? cs
      let (minute, cs) ← fixed? 2 cs
      if minute ≤ 59 then some cs else none
    else some (c :: cs)
  | [] => some []

def timeAfterDate? (cs : List Char) : Option (List Char) :=
  match cs with
  | c :: after =>
    if c = 'T' || c = 't' || c = ' ' then
      match hourMark? after with
      | some (_, cs) => (minuteAndSecond? cs).bind offset?
      | none => some cs
    else some cs
  | [] => some []

/-- The text after a year and its hyphen, if a date begins here. -/
def yearMark? (cs : List Char) : Option (Nat × List Char) := do
  let (year, cs) ← fixed? 4 cs
  let cs ← mark? '-' cs
  some (year, cs)

def scalar? (cs : List Char) : Option (List Char) :=
  match yearMark? cs with
  | some (year, cs) => (monthAndDay? year cs).bind timeAfterDate?
  | none =>
    match hourMark? cs with
    | some (_, cs) => minuteAndSecond? cs
    | none => number? cs

end Landing.Toml
