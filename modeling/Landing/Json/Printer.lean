import Landing.Json
import Landing.Text.Hex

/-!
# Printing JSON

Two layouts of one value.  The compact layout has no blanks at all; it is the
canonical form under which commits are named.  The indented layout puts every
item and member on a line of its own, two spaces deeper than what holds it, and
writes an empty array or object as a pair of brackets.

In strings the quote, the backslash and the control characters below U+0020 are
escaped, with the short escape where there is one; every other character stands
for itself.
-/

namespace Landing.Json

/-- How one character is written inside quotes. -/
def escapeChar (c : Char) : List Char :=
  if c = '"' then ['\\', '"']
  else if c = '\\' then ['\\', '\\']
  else if c = '\n' then ['\\', 'n']
  else if c = '\r' then ['\\', 'r']
  else if c = '\t' then ['\\', 't']
  else if c = Char.ofNat 0x08 then ['\\', 'b']
  else if c = Char.ofNat 0x0c then ['\\', 'f']
  else if c.toNat < 0x20 then ['\\', 'u'] ++ Hex.write 4 c.toNat
  else [c]

/-- A text in quotes. -/
def quote (s : String) : List Char :=
  '"' :: s.toList.flatMap escapeChar ++ ['"']

/-- The decimal digits of a number. -/
def digits (n : Nat) : List Char := Nat.toDigits 10 n

/-- The written form of a value that is printed alike in every layout. -/
def atom : Json → List Char
  | .null => ['n', 'u', 'l', 'l']
  | .bool true => ['t', 'r', 'u', 'e']
  | .bool false => ['f', 'a', 'l', 's', 'e']
  | .nat n => digits n
  | .number literal => literal.toList
  | .string s => quote s
  | .array _ => ['[', ']']
  | .object _ => ['\x7b', '\x7d']
  | .garbled => ['"', '\\', 'u', 'd', '8', '0', '0', '"']

mutual

/-- The compact layout. -/
def compact : Json → List Char
  | .array items => '[' :: compactItems items
  | .object members => '\x7b' :: compactMembers members
  | .null => atom .null
  | .bool b => atom (.bool b)
  | .nat n => atom (.nat n)
  | .number literal => atom (.number literal)
  | .string s => atom (.string s)
  | .garbled => atom .garbled

/-- Items separated by commas, up to and with the closing bracket. -/
def compactItems : List Json → List Char
  | [] => [']']
  | [j] => compact j ++ [']']
  | j :: next :: rest => compact j ++ ',' :: compactItems (next :: rest)

/-- Members separated by commas, up to and with the closing brace. -/
def compactMembers : List (String × Json) → List Char
  | [] => ['\x7d']
  | [(name, j)] => quote name ++ ':' :: compact j ++ ['\x7d']
  | (name, j) :: next :: rest =>
    quote name ++ ':' :: compact j ++ ',' :: compactMembers (next :: rest)

end

/-- A line end and the blanks that start a line `depth` levels deep. -/
def newLine (depth : Nat) : List Char := '\n' :: List.replicate (2 * depth) ' '

mutual

/-- The indented layout of a value that stands `depth` levels deep. -/
def indented (depth : Nat) : Json → List Char
  | .array [] => atom (.array [])
  | .array (j :: rest) => '[' :: indentedItems depth (j :: rest)
  | .object [] => atom (.object [])
  | .object (m :: rest) => '\x7b' :: indentedMembers depth (m :: rest)
  | .null => atom .null
  | .bool b => atom (.bool b)
  | .nat n => atom (.nat n)
  | .number literal => atom (.number literal)
  | .string s => atom (.string s)
  | .garbled => atom .garbled

/-- Items on lines of their own, up to and with the closing bracket. -/
def indentedItems (depth : Nat) : List Json → List Char
  | [] => newLine depth ++ [']']
  | [j] => newLine (depth + 1) ++ indented (depth + 1) j ++ newLine depth ++ [']']
  | j :: next :: rest =>
    newLine (depth + 1) ++ indented (depth + 1) j ++ ',' :: indentedItems depth (next :: rest)

/-- Members on lines of their own, up to and with the closing brace. -/
def indentedMembers (depth : Nat) : List (String × Json) → List Char
  | [] => newLine depth ++ ['\x7d']
  | [(name, j)] =>
    newLine (depth + 1) ++ quote name ++ ':' :: ' ' :: indented (depth + 1) j ++
      newLine depth ++ ['\x7d']
  | (name, j) :: next :: rest =>
    newLine (depth + 1) ++ quote name ++ ':' :: ' ' :: indented (depth + 1) j ++
      ',' :: indentedMembers depth (next :: rest)

end

/-- The value as a text without blanks. -/
def toText (j : Json) : String := String.ofList (compact j)

/-- The value as a text with one item or member per line. -/
def toIndentedText (j : Json) : String := String.ofList (indented 0 j)

end Landing.Json
