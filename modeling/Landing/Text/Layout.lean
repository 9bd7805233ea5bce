/-!
# Lines and columns

Cutting a text at its first line end and filling a column of a listing.
-/

namespace Landing.Text

/-- A carriage return at the end of a line belongs to the line end. -/
def dropFinalReturn (line : List Char) : List Char :=
  if line.getLast? = some '\r' then line.dropLast else line

/-- The characters before the first line feed; a carriage return right before that line feed is
dropped, one at the end of the whole text is kept. -/
def firstLine (s : String) : String :=
  let line := s.toList.takeWhile (· ≠ '\n')
  String.ofList (if line.length = s.length then line else dropFinalReturn line)

/-- The text followed by blanks up to `width` characters; a longer text stays as it is. -/
def padRight (width : Nat) (s : String) : String :=
  s ++ String.ofList (List.replicate (width - s.length) ' ')

/-- The texts one after another with `separator` between neighbours. -/
def join (separator : String) (texts : List String) : String :=
  String.intercalate separator texts

/-- Replace every occurrence of a character. -/
def replaceChar (old new : Char) (s : String) : String :=
  s.map fun c => if c = old then new else c

end Landing.Text
