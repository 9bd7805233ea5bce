/-!
# JSON values

The values a JSON text denotes.  An object keeps its members in the order of
the text, repeated names included; what a repeated name means is for the reader
of the object to say.  Natural numbers are told apart from every other number,
because identifiers and counts are natural numbers and nothing else.
-/

namespace Landing

/-- What a JSON text denotes. -/
inductive Json where
  | null
  | bool (b : Bool)
  /-- A number written with digits only. -/
  | nat (n : Nat)
  /-- A number with a sign, a fraction or an exponent, as it is written. -/
  | number (literal : String)
  | string (s : String)
  | array (items : List Json)
  | object (members : List (String × Json))
  /-- A well-formed text that denotes no value, since an escape in it names half of a surrogate
  pair. -/
  | garbled
  deriving Inhabited

namespace Json

/-- The text of a string value. -/
def string? : Json → Option String
  | .string s => some s
  | _ => none

/-- The number of a natural value. -/
def nat? : Json → Option Nat
  | .nat n => some n
  | _ => none

/-- The truth value of a Boolean. -/
def bool? : Json → Option Bool
  | .bool b => some b
  | _ => none

/-- The items of an array. -/
def array? : Json → Option (List Json)
  | .array items => some items
  | _ => none

/-- The last member of an object with this name. -/
def member? (name : String) : Json → Option Json
  | .object members => (members.reverse.find? (·.1 == name)).map (·.2)
  | _ => none

/-- A text or nothing. -/
def ofOption (f : α → Json) : Option α → Json
  | some a => f a
  | none => .null

end Json

end Landing
