import Landing.Json

/-!
# Records in JSON

A record with named fields is an object, whose unknown members are skipped, or
an array that gives the fields in their declared order.  In an object a known
name must not be repeated; in an array the fields that are left out are the last
ones, and nothing may follow the last field.  A field that is left out takes its
default, and a record whose field has none is refused.

The readers of this file turn a value into data or refuse it; they never look at
a member that no field asks for.  Beside them stand the writers that most records
need.
-/

namespace Landing.Json

/-- The fields of a record by name. -/
structure Fields where
  /-- The given fields in the order of the text. -/
  given : List (String × Json)

namespace Fields

/-- The fields named `names` that a value gives, if it is a record with these fields. -/
def ofJson? (names : List String) : Json → Option Fields
  | .object members =>
    let known := members.filter fun m => names.contains m.1
    if (known.map (·.1)).Nodup then some ⟨known⟩ else none
  | .array items =>
    if items.length ≤ names.length then some ⟨names.zip items⟩ else none
  | _ => none

/-- The value given for a field. -/
def get? (r : Fields) (name : String) : Option Json :=
  (r.given.find? (·.1 == name)).map (·.2)

/-- Read a field that must be given. -/
def required (r : Fields) (name : String) (read : Json → Option α) : Option α :=
  (r.get? name).bind read

/-- Read a field that takes a default when it is left out. -/
def optional (r : Fields) (name : String) (default : α) (read : Json → Option α) : Option α :=
  match r.get? name with
  | some j => read j
  | none => some default

end Fields

def listOf? (read : Json → Option α) : Json → Option (List α)
  | .array items => items.mapM read
  | _ => none

/-- Read an object as names with values, repeated names included. -/
def membersOf? (read : Json → Option α) : Json → Option (List (String × α))
  | .object members => members.mapM fun m => (read m.2).map fun a => (m.1, a)
  | _ => none

/-- Read a value or `null`. -/
def optionOf? (read : Json → Option α) : Json → Option (Option α)
  | .null => some none
  | j => (read j).map some

/-- Read a natural number below `2^32`. -/
def word? : Json → Option UInt32
  | .nat n => if n < UInt32.size then some (UInt32.ofNat n) else none
  | _ => none

/-- A natural number below `2^32` as a value. -/
def ofWord (n : UInt32) : Json := .nat n.toNat

/-- A list as an array. -/
def ofList (write : α → Json) (l : List α) : Json := .array (l.map write)

/-- Read one of several names: the name as a string, or as the only member of an object whose
value is `null`. -/
def name? : Json → Option String
  | .string s => some s
  | .object [(s, .null)] => some s
  | _ => none

end Landing.Json
