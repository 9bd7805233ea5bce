import Landing.Archive.Field

/-!
# Paths in archives

A path in an archive is relative, does not climb to a parent directory, and is
written without superfluous slashes and dots.  The field for it has room for a
hundred octets; what does not fit is stored elsewhere, and the field then holds
the beginning of the path.
-/

namespace Landing.EntryPath

/-- A part of a path between slashes. -/
inductive Component where
  /-- The slash at the beginning. -/
  | root
  /-- A dot at the beginning; any other dot has no meaning. -/
  | current
  | parent
  | normal (name : List Char)
  deriving DecidableEq

/-- Why a path cannot stand in an archive. -/
inductive Defect where
  | notRelative
  | climbs
  | misfit (why : Field.Misfit)
  | empty
  deriving DecidableEq

/-- A defect with the field as it was when the defect was met. -/
structure Refusal where
  defect : Defect
  field : Field
  deriving DecidableEq

/-- The defect in words. -/
def Defect.message : Defect → String
  | notRelative => "paths in archives must be relative"
  | climbs => "paths in archives must not have \x60..\x60"
  | misfit .tooLong => "provided value is too long"
  | misfit .holdsZero => "provided value contains a nul byte"
  | empty => "paths in archives must have at least one component"

/-- The refusal in words, with what the field held. -/
def Refusal.message (r : Refusal) : String :=
  r.defect.message ++ " when setting path for " ++
    (String.fromUTF8? ⟨r.field.content.toArray⟩).getD ""

/-- The octets of a text in UTF-8. -/
def octets (cs : List Char) : List UInt8 := cs.flatMap String.utf8EncodeChar

/-- Cut a text at every slash. -/
def cut : List Char → List (List Char)
  | [] => [[]]
  | c :: rest =>
    if c = '/' then [] :: cut rest
    else
      match cut rest with
      | part :: parts => (c :: part) :: parts
      | [] => [[c]]

/-- The component that a part stands for; `first` says that it begins the path. -/
def component? (first : Bool) (part : List Char) : Option Component :=
  if part = [] then none
  else if part = ['.'] then (if first then some .current else none)
  else if part = ['.', '.'] then some .parent
  else some (.normal part)

/-- The components of a path. -/
def components (path : List Char) : List Component :=
  match cut path with
  | [] => []
  | first :: parts =>
    (if path.head? = some '/' then [.root] else []) ++
      (component? true first).toList ++ parts.filterMap (component? false)

/-- Write a text behind what was written. -/
def append (f : Field) (text : List Char) : Except Refusal Field :=
  (f.write (octets text)).mapError fun why => ⟨.misfit why, f⟩

/-- Write a component after a slash, unless it is the first one written. -/
def appendComponent (f : Field) (text : List Char) : Except Refusal Field := do
  let f ← if f.written.isEmpty then pure f else append f ['/']
  append f text

/-- Write components one after another; `only` says that there is just one. In the beginning of a
longer path the last component may be cut short, so two dots there need not be a parent
directory. -/
def place (beginning only : Bool) (f : Field) : List Component → Except Refusal Field
  | [] => .ok f
  | .root :: _ => .error ⟨.notRelative, f⟩
  | .parent :: rest =>
    if beginning && rest.isEmpty then appendComponent f ['.', '.'] else .error ⟨.climbs, f⟩
  | .current :: rest =>
    if only then (appendComponent f ['.']).bind (place beginning only · rest)
    else place beginning only f rest
  | .normal name :: rest => (appendComponent f name).bind (place beginning only · rest)

/-- Write a path into a field; `beginning` says that it is the beginning of a longer one. -/
def write (beginning : Bool) (f : Field) (path : List Char) : Except Refusal Field := do
  let cs := components path
  let f ← place beginning (cs.length == 1) f cs
  if f.written.isEmpty then .error ⟨.empty, f⟩
  else if path.getLast? = some '/' then append f ['/']
  else pure f

/-- The longest beginning of a text that fits into `room` octets. -/
def beginningOf : (room : Nat) → List Char → List Char
  | _, [] => []
  | room, c :: rest =>
    if c.utf8Size ≤ room then c :: beginningOf (room - c.utf8Size) rest else []

end Landing.EntryPath
