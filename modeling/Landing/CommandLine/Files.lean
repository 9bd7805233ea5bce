import Landing.Archive

/-!
# Files

What a command needs of a file system: reading a text, writing a file, and
replacing one in a single step.  A failure is told in the system's words.

Beside it stands a file system in memory: a folder without folders in it.  Outside
it are the usual folders of a system, in which no file can be found but one that is
always empty.
-/

namespace Landing.CommandLine

/-- What is written to a file. -/
inductive FileContent where
  | text (s : String)
  | archive (a : Archive)
  deriving DecidableEq

/-- Access to files from computations in `m`. -/
structure Files (m : Type → Type) where
  /-- The text of a file. -/
  read : String → m (Except String String)
  /-- Write a file, in place of what it held. -/
  write : String → FileContent → m (Except String Unit)
  /-- Write a file so that nobody finds it half written. -/
  replace : String → FileContent → m (Except String Unit)

/-- The octets of the file. -/
def FileContent.octets : FileContent → List UInt8
  | text s => CommitId.octets s
  | archive a => a.octets

/-- The name of a file without what follows its last dot, unless the name begins with that dot. -/
def stem (name : List Char) : List Char :=
  match name.reverse.dropWhile (· != '.') with
  | _ :: before => if before.isEmpty then name else before.reverse
  | [] => name

/-- The path that a file is written to before it takes the place of another: that of a file beside
it, which differs only in its ending. -/
def neighbour (path : String) : String :=
  let cs := path.toList
  let name := (EntryPath.cut cs).getLast?.getD []
  String.ofList (cs.take (cs.length - name.length) ++ stem name) ++ ".json.tmp"

/-! ### A folder in memory -/

/-- Why a file cannot be read or written. -/
inductive FileError where
  | noSuchFile
  | notFolder
  | isFolder
  | nameTooLong
  | notText
  deriving DecidableEq

/-- The system's words for an error. -/
def FileError.message : FileError → String
  | noSuchFile => "No such file or directory (os error 2)"
  | notFolder => "Not a directory (os error 20)"
  | isFolder => "Is a directory (os error 21)"
  | nameTooLong => "File name too long (os error 36)"
  | notText => "stream did not contain valid UTF-8"

/-- The files of a folder by name. -/
abbrev Folder := Table String FileContent

namespace Folder

/-- The number of octets that a name may have. -/
def nameRoom : Nat := 255

/-- The number of octets that a path may have. -/
def pathRoom : Nat := 4095

/-- Where a path leads. -/
inductive Target where
  /-- A file of the folder, whether or not it exists. -/
  | file (name : String)
  /-- A file outside the folder, where there are none. -/
  | outside
  /-- A file that is empty whatever is written to it. -/
  | void
  /-- The folder itself or one outside it. -/
  | folder
  deriving DecidableEq

/-- The folders that the way to a file leads through. -/
inductive Place where
  /-- The folder that holds the files. -/
  | here
  /-- The folder that all others are in. -/
  | top
  /-- Any other folder; no file is in it. -/
  | elsewhere
  deriving DecidableEq

/-- The folder that a folder is in. -/
def Place.parent : Place → Place
  | top => top
  | here | elsewhere => elsewhere

/-- The names of the folders in the top folder. -/
def topFolders : List String :=
  ["bin", "dev", "etc", "home", "lib", "opt", "root", "run", "sbin", "srv", "tmp", "usr", "var"]

/-- Why a name does not lead further, when it is not the name of a folder. -/
def deadEnd (f : Folder) (place : Place) (name : String) : FileError :=
  if place = .here ∧ f.contains name then .notFolder else .noSuchFile

/-- Follow the parts of a path from a place; `create` says that the file at the end of it is to be
written. A name must not be too long when it is looked up, and what is followed further must be a
folder. -/
def follow (f : Folder) (create : Bool) : Place → List (List Char) → Except FileError Target
  | _, [] => .ok .folder
  | place, part :: rest =>
    if part = [] ∨ part = ['.'] then follow f create place rest
    else if part = ['.', '.'] then follow f create place.parent rest
    else if create && !rest.isEmpty && rest.all (·.isEmpty) then .error .isFolder
    else if nameRoom < (EntryPath.octets part).length then .error .nameTooLong
    else
      let name := String.ofList part
      if place = .top ∧ name ∈ topFolders then follow f create .elsewhere rest
      else if !rest.isEmpty then .error (f.deadEnd place name)
      else .ok (if place = .here then .file name else .outside)

/-- The path of the file that is always empty. -/
def voidPath : String := "/dev/null"

/-- Where a path leads, or why it leads nowhere. -/
def target (f : Folder) (create : Bool) (path : String) : Except FileError Target :=
  if pathRoom < (EntryPath.octets path.toList).length then .error .nameTooLong
  else if path = voidPath then .ok .void
  else
    let start : Place := if path.toList.head? = some '/' then .top else .here
    follow f create start (EntryPath.cut path.toList)

/-- The text of a file's content. -/
def textOf (content : FileContent) : Except FileError String :=
  match String.fromUTF8? ⟨content.octets.toArray⟩ with
  | some s => .ok s
  | none => .error .notText

/-- The text of a file. -/
def read (f : Folder) (path : String) : Except FileError String := do
  match ← f.target false path with
  | .file name =>
    match f.get? name with
    | some content => textOf content
    | none => throw .noSuchFile
  | .outside => throw .noSuchFile
  | .void => pure ""
  | .folder => throw .isFolder

/-- The folder after a file was written. -/
def write (f : Folder) (path : String) (content : FileContent) : Except FileError Folder := do
  match ← f.target true path with
  | .file name => pure (f.insert name content)
  | .outside | .void => pure f
  | .folder => throw .isFolder

/-- The folder after a file took the place of another, for which there must be room beside it. -/
def replace (f : Folder) (path : String) (content : FileContent) : Except FileError Folder := do
  discard (f.target true (neighbour path))
  f.write path content

/-- Access to a folder from computations that carry it along. -/
def access : Files (StateM Folder) where
  read path := do pure (((← get).read path).mapError FileError.message)
  write path content := do keep ((← get).write path content)
  replace path content := do keep ((← get).replace path content)
where
  /-- Carry on with a changed folder. -/
  keep : Except FileError Folder → StateM Folder (Except String Unit)
    | .ok f => do
      set f
      pure (.ok ())
    | .error e => pure (.error e.message)

end Folder

end Landing.CommandLine
