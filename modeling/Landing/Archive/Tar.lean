import Landing.Archive.EntryPath

/-!
# Tar streams

A stream is a sequence of entries, each a header block of 512 octets with a body
padded to whole blocks, and two zero blocks at the end.  Headers have the GNU
layout; numbers in them are octal, but for sizes that are too large for it.  An
entry whose path is too long for the header is preceded by an entry that holds
the whole path.  The beginning of the path is then written over what has been
written of the path already.

Nothing in an entry depends on when or by whom it was made.
-/

namespace Landing.Tar

/-- One entry of a stream. -/
structure Entry where
  /-- The header block. -/
  header : List UInt8
  body : List UInt8
  deriving DecidableEq

/-- The size of a block. -/
def blockSize : Nat := 512

/-- The room for a path in a header. -/
def pathRoom : Nat := 100

/-- The last `width` octal digits of a number. -/
def octal : (width : Nat) → (n : Nat) → List UInt8
  | 0, _ => []
  | width + 1, n => octal width (n / 8) ++ [UInt8.ofNat (48 + n % 8)]

/-- A number in a field: octal digits with a zero octet after them. -/
def number (digits n : Nat) : List UInt8 := octal digits n ++ [0]

/-- The last `width` octets of a number in binary, most significant first. -/
def bigEndian : (width : Nat) → (n : Nat) → List UInt8
  | 0, _ => []
  | width + 1, n => bigEndian width (n / 256) ++ [UInt8.ofNat (n % 256)]

/-- The sizes from here on have more than eleven octal digits. -/
def octalLimit : Nat := 8589934592

/-- A size in its field of twelve octets: octal digits, or the number in binary behind a mark if the
digits do not fit. -/
def sizeField (n : Nat) : List UInt8 :=
  if n < octalLimit then number 11 n else [0x80, 0, 0, 0] ++ bigEndian 8 n

/-- Octets followed by zero octets up to `size`. -/
def fill (size : Nat) (bs : List UInt8) : List UInt8 :=
  bs ++ List.replicate (size - bs.length) 0

/-- Who owns an entry, and of what kind it is. -/
inductive Kind where
  /-- A file; the owner fields are left blank. -/
  | file
  /-- The path of the entry that follows; the owner fields hold zero. -/
  | longPath
  deriving DecidableEq

/-- An owner field. -/
def Kind.owner : Kind → List UInt8
  | file => List.replicate 8 0
  | longPath => number 7 0

/-- The octet that tells the kind of an entry. -/
def Kind.flag : Kind → UInt8
  | file => 0
  | longPath => 76

/-- A header block with the given checksum field. -/
def headerWith (kind : Kind) (path : List UInt8) (size : Nat) (checksum : List UInt8) :
    List UInt8 :=
  fill blockSize <|
    fill pathRoom path ++ number 7 0o644 ++ kind.owner ++ kind.owner ++ sizeField size ++
      number 11 0 ++ checksum ++ [kind.flag] ++ List.replicate 100 0 ++
      EntryPath.octets ['u', 's', 't', 'a', 'r', ' ', ' '] ++ [0]

/-- A header block. The checksum is the sum of all octets, blanks standing in its own field. -/
def header (kind : Kind) (path : List UInt8) (size : Nat) : List UInt8 :=
  let blank := headerWith kind path size (List.replicate 8 32)
  headerWith kind path size (number 7 (blank.foldl (fun n b => n + b.toNat) 0))

/-- The path of an entry that holds the path of the next entry. -/
def longPathName : List Char := "././@LongLink".toList

/-- The entry that holds a long path, with a zero octet after it. -/
def longPathEntry (path : List Char) : Entry :=
  let body := EntryPath.octets path ++ [0]
  ⟨header .longPath (EntryPath.octets longPathName) body.length, body⟩

/-- The entry with a file's content, with this path field. -/
def fileEntry (path : Field) (body : List UInt8) : Entry :=
  ⟨header .file path.octets body.length, body⟩

/-- The entries for one file. -/
def fileEntries (path : List Char) (body : List UInt8) : Except EntryPath.Refusal (List Entry) :=
  match EntryPath.write false (.blank pathRoom) path with
  | .ok field => .ok [fileEntry field body]
  | .error refusal =>
    if (EntryPath.octets path).length < pathRoom then .error refusal
    else
      let beginning := EntryPath.beginningOf pathRoom path
      (EntryPath.write true refusal.field.rewind beginning).map fun field =>
        [longPathEntry path, fileEntry field body]

/-- The octets of an entry, padded to whole blocks. -/
def Entry.octets (e : Entry) : List UInt8 :=
  e.header ++ fill ((e.body.length + (blockSize - 1)) / blockSize * blockSize) e.body

/-- The octets after the last entry. -/
def trailer : List UInt8 := List.replicate (2 * blockSize) 0

/-- The octets of a stream. -/
def stream (entries : List Entry) : List UInt8 := entries.flatMap Entry.octets ++ trailer

end Landing.Tar
