import Landing.Archive.Bundle
import Landing.Archive.Gzip
import Landing.Archive.Tar
import Landing.Submission.Failure

/-!
# Preview archives

A preview may be taken away as an archive with one file per project.  The
archive follows from the bundles alone, so the same bundles always make the same
archive.
-/

namespace Landing

/-- The kinds of archive that a preview comes in. -/
inductive ArchiveFormat where
  | tar
  | tgz
  deriving DecidableEq

/-- A finished archive. -/
structure Archive where
  format : ArchiveFormat
  entries : List Tar.Entry
  deriving DecidableEq

namespace ArchiveFormat

/-- The name of a format, which is also the usual file name ending. -/
def text : ArchiveFormat → String
  | tar => "tar"
  | tgz => "tgz"

/-- The media type of a format. -/
def contentType : ArchiveFormat → String
  | tar => "application/x-tar"
  | tgz => "application/x-gzip"

/-- The format named `s`, in any case of letters. -/
def parse (s : String) : Except Failure ArchiveFormat :=
  let name := s.toLower
  if name = "tar" then .ok tar
  else if name = "tgz" ∨ name = "tar.gz" then .ok tgz
  else .error (.unsupportedFormat s)

end ArchiveFormat

namespace Archive

/-- The entries for some bundles. -/
def entriesOf : List Bundle → Except Failure (List Tar.Entry)
  | [] => .ok []
  | b :: rest =>
    match Tar.fileEntries b.entryName.toList (CommitId.octets b.fileText) with
    | .error refusal => .error (.archive refusal.message)
    | .ok entries => (entriesOf rest).map (entries ++ ·)

/-- Pack bundles into an archive. -/
def build (format : ArchiveFormat) (bundles : List Bundle) : Except Failure Archive :=
  (entriesOf bundles).map fun entries => ⟨format, entries⟩

/-- The octets of the archive's file. -/
def octets (a : Archive) : List UInt8 :=
  match a.format with
  | .tar => Tar.stream a.entries
  | .tgz => Gzip.pack (Tar.stream a.entries)

end Archive

end Landing
