import Landing.Archive
import Landing.Proofs.Archive.Container
import Landing.Proofs.Archive.Names
import Landing.Proofs.Archive.Reader
import Landing.Proofs.Commit.Canonical
import Landing.Proofs.Text.Octets
import Mathlib.Data.List.Forall2
import Mathlib.Data.List.Nodup

/-!
# Archives are read back

The stream that bundles are packed into holds one file for every bundle, in order, and
every file holds its bundle (`Archive.files?_stream`).  Bodies, paddings and checksums get
in nobody's way, and neither do the entries that hold long paths.  A container around the
stream is taken off first, so archives of both formats hold their bundles
(`Archive.holds_of_build`).

The names of the files are another matter.  A path that stands in its header is tidied
up when it is written there, and only a path that is held by an entry of its own is kept
as it is.  So a file has the name of its project exactly if there is nothing to tidy up
or no room for the tidy path (`Archive.read_back_iff`).
-/

namespace Landing

open Json

/-! ### Bundles are read back -/

namespace Bundle

theorem roundTrip_ref : RoundTrip refToJson refOfJson? where
  plain r := by
    have hold : Plain (.ofOption CommitId.toJson r.old) :=
      (CommitId.roundTrip.option fun _ => Json.noConfusion).plain r.old
    exact .object (by simp [Plain.string, hold, CommitId.roundTrip.plain])
  read_write r := by
    have hold : optionOf? CommitId.ofJson? (.ofOption CommitId.toJson r.old) = some r.old :=
      (CommitId.roundTrip.option fun _ => Json.noConfusion).read_write r.old
    rw [refToJson, refOfJson?, Fields.ofJson?_object (by rfl) (by decide)]
    simp [Fields.required, Fields.optional, Fields.get?, string?, hold, CommitId.roundTrip.read_write]

theorem roundTrip : RoundTrip toJson ofJson? where
  plain b := by
    have hrefs : Plain (.array (b.refs.map refToJson)) := roundTrip_ref.list.plain b.refs
    have hcommits : Plain (.array (b.commits.map Commit.toJson)) :=
      Commit.roundTrip.list.plain b.commits
    exact .object (by simp [Plain.string, hrefs, hcommits])
  read_write b := by
    have hrefs : listOf? refOfJson? (.array (b.refs.map refToJson)) = some b.refs :=
      roundTrip_ref.list.read_write b.refs
    have hcommits : listOf? Commit.ofJson? (.array (b.commits.map Commit.toJson)) = some b.commits :=
      Commit.roundTrip.list.read_write b.commits
    rw [toJson, ofJson?, Fields.ofJson?_object (by rfl) (by decide)]
    simp [Fields.required, Fields.get?, string?, hrefs, hcommits]

/-- The bundle whose file has these octets. -/
def ofOctets? (bs : List UInt8) : Option Bundle := do
  let text ← String.fromUTF8? ⟨bs.toArray⟩
  let j ← Json.ofText? text
  ofJson? j

/-- A text is read back from its octets. -/
theorem fromUTF8?_octets (s : String) :
    String.fromUTF8? ⟨(CommitId.octets s).toArray⟩ = some s := by
  have hoctets : (⟨(CommitId.octets s).toArray⟩ : ByteArray) = s.toByteArray := by
    rw [CommitId.octets, String.toUTF8_eq_toByteArray]
  rw [hoctets, String.fromUTF8?, dif_pos s.isValidUTF8]
  rfl

/-- A bundle is read back from its file. -/
theorem ofOctets?_fileText (b : Bundle) : ofOctets? (CommitId.octets b.fileText) = some b := by
  rw [ofOctets?, fromUTF8?_octets]
  simp [fileText, (roundTrip.plain b).ofText?_toIndentedText, roundTrip.read_write]

end Bundle

/-! ### Files are read back -/

namespace Tar

variable {path : List Char} {body rest : List UInt8} {entries : List Entry}

/-- The path, tidied up, stands in the header. -/
def InHeader (path : List Char) : Prop := (EntryPath.write false (.blank pathRoom) path).isOk = true

instance (path : List Char) : Decidable (InHeader path) := inferInstanceAs (Decidable (_ = true))

/-- The path under which a file is found again. -/
def foundPath (path : List Char) : List Char :=
  if InHeader path then EntryPath.tidy path else path

/-- The entries for a file: its own, which may have one before it that holds the path. -/
theorem fileEntries_cases (hentries : fileEntries path body = .ok entries) :
    (∃ field, EntryPath.write false (.blank pathRoom) path = .ok field ∧
      field.octets.length = pathRoom ∧ entries = [fileEntry field body]) ∨
    (∃ refusal field, EntryPath.write false (.blank pathRoom) path = .error refusal ∧
      field.octets.length = pathRoom ∧ entries = [longPathEntry path, fileEntry field body]) := by
  have hblank : (Field.blank pathRoom).octets.length = pathRoom := by decide
  have hsized : EntryPath.Sized pathRoom (EntryPath.write false (.blank pathRoom) path) :=
    EntryPath.sized_write hblank path
  unfold fileEntries at hentries
  split at hentries
  · next field hwrite =>
    cases hentries
    rw [hwrite] at hsized
    exact .inl ⟨field, hwrite, hsized, rfl⟩
  · next refusal hwrite =>
    rw [hwrite] at hsized
    split at hentries
    · cases hentries
    dsimp only at hentries
    have hrewound : refusal.field.rewind.octets.length = pathRoom := hsized
    have hagain : EntryPath.Sized pathRoom (EntryPath.write true refusal.field.rewind
        (EntryPath.beginningOf pathRoom path)) := EntryPath.sized_write hrewound _
    cases hbeginning : EntryPath.write true refusal.field.rewind
        (EntryPath.beginningOf pathRoom path) with
    | error r =>
      rw [hbeginning] at hentries
      cases hentries
    | ok field =>
      rw [hbeginning] at hentries hagain
      cases hentries
      exact .inr ⟨refusal, field, hwrite, hagain, rfl⟩

/-- The entry of a file is taken off a stream. -/
theorem next?_fileEntry {field : Field} (hfield : field.octets.length = pathRoom)
    (hbody : body.length < 2 ^ 64) : next? ((fileEntry field body).octets ++ rest) =
      some (.entry ⟨field.content, body.length, Kind.file.flag, true⟩ body rest) := by
  have hfill : fill pathRoom field.octets = field.octets := by
    rw [fill, hfield, Nat.sub_self, List.replicate_zero, List.append_nil]
  have hnext : next? ((entryWith .file field.octets body).octets ++ rest) = _ :=
    next?_entryWith (Nat.le_of_eq hfield) hbody
  rwa [hfill] at hnext

/-- The entry that holds a path is taken off a stream. -/
theorem next?_longPathEntry (hlong : (EntryPath.octets path ++ [0]).length < 2 ^ 64) :
    next? ((longPathEntry path).octets ++ rest) =
      some (.entry ⟨EntryPath.octets longPathName, (EntryPath.octets path ++ [0]).length,
        Kind.longPath.flag, true⟩ (EntryPath.octets path ++ [0]) rest) := by
  have hfill : untilZero (fill pathRoom (EntryPath.octets longPathName)) =
      EntryPath.octets longPathName := by decide
  have hnext : next? ((entryWith .longPath (EntryPath.octets longPathName)
      (EntryPath.octets path ++ [0])).octets ++ rest) = _ := next?_entryWith (by decide) hlong
  rwa [hfill] at hnext

theorem flag_ne : Kind.file.flag ≠ Kind.longPath.flag := by decide

theorem heldPath_append_zero (bs : List UInt8) : heldPath (bs ++ [0]) = bs := by
  simp [heldPath]

/-- A file is read back from its entries. -/
theorem files?_fileEntries (hslash : path.getLast? ≠ some '/')
    (hname : ∃ part ∈ EntryPath.cut path, EntryPath.IsName part)
    (hentries : fileEntries path body = .ok entries)
    (hbodies : ∀ e ∈ entries, e.body.length < 2 ^ 64) :
    files? (entries.flatMap Entry.octets ++ rest) =
      (files? rest).map (⟨0, EntryPath.octets (foundPath path), body⟩ :: ·) := by
  rcases fileEntries_cases hentries with ⟨field, hwrite, hfield, rfl⟩ |
    ⟨refusal, field, hwrite, hfield, rfl⟩
  · have hbody : body.length < 2 ^ 64 := hbodies _ List.mem_cons_self
    have hfound : foundPath path = EntryPath.tidy path := by
      rw [foundPath, if_pos]
      rw [InHeader, hwrite]
      rfl
    rw [List.flatMap_singleton, files?, filesFrom_of_file (next?_fileEntry hfield hbody) flag_ne,
      hfound, ← EntryPath.content_of_write hslash hname hwrite]
    rfl
  · have hbody : body.length < 2 ^ 64 := hbodies (fileEntry field body) (by simp)
    have hlong : (EntryPath.octets path ++ [0]).length < 2 ^ 64 :=
      hbodies (longPathEntry path) (by simp)
    have hfound : foundPath path = path := by
      rw [foundPath, if_neg]
      rw [InHeader, hwrite]
      exact Bool.false_ne_true
    have hsplit : [longPathEntry path, fileEntry field body].flatMap Entry.octets ++ rest =
        (longPathEntry path).octets ++ ((fileEntry field body).octets ++ rest) := by
      simp
    rw [hsplit, filesFrom_of_longPath (next?_longPathEntry hlong) rfl rfl,
      filesFrom_of_file (next?_fileEntry hfield hbody) flag_ne, hfound, Option.map_some,
      Option.getD_some, heldPath_append_zero]
    rfl

end Tar

/-! ### Archives are read back -/

namespace EntryPath

theorem octets_toList (s : String) : octets s.toList = CommitId.octets s :=
  (Text.octets_eq_flatMap s).symm

theorem octets_inj {l m : List Char} : octets l = octets m ↔ l = m := by
  refine ⟨fun h => ?_, fun h => h ▸ rfl⟩
  rw [← String.toList_ofList (l := l), ← String.toList_ofList (l := m), octets_toList,
    octets_toList] at h
  exact String.ofList_injective (CommitId.octets_injective h)

end EntryPath

/-- The entries of several bundles are those of the first one and those of the others. -/
theorem Archive.entriesOf_cons {b : Bundle} {bundles : List Bundle} {entries : List Tar.Entry}
    (hentries : entriesOf (b :: bundles) = .ok entries) :
    ∃ own more, Tar.fileEntries b.entryName.toList (CommitId.octets b.fileText) = .ok own ∧
      entriesOf bundles = .ok more ∧ entries = own ++ more := by
  rw [entriesOf] at hentries
  split at hentries
  · cases hentries
  · next own hown =>
    cases hmore : entriesOf bundles with
    | error failure =>
      rw [hmore] at hentries
      cases hentries
    | ok more =>
      rw [hmore] at hentries
      cases hentries
      exact ⟨own, more, hown, rfl, rfl⟩

namespace Bundle

variable {b : Bundle} {bundles : List Bundle} {entries : List Tar.Entry} {rest : List UInt8}

/-- The path of the bundle's file. -/
def path (b : Bundle) : List Char := b.entryName.toList

/-- The file that holds the bundle in an archive. -/
def file (b : Bundle) : Tar.File :=
  ⟨0, EntryPath.octets (Tar.foundPath b.path), CommitId.octets b.fileText⟩

/-- The name of the bundle's file stays as it is. -/
def KeepsName (b : Bundle) : Prop := EntryPath.Straight b.path ∨ ¬ Tar.InHeader b.path

instance (b : Bundle) : Decidable b.KeepsName := inferInstanceAs (Decidable (_ ∨ _))

theorem path_eq (b : Bundle) : b.path = b.project.toList ++ ['.', 'g', 'i', 't'] := by
  rw [path, entryName, String.toList_append]
  rfl

theorem getLast?_path (b : Bundle) : b.path.getLast? ≠ some '/' := by
  rw [path_eq]
  simp

theorem exists_name_path (b : Bundle) : ∃ part ∈ EntryPath.cut b.path, EntryPath.IsName part := by
  have hending : '/' ∉ ['.', 'g', 'i', 't'] := by decide
  obtain ⟨part, hpart, before, hsuffix⟩ :=
    EntryPath.exists_part_of_suffix hending b.project.toList
  refine ⟨part, b.path_eq ▸ hpart, ?_⟩
  have hlength : 4 ≤ part.length := by
    rw [← hsuffix, List.length_append]
    exact Nat.le_add_left 4 _
  refine ⟨⟨?_, ?_⟩, ?_⟩ <;>
    · rintro rfl
      exact absurd hlength (by decide)

/-- A file has the name of its project exactly if that name stays as it is. -/
theorem file_path_iff : b.file.path = CommitId.octets b.entryName ↔ b.KeepsName := by
  have hsome : ∃ part ∈ EntryPath.cut b.path, EntryPath.Meaningful part := by
    obtain ⟨part, hpart, hname⟩ := b.exists_name_path
    exact ⟨part, hpart, hname.1⟩
  rw [← EntryPath.octets_toList]
  change EntryPath.octets (Tar.foundPath b.path) = EntryPath.octets b.path ↔ _
  rw [EntryPath.octets_inj, Tar.foundPath, KeepsName]
  split
  · next hheader => rw [EntryPath.tidy_eq_iff hsome, or_iff_left (not_not_intro hheader)]
  · next hheader => exact iff_of_true rfl (.inr hheader)

/-- The file is a plain one that holds the bundle.  Its name is that of the project's file without
superfluous slashes and dots, or as it is if the other one has no room in a header. -/
structure HeldBy (b : Bundle) (f : Tar.File) : Prop where
  regular : f.IsRegular
  content : ofOctets? f.body = some b
  path_eq : f.path = EntryPath.octets (Tar.foundPath b.path)
  path_iff : f.path = CommitId.octets b.entryName ↔ b.KeepsName

/-- The files of bundles are read back in order. -/
theorem files?_entriesOf (hentries : Archive.entriesOf bundles = .ok entries)
    (hbodies : ∀ e ∈ entries, e.body.length < 2 ^ 64) :
    Tar.files? (entries.flatMap Tar.Entry.octets ++ rest) =
      (Tar.files? rest).map (bundles.map file ++ ·) := by
  induction bundles generalizing entries with
  | nil =>
    cases hentries
    simp
  | cons b bundles ih =>
    obtain ⟨own, more, hown, hmore, rfl⟩ := Archive.entriesOf_cons hentries
    rw [List.flatMap_append, List.append_assoc,
      Tar.files?_fileEntries b.getLast?_path b.exists_name_path hown
        fun e he => hbodies e (List.mem_append_left more he),
      ih hmore fun e he => hbodies e (List.mem_append_right own he), Option.map_map]
    rfl

end Bundle

namespace Archive

variable {bundles : List Bundle} {a : Archive}

/-- No body is longer than the stream. -/
theorem length_body_le {entries : List Tar.Entry} {e : Tar.Entry} (he : e ∈ entries) :
    e.body.length ≤ (Tar.stream entries).length := by
  have hown : e.body.length ≤ e.octets.length := by
    rw [Tar.Entry.octets, Tar.fill, List.length_append, List.length_append]
    omega
  obtain ⟨earlier, later, rfl⟩ := List.append_of_mem he
  rw [Tar.stream, List.flatMap_append, List.flatMap_cons]
  simp only [List.length_append]
  omega

theorem build_eq_ok {format : ArchiveFormat} (hbuild : build format bundles = .ok a) :
    ∃ entries, entriesOf bundles = .ok entries ∧ a = ⟨format, entries⟩ := by
  rw [build] at hbuild
  cases hentries : entriesOf bundles with
  | error failure =>
    rw [hentries] at hbuild
    cases hbuild
  | ok entries =>
    rw [hentries] at hbuild
    cases hbuild
    exact ⟨entries, rfl, rfl⟩

/-- The files of a stream are those of its bundles, in order. -/
theorem files?_stream {entries : List Tar.Entry} (hentries : entriesOf bundles = .ok entries)
    (hbodies : ∀ e ∈ entries, e.body.length < 2 ^ 64) :
    Tar.files? (Tar.stream entries) = some (bundles.map Bundle.file) := by
  have htrailer : Tar.files? Tar.trailer = some [] :=
    Tar.filesFrom_of_finish Tar.next?_trailer
  rw [Tar.stream, Bundle.files?_entriesOf hentries hbodies, htrailer]
  simp

theorem files?_octets (hbuild : build .tar bundles = .ok a) (hsize : a.octets.length < 2 ^ 64) :
    Tar.files? a.octets = some (bundles.map Bundle.file) := by
  obtain ⟨entries, hentries, rfl⟩ := build_eq_ok hbuild
  exact files?_stream hentries fun e he => (length_body_le he).trans_lt hsize

/-- The files in an archive of either format, if it can be read. -/
def files? (a : Archive) : Option (List Tar.File) :=
  match a.format with
  | .tar => Tar.files? a.octets
  | .tgz => (Gzip.unpack? a.octets).bind Tar.files?

/-- A reader finds one file for every bundle, in the order of the bundles, and in it the bundle. -/
def Holds (a : Archive) (bundles : List Bundle) : Prop :=
  ∃ files, a.files? = some files ∧ List.Forall₂ Bundle.HeldBy bundles files

/-- **Archives are read back.**  In the archive of bundles for different projects, a reader finds one
plain file for every bundle, in the order of the bundles, and in it the bundle.  The file has the name
of its project exactly if there are no superfluous slashes and dots in it, or if the path without them
has no room in a header.  If all files have these names, then no two have the same.

The sizes that a header has room for are those of 64 bits, so the archive has to be one that a memory
can hold. -/
theorem read_back_iff (hdistinct : (bundles.map (·.project)).Nodup)
    (hbuild : build .tar bundles = .ok a) (hsize : a.octets.length < 2 ^ 64) :
    ∃ files, Tar.files? a.octets = some files ∧
      List.Forall₂ (fun (b : Bundle) (f : Tar.File) =>
        f.IsRegular ∧ Bundle.ofOctets? f.body = some b ∧
          f.path = EntryPath.octets (Tar.foundPath b.path) ∧
          (f.path = CommitId.octets b.entryName ↔ b.KeepsName)) bundles files ∧
      (files.map (·.path) = bundles.map (fun b => CommitId.octets b.entryName) ↔
        ∀ b ∈ bundles, b.KeepsName) ∧
      (bundles.map fun b => CommitId.octets b.entryName).Nodup := by
  refine ⟨bundles.map Bundle.file, files?_octets hbuild hsize, ?_, ?_, ?_⟩
  · rw [List.forall₂_map_right_iff, List.forall₂_same]
    exact fun b _ => ⟨.inl rfl, b.ofOctets?_fileText, rfl, Bundle.file_path_iff⟩
  · rw [List.map_map, List.map_inj_left]
    exact forall₂_congr fun b _ => Bundle.file_path_iff
  · have hnames : (bundles.map fun b => CommitId.octets b.entryName) =
        (bundles.map (·.project)).map fun project => CommitId.octets (project ++ ".git") := by
      rw [List.map_map]
      rfl
    rw [hnames]
    refine List.Nodup.map (fun p q hpq => ?_) hdistinct
    exact (String.append_left_inj _).1 (CommitId.octets_injective hpq)

/-- A bundle with a plain name, and one whose name has no room in a header. -/
def sample : List Bundle := [
  ⟨"p/q", [⟨"r", none, ⟨1⟩⟩], []⟩,
  ⟨String.ofList (List.replicate 100 'n') ++ "//./p", [], []⟩]

theorem read_back_sample : (sample.map (·.project)).Nodup ∧ ∃ a, build .tar sample = .ok a ∧
    a.octets.length < 2 ^ 64 ∧ ∃ files, Tar.files? a.octets = some files ∧
      List.Forall₂ (fun b f => f.IsRegular ∧ Bundle.ofOctets? f.body = some b) sample files ∧
      files.map (·.path) = sample.map (fun b => CommitId.octets b.entryName) ∧
      (files.map (·.path)).Nodup := by
  have hdistinct : (sample.map (·.project)).Nodup := by decide +kernel
  have hkeeps : ∀ b ∈ sample, b.KeepsName := by decide +kernel
  have hbuilt : (build .tar sample).toOption.any fun a => a.octets.length < 2 ^ 64 := by
    decide +kernel
  cases hbuild : build .tar sample with
  | error failure =>
    rw [hbuild] at hbuilt
    cases hbuilt
  | ok a =>
    rw [hbuild] at hbuilt
    have hsize : a.octets.length < 2 ^ 64 := of_decide_eq_true hbuilt
    obtain ⟨files, hfiles, hall, hnames, hnodup⟩ := read_back_iff hdistinct hbuild hsize
    refine ⟨hdistinct, a, rfl, hsize, files, hfiles, hall.imp fun b f h => ⟨h.1, h.2.1⟩,
      hnames.2 hkeeps, ?_⟩
    rw [hnames.2 hkeeps]
    exact hnodup

/-- Two projects whose names differ in a superfluous slash have their files under one name. -/
theorem read_back_one_name :
    let bundles : List Bundle := [⟨"a//b", [], []⟩, ⟨"a/b", [], []⟩]
    (bundles.map (·.project)).Nodup ∧ ∃ a files, build .tar bundles = .ok a ∧
      Tar.files? a.octets = some files ∧
      files.map (·.path) = [CommitId.octets "a/b.git", CommitId.octets "a/b.git"] ∧
      files.map (·.path) ≠ bundles.map fun b => CommitId.octets b.entryName := by
  intro bundles
  have hbuilt : (build .tar bundles).toOption.any fun a => a.octets.length < 2 ^ 64 := by
    decide +kernel
  cases hbuild : build .tar bundles with
  | error failure =>
    rw [hbuild] at hbuilt
    cases hbuilt
  | ok a =>
    rw [hbuild] at hbuilt
    exact ⟨by decide, a, bundles.map Bundle.file, rfl, files?_octets hbuild (of_decide_eq_true hbuilt),
      by decide +kernel, by decide +kernel⟩

end Archive
end Landing
