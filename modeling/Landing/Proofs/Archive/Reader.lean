import Landing.Archive.Tar
import Mathlib.Algebra.Group.Nat.Defs

/-!
# Reading tar streams

A reader takes a stream apart block by block.  A block of zeros ends it.  Any other one
is a header, which has to bear out its checksum; behind it stand as many octets as it
says, padded to whole blocks.  What stands in an entry of the kind `L` is the path of
the entry after it, whatever the header of that one says.

Sizes are written in octal digits or, if they are too large for that, in binary, and
both are read back (`ofSize?_sizeField`).  So the headers that are written are read as
what they were made from (`Header.ofBlock?_header`), and an entry is taken off a stream
as it was put there (`next?_entryWith`).
-/

namespace Landing.Tar

/-! ### The reader -/

/-- The octets before the first zero. -/
def untilZero (bs : List UInt8) : List UInt8 := bs.takeWhile (· != 0)

/-- The number with these digits, most significant first. -/
def valueOf (base : Nat) (value : UInt8 → Nat) (digits : List UInt8) : Nat :=
  digits.foldl (fun n b => base * n + value b) 0

/-- A number in octal digits, which end with the field or before a zero octet. -/
def ofOctal? (field : List UInt8) : Option Nat :=
  let digits := untilZero field
  if digits ≠ [] ∧ digits.all (fun b => 48 ≤ b && b < 56) then
    some (valueOf 8 (fun b => b.toNat - 48) digits)
  else none

/-- A size in its field: in octal digits, or behind a mark in binary. -/
def ofSize? (field : List UInt8) : Option Nat :=
  match field with
  | [] => none
  | mark :: _ => if mark < 0x80 then ofOctal? field else some (valueOf 256 UInt8.toNat (field.drop 4))

/-- What a header says. -/
structure Header where
  path : List UInt8
  size : Nat
  flag : UInt8
  /-- Whether the header says that it has the GNU layout. -/
  gnu : Bool
  deriving DecidableEq

/-- What tells that a header has the GNU layout. -/
def magic : List UInt8 := EntryPath.octets ['u', 's', 't', 'a', 'r', ' ', ' '] ++ [0]

/-- The octets of a block from `start` on. -/
def part (start width : Nat) (block : List UInt8) : List UInt8 := (block.drop start).take width

/-- The sum of all octets. -/
def total (bs : List UInt8) : Nat := bs.foldl (fun n b => n + b.toNat) 0

/-- The sum of all octets of a header, blanks standing in the field of the checksum. -/
def checksum (block : List UInt8) : Nat :=
  total (block.take 148 ++ List.replicate 8 32 ++ block.drop 156)

/-- A block read as a header. -/
def Header.ofBlock? (block : List UInt8) : Option Header := do
  let sum ← ofOctal? (part 148 8 block)
  let size ← ofSize? (part 124 12 block)
  if sum = checksum block then
    some ⟨untilZero (part 0 pathRoom block), size, (part 156 1 block).headD 0,
      part 257 8 block == magic⟩
  else none

/-- What stands at the beginning of a stream. -/
inductive Next where
  | finish
  | entry (h : Header) (body rest : List UInt8)
  deriving DecidableEq

/-- A length, rounded up to whole blocks. -/
def padded (n : Nat) : Nat := (n + (blockSize - 1)) / blockSize * blockSize

/-- Take one entry off a stream. -/
def next? (stream : List UInt8) : Option Next :=
  if stream = [] then some .finish
  else if stream.length < blockSize then none
  else if (stream.take blockSize).all (· == 0) then some .finish
  else
    match Header.ofBlock? (stream.take blockSize) with
    | none => none
    | some h =>
      let rest := stream.drop blockSize
      if rest.length < padded h.size then none
      else some (.entry h (rest.take h.size) (rest.drop (padded h.size)))

/-- What is left of a stream is shorter. -/
theorem length_lt_of_next? {stream body rest : List UInt8} {h : Header}
    (hnext : next? stream = some (.entry h body rest)) : rest.length < stream.length := by
  unfold next? at hnext
  split at hnext
  · cases hnext
  split at hnext
  · cases hnext
  next hlong =>
    split at hnext
    · cases hnext
    split at hnext
    · cases hnext
    · dsimp only at hnext
      split at hnext
      · cases hnext
      · cases hnext
        have hblock : 0 < blockSize := by decide
        rw [List.length_drop, List.length_drop]
        omega

/-- A file that is found in a stream. -/
structure File where
  flag : UInt8
  path : List UInt8
  body : List UInt8
  deriving DecidableEq

/-- The flag is one of the two for plain files. -/
def File.IsRegular (f : File) : Prop := f.flag = 0 ∨ f.flag = 48

/-- The path that an entry holds for the next one; a zero octet at its end does not count. -/
def heldPath (body : List UInt8) : List UInt8 :=
  if body.getLast? = some 0 then body.dropLast else body

/-- The files of a stream, where the path of the first one may have been held by an entry before. -/
def filesFrom (held : Option (List UInt8)) (stream : List UInt8) : Option (List File) :=
  match _hnext : next? stream with
  | none => none
  | some .finish => if held.isSome then none else some []
  | some (.entry h body rest) =>
    if h.gnu && h.flag == Kind.longPath.flag then
      if held.isSome then none else filesFrom (some body) rest
    else
      (filesFrom none rest).map (⟨h.flag, (held.map heldPath).getD h.path, body⟩ :: ·)
termination_by stream.length
decreasing_by all_goals exact length_lt_of_next? ‹_›

/-- The files of a stream, if it can be read. -/
def files? (stream : List UInt8) : Option (List File) := filesFrom none stream

theorem filesFrom_of_finish {held : Option (List UInt8)} {stream : List UInt8}
    (hnext : next? stream = some .finish) :
    filesFrom held stream = if held.isSome then none else some [] := by
  rw [filesFrom]
  split <;> simp_all

theorem filesFrom_of_file {held : Option (List UInt8)} {stream body rest : List UInt8} {h : Header}
    (hnext : next? stream = some (.entry h body rest)) (hflag : h.flag ≠ Kind.longPath.flag) :
    filesFrom held stream =
      (filesFrom none rest).map (⟨h.flag, (held.map heldPath).getD h.path, body⟩ :: ·) := by
  rw [filesFrom]
  split <;> simp_all

theorem filesFrom_of_longPath {stream body rest : List UInt8} {h : Header}
    (hnext : next? stream = some (.entry h body rest)) (hgnu : h.gnu = true)
    (hflag : h.flag = Kind.longPath.flag) : files? stream = filesFrom (some body) rest := by
  rw [files?, filesFrom]
  split <;> simp_all

/-! ### Numbers -/

section Digits

variable {base width n : Nat} {digit : Nat → UInt8} {value : UInt8 → Nat}

/-- The last `width` digits of a number. -/
def digitsOf (base : Nat) (digit : Nat → UInt8) : (width n : Nat) → List UInt8
  | 0, _ => []
  | width + 1, n => digitsOf base digit width (n / base) ++ [digit (n % base)]

theorem octal_eq (width n : Nat) :
    octal width n = digitsOf 8 (fun d => UInt8.ofNat (48 + d)) width n := by
  induction width generalizing n with
  | zero => rfl
  | succ width ih => rw [octal, digitsOf, ih]

theorem bigEndian_eq (width n : Nat) : bigEndian width n = digitsOf 256 UInt8.ofNat width n := by
  induction width generalizing n with
  | zero => rfl
  | succ width ih => rw [bigEndian, digitsOf, ih]

@[simp] theorem length_digitsOf : (digitsOf base digit width n).length = width := by
  induction width generalizing n with
  | zero => rfl
  | succ width ih => rw [digitsOf, List.length_append, ih, List.length_singleton]

theorem exists_of_mem_digitsOf (hbase : 0 < base) {b : UInt8} (hb : b ∈ digitsOf base digit width n) :
    ∃ d < base, b = digit d := by
  induction width generalizing n with
  | zero => cases hb
  | succ width ih =>
    rcases List.mem_append.1 hb with hold | hlast
    · exact ih hold
    · exact ⟨n % base, Nat.mod_lt _ hbase, List.mem_singleton.1 hlast⟩

/-- A number is read back from its digits if there are enough of them. -/
theorem valueOf_digitsOf (hvalue : ∀ d < base, value (digit d) = d) (hn : n < base ^ width) :
    valueOf base value (digitsOf base digit width n) = n := by
  induction width generalizing n with
  | zero =>
    rw [Nat.pow_zero] at hn
    simp only [digitsOf, valueOf, List.foldl_nil]
    omega
  | succ width ih =>
    have hbase : 0 < base := Nat.pos_of_ne_zero (by rintro rfl; simp at hn)
    have hfirst : n / base < base ^ width := by
      rw [Nat.div_lt_iff_lt_mul hbase, ← Nat.pow_succ]
      exact hn
    have hrest := ih hfirst
    rw [valueOf] at hrest
    rw [digitsOf, valueOf, List.foldl_append, hrest, List.foldl_cons, List.foldl_nil,
      hvalue _ (Nat.mod_lt n hbase), Nat.div_add_mod]

end Digits

theorem octal_range {width n : Nat} {b : UInt8} (hb : b ∈ octal width n) : 48 ≤ b ∧ b < 56 := by
  rw [octal_eq] at hb
  obtain ⟨d, hd, rfl⟩ := exists_of_mem_digitsOf (by decide) hb
  rw [UInt8.le_iff_toNat_le, UInt8.lt_iff_toNat_lt, UInt8.toNat_ofNat']
  simp only [UInt8.reduceToNat]
  omega

@[simp] theorem length_number (width n : Nat) : (number width n).length = width + 1 := by
  simp [number, octal_eq]

theorem untilZero_append_zero {bs rest : List UInt8} (hbs : ∀ b ∈ bs, b ≠ 0) :
    untilZero (bs ++ 0 :: rest) = bs := by
  rw [untilZero, List.takeWhile_append_of_pos (by simpa using hbs)]
  simp

/-- A number is read back from its field. -/
theorem ofOctal?_number {width n : Nat} (hn : n < 8 ^ (width + 1)) :
    ofOctal? (number (width + 1) n) = some n := by
  have hdigits : untilZero (number (width + 1) n) = octal (width + 1) n := by
    refine untilZero_append_zero fun b hb => ?_
    rintro rfl
    exact absurd (octal_range hb).1 (by decide)
  have hvalue : valueOf 8 (fun b => b.toNat - 48) (octal (width + 1) n) = n := by
    rw [octal_eq]
    refine valueOf_digitsOf (fun d hd => ?_) hn
    rw [UInt8.toNat_ofNat']
    omega
  have hne : octal (width + 1) n ≠ [] := by simp [octal]
  have hall : (octal (width + 1) n).all (fun b => 48 ≤ b && b < 56) = true := by
    rw [List.all_eq_true]
    intro b hb
    simpa using octal_range hb
  simp only [ofOctal?, hdigits]
  rw [if_pos ⟨hne, hall⟩, hvalue]

@[simp] theorem length_sizeField (n : Nat) : (sizeField n).length = 12 := by
  unfold sizeField
  split
  · simp
  · simp [bigEndian_eq]

/-- A size is read back from its field. -/
theorem ofSize?_sizeField {n : Nat} (hn : n < 2 ^ 64) : ofSize? (sizeField n) = some n := by
  unfold sizeField
  split
  · next hoctal =>
    have hread : ofOctal? (number 11 n) = some n := ofOctal?_number hoctal
    cases hfield : number 11 n with
    | nil => simp [number] at hfield
    | cons mark rest =>
      have hmark : mark < 0x80 := by
        have hmem : mark ∈ number 11 n := by simp [hfield]
        rcases List.mem_append.1 hmem with hdigit | hzero
        · exact UInt8.lt_trans (octal_range hdigit).2 (by decide)
        · rw [List.mem_singleton.1 hzero]
          decide
      rw [ofSize?, if_pos hmark, ← hfield, hread]
  · have hvalue : valueOf 256 UInt8.toNat (bigEndian 8 n) = n := by
      rw [bigEndian_eq]
      exact valueOf_digitsOf (fun d hd => UInt8.toNat_ofNat_of_lt' hd) hn
    simp [ofSize?, hvalue]

/-! ### Headers -/

section

variable {kind : Kind} {path field body rest : List UInt8} {size : Nat}

theorem length_fill {n : Nat} {bs : List UInt8} (hbs : bs.length ≤ n) : (fill n bs).length = n := by
  rw [fill, List.length_append, List.length_replicate]
  omega

@[simp] theorem length_owner (kind : Kind) : kind.owner.length = 8 := by
  cases kind <;> rfl

/-- A part of a block is found by what stands before it. -/
theorem part_append {start width : Nat} {before found behind : List UInt8}
    (hstart : before.length = start) (hwidth : found.length = width) :
    part start width (before ++ (found ++ behind)) = found := by
  rw [part, List.drop_left' hstart, List.take_left' hwidth]

/-- The fields of a header before the checksum. -/
def front (kind : Kind) (path : List UInt8) (size : Nat) : List UInt8 :=
  fill pathRoom path ++ number 7 0o644 ++ kind.owner ++ kind.owner ++ sizeField size ++ number 11 0

/-- The fields of a header behind the checksum. -/
def back (kind : Kind) : List UInt8 :=
  [kind.flag] ++ List.replicate 100 0 ++ magic ++ List.replicate 247 0

theorem length_front (hpath : path.length ≤ pathRoom) : (front kind path size).length = 148 := by
  simp only [front, List.length_append, length_fill hpath, length_number, length_owner,
    length_sizeField]
  rfl

theorem length_back (kind : Kind) : (back kind).length = 356 := by
  simp only [back, List.length_append, List.length_replicate, List.length_singleton]
  rfl

theorem headerWith_eq (hpath : path.length ≤ pathRoom) (hfield : field.length = 8) :
    headerWith kind path size field = front kind path size ++ (field ++ back kind) := by
  have hlength : (front kind path size ++ field ++ [kind.flag] ++ List.replicate 100 0 ++
      magic).length = 265 := by
    simp only [List.length_append, length_front hpath, hfield, List.length_replicate,
      List.length_singleton]
    rfl
  have hfill : headerWith kind path size field = fill blockSize (front kind path size ++ field ++
      [kind.flag] ++ List.replicate 100 0 ++ magic) := by
    simp only [headerWith, front, magic, List.append_assoc]
  rw [hfill, fill, hlength, back]
  simp only [List.append_assoc]
  rfl

/-! ### The checksum -/

theorem total_append (l m : List UInt8) : total (l ++ m) = total l + total m := by
  have hfrom : ∀ (m : List UInt8) (n : Nat), m.foldl (fun n b => n + b.toNat) n = n + total m := by
    intro m
    induction m with
    | nil => exact fun n => rfl
    | cons b m ih =>
      intro n
      rw [total, List.foldl_cons, List.foldl_cons, ih, ih]
      omega
  rw [total, List.foldl_append, hfrom]
  rfl

theorem total_le (bs : List UInt8) : total bs ≤ 255 * bs.length := by
  induction bs with
  | nil => exact Nat.le_refl 0
  | cons b bs ih =>
    have hb : b.toNat < 256 := b.toNat_lt
    have hsplit : total (b :: bs) = b.toNat + total bs := by
      rw [← List.singleton_append, total_append]
      simp [total]
    rw [hsplit, List.length_cons]
    omega

/-- The sum that a header should have. -/
def headerSum (kind : Kind) (path : List UInt8) (size : Nat) : Nat :=
  total (headerWith kind path size (List.replicate 8 32))

theorem headerSum_lt (hpath : path.length ≤ pathRoom) : headerSum kind path size < 8 ^ 7 := by
  have hle := total_le (headerWith kind path size (List.replicate 8 32))
  rw [headerWith_eq hpath (by decide)] at hle
  rw [headerSum, headerWith_eq hpath (by decide)]
  simp only [List.length_append, length_front hpath, length_back, List.length_replicate] at hle
  omega

theorem header_eq (hpath : path.length ≤ pathRoom) : header kind path size =
    front kind path size ++ (number 7 (headerSum kind path size) ++ back kind) :=
  headerWith_eq hpath (length_number ..)

/-- What stands in a header behind the checksum. -/
theorem part_header_back (hpath : path.length ≤ pathRoom) (start width : Nat) :
    part (156 + start) width (header kind path size) = part start width (back kind) := by
  have hbefore : (front kind path size ++ number 7 (headerSum kind path size)).length = 156 := by
    rw [List.length_append, length_front hpath, length_number]
  rw [header_eq hpath, ← List.append_assoc, part, ← List.drop_drop, List.drop_left' hbefore, part]

theorem checksum_header (hpath : path.length ≤ pathRoom) :
    checksum (header kind path size) = headerSum kind path size := by
  have hfront : (header kind path size).take 148 = front kind path size := by
    rw [header_eq hpath, List.take_left' (length_front hpath)]
  have hback : (header kind path size).drop 156 = back kind := by
    rw [header_eq hpath, ← List.append_assoc, List.drop_left']
    rw [List.length_append, length_front hpath, length_number]
  rw [checksum, hfront, hback, headerSum, headerWith_eq hpath (by decide), List.append_assoc]

/-! ### Headers are read back -/

/-- A header is read as what it was made from. -/
theorem Header.ofBlock?_header (hpath : path.length ≤ pathRoom) (hsize : size < 2 ^ 64) :
    ofBlock? (header kind path size) =
      some ⟨untilZero (fill pathRoom path), size, kind.flag, true⟩ := by
  have hsum : part 148 8 (header kind path size) = number 7 (headerSum kind path size) := by
    rw [header_eq hpath]
    exact part_append (length_front hpath) (length_number ..)
  have hsizeField : part 124 12 (header kind path size) = sizeField size := by
    have hbefore : (fill pathRoom path ++ number 7 0o644 ++ kind.owner ++ kind.owner).length = 124 := by
      simp only [List.length_append, length_fill hpath, length_number, length_owner]
      rfl
    rw [header_eq hpath, front]
    simpa only [List.append_assoc] using part_append hbefore (length_sizeField size)
  have hpathField : part 0 pathRoom (header kind path size) = fill pathRoom path := by
    rw [header_eq hpath, front, part, List.drop_zero]
    simp only [List.append_assoc]
    exact List.take_left' (length_fill hpath)
  have hflag : part 156 1 (header kind path size) = [kind.flag] := part_header_back hpath 0 1
  have hgnu : part 257 8 (header kind path size) = magic := part_header_back hpath 101 8
  rw [ofBlock?, hsum, ofOctal?_number (headerSum_lt hpath), hsizeField, ofSize?_sizeField hsize,
    checksum_header hpath, hpathField, hflag, hgnu]
  simp

/-! ### Entries are read back -/

/-- An entry with this header and this body. -/
def entryWith (kind : Kind) (path body : List UInt8) : Entry := ⟨header kind path body.length, body⟩

theorem length_header (hpath : path.length ≤ pathRoom) :
    (header kind path size).length = blockSize := by
  rw [header_eq hpath, List.length_append, List.length_append, length_front hpath, length_number,
    length_back]
  rfl

/-- No header looks like the end of a stream. -/
theorem all_zero_header (hpath : path.length ≤ pathRoom) :
    (header kind path size).all (· == 0) = false := by
  have hmem : (117 : UInt8) ∈ header kind path size := by
    rw [header_eq hpath, back]
    simp only [List.mem_append]
    exact .inr (.inr (.inl (.inr (by decide))))
  rw [List.all_eq_false]
  exact ⟨117, hmem, by decide⟩

theorem le_padded (n : Nat) : n ≤ padded n := by
  unfold padded blockSize
  omega

/-- An entry is taken off a stream as it was put there. -/
theorem next?_entryWith (hpath : path.length ≤ pathRoom) (hbody : body.length < 2 ^ 64) :
    next? ((entryWith kind path body).octets ++ rest) =
      some (.entry ⟨untilZero (fill pathRoom path), body.length, kind.flag, true⟩ body rest) := by
  have hheader : (header kind path body.length).length = blockSize := length_header hpath
  have hoctets : (entryWith kind path body).octets ++ rest =
      header kind path body.length ++ (fill (padded body.length) body ++ rest) := by
    rw [Entry.octets, List.append_assoc]
    rfl
  have htake : ((entryWith kind path body).octets ++ rest).take blockSize =
      header kind path body.length := by
    rw [hoctets, List.take_left' hheader]
  have hdrop : ((entryWith kind path body).octets ++ rest).drop blockSize =
      fill (padded body.length) body ++ rest := by
    rw [hoctets, List.drop_left' hheader]
  have hlong : blockSize ≤ ((entryWith kind path body).octets ++ rest).length := by
    rw [hoctets, List.length_append, hheader]
    exact Nat.le_add_right _ _
  have hne : (entryWith kind path body).octets ++ rest ≠ [] := by
    intro hnil
    rw [hnil] at hlong
    exact absurd hlong (by decide)
  have hfill := length_fill (le_padded body.length)
  rw [next?, if_neg hne, if_neg (Nat.not_lt.2 hlong), htake, all_zero_header hpath,
    if_neg Bool.false_ne_true, Header.ofBlock?_header hpath hbody]
  dsimp only
  rw [hdrop, if_neg (by rw [List.length_append, hfill]; omega), List.drop_left' hfill]
  have hbodyBack : (fill (padded body.length) body ++ rest).take body.length = body := by
    rw [fill, List.append_assoc, List.take_left' rfl]
  rw [hbodyBack]

theorem next?_trailer : next? trailer = some .finish := by
  have hblock : trailer.take blockSize = List.replicate blockSize 0 := by
    rw [trailer, List.take_replicate]
    rfl
  have hlong : ¬ trailer.length < blockSize := by
    rw [trailer, List.length_replicate]
    decide
  have hne : trailer ≠ [] := by
    intro hnil
    rw [hnil] at hlong
    exact hlong (by decide)
  rw [next?, if_neg hne, if_neg hlong, hblock, if_pos]
  rw [List.all_replicate]
  rfl

end

end Landing.Tar
