/-!
# Fields of fixed size

A field is written piece by piece from its beginning.  After every piece stands a
zero octet, if there is room for one; what the field held behind it stays.  So a
field that is written a second time keeps a part of what it held before, unless
the second text is the longer one.

Writing does not change the size of a field (`length_octets_write`).
-/

namespace Landing

/-- A field while it is written. -/
structure Field where
  /-- What has been written. -/
  written : List UInt8
  /-- What the field holds behind that. -/
  behind : List UInt8
  deriving DecidableEq

namespace Field

/-- Why a piece cannot be written. -/
inductive Misfit where
  | tooLong
  | holdsZero
  deriving DecidableEq

/-- A field of zero octets. -/
def blank (size : Nat) : Field := ⟨[], List.replicate size 0⟩

/-- All octets of the field. -/
def octets (f : Field) : List UInt8 := f.written ++ f.behind

/-- The octets up to the first zero. -/
def content (f : Field) : List UInt8 := f.octets.takeWhile (· != 0)

/-- The field with nothing written; its octets stay. -/
def rewind (f : Field) : Field := ⟨[], f.octets⟩

/-- Put a zero in the place of the first octet, if there is one. -/
def stop : List UInt8 → List UInt8
  | [] => []
  | _ :: rest => 0 :: rest

/-- Write a piece behind what has been written. -/
def write (f : Field) (piece : List UInt8) : Except Misfit Field :=
  if f.behind.length < piece.length then .error .tooLong
  else if piece.contains 0 then .error .holdsZero
  else .ok ⟨f.written ++ piece, stop (f.behind.drop piece.length)⟩

@[simp] theorem length_stop (bs : List UInt8) : (stop bs).length = bs.length := by
  cases bs <;> rfl

theorem length_octets_write {f g : Field} {piece : List UInt8} (h : f.write piece = .ok g) :
    g.octets.length = f.octets.length := by
  unfold write at h
  split at h
  · cases h
  · rename_i hfits
    split at h
    · cases h
    · cases h
      simp only [octets, List.length_append, length_stop, List.length_drop]
      omega

end Field

end Landing
