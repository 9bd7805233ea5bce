import Landing.Json
import Landing.Sha256
import Landing.Text.Hex

/-!
# Names of commits

A commit is named by a digest of 256 bits, written as 64 lower-case hexadecimal
digits.  Digits of either case are read (`CommitId.ofText?`), so a name has one
written form and reading that form gives the name back (`ofText?_text`).
Since all names are equally long, ordering the digests as numbers orders the
written names as texts.
-/

namespace Landing

/-- The name of a commit. -/
structure CommitId where
  digest : BitVec 256
  deriving DecidableEq

namespace CommitId

instance : Ord CommitId := ⟨fun a b => compare a.digest b.digest⟩
instance : Std.TransOrd CommitId := inferInstanceAs (Std.TransCmp (compareOn CommitId.digest))
instance : Std.LawfulEqOrd CommitId where
  eq_of_compare {a b} h := by
    have hd : compare a.digest b.digest = .eq := h
    have hd := Std.LawfulEqCmp.eq_of_compare hd
    cases a; cases b
    exact congrArg CommitId.mk hd

/-- The octets of a text in UTF-8. -/
def octets (s : String) : List UInt8 := s.toUTF8.data.toList

/-- The name of whatever has this text. -/
def ofContent (s : String) : CommitId := ⟨Sha256.digest (octets s)⟩

/-- The 64 digits of the name. -/
def digits (id : CommitId) : List Char := Hex.write 64 id.digest.toNat

/-- The written form of the name. -/
def text (id : CommitId) : String := String.ofList id.digits

/-- The first twelve digits, for people to read. -/
def short (id : CommitId) : String := String.ofList (id.digits.take 12)

/-- The name with these digits, if there are exactly 64. -/
def ofDigits? (cs : List Char) : Option CommitId :=
  if cs.length = 64 then (Hex.value? cs).map fun n => ⟨BitVec.ofNat 256 n⟩ else none

/-- The name written as `s`. -/
def ofText? (s : String) : Option CommitId := ofDigits? s.toList

theorem ofDigits?_digits (id : CommitId) : ofDigits? id.digits = some id := by
  have h : id.digest.toNat < Hex.span 64 := Nat.lt_of_lt_of_le id.digest.isLt (by decide)
  simp [ofDigits?, digits, Hex.value?_write 64 _ h]

theorem ofText?_text (id : CommitId) : ofText? id.text = some id := by
  simp [ofText?, text, ofDigits?_digits]

/-- A name in a record. -/
def toJson (id : CommitId) : Json := .string id.text

/-- Read a name from a record. -/
def ofJson? (j : Json) : Option CommitId := j.string?.bind ofText?

/-- A tip that may be missing, for people to read. -/
def shortTip : Option CommitId → String
  | some id => id.short
  | none => "(none)"

end CommitId

end Landing
