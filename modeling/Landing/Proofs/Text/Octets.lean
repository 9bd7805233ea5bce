import Landing.Commit.Id
import Mathlib.Tactic.SplitIfs

/-!
# Texts in the order of their octets

Texts are compared character by character, and a file system compares the octets of
their encoding.  The two orders agree (`Text.octets_lt_of_compare`): where two
characters differ, their encodings differ at some octet of both, and the lower
character has the lower octet there (`Text.precedes_utf8EncodeChar`).  So it makes no
difference what follows them.
-/

namespace Landing.Text

/-- The first octets that are different decide, and there are such octets. -/
def Precedes : List UInt8 → List UInt8 → Prop
  | a :: l, b :: m => a < b ∨ a = b ∧ Precedes l m
  | _, _ => False

/-- What follows makes no difference. -/
theorem Precedes.append_lt {l m : List UInt8} (h : Precedes l m) (r r' : List UInt8) :
    l ++ r < m ++ r' := by
  induction l generalizing m with
  | nil => exact h.elim
  | cons a l ih =>
    cases m with
    | nil => exact h.elim
    | cons b m =>
      rw [List.cons_append, List.cons_append, List.cons_lt_cons_iff]
      exact h.imp_right fun hsame => ⟨hsame.1, ih hsame.2⟩

/-- The encoding of a lower character comes first. -/
theorem precedes_utf8EncodeChar {c d : Char} (h : c < d) :
    Precedes (String.utf8EncodeChar c) (String.utf8EncodeChar d) := by
  have hlt : c.val.toNat < d.val.toNat := h
  have hmax : d.val.toNat < 0x110000 := by
    have := d.valid
    simp only [UInt32.isValidChar, Nat.isValidChar] at this
    omega
  -- An octet holds its marker and the digits of the character's number in base 64.
  have hthird : ∀ n, n / 4096 = n / 64 / 64 := by omega
  have hfourth : ∀ n, n / 262144 = n / 64 / 64 / 64 := by omega
  have hoctet : ∀ n k m, 0 < k → k + m ≤ 256 → (n % k + m) % 256 = n % k + m := by
    intro n k m hk hsum
    have := Nat.mod_lt n hk
    omega
  simp only [String.utf8EncodeChar]
  generalize c.val.toNat = m at *
  generalize d.val.toNat = n at *
  split_ifs <;>
    simp (disch := omega) only [Precedes, UInt8.lt_iff_toNat_lt, ← UInt8.toNat_inj,
      UInt8.toNat_ofNat', Nat.reducePow, hoctet, hthird, hfourth] <;>
    omega

/-- The octets of a text are those of its characters. -/
theorem octets_eq_flatMap (s : String) :
    CommitId.octets s = s.toList.flatMap String.utf8EncodeChar := by
  rw [CommitId.octets, String.toUTF8_eq_toByteArray, ← String.utf8Encode_toList]
  simp [List.utf8Encode]

/-- Texts with the first one lower, character by character, have their octets in this order. -/
theorem octets_lt_of_lt {s t : String} (h : s < t) : CommitId.octets s < CommitId.octets t := by
  rw [octets_eq_flatMap, octets_eq_flatMap]
  have hchars : s.toList < t.toList := h
  generalize s.toList = cs at hchars
  generalize t.toList = ds at hchars
  induction hchars with
  | nil =>
    next d ds =>
    obtain ⟨a, l, hencoded⟩ := List.exists_cons_of_ne_nil (String.utf8EncodeChar_ne_nil (c := d))
    rw [List.flatMap_cons, hencoded]
    exact List.nil_lt_cons _ _
  | cons _ ih =>
    rw [List.flatMap_cons, List.flatMap_cons]
    exact List.append_left_lt ih
  | rel hlt => exact (precedes_utf8EncodeChar hlt).append_lt _ _

/-- The order of texts is that of their octets. -/
theorem octets_lt_of_compare {s t : String} (h : compare s t = .lt) :
    CommitId.octets s < CommitId.octets t :=
  octets_lt_of_lt (compareOfLessAndEq_eq_lt.1 h)

end Landing.Text
