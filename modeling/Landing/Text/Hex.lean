/-!
# Hexadecimal digits

Numbers are written with a fixed count of lower-case digits, most significant
first, and read from digits of either case.  Reading what was written gives the
number back (`value?_write`).
-/

namespace Landing.Hex

/-- The digit for a value below sixteen. -/
def digit (n : Nat) : Char :=
  if n < 10 then Char.ofNat ('0'.toNat + n) else Char.ofNat ('a'.toNat + (n - 10))

/-- The value of a digit of either case. -/
def digitValue? (c : Char) : Option Nat :=
  if '0' ≤ c ∧ c ≤ '9' then some (c.toNat - '0'.toNat)
  else if 'a' ≤ c ∧ c ≤ 'f' then some (c.toNat - 'a'.toNat + 10)
  else if 'A' ≤ c ∧ c ≤ 'F' then some (c.toNat - 'A'.toNat + 10)
  else none

/-- The last `width` hexadecimal digits of `n`. -/
def write : (width : Nat) → (n : Nat) → List Char
  | 0, _ => []
  | width + 1, n => write width (n / 16) ++ [digit (n % 16)]

/-- The number of values that `width` digits can write. -/
def span : (width : Nat) → Nat
  | 0 => 1
  | width + 1 => 16 * span width

/-- The value of a digit text read after digits worth `acc`. -/
def valueFrom? (acc : Nat) : List Char → Option Nat
  | [] => some acc
  | c :: rest => (digitValue? c).bind fun d => valueFrom? (acc * 16 + d) rest

/-- The value of a digit text; the empty text is worth nothing. -/
def value? (cs : List Char) : Option Nat := valueFrom? 0 cs

theorem digitValue?_digit : ∀ n, n < 16 → digitValue? (digit n) = some n := by decide

@[simp] theorem length_write (width n : Nat) : (write width n).length = width := by
  induction width generalizing n with
  | zero => rfl
  | succ w ih => simp [write, ih]

theorem valueFrom?_append (acc : Nat) (l m : List Char) :
    valueFrom? acc (l ++ m) = (valueFrom? acc l).bind fun v => valueFrom? v m := by
  induction l generalizing acc with
  | nil => rfl
  | cons c l ih =>
    simp only [List.cons_append, valueFrom?]
    cases digitValue? c with
    | none => rfl
    | some d => simpa using ih _

theorem value?_write (width n : Nat) (h : n < span width) : value? (write width n) = some n := by
  induction width generalizing n with
  | zero =>
    have : n = 0 := by simpa [span] using h
    subst this; rfl
  | succ w ih =>
    have hlt : n / 16 < span w := by
      rw [Nat.div_lt_iff_lt_mul (by decide), Nat.mul_comm]
      exact h
    have hd := digitValue?_digit (n % 16) (Nat.mod_lt _ (by decide))
    have hw := ih _ hlt
    unfold value? at hw ⊢
    simp only [write, valueFrom?_append, hw, Option.bind_some, valueFrom?, hd]
    congr 1
    omega

end Landing.Hex
