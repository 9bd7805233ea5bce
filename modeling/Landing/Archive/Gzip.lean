/-!
# Gzip containers

A container around octets that are stored as they are: a header, blocks of at
most 65535 octets each with its length and the length's complement, and a
checksum with the total length.
-/

namespace Landing.Gzip

/-- One step of the checksum for one bit. -/
def checksumBit (c : UInt32) : UInt32 :=
  if c &&& 1 = 1 then (c >>> 1) ^^^ 0xedb88320 else c >>> 1

/-- The checksum after one more octet. -/
def checksumOctet (c : UInt32) (b : UInt8) : UInt32 :=
  (List.range 8).foldl (fun c _ => checksumBit c) (c ^^^ b.toUInt32)

/-- The cyclic redundancy check of some octets. -/
def checksum (bs : List UInt8) : UInt32 := ~~~ (bs.foldl checksumOctet 0xffffffff)

/-- A number in `width` octets, least significant first. -/
def littleEndian : (width : Nat) → (n : Nat) → List UInt8
  | 0, _ => []
  | width + 1, n => UInt8.ofNat (n % 256) :: littleEndian width (n / 256)

/-- The largest number of octets in a block. -/
def blockRoom : Nat := 65535

/-- A block of stored octets. -/
def block (last : Bool) (bs : List UInt8) : List UInt8 :=
  (if last then 1 else 0) :: littleEndian 2 bs.length ++ littleEndian 2 (65535 - bs.length) ++ bs

/-- Octets cut into `more` full blocks and a last one. -/
def blocks : (more : Nat) → List UInt8 → List UInt8
  | 0, bs => block true bs
  | more + 1, bs => block false (bs.take blockRoom) ++ blocks more (bs.drop blockRoom)

/-- What every container begins with. -/
def magic : List UInt8 := [0x1f, 0x8b, 8, 0, 0, 0, 0, 0, 0, 0xff]

/-- The container around some octets. -/
def pack (bs : List UInt8) : List UInt8 :=
  magic ++ blocks ((bs.length - 1) / blockRoom) bs ++ littleEndian 4 (checksum bs).toNat ++
    littleEndian 4 (bs.length % UInt32.size)

end Landing.Gzip
