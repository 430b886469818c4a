/-
  FileListCache.Compression.Bits

  Bit streams as positions in a byte array. The formats differ in which end of a byte comes
  first; a position is the count of bits before it, so a read is a function of the array and
  a position, and its only state is the position it returns.
-/

namespace FileListCache.Bits

/-- Bit `pos` of `data` when each byte's lowest bit comes first. -/
def low? (data : ByteArray) (pos : Nat) : Option Bool :=
  data[pos / 8]?.map fun b => b.toNat.testBit (pos % 8)

/-- Bit `pos` of `data` when each byte's highest bit comes first. -/
def high? (data : ByteArray) (pos : Nat) : Option Bool :=
  data[pos / 8]?.map fun b => b.toNat.testBit (7 - pos % 8)

/-- The `count` bits from `pos`, lowest first in bytes and in the number they make. -/
def lowNumber? (data : ByteArray) (pos : Nat) : Nat → Option Nat
  | 0 => some 0
  | count + 1 => do
    let b ← low? data pos
    let rest ← lowNumber? data (pos + 1) count
    return b.toNat + 2 * rest

/-- The `count` bits from `pos`, highest first in bytes and in the number they make. -/
def highNumber? (data : ByteArray) (pos count : Nat) : Option Nat :=
  go pos count 0
where
  /-- Reads `count` more bits below those in `acc`. -/
  go (pos : Nat) : Nat → Nat → Option Nat
    | 0, acc => some acc
    | count + 1, acc => do
      let b ← high? data pos
      go (pos + 1) count (2 * acc + b.toNat)

/-- The first position at or after `pos` that starts a byte. -/
def nextByte (pos : Nat) : Nat := (pos + 7) / 8

/-- The index of the highest set bit of `n`, and zero for zero. -/
def highestSet (n : Nat) : Nat := n.log2

end FileListCache.Bits
