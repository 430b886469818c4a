/-
  FileListCache.Compression.Checksum

  The integrity checks of the compressed formats. Each is a fold over the bytes checked.
-/

import FileListCache.Bytes

namespace FileListCache.Checksum

/-! ## Cyclic redundancy checks -/

/-- Divides the bits of `word` by the reflected polynomial, `steps` bits at a time. -/
def reflectedStep (polynomial : UInt32) : Nat → UInt32 → UInt32
  | 0, word => word
  | steps + 1, word =>
    reflectedStep polynomial steps
      (if word &&& 1 = 1 then (word >>> 1) ^^^ polynomial else word >>> 1)

/-- The 32-bit check of gzip and xz: reflected, polynomial `04c11db7`. -/
def crc32 (data : ByteArray) : UInt32 :=
  data.foldl (fun c b => reflectedStep 0xedb88320 8 (c ^^^ b.toUInt32)) 0xffffffff ^^^ 0xffffffff

/-- One byte of the 64-bit check. -/
def crc64Step : Nat → UInt64 → UInt64
  | 0, word => word
  | steps + 1, word =>
    crc64Step steps (if word &&& 1 = 1 then (word >>> 1) ^^^ 0xc96c5795d7870f42 else word >>> 1)

/-- The 64-bit check of xz: reflected, the polynomial of ECMA-182. -/
def crc64 (data : ByteArray) : UInt64 :=
  data.foldl (fun c b => crc64Step 8 (c ^^^ b.toUInt64)) 0xffffffffffffffff ^^^ 0xffffffffffffffff

/-- One byte of the unreflected 32-bit check. -/
def forwardStep : Nat → UInt32 → UInt32
  | 0, word => word
  | steps + 1, word =>
    forwardStep steps
      (if word &&& 0x80000000 ≠ 0 then (word <<< 1) ^^^ 0x04c11db7 else word <<< 1)

/-- The block check of bzip2: polynomial `04c11db7`, highest bit first. -/
def crc32Forward (data : ByteArray) : UInt32 :=
  data.foldl (fun c b => forwardStep 8 (c ^^^ (b.toUInt32 <<< 24))) 0xffffffff ^^^ 0xffffffff

/-! ## SHA-256 -/

namespace Sha256

/-- The round constants: fractional parts of the cube roots of the first 64 primes. -/
def roundConstants : Array UInt32 := #[
  0x428a2f98, 0x71374491, 0xb5c0fbcf, 0xe9b5dba5, 0x3956c25b, 0x59f111f1, 0x923f82a4, 0xab1c5ed5,
  0xd807aa98, 0x12835b01, 0x243185be, 0x550c7dc3, 0x72be5d74, 0x80deb1fe, 0x9bdc06a7, 0xc19bf174,
  0xe49b69c1, 0xefbe4786, 0x0fc19dc6, 0x240ca1cc, 0x2de92c6f, 0x4a7484aa, 0x5cb0a9dc, 0x76f988da,
  0x983e5152, 0xa831c66d, 0xb00327c8, 0xbf597fc7, 0xc6e00bf3, 0xd5a79147, 0x06ca6351, 0x14292967,
  0x27b70a85, 0x2e1b2138, 0x4d2c6dfc, 0x53380d13, 0x650a7354, 0x766a0abb, 0x81c2c92e, 0x92722c85,
  0xa2bfe8a1, 0xa81a664b, 0xc24b8b70, 0xc76c51a3, 0xd192e819, 0xd6990624, 0xf40e3585, 0x106aa070,
  0x19a4c116, 0x1e376c08, 0x2748774c, 0x34b0bcb5, 0x391c0cb3, 0x4ed8aa4a, 0x5b9cca4f, 0x682e6ff3,
  0x748f82ee, 0x78a5636f, 0x84c87814, 0x8cc70208, 0x90befffa, 0xa4506ceb, 0xbef9a3f7, 0xc67178f2]

/-- The eight chaining words before the first block. -/
def initial : Array UInt32 := #[
  0x6a09e667, 0xbb67ae85, 0x3c6ef372, 0xa54ff53a, 0x510e527f, 0x9b05688c, 0x1f83d9ab, 0x5be0cd19]

/-- Rotation to the right. -/
def rotateRight (x n : UInt32) : UInt32 := (x >>> n) ||| (x <<< (32 - n))

/-- The message followed by a one bit, zeros and its length in bits, in whole blocks. -/
def padded (data : ByteArray) : ByteArray :=
  -- The mark takes one byte and the length eight, so that whole blocks of 64 come out.
  let zeros := (119 - data.size % 64) % 64
  let marked := (List.replicate zeros (0 : UInt8)).foldl ByteArray.push (data.push 0x80)
  let bits := 8 * data.size
  (List.range 8).foldl (fun a i => a.push (UInt8.ofNat (bits >>> (8 * (7 - i))))) marked

/-- The big-endian word at byte `i`. -/
def wordAt (data : ByteArray) (i : Nat) : UInt32 :=
  (List.range 4).foldl (fun w k => (w <<< 8) ||| ((data[i + k]?).getD 0).toUInt32) 0

/-- The 64 message words of the block that starts at byte `start`. -/
def schedule (data : ByteArray) (start : Nat) : Array UInt32 :=
  let first := (Array.range 16).map fun i => wordAt data (start + 4 * i)
  (List.range 48).foldl (fun w k =>
    let i := k + 16
    let a := w.getD (i - 15) 0
    let b := w.getD (i - 2) 0
    let s0 := rotateRight a 7 ^^^ rotateRight a 18 ^^^ (a >>> 3)
    let s1 := rotateRight b 17 ^^^ rotateRight b 19 ^^^ (b >>> 10)
    w.push (w.getD (i - 16) 0 + s0 + w.getD (i - 7) 0 + s1)) first

/-- One round on the eight working words. -/
def round (w : Array UInt32) (s : Array UInt32) (i : Nat) : Array UInt32 :=
  let a := s.getD 0 0
  let b := s.getD 1 0
  let c := s.getD 2 0
  let e := s.getD 4 0
  let f := s.getD 5 0
  let g := s.getD 6 0
  let s1 := rotateRight e 6 ^^^ rotateRight e 11 ^^^ rotateRight e 25
  let choice := (e &&& f) ^^^ ((~~~e) &&& g)
  let t1 := s.getD 7 0 + s1 + choice + roundConstants.getD i 0 + w.getD i 0
  let s0 := rotateRight a 2 ^^^ rotateRight a 13 ^^^ rotateRight a 22
  let majority := (a &&& b) ^^^ (a &&& c) ^^^ (b &&& c)
  #[t1 + (s0 + majority), a, b, c, s.getD 3 0 + t1, e, f, g]

/-- The chaining words after the block that starts at byte `start`. -/
def compress (data : ByteArray) (chain : Array UInt32) (start : Nat) : Array UInt32 :=
  let w := schedule data start
  let final := (List.range 64).foldl (round w) chain
  (Array.range 8).map fun i => chain.getD i 0 + final.getD i 0

end Sha256

/-- The 32 bytes of SHA-256. -/
def sha256 (data : ByteArray) : Bytes :=
  let message := Sha256.padded data
  let words := (List.range (message.size / 64)).foldl
    (fun chain block => Sha256.compress message chain (64 * block)) Sha256.initial
  words.toList.flatMap fun w =>
    (List.range 4).map fun i => (w >>> UInt32.ofNat (8 * (3 - i))).toUInt8

/-! ## XXH64 -/

namespace Xxh64

def prime1 : UInt64 := 0x9e3779b185ebca87
def prime2 : UInt64 := 0xc2b2ae3d27d4eb4f
def prime3 : UInt64 := 0x165667b19e3779f9
def prime4 : UInt64 := 0x85ebca77c2b2ae63
def prime5 : UInt64 := 0x27d4eb2f165667c5

/-- Rotation to the left. -/
def rotateLeft (x n : UInt64) : UInt64 := (x <<< n) ||| (x >>> (64 - n))

/-- Mixes one input word into an accumulator. -/
def round (acc input : UInt64) : UInt64 := rotateLeft (acc + input * prime2) 31 * prime1

/-- Folds an accumulator into the hash of a long input. -/
def merge (h acc : UInt64) : UInt64 := (h ^^^ round 0 acc) * prime1 + prime4

/-- The little-endian word of `count` bytes at `i`. -/
def wordAt (data : ByteArray) (i count : Nat) : UInt64 :=
  UInt64.ofNat ((littleEndianAt? data i count).getD 0)

/-- The bytes left after whole 32-byte stripes, eight, then four, then one at a time. -/
def tail (data : ByteArray) (pos : Nat) (h : UInt64) : UInt64 :=
  if pos + 8 ≤ data.size then
    tail data (pos + 8) (rotateLeft (h ^^^ round 0 (wordAt data pos 8)) 27 * prime1 + prime4)
  else if pos + 4 ≤ data.size then
    tail data (pos + 4) (rotateLeft (h ^^^ (wordAt data pos 4 * prime1)) 23 * prime2 + prime3)
  else if pos < data.size then
    tail data (pos + 1) (rotateLeft (h ^^^ (wordAt data pos 1 * prime5)) 11 * prime1)
  else h
termination_by data.size - pos

/-- The final scrambling. -/
def finish (h : UInt64) : UInt64 :=
  let h := (h ^^^ (h >>> 33)) * prime2
  let h := (h ^^^ (h >>> 29)) * prime3
  h ^^^ (h >>> 32)

end Xxh64

/-- The 64-bit XXH64 of `data` with seed zero. -/
def xxh64 (data : ByteArray) : UInt64 :=
  let stripes := data.size / 32
  let start :=
    if stripes = 0 then Xxh64.prime5
    else
      let (a, b, c, d) := (List.range stripes).foldl (fun (a, b, c, d) i =>
        (Xxh64.round a (Xxh64.wordAt data (32 * i) 8),
         Xxh64.round b (Xxh64.wordAt data (32 * i + 8) 8),
         Xxh64.round c (Xxh64.wordAt data (32 * i + 16) 8),
         Xxh64.round d (Xxh64.wordAt data (32 * i + 24) 8)))
        (Xxh64.prime1 + Xxh64.prime2, Xxh64.prime2, 0, 0 - Xxh64.prime1)
      let h := Xxh64.rotateLeft a 1 + Xxh64.rotateLeft b 7 + Xxh64.rotateLeft c 12
        + Xxh64.rotateLeft d 18
      [a, b, c, d].foldl Xxh64.merge h
  Xxh64.finish (Xxh64.tail data (32 * stripes) (start + UInt64.ofNat data.size))

end FileListCache.Checksum
