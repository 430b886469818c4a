/-
  FileListCache.Compression.Zstd.Literals

  The literals of a block: stored, one byte repeated, or coded with a prefix code that is given
  by weights or kept from the block before.
-/

import FileListCache.Bytes
import FileListCache.Compression.Zstd.StateCode

namespace FileListCache.Zstd

/-! ## Prefix codes by weights -/

/-- A prefix code as a table over the next `log` bits: the symbol and the length of its code. -/
structure WeightCode where
  log : Nat
  cells : Array (UInt8 × Nat)

namespace WeightCode

/-- The longest code allowed. -/
def longest : Nat := 12

/-- What a weight takes of the code space. -/
def share (w : Nat) : Nat := Nat.pow 2 w / 2

/-- The code with the given weights and one more symbol that takes what they leave. Each symbol
of weight `w` fills half of `2 ^ w` cells, lighter symbols before heavier ones. -/
def ofWeights? (weights : List Nat) : Except StreamError WeightCode := do
  let total := weights.foldr (fun w n => share w + n) 0
  if weights.any (longest < ·) ∨ total = 0 then throw .zstdCorrupt
  -- The last weight is not written: its symbol takes what is left of the code space, and that
  -- has to be a power of two.
  let log := Bits.highestSet total + 1
  let rest := Nat.pow 2 log - total
  if longest < log ∨ rest ≠ Nat.pow 2 (Bits.highestSet rest) then throw .zstdCorrupt
  let all := weights ++ [Bits.highestSet rest + 1]
  let lightest := all.count 1
  if lightest < 2 ∨ lightest % 2 = 1 ∨ 256 < all.length then throw .zstdCorrupt
  let cells := (List.range log).flatMap fun i =>
    (all.zipIdx.filter fun (w, _) => w = i + 1).flatMap fun (w, s) =>
      List.replicate (share w) (UInt8.ofNat s, log + 1 - w)
  return ⟨log, cells.toArray⟩

/-- Decodes the weights from a stream of two machines that take turns: when the bits of one run
out, the other's symbol is the last. `fuel` bounds the weights. -/
def takeTurns (t : StateTable) (data : ByteArray) :
    Nat → Nat → Nat → Backward → List Nat → Except StreamError (List Nat)
  | 0, _, _, _, _ => .error .zstdCorrupt
  | fuel + 1, mine, other, s, acc =>
    let acc := acc ++ [(t.get mine).symbol]
    match t.next data mine s with
    | .ok (mine, s) => takeTurns t data fuel other mine s acc
    | .error _ => .ok (acc ++ [(t.get other).symbol])

/-- Reads a code's description in the bytes from `start` up to `stop`, and the byte after it. -/
def read (data : ByteArray) (start stop : Nat) : Except StreamError (WeightCode × Nat) := do
  match (if start < stop then data[start]? else none) with
  | none => throw .zstdCorrupt
  | some header =>
    let n := header.toNat
    if n < 128 then
      let next := start + 1 + n
      if stop < next then throw .zstdCorrupt
      let (table, body) ← StateTable.read data 255 6 (start + 1) next
      let s ← Backward.open? data body next
      let (first, s) ← table.start data s
      let (second, s) ← table.start data s
      let weights ← takeTurns table data 254 first second s []
      return (← ofWeights? weights, next)
    else
      let count := n - 127
      let next := start + 1 + (count + 1) / 2
      if stop < next then throw .zstdCorrupt
      let weights := (List.range count).map fun i =>
        let b := ((data[start + 1 + i / 2]?).getD 0).toNat
        if i % 2 = 0 then b / 16 else b % 16
      return (← ofWeights? weights, next)

/-- Decodes `count` symbols after those in `out`. -/
def decode (c : WeightCode) (data : ByteArray) : Nat → Backward → ByteArray →
    Except StreamError (ByteArray × Backward)
  | 0, s, out => .ok (out, s)
  | count + 1, s, out =>
    let (symbol, length) := c.cells.getD (s.peek data c.log) (0, 0)
    if length ≤ s.left then
      decode c data count { s with left := s.left - length } (out.push symbol)
    else .error .zstdCorrupt

end WeightCode

/-! ## Coded streams -/

/-- Decodes one stream that must be used up to its last bit. -/
def exactStream (c : WeightCode) (data : ByteArray) (start stop count : Nat) (out : ByteArray) :
    Except StreamError ByteArray := do
  let s ← Backward.open? data start stop
  let (out, s) ← c.decode data count s out
  if s.left ≠ 0 then throw .zstdCorrupt
  return out

/-- Decodes one of four long streams. Such a stream need not be used up, and it may go on into
the bytes before it, down to `floor`, for up to eight bytes. -/
def longStream (c : WeightCode) (data : ByteArray) (floor start stop count : Nat)
    (out : ByteArray) : Except StreamError ByteArray := do
  -- Only the last byte is looked at for the mark that ends the stream.
  let last := (data[stop - 1]?).getD 0
  let left := 8 * (stop - floor) - (if last = 0 then 0 else 8 - Bits.highestSet last.toNat)
  let (out, s) ← c.decode data count ⟨floor, left⟩ out
  if s.left + 64 < 8 * (start - floor) then throw .zstdCorrupt
  return out

/-- Decodes `count` literals in four streams from `start` up to `stop`; the lengths of the first
three come first. Each holds a quarter of the literals, rounded up, the last one what is left. -/
def fourStreams (c : WeightCode) (data : ByteArray) (start stop count : Nat) :
    Except StreamError ByteArray := do
  if stop < start + 10 ∨ count < 6 then throw .zstdCorrupt
  let length (i : Nat) : Nat := (littleEndianAt? data (start + 2 * i) 2).getD 0
  let first := start + 6
  let second := first + length 0
  let third := second + length 1
  let fourth := third + length 2
  if stop < fourth then throw .zstdCorrupt
  -- The first three streams hold equal numbers of literals.
  let quarter := (count + 3) / 4
  if count < 3 * quarter then throw .zstdCorrupt
  let parts := [(first, second, quarter), (second, third, quarter), (third, fourth, quarter),
    (fourth, stop, count - 3 * quarter)]
  let areLong := c.log < WeightCode.longest && 3 * quarter < count
    && parts.all fun (a, b, _) => a + 8 ≤ b
  parts.foldlM (fun out (a, b, n) =>
    if areLong then longStream c data start a b n out else exactStream c data a b n out) .empty

/-! ## The literals section -/

/-- The literals of a block, the code that later blocks may go on using, and the byte after. -/
structure Literals where
  bytes : ByteArray
  code : Option WeightCode
  next : Nat

/-- Reads the literals in the bytes from `start` up to `stop`; `largest` bounds their number and
`kept` is the code of the blocks before. -/
def Literals.read (data : ByteArray) (kept : Option WeightCode) (largest start stop : Nat) :
    Except StreamError Literals := do
  if stop < start + 2 then throw .zstdCorrupt
  let head := ((data[start]?).getD 0).toNat
  let format := head / 4 % 4
  let need (count : Nat) : Except StreamError Unit :=
    if stop < start + count then .error .zstdCorrupt else .ok ()
  let number (count : Nat) : Nat := (littleEndianAt? data start count).getD 0
  if head % 4 < 2 then
    let size := if format = 1 then 2 else if format = 3 then 3 else 1
    need size
    let count := if size = 1 then head / 8 else number size / 16
    if largest < count then throw .zstdCorrupt
    let body := start + size
    if head % 4 = 0 then
      need (size + count)
      return ⟨data.extract body (body + count), kept, body + count⟩
    else
      need (size + 1)
      return ⟨⟨Array.replicate count ((data[body]?).getD 0)⟩, kept, body + 1⟩
  else
    if head % 4 = 3 ∧ kept.isNone then throw .zstdDictionaryCorrupt
    need 5
    let (size, width) := if format < 2 then (3, 10) else if format = 2 then (4, 14) else (5, 18)
    let n := number size / 16
    let count := n % Nat.pow 2 width
    let coded := n / Nat.pow 2 width
    if largest < count then throw .zstdCorrupt
    need (size + coded)
    let body := start + size
    let next := body + coded
    let (code, streams) ←
      match (if head % 4 = 3 then kept else none) with
      | some c => pure (c, body)
      | none => WeightCode.read data body next
    let bytes ←
      if format = 0 then exactStream code data streams next count .empty
      else fourStreams code data streams next count
    return ⟨bytes, some code, next⟩

end FileListCache.Zstd
