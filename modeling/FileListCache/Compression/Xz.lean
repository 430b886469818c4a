/-
  FileListCache.Compression.Xz

  Xz files: streams of blocks, each block LZMA2 text with an integrity check, each stream ended
  by an index of its blocks and a footer. Streams may follow one another with zero padding
  between them. A file that does not start like a stream is read as bare LZMA text.

  Everything between the last byte of a block and the next item of coded text is read as that
  last byte is taken. So a fault found there keeps the byte from being released.
-/

import FileListCache.Compression.Stream
import FileListCache.Compression.Checksum
import FileListCache.Compression.Lzma

namespace FileListCache.Xz

/-- A stream that stopped early: why, and what it had released. -/
abbrev Partial := Except (StreamError × ByteArray)

/-- What a stop of the coded text means for the file. -/
def causeOf : Stop → StreamError
  | .exhausted => .xzCutShort
  | .corrupt => .xzCorrupt

/-- A fault right behind the last byte of the output; `released` bytes of it were released by a
new window. -/
def failBehind {α : Type} (e : StreamError) (out : ByteArray) (released : Nat := 0) : Partial α :=
  .error (e, if e = .xzCutShort then out else (⟨released, 0⟩ : Lzma.Window).withhold out)

/-- Runs a step that writes nothing. -/
def quietly {α : Type} (out : ByteArray) (step : Except StreamError α) (released : Nat := 0) :
    Partial α :=
  match step with
  | .ok a => .ok a
  | .error e => failBehind e out released

/-- The `count` bytes of the file from `pos`. -/
def take (data : ByteArray) (pos count : Nat) : Except StreamError Bytes :=
  match slice? data pos count with
  | some bs => .ok bs
  | none => .error .xzCutShort

/-- Requires what the format requires. -/
def require (ok : Bool) (e : StreamError) : Except StreamError Unit :=
  if ok then .ok () else .error e

/-! ## Stream header and footer -/

/-- The bytes that start a stream. -/
def magic : Bytes := [0xfd, 0x37, 0x7a, 0x58, 0x5a, 0x00]

/-- The bytes that end a stream. -/
def footerMagic : Bytes := [0x59, 0x5a]

/-- Whether four bytes are the check of others. -/
def isCheckOf (check content : Bytes) : Bool :=
  littleEndian check = (Checksum.crc32 (Bytes.pack content)).toNat

/-- Which integrity check the blocks of a stream carry. -/
def checkKind (flags : Bytes) : Except StreamError Nat :=
  match flags with
  | [zero, kind] =>
    if zero = 0 ∧ kind.toNat < 16 then .ok kind.toNat else .error .xzOptions
  | _ => .error .xzOptions

/-- The size in bytes of each kind of check. -/
def checkSize (kind : Nat) : Nat :=
  if kind = 0 then 0 else 4 * Nat.pow 2 ((kind - 1) / 3)

/-- The integrity check of a block's content; kinds that are not known are not verified. -/
def checkOf (kind : Nat) (content : ByteArray) : Option Bytes :=
  let wordBytes (n count : Nat) : Bytes :=
    (List.range count).map fun i => UInt8.ofNat (n >>> (8 * i))
  match kind with
  | 1 => some (wordBytes (Checksum.crc32 content).toNat 4)
  | 4 => some (wordBytes (Checksum.crc64 content).toNat 8)
  | 10 => some (Checksum.sha256 content)
  | _ => none

/-- Reads a stream header: the kind of its checks. Only the first stream of a file can fail to
look like one; later it is corrupt. -/
def header (data : ByteArray) (pos : Nat) : Except StreamError Nat := do
  let bytes ← take data pos 12
  let flags := (bytes.drop 6).take 2
  require (bytes.take 6 = magic) (if pos = 0 then .xzFormat else .xzCorrupt)
  require (isCheckOf (bytes.drop 8) flags) .xzCorrupt
  checkKind flags

/-- Reads a stream footer and compares it with the header and the size of the index. -/
def footer (data : ByteArray) (pos kind indexSize : Nat) : Except StreamError Nat := do
  let bytes ← take data pos 12
  let covered := (bytes.drop 4).take 6
  require (bytes.drop 10 = footerMagic) .xzCorrupt
  require (isCheckOf (bytes.take 4) covered) .xzCorrupt
  let found ← checkKind (covered.drop 4)
  require (4 * (littleEndian (covered.take 4) + 1) = indexSize ∧ found = kind) .xzCorrupt
  return pos + 12

/-! ## Numbers of variable length -/

/-- Reads a number in groups of seven bits, lowest first, and the position after it; at most
nine bytes, the last of them not zero unless it is the only one. -/
def grouped (data : ByteArray) (limit pos : Nat) (short : StreamError) :
    Except StreamError (Nat × Nat) :=
  go 9 pos 1 0
where
  /-- Reads the groups that are left, of which the next weighs `weight`. -/
  go : Nat → Nat → Nat → Nat → Except StreamError (Nat × Nat)
    | 0, _, _, _ => .error .xzCorrupt
    | left + 1, at_, weight, n =>
      match (if at_ < limit then data[at_]? else none) with
      | none => .error short
      | some b =>
        let n := n + weight * (b.toNat % 128)
        if b < 128 then
          if b = 0 ∧ 1 < weight then .error .xzCorrupt else .ok (n, at_ + 1)
        else go left (at_ + 1) (128 * weight) n

/-! ## Block headers -/

/-- What a block's header says. -/
structure Block where
  /-- The byte after the header. -/
  body : Nat
  compressedSize : Option Nat
  contentSize : Option Nat
  capacity : Nat

/-- The size of the window, from its one-byte code: powers of two and their halves more. -/
def capacityOf (code : UInt8) : Except StreamError Nat :=
  let n := code.toNat
  if 40 < n then .error .xzOptions
  else
    let size := if n = 40 then Nat.pow 2 32 - 1 else (2 + n % 2) * Nat.pow 2 (n / 2 + 11)
    .ok (max 4096 ((size + 15) / 16 * 16))

/-- The largest number the format can write. -/
def largest : Nat := Nat.pow 2 63 - 1

/-- Reads a block's header; its first byte, not zero, is at `pos`. -/
def blockHeader (data : ByteArray) (pos kind : Nat) : Except StreamError Block := do
  let first ← take data pos 1
  let size := 4 * (littleEndian first + 1)
  let bytes ← take data pos size
  -- The last four bytes are the check of the header and belong to no field.
  let limit := pos + size - 4
  require (isCheckOf (bytes.drop (size - 4)) (bytes.take (size - 4))) .xzCorrupt
  let flags := (bytes.getD 1 0).toNat
  require (flags / 4 % 16 = 0) .xzOptions
  let optional (present : Bool) (pos : Nat) : Except StreamError (Option Nat × Nat) :=
    if present then (grouped data limit pos .xzCorrupt).map fun (n, next) => (some n, next)
    else .ok (none, pos)
  let (compressedSize, at_) ← optional (flags.testBit 6) (pos + 2)
  -- With header and check the block must still have a size that an index can state.
  require (compressedSize.all fun n =>
    0 < n && n + size + checkSize kind ≤ largest / 4 * 4) .xzCorrupt
  let (contentSize, at_) ← optional (flags.testBit 7) at_
  let (filter, at_) ← grouped data limit at_ .xzCorrupt
  require (filter < Nat.pow 2 62) .xzCorrupt
  let (length, at_) ← grouped data limit at_ .xzCorrupt
  require (at_ + length ≤ limit) .xzCorrupt
  -- Only one filter is accepted, the dictionary coder itself.
  require (filter = 0x21 ∧ length = 1 ∧ flags % 4 = 0) .xzOptions
  let capacity ← capacityOf ((data[at_]?).getD 0)
  require ((bytes.extract (at_ + 1 - pos) (size - 4)).all (· = 0)) .xzOptions
  return ⟨pos + size, compressedSize, contentSize, capacity⟩

/-! ## Blocks -/

/-- What an LZMA2 chunk may rely on: nothing at first, then a window, then properties too. -/
structure Carried where
  needsWindow : Bool := true
  properties : Option Lzma.Properties := none
  memory : Lzma.Memory := { weights := #[] }
  start : Nat

/-- The next byte of a block's text. -/
def nextByte (data : ByteArray) (pos : Nat) : Except StreamError Nat :=
  match data[pos]? with
  | some b => .ok b.toNat
  | none => .error .xzCutShort

/-- A big-endian number of two bytes. -/
def nextPair (data : ByteArray) (pos : Nat) : Except StreamError Nat := do
  return 256 * (← nextByte data pos) + (← nextByte data (pos + 1))

/-- Properties and memory that a coded chunk starts with, by its control byte: 3 new properties
and window, 2 new properties, 1 fresh memory, 0 all as before. -/
def prepare (data : ByteArray) (reset pos : Nat) (k : Carried) :
    Except StreamError (Lzma.Properties × Lzma.Memory × Nat) := do
  if 2 ≤ reset then
    let b ← nextByte data pos
    match Lzma.Properties.ofByte? (UInt8.ofNat b) with
    | some p => return (p, .fresh p, pos + 1)
    | none => throw .xzCorrupt
  else
    match k.properties with
    | none => throw .xzCorrupt
    | some p => return (p, if reset = 1 then .fresh p else k.memory, pos)

/-- Reads the chunks of a block up to the byte that ends them. -/
def chunks (data : ByteArray) (capacity pos : Nat) (k : Carried) (out : ByteArray) :
    Partial (ByteArray × Nat) :=
  match quietly out (nextByte data pos) with
  | .error e => .error e
  | .ok control =>
    if control = 0 then .ok (out, pos + 1)
    else
      -- A stored chunk has the control byte 1 or 2, a coded one has the highest bit set.
      let fresh := 0xe0 ≤ control ∨ control = 1
      let k := if fresh then { k with needsWindow := false, start := out.size } else k
      if k.needsWindow then failBehind .xzCorrupt out
      else if 0x80 ≤ control then
        let opening : Except StreamError _ := do
          let reset := control / 32 % 4
          require (2 ≤ reset || k.properties.isSome) .xzCorrupt
          let size := (control % 32) * 65536 + (← nextPair data (pos + 1)) + 1
          let coded := (← nextPair data (pos + 3)) + 1
          let (p, m, body) ← prepare data reset (pos + 5) k
          return (size, coded, p, m, body)
        match quietly out opening k.start with
        | .error e => .error e
        | .ok (size, coded, p, m, body) =>
          let source : Lzma.Source := ⟨data, body + coded⟩
          match Lzma.text source p ⟨k.start, capacity⟩ size (some size) body m out with
          | .error (stop, out) => .error (causeOf stop, out)
          | .ok (out, next, m) =>
            -- The chunk has to end where it says it does.
            if next ≠ body + coded then failBehind .xzCorrupt out
            else if pos < next ∧ next ≤ data.size then
              chunks data capacity next { k with properties := some p, memory := m } out
            else failBehind .xzCorrupt out
      else if 3 ≤ control then failBehind .xzCorrupt out
      else
        match quietly out (nextPair data (pos + 1)) with
        | .error e => .error e
        | .ok n =>
          let out := (data.extract (pos + 3) (pos + 4 + n)).foldl ByteArray.push out
          if pos + 4 + n ≤ data.size then
            -- A new window needs new properties before the next coded chunk.
            let k := if control = 1 then { k with properties := none } else k
            chunks data capacity (pos + 4 + n) k out
          else .error (.xzCutShort, out)
termination_by data.size - pos

/-- Bytes of zero padding that bring a size to a multiple of four. -/
def padding (size : Nat) : Nat := (4 - size % 4) % 4

/-- Requires the zero padding from `pos`, byte by byte. -/
def zeros (data : ByteArray) (pos count : Nat) : Except StreamError Nat := do
  (List.range count).forM fun i => do require ((← nextByte data (pos + i)) = 0) .xzCorrupt
  return pos + count

/-- What the index records of a block: its size without padding and the size of its content. -/
structure Record where
  unpadded : Nat
  content : Nat
  deriving DecidableEq

/-- Reads one block. -/
def block (data : ByteArray) (kind pos : Nat) (out : ByteArray) :
    Partial (ByteArray × Record × Nat) := do
  let b ← quietly out (blockHeader data pos kind)
  let start := out.size
  let (out, next) ← chunks data b.capacity b.body { start } out
  quietly out (do
    let compressed := next - b.body
    let content := out.size - start
    require (b.compressedSize.all (· = compressed) && b.contentSize.all (· = content)) .xzCorrupt
    let check ← zeros data next (padding compressed)
    let stored ← take data check (checkSize kind)
    require ((checkOf kind (out.extract start out.size)).all (· = stored)) .xzCorrupt
    let unpadded := b.body - pos + compressed + checkSize kind
    return (out, ⟨unpadded, content⟩, check + checkSize kind))

/-! ## Index and streams -/

/-- Reads the index of a stream, whose first byte, zero, is at `pos`. -/
def index (data : ByteArray) (pos : Nat) (records : List Record) : Except StreamError Nat := do
  let (count, next) ← grouped data data.size (pos + 1) .xzCutShort
  require (count = records.length) .xzCorrupt
  let (found, next) ← records.foldlM (fun (acc : List Record × Nat) _ => do
    let (unpadded, next) ← grouped data data.size acc.2 .xzCutShort
    let (content, next) ← grouped data data.size next .xzCutShort
    return (acc.1 ++ [⟨unpadded, content⟩], next)) ([], next)
  -- The padding is read before the records are compared, and the check comes last.
  let next ← zeros data next (padding (next - pos))
  require (found = records) .xzCorrupt
  let check ← take data next 4
  require (littleEndian check = (Checksum.crc32 (data.extract pos next)).toNat) .xzCorrupt
  return next + 4

/-- Reads the blocks of a stream, its index and its footer. -/
def blocks (data : ByteArray) (kind pos : Nat) (records : List Record) (out : ByteArray) :
    Partial (ByteArray × Nat) :=
  match quietly out (nextByte data pos) with
  | .error e => .error e
  -- A zero byte begins the index; the first byte of a block header is never zero.
  | .ok 0 =>
    quietly out (do
      let next ← index data pos records
      return (out, ← footer data next kind (next - pos)))
  | .ok _ =>
    match block data kind pos out with
    | .error e => .error e
    | .ok (out, record, next) =>
      if pos < next ∧ next ≤ data.size then blocks data kind next (records ++ [record]) out
      else failBehind .xzCorrupt out
termination_by data.size - pos

/-- The number of zero bytes from `pos`. -/
def zeroRun (data : ByteArray) (pos : Nat) : Nat :=
  ((Bytes.ofPacked (data.extract pos data.size)).takeWhile (· = 0)).length

/-- Reads the streams from byte `pos` on. -/
def streams (data : ByteArray) (pos : Nat) (out : ByteArray) : Partial ByteArray :=
  match quietly out (header data pos) with
  | .error e => .error e
  | .ok kind =>
    match blocks data kind (pos + 12) [] out with
    | .error e => .error e
    | .ok (out, next) =>
      let pad := zeroRun data next
      if data.size ≤ next + pad then
        -- That the padding is over shows only at the end of the file, after all was read.
        if pad % 4 = 0 then .ok out else .error (.xzCorrupt, out)
      else if pad % 4 ≠ 0 then failBehind .xzCorrupt out
      else if pos < next + pad then streams data (next + pad) out
      else failBehind .xzCorrupt out
termination_by data.size - pos

/-! ## Bare LZMA files -/

/-- Window sizes that writers of bare LZMA files choose: powers of two, with or without half as
much again. Others are taken for chance. -/
def isPlausibleCapacity (n : Nat) : Bool :=
  n = 0 || n = Nat.pow 2 32 - 1 || n = Nat.pow 2 n.log2 || 2 * n = 3 * Nat.pow 2 n.log2

/-- The most items that one byte of coded text can make: no weight lets a choice take less than
a fiftieth of a bit. -/
def itemsPerByte : Nat := 400

/-- Decodes a bare LZMA file: properties, window size, content size and coded text. -/
def bare (data : ByteArray) : Partial ByteArray := do
  let (p, capacity, size) ← quietly .empty (do
    let first ← nextByte data 0
    match Lzma.Properties.ofByte? (UInt8.ofNat first) with
    | none => throw .xzFormat
    | some p =>
      let capacity := littleEndian (← take data 1 4)
      require (isPlausibleCapacity capacity) .xzFormat
      let size := littleEndian (← take data 5 8)
      require (size = Nat.pow 2 64 - 1 || size < Nat.pow 2 38) .xzFormat
      return (p, max 4096 ((capacity + 15) / 16 * 16), size))
  let want := if size = Nat.pow 2 64 - 1 then none else some size
  match Lzma.text ⟨data, data.size⟩ p ⟨0, capacity⟩ (itemsPerByte * (data.size + 1)) want 13
    (.fresh p) .empty with
  | .error (stop, out) => .error (causeOf stop, out)
  | .ok (out, next, _) =>
    if next < data.size then failBehind .xzCorrupt out else return out

/-- Decodes a whole file. -/
def decode (data : ByteArray) : Decoded :=
  let result :=
    if data[0]? = magic.head? then streams data 0 .empty
    else bare data
  match result with
  | .ok out => ⟨Bytes.ofPacked out, none⟩
  | .error (e, out) => ⟨Bytes.ofPacked out, some e⟩

end FileListCache.Xz
