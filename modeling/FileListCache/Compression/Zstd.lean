/-
  FileListCache.Compression.Zstd

  Zstandard files: frames of blocks, between which frames of other data may be skipped. A frame
  may give the size of its content and a check of it. Blocks are released as a whole.
-/

import FileListCache.Compression.Stream
import FileListCache.Compression.Checksum
import FileListCache.Compression.Zstd.Literals
import FileListCache.Compression.Zstd.Sequences

namespace FileListCache.Zstd

/-- A file that stopped early: why, and what it had released. -/
abbrev Partial := Except (StreamError × ByteArray)

/-- Attaches what was released to a step's failure. -/
def releasing {α : Type} (out : ByteArray) (step : Except StreamError α) : Partial α :=
  step.mapError fun e => (e, out)

/-! ## Frame headers -/

/-- The number that starts a frame. -/
def magic : Nat := 0xfd2fb528

/-- Whether a number starts a frame to be skipped: sixteen of them do. -/
def isSkipMagic (n : Nat) : Bool := n / 16 = 0x184d2a5

/-- Whether the bytes could be the start of a frame, as far as they go: all bytes that are there
agree with one of the magic numbers. -/
def couldStart (bytes : Bytes) : Bool :=
  let agrees (want : Bytes) : Bool := bytes.take 4 = want.take bytes.length
  agrees [0x28, 0xb5, 0x2f, 0xfd] ||
    (List.range 16).any fun i => agrees [UInt8.ofNat (0x50 + i), 0x2a, 0x4d, 0x18]

/-- What a frame's header says. -/
structure Frame where
  /-- The byte after the header. -/
  body : Nat
  window : Nat
  contentSize : Option Nat
  hasCheck : Bool

/-- The largest window that is accepted. -/
def largestWindow : Nat := Nat.pow 2 27 + 1

/-- The largest block that any frame may hold. -/
def largestBlock : Nat := Nat.pow 2 17

/-- Reads the header of a frame, whose magic number is at `start`. -/
def frameHeader (data : ByteArray) (start : Nat) : Except StreamError Frame := do
  match data[start + 4]? with
  | none => throw .zstdCutShort
  | some b =>
    let flags := b.toNat
    let single := flags.testBit 5
    let windowSize := if single then 0 else 1
    let dictionarySize := #[0, 1, 2, 4].getD (flags % 4) 0
    let contentSize := #[if single then 1 else 0, 2, 4, 8].getD (flags / 64) 0
    let dictionaryAt := start + 5 + windowSize
    let contentAt := dictionaryAt + dictionarySize
    let body := contentAt + contentSize
    -- All of the header has to be there before any of it is judged.
    if data.size < body then throw .zstdCutShort
    if flags.testBit 3 then throw .zstdParameter
    let code := ((data[start + 5]?).getD 0).toNat
    let log := code / 8 + 10
    if ¬ single ∧ 31 < log then throw .zstdWindow
    let content :=
      if contentSize = 0 then none
      else (littleEndianAt? data contentAt contentSize).map fun n =>
        if contentSize = 2 then n + 256 else n
    -- The code is an exponent and eighths of the power; a single segment is its own window.
    let window := if single then content.getD 0 else Nat.pow 2 log + Nat.pow 2 log / 8 * (code % 8)
    if (littleEndianAt? data dictionaryAt dictionarySize).getD 0 ≠ 0 then
      throw .zstdDictionaryMissing
    if largestWindow < max window 1024 then throw .zstdWindow
    return ⟨body, window, content, flags.testBit 2⟩

/-! ## Blocks -/

/-- What a block leaves for the blocks after it. -/
structure Kept where
  code : Option WeightCode := none
  tables : Option Tables := none
  recent : Recent := {}

/-- Decodes a coded block in the bytes from `pos` up to `stop` after the output `out`, in which
the frame starts at `start`. -/
def codedBlock (data : ByteArray) (largest pos stop start : Nat) (k : Kept) (out : ByteArray) :
    Except StreamError (ByteArray × Kept) := do
  let literals ← Literals.read data k.code largest pos stop
  let (found, tables) ← sequences data k.tables literals.next stop
  let o ← found.foldlM (Output.step literals.bytes start) ⟨out, 0, k.recent⟩
  -- The literals that no sequence used stand at the end.
  let rest := literals.bytes.extract o.used literals.bytes.size
  let out' := rest.foldl ByteArray.push o.out
  if largest < out'.size - out.size then throw .zstdCorrupt
  return (out', ⟨literals.code, tables, o.recent⟩)

/-- Frames that state at most this much content are decoded at a stroke. -/
def atOnce : Nat := 32

/-- Whether a frame is decoded at a stroke, which looks more closely at blocks of no bytes. -/
def Frame.isSmall (f : Frame) : Bool := f.contentSize.any (· ≤ atOnce)

/-- Decodes one block of the given kind and size from `pos`, and the byte after it. A coded block
of no bytes stands for no content, but not in small frames. -/
def block (data : ByteArray) (f : Frame) (kind size pos start : Nat) (k : Kept) (out : ByteArray) :
    Except StreamError (ByteArray × Kept × Nat) := do
  let largest := min f.window largestBlock
  -- A repeated byte is stored once, whatever size it is repeated to.
  let stored := if kind = 1 then 1 else size
  if kind = 3 ∨ largest < stored then throw .zstdCorrupt
  if kind = 2 ∧ size = 0 ∧ f.isSmall then throw .zstdCorrupt
  if data.size < pos + stored then throw .zstdCutShort
  if kind = 1 then
    if largest < size then throw .zstdCorrupt
    let b := (data[pos]?).getD 0
    return ((List.replicate size b).foldl ByteArray.push out, k, pos + 1)
  else if kind = 0 ∨ size = 0 then
    return ((data.extract pos (pos + size)).foldl ByteArray.push out, k, pos + size)
  else
    let (out, k) ← codedBlock data largest pos (pos + size) start k out
    return (out, k, pos + size)

/-- Decodes blocks up to and including the last. -/
def blocks (data : ByteArray) (f : Frame) (pos start : Nat) (k : Kept) (out : ByteArray) :
    Partial (ByteArray × Nat) :=
  match littleEndianAt? data pos 3 with
  | none => .error (.zstdCutShort, out)
  | some header =>
    match block data f (header / 2 % 4) (header / 8) (pos + 3) start k out with
    | .error e => .error (e, out)
    | .ok (grown, k, next) =>
      if header % 2 = 1 then
        -- Large frames compare the stated size as the last content comes, so not behind an empty
        -- block.
        let isEmpty := next = pos + 3
        if (isEmpty && !f.isSmall) || f.contentSize.all (· = grown.size - start) then
          .ok (grown, next)
        else .error (.zstdCorrupt, out)
      else if pos < next ∧ next ≤ data.size then blocks data f next start k grown
      else .error (.zstdCorrupt, out)
termination_by data.size - pos

/-! ## Frames -/

/-- Checks a frame's content against the check that may follow it, and the byte after. -/
def frameCheck (data : ByteArray) (f : Frame) (pos start : Nat) (out : ByteArray) :
    Except StreamError Nat :=
  if f.hasCheck then
    match littleEndianAt? data pos 4 with
    | none => .error .zstdCutShort
    | some check =>
      let sum := (Checksum.xxh64 (out.extract start out.size)).toNat
      if check = sum % Nat.pow 2 32 then .ok (pos + 4) else .error .zstdChecksum
  else .ok pos

/-- Decodes the frame at `pos` and gives the byte after it. -/
def frame (data : ByteArray) (pos : Nat) (out : ByteArray) : Partial (ByteArray × Nat) := do
  let bytes := Bytes.ofPacked (data.extract pos (pos + 5))
  if ¬ couldStart bytes then throw (.zstdMagic, out)
  if bytes.length < 5 then throw (.zstdCutShort, out)
  if isSkipMagic (littleEndian (bytes.take 4)) then
    match littleEndianAt? data (pos + 4) 4 with
    | none => throw (.zstdCutShort, out)
    | some size =>
      if data.size < pos + 8 + size then throw (.zstdCutShort, out)
      return (out, pos + 8 + size)
  else
    let f ← releasing out (frameHeader data pos)
    let (grown, next) ← blocks data f f.body out.size {} out
    let next ← releasing grown (frameCheck data f next out.size grown)
    return (grown, next)

/-- Decodes the frames from byte `pos` on; a file has at least one. -/
def frames (data : ByteArray) (pos : Nat) (out : ByteArray) : Decoded :=
  match frame data pos out with
  | .error (e, out) => ⟨Bytes.ofPacked out, some e⟩
  | .ok (out, next) =>
    if data.size ≤ next then ⟨Bytes.ofPacked out, none⟩
    else if pos < next then frames data next out
    else ⟨Bytes.ofPacked out, some .zstdCorrupt⟩
termination_by data.size - pos

/-- Decodes a whole file. -/
def decode (data : ByteArray) : Decoded := frames data 0 .empty

end FileListCache.Zstd
