/-
  FileListCache.Compression.Deflate

  Deflate: stored, fixed and dynamic blocks over a history of 32 KiB. A stream that stops early
  keeps what it decoded: all of it when the input ran out, and all but the current 32 KiB
  stretch when the data made no sense, since a stretch is released only as a whole.
-/

import FileListCache.Bytes
import FileListCache.Compression.PrefixCode

namespace FileListCache.Deflate

/-- A stop together with what had been decoded until then. -/
abbrev Partial := Except (Stop × ByteArray)

/-- The size of the history, and of the stretches in which output is released. -/
def historySize : Nat := 32768

/-- Shortest match length of each length symbol, from symbol 257. -/
def lengthBase : Array Nat :=
  #[3, 4, 5, 6, 7, 8, 9, 10, 11, 13, 15, 17, 19, 23, 27, 31, 35, 43, 51, 59, 67, 83, 99, 115, 131,
    163, 195, 227, 258]

/-- Extra bits of each length symbol, from symbol 257. -/
def lengthExtra : Array Nat :=
  #[0, 0, 0, 0, 0, 0, 0, 0, 1, 1, 1, 1, 2, 2, 2, 2, 3, 3, 3, 3, 4, 4, 4, 4, 5, 5, 5, 5, 0]

/-- Shortest distance of each distance symbol. -/
def distanceBase : Array Nat :=
  #[1, 2, 3, 4, 5, 7, 9, 13, 17, 25, 33, 49, 65, 97, 129, 193, 257, 385, 513, 769, 1025, 1537, 2049,
    3073, 4097, 6145, 8193, 12289, 16385, 24577]

/-- Extra bits of each distance symbol. -/
def distanceExtra : Array Nat :=
  #[0, 0, 0, 0, 1, 1, 2, 2, 3, 3, 4, 4, 5, 5, 6, 6, 7, 7, 8, 8, 9, 9, 10, 10, 11, 11, 12, 12, 13,
    13]

/-- The order in which a dynamic block lists the lengths of its length code. -/
def lengthCodeOrder : List Nat := [16, 17, 18, 0, 8, 7, 9, 6, 10, 5, 11, 4, 12, 3, 13, 2, 14, 1, 15]

/-- The literal and length code of fixed blocks. -/
def fixedLiterals : PrefixCode :=
  .ofLengths ((Array.range 288).map fun i =>
    if i < 144 then 8 else if i < 256 then 9 else if i < 280 then 7 else 8) 15

/-- The distance code of fixed blocks. -/
def fixedDistances : PrefixCode := .ofLengths (Array.replicate 30 5) 15

/-- A field of `count` bits, lowest first, and the position after it. -/
def field (data : ByteArray) (pos count : Nat) : Except Stop (Nat × Nat) :=
  match Bits.lowNumber? data pos count with
  | some n => .ok (n, pos + count)
  | none => .error .exhausted

/-- One item of a coded block. -/
inductive Item
  | literal (b : UInt8)
  | copy (length distance : Nat)
  | done

/-- Reads a literal, a copy or the end of the block. -/
def item (literals distances : PrefixCode) (data : ByteArray) (pos : Nat) :
    Except Stop (Item × Nat) := do
  let (symbol, pos) ← literals.read (Bits.low? data) pos
  if symbol < 256 then return (.literal (UInt8.ofNat symbol), pos)
  else if symbol = 256 then return (.done, pos)
  else
    match lengthBase[symbol - 257]?, lengthExtra[symbol - 257]? with
    | some base, some extra =>
      let (more, pos) ← field data pos extra
      let (symbol, pos) ← distances.read (Bits.low? data) pos
      match distanceBase[symbol]?, distanceExtra[symbol]? with
      | some far, some extra =>
        let (farther, pos) ← field data pos extra
        return (.copy (base + more) (far + farther), pos)
      | _, _ => .error .corrupt
    | _, _ => .error .corrupt

/-- Decodes items up to the end of the block. -/
def items (literals distances : PrefixCode) (data : ByteArray) (pos : Nat) (out : ByteArray) :
    Partial (ByteArray × Nat) :=
  match item literals distances data pos with
  | .error e => .error (e, out)
  | .ok (it, next) =>
    match it with
    | .done => .ok (out, next)
    | .literal b =>
      if pos < next ∧ next ≤ 8 * data.size then items literals distances data next (out.push b)
      else .error (.corrupt, out)
    | .copy length distance =>
      if pos < next ∧ next ≤ 8 * data.size then
        items literals distances data next (copyBack out distance length)
      else .error (.corrupt, out)
termination_by 8 * data.size - pos

/-- Copies a stored block; `at` is the byte position of its length. -/
def stored (data : ByteArray) (start : Nat) (out : ByteArray) : Partial (ByteArray × Nat) :=
  match littleEndianAt? data start 2, littleEndianAt? data (start + 2) 2 with
  | some length, some complement =>
    if length + complement = 65535 then
      -- Of a stored block what is there is copied, also when it is cut short.
      let have_ := min length (data.size - (start + 4))
      let out := (data.extract (start + 4) (start + 4 + have_)).foldl ByteArray.push out
      if have_ < length then .error (.exhausted, out) else .ok (out, 8 * (start + 4 + length))
    else .error (.corrupt, out)
  | _, _ => .error (.exhausted, out)

/-- Reads the lengths of a dynamic block's two codes, `want` in all, after those in `got`. -/
def codeLengths (code : PrefixCode) (data : ByteArray) (pos want : Nat) (got : Array Nat) :
    Except Stop (Array Nat × Nat) :=
  if got.size = want then .ok (got, pos)
  else if want < got.size then .error .corrupt
  else
    match code.read (Bits.low? data) pos with
    | .error e => .error e
    | .ok (symbol, next) =>
      let run : Except Stop (Nat × Nat × Nat) :=
        if symbol < 16 then .ok (symbol, 1, next)
        else if symbol = 16 then
          match got.back?, field data next 2 with
          | some last, .ok (n, next) => .ok (last, 3 + n, next)
          | none, _ => .error .corrupt
          | _, .error e => .error e
        else if symbol = 17 then (field data next 3).map fun (n, next) => (0, 3 + n, next)
        else (field data next 7).map fun (n, next) => (0, 11 + n, next)
      match run with
      | .error e => .error e
      | .ok (value, times, next) =>
        if 0 < times then codeLengths code data next want (got ++ Array.replicate times value)
        else .error .corrupt
termination_by want - got.size
decreasing_by simp; omega

/-- Reads the header of a dynamic block: its literal and distance codes. -/
def dynamicCodes (data : ByteArray) (pos : Nat) : Except Stop (PrefixCode × PrefixCode × Nat) := do
  let (hlit, pos) ← field data pos 5
  let (hdist, pos) ← field data pos 5
  let (hclen, pos) ← field data pos 4
  if 29 < hlit ∨ 29 < hdist then .error .corrupt
  else
    let (lengths, pos) ← (lengthCodeOrder.take (hclen + 4)).foldlM
      (fun (lengths, pos) i => do
        let (n, pos) ← field data pos 3
        return (lengths.setIfInBounds i n, pos))
      (Array.replicate 19 0, pos)
    let code := PrefixCode.ofLengths lengths 7
    if ¬ code.isUsable then .error .corrupt
    else
      let (all, pos) ← codeLengths code data pos (hlit + 257 + hdist + 1) #[]
      let literals := PrefixCode.ofLengths (all.extract 0 (hlit + 257)) 15
      let distances := PrefixCode.ofLengths (all.extract (hlit + 257) all.size) 15
      if literals.isUsable && distances.isUsable then return (literals, distances, pos)
      else .error .corrupt

/-- Decodes one block and says whether it was the last. -/
def block (data : ByteArray) (pos : Nat) (out : ByteArray) : Partial (Bool × ByteArray × Nat) :=
  match field data pos 3 with
  | .error e => .error (e, out)
  | .ok (header, pos) =>
    let last := header % 2 = 1
    let body : Partial (ByteArray × Nat) :=
      match header / 2 with
      | 0 => stored data (Bits.nextByte pos) out
      | 1 => items fixedLiterals fixedDistances data pos out
      | 2 =>
        match dynamicCodes data pos with
        | .error e => .error (e, out)
        | .ok (literals, distances, pos) => items literals distances data pos out
      | _ => .error (.corrupt, out)
    body.map fun (out, pos) => (last, out, pos)

/-- Decodes blocks up to and including the last. -/
def blocks (data : ByteArray) (pos : Nat) (out : ByteArray) : Partial (ByteArray × Nat) :=
  match block data pos out with
  | .error e => .error e
  | .ok (last, out, next) =>
    if last then .ok (out, next)
    else if pos < next ∧ next ≤ 8 * data.size then blocks data next out
    else .error (.corrupt, out)
termination_by 8 * data.size - pos

/-- What a stream that stopped early had released. -/
def released (stop : Stop) (out : ByteArray) : ByteArray :=
  match stop with
  | .exhausted => out
  | .corrupt => out.extract 0 (out.size - out.size % historySize)

/-- Decodes a stream that starts at byte `start`: its output and the byte after it, or why it
stopped and what it had released. -/
def decode (data : ByteArray) (start : Nat) : Partial (ByteArray × Nat) :=
  match blocks data (8 * start) ByteArray.empty with
  | .ok (out, pos) => .ok (out, Bits.nextByte pos)
  | .error (stop, out) => .error (stop, released stop out)

end FileListCache.Deflate
