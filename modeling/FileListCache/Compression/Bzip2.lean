/-
  FileListCache.Compression.Bzip2

  Bzip2 files: one or more streams of blocks. A block holds a block-sorted text as prefix codes
  of move-to-front ranks with runs of rank zero in bijective binary; undoing these, the block
  sort and a run-length layer gives the content. Each block and each stream has a check.

  A block is checked as its last byte is taken, together with what follows it in the file. So
  when a check or the next block fails, the last byte before it is not released.
-/

import FileListCache.Compression.Stream
import FileListCache.Compression.Checksum
import FileListCache.Compression.PrefixCode

namespace FileListCache.Bzip2

/-- How many symbols are read with one selected code. -/
def groupSize : Nat := 50

/-- A field of `count` bits, highest first, and the position after it. -/
def field (data : ByteArray) (pos count : Nat) : Except Stop (Nat × Nat) :=
  match Bits.highNumber? data pos count with
  | some n => .ok (n, pos + count)
  | none => .error .exhausted

/-! ## Layers of a block -/

/-- Undoes the block sort: the text whose sorted rotations end in `last`, starting at the
rotation `origin`. The text goes round, and its first byte is given once more at the end. -/
def unsort (last : ByteArray) (origin : Nat) : ByteArray :=
  let counts := last.foldl (fun (c : Array Nat) b => c.modify b.toNat (· + 1))
    (Array.replicate 256 0)
  -- Sorted by its first byte, a rotation stands behind those with smaller bytes; equal ones keep
  -- their order.
  let starts := (counts.foldl (fun (acc : Array Nat × Nat) n => (acc.1.push acc.2, acc.2 + n))
    (#[], 0)).1
  let follow := ((List.range last.size).foldl (fun (acc : Array Nat × Array Nat) i =>
    let b := ((last[i]?).getD 0).toNat
    (acc.1.setIfInBounds (acc.2.getD b 0) i, acc.2.modify b (· + 1)))
    (Array.replicate last.size 0, starts)).1
  ((List.range (last.size + 1)).foldl (fun (acc : ByteArray × Nat) _ =>
    (acc.1.push ((last[acc.2]?).getD 0), follow.getD acc.2 0))
    (ByteArray.empty, follow.getD origin 0)).1

/-- How far apart the bytes are that a scrambled block has a bit changed in. -/
def scrambleGaps : Array Nat :=
  #[619, 720, 127, 481, 931, 816, 813, 233, 566, 247, 985, 724, 205, 454, 863, 491, 741, 242, 949,
    214, 733, 859, 335, 708, 621, 574, 73, 654, 730, 472, 419, 436, 278, 496, 867, 210, 399, 680,
    480, 51, 878, 465, 811, 169, 869, 675, 611, 697, 867, 561, 862, 687, 507, 283, 482, 129, 807,
    591, 733, 623, 150, 238, 59, 379, 684, 877, 625, 169, 643, 105, 170, 607, 520, 932, 727, 476,
    693, 425, 174, 647, 73, 122, 335, 530, 442, 853, 695, 249, 445, 515, 909, 545, 703, 919, 874,
    474, 882, 500, 594, 612, 641, 801, 220, 162, 819, 984, 589, 513, 495, 799, 161, 604, 958, 533,
    221, 400, 386, 867, 600, 782, 382, 596, 414, 171, 516, 375, 682, 485, 911, 276, 98, 553, 163,
    354, 666, 933, 424, 341, 533, 870, 227, 730, 475, 186, 263, 647, 537, 686, 600, 224, 469, 68,
    770, 919, 190, 373, 294, 822, 808, 206, 184, 943, 795, 384, 383, 461, 404, 758, 839, 887, 715,
    67, 618, 276, 204, 918, 873, 777, 604, 560, 951, 160, 578, 722, 79, 804, 96, 409, 713, 940, 652,
    934, 970, 447, 318, 353, 859, 672, 112, 785, 645, 863, 803, 350, 139, 93, 354, 99, 820, 908,
    609, 772, 154, 274, 580, 184, 79, 626, 630, 742, 653, 282, 762, 623, 680, 81, 927, 626, 789,
    125, 411, 521, 938, 300, 821, 78, 343, 175, 128, 250, 170, 774, 972, 275, 999, 639, 495, 78,
    352, 126, 857, 956, 358, 619, 580, 124, 737, 594, 701, 612, 669, 112, 134, 694, 363, 992, 809,
    743, 168, 974, 944, 375, 748, 52, 600, 747, 642, 182, 862, 81, 344, 805, 988, 739, 511, 655,
    814, 334, 249, 515, 897, 955, 664, 981, 649, 113, 974, 459, 893, 228, 433, 837, 553, 268, 926,
    240, 102, 654, 459, 51, 686, 754, 806, 760, 493, 403, 415, 394, 687, 700, 946, 670, 656, 610,
    738, 392, 760, 799, 887, 653, 978, 321, 576, 617, 626, 502, 894, 679, 243, 440, 680, 879, 194,
    572, 640, 724, 926, 56, 204, 700, 707, 151, 457, 449, 797, 195, 791, 558, 945, 679, 297, 59, 87,
    824, 713, 663, 412, 693, 342, 606, 134, 108, 571, 364, 631, 212, 174, 643, 304, 329, 343, 97,
    430, 751, 497, 314, 983, 374, 822, 928, 140, 206, 73, 263, 980, 736, 876, 478, 430, 305, 170,
    514, 364, 692, 829, 82, 855, 953, 676, 246, 369, 970, 294, 750, 807, 827, 150, 790, 288, 923,
    804, 378, 215, 828, 592, 281, 565, 555, 710, 82, 896, 831, 547, 261, 524, 462, 293, 465, 502,
    56, 661, 821, 976, 991, 658, 869, 905, 758, 745, 193, 768, 550, 608, 933, 378, 286, 215, 979,
    792, 961, 61, 688, 793, 644, 986, 403, 106, 366, 905, 644, 372, 567, 466, 434, 645, 210, 389,
    550, 919, 135, 780, 773, 635, 389, 707, 100, 626, 958, 165, 504, 920, 176, 193, 713, 857, 265,
    203, 50, 668, 108, 645, 990, 626, 197, 510, 357, 358, 850, 858, 364, 936, 638]

/-- Undoes the scrambling that early writers applied to blocks that were slow to sort: the lowest
bit of a byte here and there is changed. -/
def unscramble (text : ByteArray) : ByteArray :=
  go text.size 0 0 text
where
  /-- Changes the bytes from gap `i` on, which starts at `pos`; `left` bounds the gaps. -/
  go : Nat → Nat → Nat → ByteArray → ByteArray
    | 0, _, _, text => text
    | left + 1, i, pos, text =>
      let next := pos + scrambleGaps.getD (i % 512) 0
      if text.size < next - 1 then text
      else
        go left (i + 1) next (text.set! (next - 2) (((text[next - 2]?).getD 0) ^^^ 1))

/-- The state of the run-length layer: the byte that may be repeating and how often it has been
seen in a row. -/
structure Run where
  out : ByteArray
  last : UInt8
  seen : Nat

/-- Takes one byte of the run-length layer: after four equal bytes a byte counts repetitions. -/
def Run.step (r : Run) (b : UInt8) : Run :=
  if r.seen = 4 then
    { r with out := (List.replicate b.toNat r.last).foldl ByteArray.push r.out, seen := 0 }
  else if r.seen ≠ 0 ∧ b = r.last then { r with out := r.out.push b, seen := r.seen + 1 }
  else { out := r.out.push b, last := b, seen := 1 }

/-- Undoes the run-length layer of a text that is followed by its first byte once more. When the
text ends where a count should stand, that byte is taken for the count, and the text does not
count as whole. -/
def unrun (text : ByteArray) : ByteArray × Bool :=
  let size := text.size - 1
  let r := (text.extract 0 size).foldl Run.step ⟨ByteArray.empty, 0, 0⟩
  if r.seen = 4 then ((r.step ((text[size]?).getD 0)).out, false) else (r.out, true)

/-! ## The header of a block -/

/-- Reads the set of bytes in use: a bit for each sixteen values, then a bit for each value. -/
def bytesInUse (data : ByteArray) (pos : Nat) : Except Stop (List UInt8 × Nat) := do
  let (groups, pos) ← field data pos 16
  (List.range 16).foldlM (fun (used, pos) i =>
    if groups.testBit (15 - i) then do
      let (members, pos) ← field data pos 16
      let chosen := (List.range 16).filter fun j => members.testBit (15 - j)
      return (used ++ chosen.map fun j => UInt8.ofNat (16 * i + j), pos)
    else return (used, pos)) ([], pos)

/-- Reads a rank in unary: how many one bits come before a zero bit, less than `limit`. -/
def unary (data : ByteArray) (limit pos : Nat) : Except Stop (Nat × Nat) :=
  go limit 0 pos
where
  /-- Counts with `left` ranks still possible. -/
  go : Nat → Nat → Nat → Except Stop (Nat × Nat)
    | 0, _, _ => .error .corrupt
    | left + 1, rank, pos =>
      match Bits.high? data pos with
      | none => .error .exhausted
      | some false => .ok (rank, pos + 1)
      | some true => go left (rank + 1) (pos + 1)

/-- Moves the entry at `rank` to the front and returns it. -/
def toFront {α : Type} (order : List α) (rank : Nat) : Option (α × List α) :=
  order[rank]?.map fun x => (x, x :: order.eraseIdx rank)

/-- Reads which of `codes` codes each group of symbols uses. -/
def selectors (data : ByteArray) (codes count pos : Nat) : Except Stop (Array Nat × Nat) := do
  let (chosen, _, pos) ← (List.range count).foldlM
    (fun (acc : Array Nat × List Nat × Nat) _ => do
      let (rank, pos) ← unary data codes acc.2.2
      match toFront acc.2.1 rank with
      | some (code, order) => return (acc.1.push code, order, pos)
      | none => .error .corrupt)
    (#[], List.range codes, pos)
  return (chosen, pos)

/-- Reads one code length as steps up and down from the one before. -/
def codeLength (data : ByteArray) (length pos : Nat) : Except Stop (Nat × Nat) :=
  if length < 1 ∨ 20 < length then .error .corrupt
  else
    match hb : Bits.high? data pos with
    | none => .error .exhausted
    | some false => .ok (length, pos + 1)
    | some true =>
      match Bits.high? data (pos + 1) with
      | none => .error .exhausted
      | some down => codeLength data (if down then length - 1 else length + 1) (pos + 2)
termination_by 8 * data.size - pos
decreasing_by
  have : pos / 8 < data.size := by
    simp only [Bits.high?, Option.map_eq_some_iff] at hb
    obtain ⟨b, hb, -⟩ := hb
    exact (getElem?_eq_some_iff.1 hb).1
  omega

/-- Reads the lengths of one code over `size` symbols. -/
def codeTable (data : ByteArray) (size pos : Nat) : Except Stop (PrefixCode × Nat) := do
  let (first, pos) ← field data pos 5
  let (lengths, _, pos) ← (List.range size).foldlM (fun (acc : Array Nat × Nat × Nat) _ => do
    let (length, pos) ← codeLength data acc.2.1 acc.2.2
    return (acc.1.push length, length, pos)) (#[], first, pos)
  return (PrefixCode.ofLengths lengths 20, pos)

/-- What the symbols of a block are read with. -/
structure Codes where
  tables : Array PrefixCode
  selected : Array Nat
  /-- The symbol that ends the block. -/
  stop : Nat
  /-- The most bytes the block may hold. -/
  room : Nat

/-- Reads the symbols of a block. `order` holds the bytes in use, most recent first, `run` the
length of the zero run read so far and `weight` what its next digit is worth. -/
def symbols (c : Codes) (data : ByteArray) (pos index : Nat) (order : List UInt8)
    (run weight : Nat) (out : ByteArray) : Except Stop (ByteArray × Nat) :=
  match c.selected[index / groupSize]?.bind fun t => c.tables[t]? with
  | none => .error .corrupt
  | some table =>
    match table.read (Bits.high? data) pos with
    | .error e => .error e
    | .ok (symbol, next) =>
      if pos < next ∧ next ≤ 8 * data.size then
        -- The lowest two symbols are the digits 1 and 2 of the length of a run.
        if symbol ≤ 1 then
          if 2097152 ≤ weight then .error .corrupt
          else symbols c data next (index + 1) order (run + (symbol + 1) * weight) (2 * weight) out
        else if c.room < out.size + run then .error .corrupt
        else
          -- Any other symbol ends the run before it is looked at.
          let out := (List.replicate run (order.headD 0)).foldl ByteArray.push out
          if symbol = c.stop then .ok (out, next)
          else if c.room ≤ out.size then .error .corrupt
          else
            match toFront order (symbol - 1) with
            | none => .error .corrupt
            | some (b, order) => symbols c data next (index + 1) order 0 1 (out.push b)
      else .error .corrupt
termination_by 8 * data.size - pos

/-- A block as it was read: the content, whether its runs are whole, the check stored for it and
the position after it. -/
structure Block where
  content : ByteArray
  isWhole : Bool
  check : Nat
  next : Nat

/-- Reads a block after its mark. -/
def block (level : Nat) (data : ByteArray) (pos : Nat) : Except Stop Block := do
  let (check, pos) ← field data pos 32
  let (scrambled, pos) ← field data pos 1
  let (origin, pos) ← field data pos 24
  if 10 + 100000 * level < origin then .error .corrupt
  else
    let (used, pos) ← bytesInUse data pos
    if used.isEmpty then .error .corrupt
    else
      let (codes, pos) ← field data pos 3
      if codes < 2 ∨ 6 < codes then .error .corrupt
      else
        let (count, pos) ← field data pos 15
        if count < 1 then .error .corrupt
        else
          let (selected, pos) ← selectors data codes count pos
          let (tables, pos) ← (List.range codes).foldlM (fun (acc : Array PrefixCode × Nat) _ => do
            let (table, pos) ← codeTable data (used.length + 2) acc.2
            return (acc.1.push table, pos)) (#[], pos)
          let c : Codes := ⟨tables, selected, used.length + 1, 100000 * level⟩
          let (sorted, pos) ← symbols c data pos 0 used 0 1 ByteArray.empty
          if sorted.size ≤ origin then .error .corrupt
          else
            let text := unsort sorted origin
            let (content, isWhole) := unrun (if scrambled = 1 then unscramble text else text)
            return ⟨content, isWhole, check, pos⟩

/-! ## Streams -/

/-- The bytes that start a block: the digits of pi. -/
def blockMark : List UInt8 := [0x31, 0x41, 0x59, 0x26, 0x53, 0x59]

/-- The bytes that start the end of a stream: the digits of the square root of pi. -/
def endMark : List UInt8 := [0x17, 0x72, 0x45, 0x38, 0x50, 0x90]

/-- Reads the bytes `expected` one at a time; the first that differs is corrupt, even when the
rest is missing. -/
def expect (data : ByteArray) : List UInt8 → Nat → Except Stop Nat
  | [], pos => .ok pos
  | b :: rest, pos => do
    let (found, pos) ← field data pos 8
    if found = b.toNat then expect data rest pos else .error .corrupt

/-- Reads a mark and says whether it ends the stream. Only its first byte tells the two apart. -/
def mark (data : ByteArray) (pos : Nat) : Except Stop (Bool × Nat) := do
  let (first, next) ← field data pos 8
  if endMark.head? = some (UInt8.ofNat first) then
    return (true, ← expect data endMark.tail next)
  else
    return (false, ← expect data blockMark pos)

/-- Output without its last byte. -/
def withhold (out : ByteArray) : ByteArray := out.extract 0 (out.size - 1)

/-- A stop right behind the last byte of the output. -/
def stopBehind {α : Type} (stop : Stop) (out : ByteArray) : Except (Stop × ByteArray) α :=
  match stop with
  | .exhausted => .error (stop, out)
  | .corrupt => .error (stop, withhold out)

/-- Reads blocks up to the end of the stream; `combined` is the check of the blocks so far. -/
def blocks (level : Nat) (data : ByteArray) (pos : Nat) (combined : UInt32) (out : ByteArray) :
    Except (Stop × ByteArray) (ByteArray × Nat) :=
  match mark data pos with
  | .error e => stopBehind e out
  | .ok (true, next) =>
    match field data next 32 with
    | .error e => stopBehind e out
    | .ok (check, next) =>
      if check = combined.toNat then .ok (out, Bits.nextByte next) else stopBehind .corrupt out
  | .ok (false, next) =>
    match block level data next with
    | .error e => stopBehind e out
    | .ok b =>
      let out := out ++ b.content
      -- All of the content but its last byte is released even when its check is wrong.
      let found := Checksum.crc32Forward b.content
      if ¬ b.isWhole ∨ found.toNat ≠ b.check then stopBehind .corrupt out
      else if pos < b.next ∧ b.next ≤ 8 * data.size then
        blocks level data b.next (((combined <<< 1) ||| (combined >>> 31)) ^^^ found) out
      else stopBehind .corrupt out
termination_by 8 * data.size - pos

/-- Reads the header of a stream from byte `start`: how many times 100 000 bytes a block holds. -/
def header (data : ByteArray) (start : Nat) : Except StreamError (Nat × Nat) :=
  match expect data [0x42, 0x5a, 0x68] (8 * start) with
  | .error .exhausted => .error .bzip2CutShort
  | .error .corrupt => .error .bzip2Header
  | .ok pos =>
    match field data pos 8 with
    | .error _ => .error .bzip2CutShort
    | .ok (digit, pos) =>
      if 0x31 ≤ digit ∧ digit ≤ 0x39 then .ok (digit - 0x30, pos) else .error .bzip2Header

/-- Decodes the streams from byte `start` on, after the output `out`. -/
def streams (data : ByteArray) (start : Nat) (out : ByteArray) : Decoded :=
  match header data start with
  | .error e => ⟨Bytes.ofPacked out, some e⟩
  | .ok (level, pos) =>
    match blocks level data pos 0 ByteArray.empty with
    | .error (stop, content) =>
      ⟨Bytes.ofPacked (out ++ content), some
        (match stop with
        | .exhausted => .bzip2CutShort
        | .corrupt => .bzip2Corrupt)⟩
    | .ok (content, next) =>
      if data.size ≤ next then ⟨Bytes.ofPacked (out ++ content), none⟩
      else if start < next then streams data next (out ++ content)
      else ⟨Bytes.ofPacked (out ++ content), some .bzip2Corrupt⟩
termination_by data.size - start

/-- Decodes a whole bzip2 file. -/
def decode (data : ByteArray) : Decoded := streams data 0 ByteArray.empty

end FileListCache.Bzip2
