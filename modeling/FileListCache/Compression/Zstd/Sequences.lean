/-
  FileListCache.Compression.Zstd.Sequences

  The second half of a block: how its literals and copies of earlier output alternate. Literal
  counts, copy lengths and distances are coded by three machines over one bit stream.
-/

import FileListCache.Bytes
import FileListCache.Compression.Zstd.StateCode

namespace FileListCache.Zstd

/-! ## The three alphabets -/

/-- An alphabet of numbers: a symbol gives a base and how many more bits to add to it. -/
structure Alphabet where
  bases : Array Nat
  extra : Array Nat
  maxLog : Nat
  /-- The table in use before any other is given. -/
  predefined : StateTable

/-- The largest symbol. -/
def Alphabet.largest (a : Alphabet) : Nat := a.bases.size - 1

/-- Counts of literals. -/
def literalCounts : Alphabet where
  bases := #[0, 1, 2, 3, 4, 5, 6, 7, 8, 9, 10, 11, 12, 13, 14, 15, 16, 18, 20, 22, 24, 28, 32, 40,
    48, 64, 128, 256, 512, 1024, 2048, 4096, 8192, 16384, 32768, 65536]
  extra := #[0, 0, 0, 0, 0, 0, 0, 0, 0, 0, 0, 0, 0, 0, 0, 0, 1, 1, 1, 1, 2, 2, 3, 3,
    4, 6, 7, 8, 9, 10, 11, 12, 13, 14, 15, 16]
  maxLog := 9
  predefined := .ofFrequencies 6 [4, 3, 2, 2, 2, 2, 2, 2, 2, 2, 2, 2, 2, 1, 1, 1, 2, 2, 2, 2, 2, 2,
    2, 2, 2, 3, 2, 1, 1, 1, 1, 1, -1, -1, -1, -1]

/-- Lengths of copies. -/
def copyLengths : Alphabet where
  bases := #[3, 4, 5, 6, 7, 8, 9, 10, 11, 12, 13, 14, 15, 16, 17, 18, 19, 20, 21, 22, 23, 24, 25,
    26, 27, 28, 29, 30, 31, 32, 33, 34, 35, 37, 39, 41, 43, 47, 51, 59, 67, 83, 99, 131, 259, 515,
    1027, 2051, 4099, 8195, 16387, 32771, 65539]
  extra := #[0, 0, 0, 0, 0, 0, 0, 0, 0, 0, 0, 0, 0, 0, 0, 0, 0, 0, 0, 0, 0, 0, 0,
    0, 0, 0, 0, 0, 0, 0, 0, 0, 1, 1, 1, 1, 2, 2, 3, 3, 4, 4, 5, 7, 8, 9,
    10, 11, 12, 13, 14, 15, 16]
  maxLog := 9
  predefined := .ofFrequencies 6 [1, 4, 3, 2, 2, 2, 2, 2, 2, 1, 1, 1, 1, 1, 1, 1, 1, 1, 1, 1, 1, 1,
    1, 1, 1, 1, 1, 1, 1, 1, 1, 1, 1, 1, 1, 1, 1, 1, 1, 1, 1, 1, 1, 1, 1, 1, -1, -1, -1, -1, -1, -1,
    -1]

/-- Distances, each three more than how far back the copy reaches; up to three they stand for
distances used before. -/
def distances : Alphabet where
  bases := (Array.range 32).map (Nat.pow 2)
  extra := Array.range 32
  maxLog := 8
  predefined := .ofFrequencies 5 [1, 1, 1, 1, 1, 1, 2, 2, 2, 1, 1, 1, 1, 1, 1, 1, 1, 1, 1, 1, 1, 1,
    1, 1, -1, -1, -1, -1, -1]

/-- The tables of the three alphabets. -/
structure Tables where
  literals : StateTable
  distances : StateTable
  copies : StateTable

/-- Reads the table of an alphabet as its mode says: predefined, one symbol, described or kept. -/
def Alphabet.table (a : Alphabet) (data : ByteArray) (mode : Nat) (kept : Option StateTable)
    (start stop : Nat) : Except StreamError (StateTable × Nat) :=
  match mode with
  | 0 => .ok (a.predefined, start)
  | 1 =>
    match (if start < stop then data[start]? else none) with
    | some b =>
      if a.largest < b.toNat then .error .zstdCorrupt else .ok (.constant b.toNat, start + 1)
    | none => .error .zstdCorrupt
  | 2 => StateTable.read data a.largest a.maxLog start stop
  | _ =>
    match kept with
    | some t => .ok (t, start)
    | none => .error .zstdCorrupt

/-! ## Sequences -/

/-- Some literals and then a copy; the distance is still coded. -/
structure Sequence where
  literals : Nat
  distance : Nat
  length : Nat
  deriving DecidableEq, Repr

/-- The states of the three machines. -/
structure Machines where
  literals : Nat
  distances : Nat
  copies : Nat

/-- Reads `count` sequences; the machines do not move on after the last one. -/
def readSequences (t : Tables) (data : ByteArray) : Nat → Machines → Backward → List Sequence →
    Except StreamError (List Sequence × Backward)
  | 0, _, s, acc => .ok (acc.reverse, s)
  | count + 1, m, s, acc => do
    let value (a : Alphabet) (symbol : Nat) (s : Backward) :
        Except StreamError (Nat × Backward) := do
      let (n, s) ← s.read data (a.extra.getD symbol 0)
      return (a.bases.getD symbol 0 + n, s)
    let (distance, s) ← value Zstd.distances (t.distances.get m.distances).symbol s
    let (length, s) ← value copyLengths (t.copies.get m.copies).symbol s
    let (literals, s) ← value literalCounts (t.literals.get m.literals).symbol s
    let acc := ⟨literals, distance, length⟩ :: acc
    -- The order differs: values are read distance first, states are moved on literals first.
    if count = 0 then return (acc.reverse, s)
    else
      let (ls, s) ← t.literals.next data m.literals s
      let (cs, s) ← t.copies.next data m.copies s
      let (ds, s) ← t.distances.next data m.distances s
      readSequences t data count ⟨ls, ds, cs⟩ s acc

/-- The three distances used last, the latest first. -/
structure Recent where
  first : Nat := 1
  second : Nat := 4
  third : Nat := 8
  deriving DecidableEq, Repr

/-- How far back a sequence copies, and the recent distances after it. Without literals before
it a sequence does not mean the latest distance, so the short codes move on by one. -/
def Recent.resolve (r : Recent) (q : Sequence) : Nat × Recent :=
  let code := if q.distance ≤ 3 ∧ q.literals = 0 then q.distance + 1 else q.distance
  if 3 < q.distance then (q.distance - 3, ⟨q.distance - 3, r.first, r.second⟩)
  else if code = 1 then (r.first, r)
  else if code = 2 then (r.second, ⟨r.second, r.first, r.third⟩)
  else
    let d := if code = 3 then r.third else r.first - 1
    (d, ⟨d, r.first, r.second⟩)

/-- The output of a block as it grows. -/
structure Output where
  out : ByteArray
  used : Nat
  recent : Recent

/-- Carries out one sequence. Copies reach back to `start`, where the frame's output begins. -/
def Output.step (literals : ByteArray) (start : Nat) (o : Output) (q : Sequence) :
    Except StreamError Output := do
  if literals.size < o.used + q.literals then throw .zstdCorrupt
  let out := (literals.extract o.used (o.used + q.literals)).foldl ByteArray.push o.out
  let (distance, recent) := o.recent.resolve q
  if distance = 0 ∨ out.size - start < distance then throw .zstdCorrupt
  return ⟨copyBack out distance q.length, o.used + q.literals, recent⟩

/-- How many sequences a block has, and the byte after the count. -/
def sequenceCount (data : ByteArray) (start stop : Nat) : Except StreamError (Nat × Nat) := do
  let byte (i : Nat) : Except StreamError Nat :=
    match (if start + i < stop then data[start + i]? else none) with
    | some b => .ok b.toNat
    | none => .error .zstdSize
  let first ← byte 0
  if first < 128 then return (first, start + 1)
  else if first < 255 then return ((first - 128) * 256 + (← byte 1), start + 2)
  else return ((← byte 1) + 256 * (← byte 2) + 0x7f00, start + 3)

/-- Reads the sequences in the bytes from `start` up to `stop`, with the tables kept from before,
and the tables to keep. -/
def sequences (data : ByteArray) (kept : Option Tables) (start stop : Nat) :
    Except StreamError (List Sequence × Option Tables) := do
  let (count, pos) ← sequenceCount data start stop
  if count = 0 then
    if pos ≠ stop then throw .zstdCorrupt
    return ([], kept)
  -- A byte says how each of the three tables is given.
  if stop ≤ pos then throw .zstdSize
  let modes := ((data[pos]?).getD 0).toNat
  if modes % 4 ≠ 0 then throw .zstdCorrupt
  let (ls, pos) ← literalCounts.table data (modes / 64) (kept.map (·.literals)) (pos + 1) stop
  let (ds, pos) ← distances.table data (modes / 16 % 4) (kept.map (·.distances)) pos stop
  let (cs, pos) ← copyLengths.table data (modes / 4 % 4) (kept.map (·.copies)) pos stop
  let t : Tables := ⟨ls, ds, cs⟩
  let s ← Backward.open? data pos stop
  let (l, s) ← ls.start data s
  let (d, s) ← ds.start data s
  let (c, s) ← cs.start data s
  let (found, s) ← readSequences t data count ⟨l, d, c⟩ s []
  if s.left ≠ 0 then throw .zstdCorrupt
  return (found, some t)

end FileListCache.Zstd
