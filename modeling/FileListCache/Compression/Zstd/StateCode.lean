/-
  FileListCache.Compression.Zstd.StateCode

  Tabled state machines that code symbols in fractions of a bit, and the bit streams they are
  read from, which run backwards: the last bit written is the first one read. A backward stream
  is a start in the file and the count of bits left, so a read lowers the count by exactly what
  it takes.
-/

import FileListCache.Compression.Stream
import FileListCache.Compression.Bits

namespace FileListCache.Zstd

/-! ## Backward bit streams -/

/-- A backward stream: the bits of the file from byte `start`, of which `left` are unread. -/
structure Backward where
  start : Nat
  left : Nat
  deriving DecidableEq, Repr

namespace Backward

/-- The stream in the bytes from `start` up to `stop`: the highest set bit of the last byte marks
its end. -/
def open? (data : ByteArray) (start stop : Nat) : Except StreamError Backward :=
  match (if start < stop then data[stop - 1]? else none) with
  | some b =>
    if b = 0 then .error .zstdCorrupt
    else .ok ⟨start, 8 * (stop - 1 - start) + Bits.highestSet b.toNat⟩
  | none => .error .zstdCorrupt

/-- Reads a number of `count` bits. -/
def read (data : ByteArray) (s : Backward) (count : Nat) : Except StreamError (Nat × Backward) :=
  if count ≤ s.left then
    match Bits.lowNumber? data (8 * s.start + (s.left - count)) count with
    | some n => .ok (n, { s with left := s.left - count })
    | none => .error .zstdCorrupt
  else .error .zstdCorrupt

/-- The next `count` bits without reading them, with zeros for those that are not there. -/
def peek (data : ByteArray) (s : Backward) (count : Nat) : Nat :=
  let here := min count s.left
  ((Bits.lowNumber? data (8 * s.start + (s.left - here)) here).getD 0) * Nat.pow 2 (count - here)

end Backward

/-! ## Tables -/

/-- What a state stands for: a symbol, and the next state as a base and a count of bits. -/
structure State where
  symbol : Nat
  bits : Nat
  base : Nat
  deriving DecidableEq, Repr, Inhabited

/-- A table of `2 ^ log` states. -/
structure StateTable where
  log : Nat
  states : Array State
  deriving DecidableEq, Repr

namespace StateTable

/-- The table of a single symbol, which takes no bits. -/
def constant (symbol : Nat) : StateTable := ⟨0, #[⟨symbol, 0, 0⟩]⟩

/-- The state with the given number. -/
def get (t : StateTable) (i : Nat) : State := t.states.getD i ⟨0, 0, 0⟩

/-- Spreads symbols over the states: rare ones, of frequency -1, take one state each from the
end, the others take theirs in strides. -/
def spread (log : Nat) (frequencies : List Int) : Array Nat :=
  let size := Nat.pow 2 log
  let numbered := frequencies.zipIdx
  let rare := (numbered.filter fun (f, _) => f = -1).map (·.2)
  let high := size - rare.length
  let start := (rare.zipIdx).foldl (fun (a : Array Nat) (s, i) => a.setIfInBounds (size - 1 - i) s)
    (Array.replicate size 0)
  -- The stride has no divisor in common with the size, so every state is met once.
  let stride := size / 2 + size / 8 + 3
  let positions := ((List.range size).map fun k => k * stride % size).filter (· < high)
  let occurrences := numbered.flatMap fun (f, s) => List.replicate f.toNat s
  (positions.zip occurrences).foldl (fun a (p, s) => a.setIfInBounds p s) start

/-- The table for frequencies that add up to `2 ^ log`. -/
def ofFrequencies (log : Nat) (frequencies : List Int) : StateTable :=
  let size := Nat.pow 2 log
  let counts := (frequencies.map fun f => if f = -1 then 1 else f.toNat).toArray
  let (states, _) := (spread log frequencies).foldl (fun (acc : Array State × Array Nat) s =>
    let next := acc.2.getD s 1
    let bits := log - Bits.highestSet next
    (acc.1.push ⟨s, bits, next * Nat.pow 2 bits - size⟩, acc.2.modify s (· + 1))) (#[], counts)
  ⟨log, states⟩

/-- What is read of a list of frequencies. -/
structure Reading where
  pos : Nat
  remaining : Int
  frequencies : List Int
  afterZero : Bool

/-- A number of `count` bits from the file, where bits behind `stop` are zero. -/
def bitsBefore (data : ByteArray) (stop pos count : Nat) : Nat :=
  let here := min count (8 * stop - pos)
  (Bits.lowNumber? data pos here).getD 0

/-- Reads how many frequencies are zero: twos of bits, of which a three says that more follow. -/
def zeroRun (data : ByteArray) (stop pos : Nat) : Nat → Nat → Nat × Nat
  | 0, run => (run, pos)
  | fuel + 1, run =>
    let n := bitsBefore data stop pos 2
    if n = 3 then zeroRun data stop (pos + 2) fuel (run + 3) else (run + n, pos + 2)

/-- Reads one frequency, with a bit less where the values that are left allow it. -/
def frequency (data : ByteArray) (stop pos : Nat) (remaining : Int) : Int × Nat :=
  let width := Bits.highestSet remaining.toNat
  let threshold := Nat.pow 2 width
  -- As many of the lowest values as the range leaves room for are written with one bit less.
  let short : Int := 2 * threshold - 1 - remaining
  let low : Int := bitsBefore data stop pos width
  if low < short then (low - 1, pos + width)
  else
    let full : Int := bitsBefore data stop pos (width + 1)
    ((if full < threshold then full else full - short) - 1, pos + width + 1)

/-- Reads frequencies until they are used up, for at most `fuel` symbols. -/
def readFrequencies (data : ByteArray) (stop limit : Nat) : Nat → Reading → Reading
  | 0, r => r
  | fuel + 1, r =>
    if r.remaining ≤ 1 then r
    else
      let (zeros, pos) := if r.afterZero then zeroRun data stop r.pos (limit + 1) 0 else (0, r.pos)
      if limit < r.frequencies.length + zeros then { r with remaining := 0 }
      else
        let (f, pos) := frequency data stop pos r.remaining
        readFrequencies data stop limit fuel {
          pos
          remaining := r.remaining - f.natAbs
          frequencies := r.frequencies ++ List.replicate zeros 0 ++ [f]
          afterZero := f = 0 }

/-- Reads a table's description from the bytes from `start` up to `stop`: its symbols are at most
`limit` and its log at most `maxLog`. Returns the table and the byte after the description. -/
def read (data : ByteArray) (limit maxLog start stop : Nat) :
    Except StreamError (StateTable × Nat) := do
  if stop ≤ start then throw .zstdCorrupt
  let log := bitsBefore data stop (8 * start) 4 + 5
  if maxLog < log then throw .zstdCorrupt
  let r := readFrequencies data stop limit (limit + 1) ⟨8 * start + 4, Nat.pow 2 log + 1, [], false⟩
  let next := Bits.nextByte r.pos
  if r.remaining ≠ 1 ∨ stop < next then throw .zstdCorrupt
  return (ofFrequencies log r.frequencies, next)

/-- Starts a machine: the number of its first state. -/
def start (t : StateTable) (data : ByteArray) (s : Backward) :
    Except StreamError (Nat × Backward) :=
  Backward.read data s t.log

/-- Moves a machine on: the number of the state after `i`. -/
def next (t : StateTable) (data : ByteArray) (i : Nat) (s : Backward) :
    Except StreamError (Nat × Backward) := do
  let state := t.get i
  let (n, s) ← Backward.read data s state.bits
  return (state.base + n, s)

end StateTable

end FileListCache.Zstd
