/-
  FileListCache.Compression.Lzma

  LZMA: literals and copies written with an adaptive binary range code. The decoder keeps a
  weight for every binary choice of the format; each choice made moves its weight towards what
  was chosen. Weights, the kind of the last few items and the last four distances are the
  memory that may be carried from one stretch of coded text to the next.
-/

import FileListCache.Bytes
import FileListCache.Compression.PrefixCode

namespace FileListCache.Lzma

/-! ## Properties -/

/-- How much context the choices depend on: bits of the byte before a literal, and low bits of
the position for literals and for everything else. -/
structure Properties where
  literalContext : Nat
  literalPosition : Nat
  position : Nat
  deriving DecidableEq, Repr

/-- Properties packed into a byte; a literal may depend on at most four bits. -/
def Properties.ofByte? (b : UInt8) : Option Properties :=
  let n := b.toNat
  let p : Properties := ⟨n % 9, n / 9 % 5, n / 45⟩
  if n < 225 ∧ p.literalContext + p.literalPosition ≤ 4 then some p else none

/-! ## The range code -/

/-- Where coded bytes come from: the bytes of `data` before `limit`. -/
structure Source where
  data : ByteArray
  limit : Nat

/-- The byte at `pos`; text that goes on past its own end is corrupt. -/
def Source.byte (s : Source) (pos : Nat) : Except Stop UInt8 :=
  match s.data[pos]? with
  | none => .error .exhausted
  | some b => if pos < s.limit then .ok b else .error .corrupt

/-- The state of the range decoder: the interval's width, the value within it, the next byte of
the source, and for each choice the chance, in 2048ths, that it is a zero. -/
structure Coder where
  width : UInt32
  value : UInt32
  pos : Nat
  weights : Array UInt32

/-- Computations that consume coded bits. -/
abbrev Coding := StateT Coder (Except Stop)

/-- Widens a narrow interval by the next byte. -/
def refill (s : Source) : Coding Unit := do
  let c ← get
  if c.width < 0x1000000 then
    let b ← s.byte c.pos
    set { c with width := c.width <<< 8, value := (c.value <<< 8) ||| b.toUInt32, pos := c.pos + 1 }

/-- Decodes the choice with weight `i` and adapts the weight. -/
def bit (s : Source) (i : Nat) : Coding Bool := do
  refill s
  modifyGet fun (c : Coder) =>
    let w : UInt32 := c.weights.getD i 1024
    -- The interval is cut in the ratio of the chances; the weight moves by a 32nd of the way.
    let bound := (c.width >>> 11) * w
    if c.value < bound then
      (false, { c with
        width := bound
        weights := c.weights.setIfInBounds i (w + ((2048 - w) >>> 5)) })
    else
      (true, { c with
        width := c.width - bound
        value := c.value - bound
        weights := c.weights.setIfInBounds i (w - (w >>> 5)) })

/-- Decodes a number of `count` even-chance bits, highest first. -/
def evenBits (s : Source) (count : Nat) : Coding Nat :=
  (List.range count).foldlM (fun n _ => do
    refill s
    modifyGet fun (c : Coder) =>
      let half := c.width >>> 1
      if c.value < half then (2 * n, { c with width := half })
      else (2 * n + 1, { c with width := half, value := c.value - half })) 0

/-- Decodes a number of `count` bits, highest first; the bits before it choose each bit's
weight among those from `base`. -/
def number (s : Source) (base count : Nat) : Coding Nat := do
  let node ← (List.range count).foldlM (fun node _ => do
    let b ← bit s (base + node)
    return 2 * node + b.toNat) 1
  return node - Nat.pow 2 count

/-- Decodes a number of `count` bits, lowest first. -/
def numberReversed (s : Source) (base count : Nat) : Coding Nat := do
  let (_, n) ← (List.range count).foldlM (fun (acc : Nat × Nat) i => do
    let b ← bit s (base + acc.1)
    return (2 * acc.1 + b.toNat, acc.2 + b.toNat * Nat.pow 2 i)) (1, 0)
  return n

/-! ## Where each choice keeps its weight -/

namespace Weight

def isCopy (state position : Nat) : Nat := 16 * state + position
def isRepeat (state : Nat) : Nat := 192 + state
def isNotLatest (state : Nat) : Nat := 204 + state
def isNotSecond (state : Nat) : Nat := 216 + state
def isNotThird (state : Nat) : Nat := 228 + state
def isLong (state position : Nat) : Nat := 240 + 16 * state + position
def distanceSlot (length : Nat) : Nat := 432 + 64 * min (length - 2) 3
def nearDistance : Nat := 688
def distanceLow : Nat := 803
def copyLength : Nat := 819
def repeatLength : Nat := 1333
def literal (context : Nat) : Nat := 1847 + 768 * context

/-- How many weights there are. -/
def count (p : Properties) : Nat := literal (Nat.pow 2 (p.literalContext + p.literalPosition))

end Weight

/-! ## Items -/

/-- What the decoder remembers of the items before. -/
structure Memory where
  weights : Array UInt32
  /-- What the last few items were, as a number below twelve; seven and more follow a copy. -/
  state : Nat := 0
  /-- The last four distances, latest first, each one less than how far back it reaches. -/
  latest : Nat := 0
  second : Nat := 0
  third : Nat := 0
  fourth : Nat := 0

/-- A memory that nothing was decoded into. -/
def Memory.fresh (p : Properties) : Memory := { weights := Array.replicate (Weight.count p) 1024 }

/-- The part of the output that copies may reach: what was written since `start`, and of that
the last `capacity` bytes. -/
structure Window where
  start : Nat
  capacity : Nat

/-- How far back a copy may reach. -/
def Window.reach (w : Window) (out : ByteArray) : Nat := min (out.size - w.start) w.capacity

/-- The byte `distance + 1` before the end, and zero before the start of the window. -/
def Window.byteBack (w : Window) (out : ByteArray) (distance : Nat) : UInt8 :=
  if distance < out.size - w.start then (out[out.size - 1 - distance]?).getD 0 else 0

/-- One item of coded text. -/
inductive Item
  | literal (b : UInt8)
  | copy (length : Nat)
  | finish

/-- Decodes the bits of a literal; after a copy the byte that the copy would have gone on with
helps to choose the weights, as long as the bits agree with it. -/
def literalByte (s : Source) (base : Nat) (expected : Option UInt8) : Coding UInt8 := do
  match expected with
  | none => return UInt8.ofNat (← number s base 8)
  | some e =>
    let (node, _) ← (List.range 8).foldlM (fun (acc : Nat × Bool) i => do
      -- Two more sets of weights serve as long as every bit so far was the expected one.
      let hint := e.toNat.testBit (7 - i)
      let offset := if acc.2 then (if hint then 512 else 256) else 0
      let b ← bit s (base + offset + acc.1)
      return (2 * acc.1 + b.toNat, acc.2 && b == hint)) (1, true)
    return UInt8.ofNat node

/-- Decodes the length of a copy. -/
def copyLength (s : Source) (base position : Nat) : Coding Nat := do
  if ← bit s base then
    if ← bit s (base + 1) then return 18 + (← number s (base + 258) 8)
    else return 10 + (← number s (base + 130 + 8 * position) 3)
  else return 2 + (← number s (base + 2 + 8 * position) 3)

/-- Decodes the distance of a copy of the given length. -/
def copyDistance (s : Source) (length : Nat) : Coding Nat := do
  let slot ← number s (Weight.distanceSlot length) 6
  if slot < 4 then return slot
  else
    -- The slot gives the two highest bits and how many are still to come.
    let bits := slot / 2 - 1
    let base := (2 + slot % 2) * Nat.pow 2 bits
    if slot < 14 then
      return base + (← numberReversed s (Weight.nearDistance + base - slot) bits)
    else
      -- Of far distances only the lowest four bits have weights.
      let high ← evenBits s (bits - 4)
      return base + 16 * high + (← numberReversed s Weight.distanceLow 4)

/-- The distance that stands for the end of the text. -/
def endDistance : Nat := 0xffffffff

/-- The memory after a literal. -/
def Memory.afterLiteral (m : Memory) : Memory :=
  { m with state := if m.state < 4 then 0 else if m.state < 10 then m.state - 3 else m.state - 6 }

/-- Decodes one item. -/
def item (s : Source) (p : Properties) (w : Window) (out : ByteArray) (m : Memory) :
    Coding (Item × Memory) := do
  let position := (out.size - w.start) % Nat.pow 2 p.position
  if ← bit s (Weight.isCopy m.state position) then
    if ← bit s (Weight.isRepeat m.state) then
      if w.reach out = 0 then throw Stop.corrupt
      let afterRepeat := { m with state := if m.state < 7 then 8 else 11 }
      -- Three choices tell which of the last distances is meant; that one moves to the front.
      let rotated ← do
        if ← bit s (Weight.isNotLatest m.state) then
          if ← bit s (Weight.isNotSecond m.state) then
            if ← bit s (Weight.isNotThird m.state) then
              pure (some { afterRepeat with
                latest := m.fourth, second := m.latest, third := m.second, fourth := m.third })
            else
              pure (some { afterRepeat with
                latest := m.third, second := m.latest, third := m.second })
          else pure (some { afterRepeat with latest := m.second, second := m.latest })
        else if ← bit s (Weight.isLong m.state position) then pure (some afterRepeat)
        else pure none
      match rotated with
      | none => return (.copy 1, { m with state := if m.state < 7 then 9 else 11 })
      | some m => return (.copy (← copyLength s Weight.repeatLength position), m)
    else
      let length ← copyLength s Weight.copyLength position
      let distance ← copyDistance s length
      if distance = endDistance then return (.finish, m)
      if w.reach out ≤ distance then throw Stop.corrupt
      return (.copy length, { m with
        state := if m.state < 7 then 7 else 10
        latest := distance, second := m.latest, third := m.second, fourth := m.third })
  else
    let low := (out.size - w.start) % Nat.pow 2 p.literalPosition
    let high := (w.byteBack out 0).toNat / Nat.pow 2 (8 - p.literalContext)
    let base := Weight.literal (Nat.pow 2 p.literalContext * low + high)
    let expected := if m.state < 7 then none else some (w.byteBack out m.latest)
    return (.literal (← literalByte s base expected), m.afterLiteral)

/-! ## Coded text -/

/-- Why coded text stopped early and what it had released. -/
abbrev Partial := Except (Stop × ByteArray)

/-- Output without its last byte: what is released when a fault stands right behind that byte,
where taking the byte already finds it. A window that was just started released all before it. -/
def Window.withhold (w : Window) (out : ByteArray) : ByteArray :=
  if w.start < out.size then out.extract 0 (out.size - 1) else out

/-- A stop right behind the last byte of the output. -/
def Window.stopBehind {α : Type} (w : Window) (stop : Stop) (out : ByteArray) : Partial α :=
  match stop with
  | .exhausted => .error (stop, out)
  | .corrupt => .error (stop, w.withhold out)

/-- Starts a range decoder at `pos`: a zero byte, then the first value. -/
def start (s : Source) (pos : Nat) (weights : Array UInt32) : Except Stop Coder := do
  let first ← s.byte pos
  if first ≠ 0 then throw .corrupt
  let value ← (List.range 4).foldlM (fun (v : UInt32) i => do
    return (v <<< 8) ||| (← s.byte (pos + 1 + i)).toUInt32) 0
  return ⟨0xffffffff, value, pos + 5, weights⟩

/-- Ends a range decoder: nothing may be left of the value. The byte after the text. -/
def finish (s : Source) (c : Coder) : Except Stop Coder := do
  let ((), c) ← (refill s).run c
  if c.value ≠ 0 then throw .corrupt
  return c

/-- Decodes items until `want` more bytes are written, or up to the end mark when `want` is
`none`; then each item is read ahead of being asked for, since it may be the mark. `fuel` bounds
the items. -/
def items (s : Source) (p : Properties) (w : Window) :
    Nat → Option Nat → Coder → Memory → ByteArray → Partial (ByteArray × Coder × Memory)
  | fuel, want, c, m, out =>
    if want = some 0 then
      match finish s c with
      | .error e => w.stopBehind e out
      | .ok c => .ok (out, c, m)
    else
      match fuel with
      | 0 => .error (.corrupt, out)
      | fuel + 1 =>
        match (item s p w out m).run c with
        | .error e => if want.isSome then .error (e, out) else w.stopBehind e out
        | .ok ((.literal b, m), c) => items s p w fuel (want.map (· - 1)) c m (out.push b)
        | .ok ((.copy length, m), c) =>
          let here := min length (want.getD length)
          let out := copyBack out (m.latest + 1) here
          -- A copy may not go on behind the content; the part that fits is written.
          if here < length then .error (.corrupt, w.withhold out)
          else items s p w fuel (want.map (· - here)) c m out
        | .ok ((.finish, m), c) =>
          if want.isSome then .error (.corrupt, out)
          else
            match finish s c with
            | .error e => w.stopBehind e out
            | .ok c => .ok (out, c, m)

/-- Decodes coded text that starts at `pos`, with the memory carried over from before. Returns
the output, the byte after the text and the memory. -/
def text (s : Source) (p : Properties) (w : Window) (fuel : Nat) (want : Option Nat) (pos : Nat)
    (m : Memory) (out : ByteArray) : Partial (ByteArray × Nat × Memory) :=
  match start s pos m.weights with
  | .error e => w.stopBehind e out
  | .ok c =>
    (items s p w fuel want c { m with weights := #[] } out).map fun (out, c, m) =>
      (out, c.pos, { m with weights := c.weights })

end FileListCache.Lzma
