/-
  FileListCache.Compression.PrefixCode

  Canonical prefix codes: within one length, codes are consecutive and in the order of their
  symbols, and the codes of one length follow those of the next shorter one. So the lengths
  alone determine the code, and decoding needs only how many codes each length has.
-/

import FileListCache.Compression.Bits

namespace FileListCache

/-- Why a symbol or field could not be read. -/
inductive Stop
  | exhausted
  | corrupt
  deriving DecidableEq, Repr

/-- A canonical prefix code over the symbols `0, 1, 2, …`. -/
structure PrefixCode where
  /-- How many codes there are of each length. -/
  counts : Array Nat
  /-- The coded symbols, ordered by length and then by value. -/
  symbols : Array Nat

namespace PrefixCode

/-- The code in which symbol `i` has length `lengths[i]`; length zero means no code. -/
def ofLengths (lengths : Array Nat) (longest : Nat) : PrefixCode where
  counts := (Array.range (longest + 1)).map fun l => if l = 0 then 0 else lengths.count l
  symbols := ((List.range longest).flatMap fun l =>
    (List.range lengths.size).filter fun i => lengths.getD i 0 = l + 1).toArray

/-- What is left of the code space when every code of the given lengths is taken, in units of
the longest code. -/
def slack (c : PrefixCode) : Int :=
  (c.counts.toList.drop 1).foldl (fun (left : Int) (n : Nat) => 2 * left - n) 1

/-- How many symbols have a code. -/
def size (c : PrefixCode) : Nat := c.symbols.size

/-- Codes whose lengths neither overlap nor leave code space unused; a single symbol or none is
always allowed. -/
def isUsable (c : PrefixCode) : Bool := c.slack = 0 || c.size ≤ 1

/-- Reads one symbol from the bits `bit? pos`, `bit? (pos + 1)`, …, and the position after it. -/
def read (c : PrefixCode) (bit? : Nat → Option Bool) (pos : Nat) : Except Stop (Nat × Nat) :=
  go (c.counts.toList.drop 1) pos 0 0 0
where
  /-- Tries the lengths that are left. `code` holds the bits so far, `first` the first code of
  the length before, doubled on the way, and `index` the symbols with shorter codes. -/
  go : List Nat → Nat → Nat → Nat → Nat → Except Stop (Nat × Nat)
    | [], _, _, _, _ => .error .corrupt
    | count :: rest, pos, code, first, index =>
      match bit? pos with
      | none => .error .exhausted
      | some b =>
        let code := code + b.toNat
        -- Codes of one length are consecutive, so the distance from the first is the index.
        if first ≤ code ∧ code < first + count then
          match c.symbols[index + (code - first)]? with
          | some s => .ok (s, pos + 1)
          | none => .error .corrupt
        else go rest (pos + 1) (2 * code) (2 * (first + count)) (index + count)

end PrefixCode

end FileListCache
