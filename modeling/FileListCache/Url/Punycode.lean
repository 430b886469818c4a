/-
  FileListCache.Url.Punycode

  Labels of host names in ASCII. The characters outside ASCII are taken out of the label and
  written behind it as distances from one to the next, in a base whose digits change weight with
  the distances seen so far.
-/

namespace FileListCache.Url.Punycode

/-- The digit of a value below 36: letters, then numerals. -/
def digit (d : Nat) : Char := if d < 26 then Char.ofNat (0x61 + d) else Char.ofNat (0x30 + d - 26)

/-- The threshold at a digit position. -/
def threshold (position bias : Nat) : Nat :=
  if position ≤ bias then 1 else if bias + 26 ≤ position then 26 else position - bias

/-- A threshold is at least one and leaves a base above one. -/
theorem threshold_bounds (position bias : Nat) :
    1 ≤ threshold position bias ∧ threshold position bias ≤ 26 := by
  unfold threshold
  split
  · omega
  · split <;> omega

/-- Halves a distance over and over until it is small; counts 36 for each time. -/
def shrink (distance count : Nat) : Nat × Nat :=
  if 455 < distance then shrink (distance / 35) (count + 36) else (distance, count)
termination_by distance
decreasing_by exact Nat.div_lt_self (by omega) (by omega)

/-- The bias after a distance, when `points` characters are placed. -/
def adapt (distance points : Nat) (first : Bool) : Nat :=
  let d := if first then distance / 700 else distance / 2
  let (d, k) := shrink (d + d / points) 0
  k + 36 * d / (d + 38)

/-- The digits of a distance, from the given position on. -/
def digits (bias position distance : Nat) : List Char :=
  let t := threshold position bias
  if distance < t then [digit distance]
  else
    digit (t + (distance - t) % (36 - t)) ::
      digits bias (position + 36) ((distance - t) / (36 - t))
termination_by distance
decreasing_by
  have h := threshold_bounds position bias
  calc (distance - threshold position bias) / (36 - threshold position bias)
      ≤ distance - threshold position bias := Nat.div_le_self _ _
    _ < distance := by omega

/-- How far the encoding of a label has come. -/
structure Progress where
  written : List Char
  distance : Nat
  bias : Nat
  placed : Nat

/-- Passes one character of the label while the character with number `point` is placed. -/
def pass (basic point : Nat) (p : Progress) (c : Char) : Progress :=
  if c.toNat < point then { p with distance := p.distance + 1 }
  else if c.toNat = point then
    { written := p.written ++ digits p.bias 36 p.distance
      distance := 0
      bias := adapt p.distance (p.placed + 1) (p.placed = basic)
      placed := p.placed + 1 }
  else p

/-- Places the characters with the given numbers, in ascending order. -/
def place (label : List Char) (basic : Nat) : List Nat → Nat → Progress → Progress
  | [], _, p => p
  | point :: points, next, p =>
    -- Every number that is passed over counts once for each place the next character could take.
    let p := { p with distance := p.distance + (point - next) * (p.placed + 1) }
    let p := label.foldl (pass basic point) p
    place label basic points (point + 1) { p with distance := p.distance + 1 }

/-- The label in ASCII, without the mark for encoded labels. -/
def encode (label : List Char) : List Char :=
  let plain := label.filter fun c => c.toNat < 0x80
  let others := ((label.filter fun c => 0x80 ≤ c.toNat).map Char.toNat).eraseDups.mergeSort
  let start : Progress := ⟨[], 0, 72, plain.length⟩
  plain ++ (if plain.isEmpty then [] else ['-']) ++
    (place label plain.length others 128 start).written

end FileListCache.Url.Punycode
