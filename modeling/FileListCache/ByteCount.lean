/-
  FileListCache.ByteCount

  Counts of bytes for people: with binary units, as a share of a whole, and both at once as the
  message of a transfer.
-/

import FileListCache.Decimal

namespace FileListCache.ByteCount

/-- The units, each 1024 times the one before. -/
def units : List String := ["B", "KiB", "MiB", "GiB", "TiB", "PiB", "EiB"]

/-- The smallest counts that are shown in the second unit and those after it. The unit is chosen
by a logarithm in floating point, which rounds up just below the two largest powers. -/
def thresholds : List Nat :=
  let power := Nat.pow 1024
  [power 1, power 2, power 3, power 4, power 5 - 3, power 6 - 6208]

/-- The number of the unit in which a count is shown. -/
def unitOf (bytes : Nat) : Nat := (thresholds.takeWhile (· ≤ bytes)).length

/-- A count in its unit with the given number of places. -/
def format (bytes places : Nat) : String :=
  let unit := unitOf bytes
  let x := Decimal.toDouble bytes
  let scaled : Decimal.Dyadic := { x with exponent := x.exponent - 10 * (unit : Int) }
  scaled.fixed places ++ " " ++ units.getD unit ""

/-- The hundredth parts of `total` that `current` makes up, unless the total is unknown. -/
def percentage (current total : Nat) : Option Float :=
  if total = 0 then none
  else some (100.0 * ((UInt64.ofNat current).toFloat / (UInt64.ofNat total).toFloat))

/-- What a transfer shows: the amount, and the share done when the total is known. -/
def transferMessage (current total : Nat) : String :=
  let size := Decimal.alignRight (format current 2) 11
  match percentage current total with
  | none => size
  | some share =>
    size ++ " [" ++ Decimal.alignRight ((Decimal.Dyadic.ofFloat share).fixed 2) 6 ++ "%]"

end FileListCache.ByteCount
