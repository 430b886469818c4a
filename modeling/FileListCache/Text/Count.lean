/-
  FileListCache.Text.Count

  Counts as people and servers write them: decimal digits, with a plus sign in front at most, and
  no more than a word of 64 bits holds.
-/

namespace FileListCache.Text

/-- The largest count. -/
def largestCount : Nat := Nat.pow 2 64 - 1

/-- The value of decimal digits. -/
def digitsValue (ds : List Char) : Nat := ds.foldl (fun n c => 10 * n + (c.toNat - '0'.toNat)) 0

/-- The count that a text states. -/
def count? (s : String) : Option Nat :=
  let ds := match s.toList with
    | '+' :: ds => ds
    | ds => ds
  if ds.isEmpty ∨ !ds.all Char.isDigit then none
  else if digitsValue ds ≤ largestCount then some (digitsValue ds)
  else none

end FileListCache.Text
