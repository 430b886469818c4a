/-
  FileListCache.Text.Character

  Classes of Unicode characters that the file formats and the path notation refer to, and what
  is cut off a text with them.
-/

import FileListCache.Text.WordTable

namespace FileListCache.Text

/-- The characters with the Unicode property White_Space. -/
def isBlank (c : Char) : Bool :=
  let n := c.toNat
  (9 ≤ n && n ≤ 13) || n = 0x20 || n = 0x85 || n = 0xa0 || n = 0x1680 ||
    (0x2000 ≤ n && n ≤ 0x200a) || n = 0x2028 || n = 0x2029 || n = 0x202f || n = 0x205f ||
    n = 0x3000

/-- Whether a code point lies in one of the ranges from `lo` up to `hi` of an ascending table. -/
def inRanges (table : Array (Nat × Nat)) (n lo hi : Nat) : Bool :=
  if lo < hi then
    let middle := (lo + hi) / 2
    match table[middle]? with
    | none => false
    | some (first, last) =>
      if n < first then inRanges table n lo middle
      else if last < n then inRanges table n (middle + 1) hi
      else true
  else false
termination_by hi - lo

/-- Letters and numbers of any script. -/
def isAlphanumeric (c : Char) : Bool := inRanges wordRanges c.toNat 0 wordRanges.size

/-- Characters that may stand in the name of a variable. -/
def isWord (c : Char) : Bool := c = '_' || isAlphanumeric c

/-- A text without blanks at its start. -/
def trimStart (cs : List Char) : List Char := cs.dropWhile isBlank

/-- A text without blanks at its end. -/
def trimEnd (cs : List Char) : List Char := (cs.reverse.dropWhile isBlank).reverse

/-- A text without blanks at either end. -/
def trim (cs : List Char) : List Char := trimEnd (trimStart cs)

/-- Blanks at the ends of a string removed. -/
def trimmed (s : String) : String := String.ofList (trim s.toList)

/-- Splits at the first character that `p` accepts; that character is dropped. -/
def splitFirst (p : Char → Bool) (cs : List Char) : Option (List Char × List Char) :=
  match cs.dropWhile (fun c => !p c) with
  | [] => none
  | _ :: after => some (cs.takeWhile (fun c => !p c), after)

/-- What is split off is shorter than the whole. -/
theorem length_splitFirst {p : Char → Bool} {cs before after : List Char}
    (h : splitFirst p cs = some (before, after)) : after.length < cs.length := by
  have hd := (List.dropWhile_suffix (fun c => !p c) (l := cs)).length_le
  unfold splitFirst at h
  split at h
  · contradiction
  · next c rest heq =>
    rw [heq, List.length_cons] at hd
    cases h
    omega

end FileListCache.Text
