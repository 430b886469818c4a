/-
  FileListCache.Url.Host

  The host of an address: a name, four numbers, or eight hexadecimal groups in brackets. Reading
  gives the one text by which all spellings of a host are written.
-/

import FileListCache.Url.Percent
import FileListCache.Url.Punycode

namespace FileListCache

/-- Why a text is no address. -/
inductive UrlError
  | emptyHost
  | badName
  | badPort
  | badNumbers
  | badGroups
  | badHostCharacter
  | relative
  deriving DecidableEq, Repr

/-- The sentence a user reads. -/
def UrlError.message : UrlError → String
  | emptyHost => "empty host"
  | badName => "invalid international domain name"
  | badPort => "invalid port number"
  | badNumbers => "invalid IPv4 address"
  | badGroups => "invalid IPv6 address"
  | badHostCharacter => "invalid domain character"
  | relative => "relative URL without a base"

namespace Url.Host

/-! ## Names -/

/-- Characters that are left out of names. -/
def isIgnored (c : Char) : Bool :=
  let n := c.toNat
  [0xad, 0x34f, 0x200b, 0x2060, 0x2064, 0xfeff].contains n || (0x180b ≤ n && n ≤ 0x180f) ||
    (0xfe00 ≤ n && n ≤ 0xfe0f)

/-- The character that a name has instead: letters become small, wide forms narrow, and the full
stops of other scripts dots. -/
def folded (c : Char) : Char :=
  let n := c.toNat
  if n = 0x3002 ∨ n = 0xff0e ∨ n = 0xff61 then '.'
  else
    let n := if 0xff01 ≤ n ∧ n ≤ 0xff5e then n - 0xfee0 else n
    if 0x41 ≤ n ∧ n ≤ 0x5a then Char.ofNat (n + 0x20)
    else if 0xc0 ≤ n ∧ n ≤ 0xde ∧ n ≠ 0xd7 then Char.ofNat (n + 0x20)
    else if 0x391 ≤ n ∧ n ≤ 0x3a9 ∧ n ≠ 0x3a2 then Char.ofNat (n + 0x20)
    else if 0x400 ≤ n ∧ n ≤ 0x40f then Char.ofNat (n + 0x50)
    else if 0x410 ≤ n ∧ n ≤ 0x42f then Char.ofNat (n + 0x20)
    else Char.ofNat n

/-- Characters that no host may hold. -/
def isForbidden (c : Char) : Bool :=
  [Char.ofNat 0, '\t', '\n', '\r', ' ', '#', '/', ':', '<', '>', '?', '@', '[', '\\', ']', '^',
    '|'].contains c

/-- Characters that no name may hold. -/
def isForbiddenInName (c : Char) : Bool :=
  isForbidden c || c.toNat < 0x20 || c = '%' || c.toNat = 0x7f

/-- A label of a name in ASCII. -/
def label (cs : List Char) : List Char :=
  if cs.all fun c => c.toNat < 0x80 then cs else "xn--".toList ++ Punycode.encode cs

/-- Reads a name. -/
def name (cs : List Char) : Except UrlError (List Char) :=
  match Utf8.strict? (Percent.decode cs) with
  | none => .error .badName
  | some s =>
    let cs := (s.toList.filter fun c => !isIgnored c).map folded
    if cs.any isForbiddenInName then .error .badName
    else .ok (['.'].intercalate ((cs.splitOn '.').map label))

/-! ## Four numbers -/

/-- Reads one number: decimal, octal with a zero before it, or hexadecimal. -/
def number? (cs : List Char) : Option Nat :=
  let value (base : Nat) (ds : List Char) : Option Nat :=
    ds.foldl (fun n c => n.bind fun n => (Percent.digit? c).bind fun d =>
      if d < base then some (base * n + d) else none) (some 0)
  match cs with
  | [] => none
  | '0' :: 'x' :: ds | '0' :: 'X' :: ds => value 16 ds
  | '0' :: d :: ds => value 8 (d :: ds)
  | ds => value 10 ds

/-- The parts of a name between its dots; one dot at the end does not count. -/
def parts (cs : List Char) : List (List Char) :=
  let ps := cs.splitOn '.'
  if 1 < ps.length ∧ ps.getLast? = some [] then ps.dropLast else ps

/-- Whether the last part of a name is a number, so that all of it must be. -/
def endsInNumber (cs : List Char) : Bool :=
  match (parts cs).getLast? with
  | some last => (!last.isEmpty && last.all Char.isDigit) || (number? last).isSome
  | none => false

/-- Reads numbers: each but the last is one byte, and the last makes up all bytes that are left. -/
def numbers (cs : List Char) : Except UrlError (List Char) :=
  match (parts cs).mapM number? with
  | none => .error .badNumbers
  | some ns =>
    let first := ns.dropLast
    let last := (ns.getLast?).getD 0
    if 4 < ns.length ∨ first.any (255 < ·) ∨ Nat.pow 256 (5 - ns.length) ≤ last then
      .error .badNumbers
    else
      -- Each number but the last gives one byte, from the highest down.
      let high := first.zipIdx.foldr (fun (n, i) sum => n * Nat.pow 256 (3 - i) + sum) 0
      let n := high + last
      .ok (".".intercalate ([3, 2, 1, 0].map fun i => toString (n / Nat.pow 256 i % 256))).toList

/-! ## Eight groups -/

/-- Reads a group of up to four hexadecimal digits. -/
def group? (cs : List Char) : Option Nat :=
  if cs.isEmpty ∨ 4 < cs.length then none
  else cs.foldl (fun n c => n.bind fun n => (Percent.digit? c).map (16 * n + ·)) (some 0)

/-- Reads four decimal numbers as two groups. -/
def decimalGroups? (cs : List Char) : Option (List Nat) :=
  let byte? (ds : List Char) : Option Nat :=
    if ds.isEmpty ∨ 3 < ds.length ∨ !ds.all Char.isDigit ∨ (1 < ds.length ∧ ds.head? = some '0')
    then none
    else (String.ofList ds).toNat?.filter (· ≤ 255)
  match (cs.splitOn '.').mapM byte? with
  | some [a, b, c, d] => some [256 * a + b, 256 * c + d]
  | _ => none

/-- Reads groups with colons between them; the last may be four decimal numbers. -/
def groupList? (cs : List Char) : Option (List Nat) :=
  if cs.isEmpty then some []
  else
    let ps := cs.splitOn ':'
    match ps.dropLast.mapM group?, ps.getLast? with
    | some first, some last =>
      if last.contains '.' then (decimalGroups? last).map (first ++ ·)
      else (group? last).map fun g => first ++ [g]
    | _, _ => none

/-- Reads eight groups, of which zeros in a row may be left out once. -/
def groups? (cs : List Char) : Option (List Nat) :=
  match (String.ofList cs).splitOn "::" with
  | [whole] => (groupList? whole.toList).filter (·.length = 8)
  | [before, after] =>
    match groupList? before.toList, groupList? after.toList with
    | some b, some a =>
      -- At least one group has to be left out, and decimal numbers stand only at the end.
      if before.toList.contains '.' ∨ 7 < b.length + a.length then none
      else some (b ++ List.replicate (8 - b.length - a.length) 0 ++ a)
    | _, _ => none
  | _ => none

/-- Start and length of the first longest run of zeros that is longer than one. -/
def longestZeros (gs : List Nat) : Option (Nat × Nat) :=
  ((List.range gs.length).map fun i => (i, ((gs.drop i).takeWhile (· = 0)).length)).foldl
    (fun best r =>
      if r.2 < 2 then best
      else
        match best with
        | none => some r
        | some b => if b.2 < r.2 then some r else best) none

/-- A group in hexadecimal. -/
def showGroup (n : Nat) : String := String.ofList (Nat.toDigits 16 n)

/-- Eight groups with the longest run of zeros left out. -/
def showGroups (gs : List Nat) : String :=
  match longestZeros gs with
  | none => ":".intercalate (gs.map showGroup)
  | some (start, count) =>
    ":".intercalate ((gs.take start).map showGroup) ++ "::" ++
      ":".intercalate ((gs.drop (start + count)).map showGroup)

/-- Reads groups in brackets, from behind the opening one. -/
def bracketed (cs : List Char) : Except UrlError (List Char) :=
  if cs.getLast? ≠ some ']' then .error .badGroups
  else
    match groups? cs.dropLast with
    | some gs => .ok ('[' :: (showGroups gs).toList ++ [']'])
    | none => .error .badGroups

/-! ## Any host -/

/-- Reads the host of an address of the web or of a file. -/
def ofText (cs : List Char) : Except UrlError (List Char) :=
  match cs with
  | '[' :: rest => bracketed rest
  | _ => do
    let name ← name cs
    if name.isEmpty then throw .emptyHost
    else if endsInNumber name then numbers name
    else return name

/-- Reads the host of an address of another kind, which stays as it is written. -/
def verbatim (cs : List Char) : Except UrlError (List Char) :=
  match cs with
  | '[' :: rest => bracketed rest
  | _ =>
    if cs.any isForbidden then .error .badHostCharacter
    else .ok (Percent.encode Percent.isControl cs)

end Url.Host

end FileListCache
