/-
  FileListCache.Toml.Scalar

  Values that are written as single words: numbers, truth values and dates.
-/

import FileListCache.Toml.Quoted
import FileListCache.Toml.Value

namespace FileListCache.Toml.Scalar

/-! ## Numbers -/

/-- The digits of a number that may have single underscores between its digits. -/
def digits? (isDigit : Char → Bool) : List Char → Option (List Char)
  | [] => none
  | [c] => if isDigit c then some [c] else none
  | c :: '_' :: rest => if isDigit c then (digits? isDigit rest).map (c :: ·) else none
  | c :: rest => if isDigit c then (digits? isDigit rest).map (c :: ·) else none

/-- The value of digits in a base. -/
def valueOf (base : Nat) (ds : List Char) : Nat :=
  ds.foldl (fun n c => base * n + (Quoted.hexDigit? c).getD 0) 0

/-- Whether a character is a digit in a base. -/
def isDigitIn (base : Nat) (c : Char) : Bool := (Quoted.hexDigit? c).any (· < base)

/-- The digits of a decimal whole number, of which the first is zero only if it is alone. -/
def decimal? (cs : List Char) : Option (List Char) :=
  (digits? Char.isDigit cs).bind fun ds =>
    if ds.head? = some '0' ∧ ds.length ≠ 1 then none else some ds

/-- A number within the limits for whole numbers. -/
def inLimits (n : Int) : Option Int :=
  let limit : Int := Int.ofNat (Nat.pow 2 127)
  if -limit ≤ n ∧ n < 2 * limit then some n else none

/-- Takes the sign off a number. -/
def unsigned : List Char → Bool × List Char
  | '-' :: cs => (true, cs)
  | '+' :: cs => (false, cs)
  | cs => (false, cs)

/-- Reads a whole number: decimal with a sign, or with the mark of another base. -/
def integer? (cs : List Char) : Option Int :=
  match cs with
  | '0' :: 'x' :: ds => (digits? (isDigitIn 16) ds).bind fun ds => inLimits (valueOf 16 ds)
  | '0' :: 'o' :: ds => (digits? (isDigitIn 8) ds).bind fun ds => inLimits (valueOf 8 ds)
  | '0' :: 'b' :: ds => (digits? (isDigitIn 2) ds).bind fun ds => inLimits (valueOf 2 ds)
  | _ =>
    let (negative, ds) := unsigned cs
    (decimal? ds).bind fun ds =>
      inLimits (if negative then -(valueOf 10 ds : Int) else valueOf 10 ds)

/-- Whether a word is the exponent of a number. -/
def isExponent (cs : List Char) : Bool :=
  match cs with
  | 'e' :: rest | 'E' :: rest => (digits? Char.isDigit (unsigned rest).2).isSome
  | _ => false

/-- Whether a word is a number with a fraction or an exponent, or no ordinary number at all. -/
def isFraction (cs : List Char) : Bool :=
  let (_, cs) := unsigned cs
  let inWhole (c : Char) : Bool := c.isDigit || c = '_'
  let rest := cs.dropWhile inWhole
  if cs = ['i', 'n', 'f'] ∨ cs = ['n', 'a', 'n'] then true
  else
    (decimal? (cs.takeWhile inWhole)).isSome &&
      match rest with
      | '.' :: places =>
        (digits? Char.isDigit (places.takeWhile inWhole)).isSome &&
          (let behind := places.dropWhile inWhole
           behind.isEmpty || isExponent behind)
      | _ => isExponent rest

/-! ## Dates and times -/

/-- Reads a number of exactly `count` digits. -/
def fixed? (count : Nat) (cs : List Char) : Option (Nat × List Char) :=
  let ds := cs.take count
  if ds.length = count ∧ ds.all Char.isDigit then some (valueOf 10 ds, cs.drop count) else none

/-- Reads a given character. -/
def expect? (c : Char) : List Char → Option (List Char)
  | d :: rest => if c = d then some rest else none
  | [] => none

/-- How many days a month has. -/
def daysIn (year month : Nat) : Nat :=
  if month = 2 then
    if year % 4 = 0 ∧ (year % 100 ≠ 0 ∨ year % 400 = 0) then 29 else 28
  else if [4, 6, 9, 11].contains month then 30 else 31

/-- Reads a day of the calendar and gives what follows. -/
def day? (cs : List Char) : Option (List Char) := do
  let (year, cs) ← fixed? 4 cs
  let (month, cs) ← fixed? 2 (← expect? '-' cs)
  let (day, cs) ← fixed? 2 (← expect? '-' cs)
  if 1 ≤ month ∧ month ≤ 12 ∧ 1 ≤ day ∧ day ≤ daysIn year month then return cs else none

/-- Reads an hour and a minute. -/
def clock? (cs : List Char) : Option (List Char) := do
  let (hour, cs) ← fixed? 2 cs
  let (minute, cs) ← fixed? 2 (← expect? ':' cs)
  if hour ≤ 23 ∧ minute ≤ 59 then return cs else none

/-- Reads a time of the day, with seconds and parts of a second if they are there. -/
def time? (cs : List Char) : Option (List Char) := do
  let cs ← clock? cs
  match cs with
  | ':' :: rest => do
    let (second, rest) ← fixed? 2 rest
    if 60 < second then none
    match rest with
    | '.' :: parts =>
      if (parts.takeWhile Char.isDigit).isEmpty then none else return parts.dropWhile Char.isDigit
    | _ => return rest
  | _ => return cs

/-- Whether a text is empty or a distance from universal time. -/
def isZone (cs : List Char) : Bool :=
  match cs with
  | [] | ['Z'] | ['z'] => true
  | '+' :: rest | '-' :: rest => clock? rest = some []
  | _ => false

/-- Whether a word is a date, a time or both. -/
def isDate (cs : List Char) : Bool :=
  match day? cs with
  | some [] => true
  | some (c :: rest) => (c = 'T' || c = 't' || c = ' ') && (time? rest).any isZone
  | none => time? cs = some []

/-! ## Words -/

/-- Characters that end a word. -/
def endsWord (c : Char) : Bool :=
  Quoted.isSpace c || [',', ']', '[', '\x7d', '\x7b', '#', '=', '"', '\'', '\n', '\r'].contains c

/-- Splits off a word. A blank belongs to it between a date and a time. -/
def word (cs : List Char) : List Char × List Char :=
  let first := cs.takeWhile fun c => !endsWord c
  let rest := cs.dropWhile fun c => !endsWord c
  match rest with
  | ' ' :: d :: _ =>
    if day? first = some [] ∧ d.isDigit then
      (first ++ ' ' :: (rest.drop 1).takeWhile (fun c => !endsWord c),
        (rest.drop 1).dropWhile fun c => !endsWord c)
    else (first, rest)
  | _ => (first, rest)

/-- The value that a word stands for. -/
def ofWord? (cs : List Char) : Option Value :=
  if cs = ['t', 'r', 'u', 'e'] then some (.boolean true)
  else if cs = ['f', 'a', 'l', 's', 'e'] then some (.boolean false)
  else
    match integer? cs with
    | some n => some (.integer n)
    | none => if isFraction cs then some .fraction else if isDate cs then some .date else none

end FileListCache.Toml.Scalar
