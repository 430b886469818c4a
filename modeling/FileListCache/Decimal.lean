/-
  FileListCache.Decimal

  Fixed-point text of binary numbers: the exact value is rounded to the given number of places,
  and a value half way between two goes to the even one.
-/

namespace FileListCache.Decimal

/-- `num / den` rounded to the nearest integer, a half to the even one. -/
def roundDiv (num den : Nat) : Nat :=
  let q := num / den
  let r := num % den
  if 2 * r < den then q else if den < 2 * r then q + 1 else q + q % 2

/-- A binary fraction: `mantissa * 2 ^ exponent`. -/
structure Dyadic where
  mantissa : Nat
  exponent : Int
  deriving DecidableEq, Repr

/-- The value times `scale`, rounded to the nearest integer. -/
def Dyadic.scaled (x : Dyadic) (scale : Nat) : Nat :=
  if 0 ≤ x.exponent then x.mantissa * Nat.pow 2 x.exponent.toNat * scale
  else roundDiv (x.mantissa * scale) (Nat.pow 2 (-x.exponent).toNat)

/-- The digits of a number, with zeros before them to make at least `width`. -/
def padded (n width : Nat) : List Char :=
  let digits := Nat.toDigits 10 n
  List.replicate (width - digits.length) '0' ++ digits

/-- The value with the given number of places behind the point; no point without places. -/
def Dyadic.fixed (x : Dyadic) (places : Nat) : String :=
  let n := x.scaled (Nat.pow 10 places)
  let whole := Nat.toDigits 10 (n / Nat.pow 10 places)
  if places = 0 then String.ofList whole
  else String.ofList (whole ++ '.' :: padded (n % Nat.pow 10 places) places)

/-- The value of a floating-point number that is not negative. -/
def Dyadic.ofFloat (x : Float) : Dyadic :=
  let bits := x.toBits.toNat
  let fraction := bits % Nat.pow 2 52
  let exponent : Nat := bits / Nat.pow 2 52 % 2048
  if exponent = 0 then ⟨fraction, -1074⟩ else ⟨fraction + Nat.pow 2 52, (exponent : Int) - 1075⟩

/-- A number rounded to 53 binary digits, as floating-point conversion does, a half to the even
neighbour. -/
def toDouble (n : Nat) : Dyadic :=
  let shift := n.log2 - 52
  ⟨roundDiv n (Nat.pow 2 shift), shift⟩

/-- A text with blanks before it to make at least `width` characters. -/
def alignRight (s : String) (width : Nat) : String :=
  String.ofList (List.replicate (width - s.length) ' ' ++ s.toList)

end FileListCache.Decimal
