/-
  FileListCache.Toml.Quoted

  The four written forms of a text: in double quotes, where a backslash begins an escape, or in
  single quotes, where every character stands for itself, and both on one line or on several
  between three quotes. Reading takes any form; writing chooses the plainest that can hold the
  text.
-/

namespace FileListCache.Toml.Quoted

/-- Control characters other than the tab, which no form holds as they are. -/
def isControl (c : Char) : Bool := (c.toNat < 0x20 && c ≠ '\t') || c.toNat = 0x7f

/-- Blanks within a line. -/
def isSpace (c : Char) : Bool := c = ' ' || c = '\t'

/-! ## Escapes -/

/-- The value of a hexadecimal digit. -/
def hexDigit? (c : Char) : Option Nat :=
  if '0' ≤ c ∧ c ≤ '9' then some (c.toNat - '0'.toNat)
  else if 'a' ≤ c ∧ c ≤ 'f' then some (c.toNat - 'a'.toNat + 10)
  else if 'A' ≤ c ∧ c ≤ 'F' then some (c.toNat - 'A'.toNat + 10)
  else none

/-- The character whose number is written in hexadecimal digits. -/
def ofHex? (digits : List Char) : Option Char :=
  (digits.foldl (fun n c => n.bind fun n => (hexDigit? c).map (16 * n + ·)) (some 0)).bind fun n =>
    if n < 0xd800 ∨ (0xe000 ≤ n ∧ n < 0x110000) then some (Char.ofNat n) else none

/-- The character that an escape stands for, from behind the backslash. -/
def escape? : List Char → Option (Char × List Char)
  | 'b' :: rest => some ('\x08', rest)
  | 't' :: rest => some ('\t', rest)
  | 'n' :: rest => some ('\n', rest)
  | 'f' :: rest => some ('\x0c', rest)
  | 'r' :: rest => some ('\r', rest)
  | 'e' :: rest => some ('\x1b', rest)
  | '"' :: rest => some ('"', rest)
  | '\\' :: rest => some ('\\', rest)
  | 'x' :: a :: b :: rest => (ofHex? [a, b]).map (·, rest)
  | 'u' :: a :: b :: c :: d :: rest => (ofHex? [a, b, c, d]).map (·, rest)
  | 'U' :: a :: b :: c :: d :: e :: f :: g :: h :: rest =>
    (ofHex? [a, b, c, d, e, f, g, h]).map (·, rest)
  | _ => none

/-- What is left behind an escape is shorter. -/
theorem length_of_escape? {cs rest : List Char} {c : Char} (h : escape? cs = some (c, rest)) :
    rest.length < cs.length := by
  unfold escape? at h
  split at h
  case h_9 | h_10 | h_11 =>
    obtain ⟨_, _, h⟩ := Option.map_eq_some_iff.1 h
    cases h
    simp only [List.length_cons]
    omega
  case h_12 => contradiction
  all_goals
    cases h
    simp

/-- The text behind a backslash at the end of a line: blanks and line breaks are skipped. -/
def afterLineEnd? (cs : List Char) : Option (List Char) :=
  match cs.dropWhile isSpace with
  | '\n' :: rest => some (rest.dropWhile fun c => isSpace c || c = '\n' || c = '\r')
  | '\r' :: '\n' :: rest => some (rest.dropWhile fun c => isSpace c || c = '\n' || c = '\r')
  | _ => none

/-- What is left behind the end of a line is shorter. -/
theorem length_of_afterLineEnd? {cs rest : List Char} (h : afterLineEnd? cs = some rest) :
    rest.length < cs.length := by
  have hd := (List.dropWhile_suffix isSpace (l := cs)).length_le
  unfold afterLineEnd? at h
  split at h
  · next r heq =>
    have hr := (List.dropWhile_suffix
      (fun c => isSpace c || c = '\n' || c = '\r') (l := r)).length_le
    rw [heq, List.length_cons] at hd
    cases h
    omega
  · next r heq =>
    have hr := (List.dropWhile_suffix
      (fun c => isSpace c || c = '\n' || c = '\r') (l := r)).length_le
    rw [heq, List.length_cons, List.length_cons] at hd
    cases h
    omega
  · contradiction

/-! ## Reading

Each function starts behind the opening quotes and gives the text and what follows the closing
quotes. -/

/-- Reads on one line in double quotes. -/
def basic (cs : List Char) : Option (List Char × List Char) :=
  match cs with
  | [] => none
  | '"' :: rest => some ([], rest)
  | '\\' :: rest =>
    match _he : escape? rest with
    | none => none
    | some (c, after) => (basic after).map fun r => (c :: r.1, r.2)
  | c :: rest => if isControl c then none else (basic rest).map fun r => (c :: r.1, r.2)
termination_by cs.length
decreasing_by
  · have := length_of_escape? _he
    simp only [List.length_cons]
    omega
  · simp

/-- Reads on one line in single quotes. -/
def literal : List Char → Option (List Char × List Char)
  | [] => none
  | '\'' :: rest => some ([], rest)
  | c :: rest => if isControl c then none else (literal rest).map fun r => (c :: r.1, r.2)

/-- A text that starts with closing quotes: up to two quotes before the last three belong to the
text that they close. -/
def closing? (quote : Char) (cs : List Char) : Option (List Char × List Char) :=
  -- At most two quotes can stand before the three that close the text.
  let count := min 5 (cs.takeWhile (· = quote)).length
  if count < 3 then none else some (List.replicate (count - 3) quote, cs.drop count)

/-- Reads on several lines in double quotes. -/
def multiBasic (cs : List Char) : Option (List Char × List Char) :=
  match closing? '"' cs with
  | some r => some r
  | none =>
    match cs with
    | [] => none
    | '\\' :: rest =>
      match _hl : afterLineEnd? rest with
      | some after => multiBasic after
      | none =>
        match _he : escape? rest with
        | none => none
        | some (c, after) => (multiBasic after).map fun r => (c :: r.1, r.2)
    | '\r' :: '\n' :: rest => (multiBasic rest).map fun r => ('\r' :: '\n' :: r.1, r.2)
    | c :: rest =>
      if isControl c && c ≠ '\n' then none else (multiBasic rest).map fun r => (c :: r.1, r.2)
termination_by cs.length
decreasing_by
  · have := length_of_afterLineEnd? _hl
    simp only [List.length_cons]
    omega
  · have := length_of_escape? _he
    simp only [List.length_cons]
    omega
  · simp only [List.length_cons]
    omega
  · simp

/-- Reads on several lines in single quotes. -/
def multiLiteral (cs : List Char) : Option (List Char × List Char) :=
  match closing? '\'' cs with
  | some r => some r
  | none =>
    match cs with
    | [] => none
    | '\r' :: '\n' :: rest => (multiLiteral rest).map fun r => ('\r' :: '\n' :: r.1, r.2)
    | c :: rest =>
      if isControl c && c ≠ '\n' then none else (multiLiteral rest).map fun r => (c :: r.1, r.2)
termination_by cs.length
decreasing_by
  · simp only [List.length_cons]
    omega
  · simp

/-- The characters behind a line break that follows opening quotes. -/
def withoutLineBreak : List Char → List Char
  | '\n' :: rest => rest
  | '\r' :: '\n' :: rest => rest
  | cs => cs

/-- Reads a text in quotes on one line. -/
def oneLine? : List Char → Option (List Char × List Char)
  | '"' :: rest => basic rest
  | '\'' :: rest => literal rest
  | _ => none

/-- Reads a text in any form. -/
def read? : List Char → Option (List Char × List Char)
  | '"' :: '"' :: '"' :: rest => multiBasic (withoutLineBreak rest)
  | '\'' :: '\'' :: '\'' :: rest => multiLiteral (withoutLineBreak rest)
  | cs => oneLine? cs

/-! ## Writing -/

/-- The length of the longest run of a character. -/
def longestRun (c : Char) (cs : List Char) : Nat :=
  (cs.foldl (fun (now, best) d => if d = c then (now + 1, max best (now + 1)) else (0, best))
    (0, 0)).2

/-- Whether only an escape can show the character, in any form. -/
def needsEscape (c : Char) : Bool := isControl c && c ≠ '\n'

/-- Four hexadecimal digits. -/
def hex4 (n : Nat) : List Char :=
  [n / 4096 % 16, n / 256 % 16, n / 16 % 16, n % 16].map fun d => (Nat.digitChar d).toUpper

/-- A character as it is written in double quotes, without regard to other quotes. -/
def escaped (multi : Bool) (c : Char) : List Char :=
  if c = '\x08' then ['\\', 'b']
  else if c = '\t' then ['\\', 't']
  else if c = '\n' then if multi then ['\n'] else ['\\', 'n']
  else if c = '\x0c' then ['\\', 'f']
  else if c = '\r' then ['\\', 'r']
  else if c = '\\' then ['\\', '\\']
  else if isControl c then '\\' :: 'u' :: hex4 c.toNat
  else [c]

/-- The inside of double quotes. Of quotes in a row `allowed` may stand as they are, the next one
is escaped and begins the count anew; `run` stand before the text. -/
def inside (multi : Bool) (allowed run : Nat) : List Char → List Char
  | [] => []
  | c :: cs =>
    if c = '"' then
      if run < allowed then '"' :: inside multi allowed (run + 1) cs
      else '\\' :: '"' :: inside multi allowed 0 cs
    else escaped multi c ++ inside multi allowed 0 cs

/-- A text in its plainest form: double quotes, then single quotes, then three double or three
single quotes, each if it can hold the text as it is, and else double quotes with escapes. -/
def write (cs : List Char) : List Char :=
  let escapes := cs.any needsEscape
  let backslash := cs.contains '\\'
  let breaks := cs.contains '\n'
  let double := longestRun '"' cs
  let single := longestRun '\'' cs
  let three (c : Char) : List Char := [c, c, c]
  let start : List Char := if breaks then ['\n'] else []
  if !escapes && !backslash && double = 0 && !breaks then '"' :: inside false 0 0 cs ++ ['"']
  else if !escapes && single = 0 && !breaks then '\'' :: cs ++ ['\'']
  else if !escapes && !backslash && double ≤ 2 then
    three '"' ++ start ++ inside true 2 0 cs ++ three '"'
  else if !escapes && single ≤ 2 then three '\'' ++ start ++ cs ++ three '\''
  else if breaks then three '"' ++ start ++ inside true 2 0 cs ++ three '"'
  else '"' :: inside false 0 0 cs ++ ['"']

end FileListCache.Toml.Quoted
