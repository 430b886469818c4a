/-
  FileListCache.Text.Utf8

  Reading bytes as UTF-8. The reader is a machine that takes one byte at a time; between
  characters it remembers nothing, so decoding may be cut at any byte that stands for itself.
-/

import FileListCache.Bytes

namespace FileListCache.Utf8

/-- A character that was begun: the bits so far, how many bytes are missing, and the bounds of
the next one. -/
structure Pending where
  bits : Nat
  missing : Nat
  lowest : Nat
  highest : Nat
  deriving DecidableEq, Repr

/-- What a byte that begins a character stands for: itself, the start of a longer character, or
nothing at all. -/
def begin (b : UInt8) : Option (Char ⊕ Pending) :=
  let n := b.toNat
  if n < 0x80 then some (.inl (Char.ofNat n))
  else if n < 0xc2 then none
  else if n < 0xe0 then some (.inr ⟨n - 0xc0, 1, 0x80, 0xbf⟩)
  else if n < 0xf0 then
    some (.inr ⟨n - 0xe0, 2, if n = 0xe0 then 0xa0 else 0x80, if n = 0xed then 0x9f else 0xbf⟩)
  else if n < 0xf5 then
    some (.inr ⟨n - 0xf0, 3, if n = 0xf0 then 0x90 else 0x80, if n = 0xf4 then 0x8f else 0xbf⟩)
  else none

/-- What stands for bytes that are no character. -/
def replacement : Char := Char.ofNat 0xfffd

/-- What becomes of a byte: the characters complete by now, where `none` stands for bytes that
are none, and the character begun. -/
def step (state : Option Pending) (b : UInt8) : List (Option Char) × Option Pending :=
  let fresh : List (Option Char) × Option Pending :=
    match begin b with
    | none => ([none], none)
    | some (.inl c) => ([some c], none)
    | some (.inr p) => ([], some p)
  match state with
  | none => fresh
  | some p =>
    if p.lowest ≤ b.toNat ∧ b.toNat ≤ p.highest then
      let bits := 64 * p.bits + b.toNat % 64
      if p.missing = 1 then ([some (Char.ofNat bits)], none)
      else ([], some ⟨bits, p.missing - 1, 0x80, 0xbf⟩)
    else (none :: fresh.1, fresh.2)

/-- The characters of `bs` after the character begun, with `none` for each longest run of bytes
that begins a character and does not go on as one. -/
def run (state : Option Pending) : Bytes → List (Option Char)
  | [] => if state.isSome then [none] else []
  | b :: bs => (step state b).1 ++ run (step state b).2 bs

/-- The text of `bs`, with the replacement character for what is not UTF-8. -/
def lossyChars (bs : Bytes) : List Char := (run none bs).map (·.getD replacement)

/-- The text of `bs`, with the replacement character for what is not UTF-8. -/
def lossy (bs : Bytes) : String := String.ofList (lossyChars bs)

/-- The text of `bs` when all of it is UTF-8. -/
def strict? (bs : Bytes) : Option String := ((run none bs).mapM id).map String.ofList

/-- How many bytes a text takes. -/
def size (s : String) : Nat := s.utf8ByteSize

end FileListCache.Utf8
