/-
  FileListCache.Bytes

  Contents of files and transfers are lists of bytes. Decoders index their input and copy from
  their own output, so they work on packed arrays; this file holds what both sides share.
-/

namespace FileListCache

/-- The contents of a file, a transfer or a member of an archive. -/
abbrev Bytes := List UInt8

namespace Bytes

/-- Packs a list of bytes for indexed access. -/
def pack (bs : Bytes) : ByteArray := ⟨bs.toArray⟩

/-- The bytes of a packed array, in order. -/
def ofPacked (a : ByteArray) : Bytes := a.data.toList

/-- Packing loses nothing. -/
@[simp] theorem ofPacked_pack (bs : Bytes) : ofPacked (pack bs) = bs := by
  simp [ofPacked, pack]

/-- The UTF-8 encoding of a text. -/
def ofText (s : String) : Bytes := ofPacked s.toUTF8

/-- How many bytes are moved at once. -/
def chunkSize : Nat := 8192

/-- The pieces of `bytes` of `chunkSize` each, the last one perhaps shorter. -/
def chunks (bytes : Bytes) : List Bytes :=
  if bytes.isEmpty then []
  else bytes.take chunkSize :: chunks (bytes.drop chunkSize)
termination_by bytes.length
decreasing_by
  cases bytes with
  | nil => contradiction
  | cons b bs =>
    simp only [chunkSize, List.length_drop, List.length_cons]
    omega

/-- The pieces of some bytes make them up. -/
theorem flatten_chunks (bytes : Bytes) : (chunks bytes).flatten = bytes := by
  fun_induction chunks bytes with
  | case1 bytes h => simpa using h.symm
  | case2 bytes h ih => rw [List.flatten_cons, ih, List.take_append_drop]

/-- No piece is empty or longer than what is moved at once. -/
theorem bounds_of_mem_chunks {bytes piece : Bytes} (h : piece ∈ chunks bytes) :
    piece ≠ [] ∧ piece.length ≤ chunkSize := by
  fun_induction chunks bytes with
  | case1 bytes hempty => cases h
  | case2 bytes hempty ih =>
    rcases List.mem_cons.1 h with rfl | h
    · cases bytes with
      | nil => exact absurd rfl hempty
      | cons b bs => exact ⟨by simp [chunkSize], List.length_take_le _ _⟩
    · exact ih h

/-- A way in which bytes arrive: in pieces, none of them empty and none longer than what is moved
at once. -/
structure Arrival where
  pieces : Bytes → List Bytes
  flatten_pieces : ∀ bytes, (pieces bytes).flatten = bytes
  bounds : ∀ bytes, ∀ piece ∈ pieces bytes, piece ≠ [] ∧ piece.length ≤ chunkSize

/-- As much at once as is moved at once. -/
def Arrival.steady : Arrival := ⟨chunks, flatten_chunks, fun _ _ => bounds_of_mem_chunks⟩

/-- Nothing arrives in no pieces. -/
@[simp] theorem Arrival.pieces_nil (a : Arrival) : a.pieces [] = [] := by
  rw [List.eq_nil_iff_forall_not_mem]
  intro piece hpiece
  have hnil := List.flatten_eq_nil_iff.1 (a.flatten_pieces []) piece hpiece
  exact (a.bounds [] piece hpiece).1 hnil

end Bytes

/-- The number whose bytes are `bs`, least significant first. -/
def littleEndian : Bytes → Nat
  | [] => 0
  | b :: bs => b.toNat + 256 * littleEndian bs

/-- The number whose bytes are `bs`, most significant first. -/
def bigEndian (bs : Bytes) : Nat := bs.foldl (fun n b => 256 * n + b.toNat) 0

/-- The `count` bytes of `data` from `pos`, when there are that many. -/
def slice? (data : ByteArray) (pos count : Nat) : Option Bytes :=
  if pos + count ≤ data.size then some (Bytes.ofPacked (data.extract pos (pos + count))) else none

/-- The little-endian number in `count` bytes of `data` from `pos`. -/
def littleEndianAt? (data : ByteArray) (pos count : Nat) : Option Nat :=
  (slice? data pos count).map littleEndian

/-- Appends `count` bytes to `out`, each a copy of the byte `distance` before it; a distance that
reaches before the first byte copies zero. -/
def copyBack (out : ByteArray) (distance : Nat) : Nat → ByteArray
  | 0 => out
  | count + 1 =>
    let b := if distance ≤ out.size then (out[out.size - distance]?).getD 0 else 0
    copyBack (out.push b) distance count

end FileListCache
