/-
  FileListCache.Proofs.Repetition

  Rewriting an archive that was rewritten before. A rewritten archive starts with the first header
  of its first member, as it is, and the reader takes the first bytes of a file for the signature
  of a compression. So the archive is read and rewritten as before (`inPlace_repeated`) unless the
  name of its first member begins like a compressed file; then it is not (`inPlace_unrepeated`).
-/

import FileListCache.Proofs.Replacement
import FileListCache.Proofs.Room

namespace FileListCache

open Archive (Member)
open Disk (locate look)
open World (Takes)

/-! ## Signatures -/

namespace Compression

variable {bs rest : Bytes}

theorem length_signature_le (c : Compression) : c.signature.length ≤ signatureLength := by
  cases c <;> decide

/-- What follows the bytes of a signature does not matter. -/
theorem detect_append (hlen : signatureLength ≤ bs.length) : detect (bs ++ rest) = detect bs := by
  have hprefix (c : Compression) :
      c.signature.isPrefixOf (bs ++ rest) = c.signature.isPrefixOf bs := by
    rw [Bool.eq_iff_iff, List.isPrefixOf_iff_prefix, List.isPrefixOf_iff_prefix]
    constructor
    · intro hp
      exact List.prefix_of_prefix_length_le hp (List.prefix_append bs rest)
        ((length_signature_le c).trans hlen)
    · exact fun hp => hp.trans (List.prefix_append bs rest)
  simp only [detect, hprefix]

theorem detect_take (hlen : signatureLength ≤ bs.length) :
    detect (bs.take signatureLength) = detect bs := by
  have htake : signatureLength ≤ (bs.take signatureLength).length := by
    rw [List.length_take]
    omega
  rw [← detect_append htake, List.take_append_drop]

/-- A file starts with the signature of its format. -/
theorem signature_detect (bs : Bytes) : (detect bs).signature <+: bs := by
  unfold detect
  cases hfound : [gzip, bzip2, xz, zstd].find? fun c => c.signature.isPrefixOf bs with
  | none => exact List.nil_prefix
  | some c =>
    have hs := List.find?_some hfound
    exact List.isPrefixOf_iff_prefix.1 hs

/-- No two signatures begin alike, so a file has no other format. -/
theorem detect_of_signature {c : Compression} (hc : c ≠ .plain) (hs : c.signature <+: bs) :
    detect bs = c := by
  obtain ⟨rest, rfl⟩ := hs
  cases c with
  | plain => exact absurd rfl hc
  | gzip | bzip2 | xz | zstd => rfl

end Compression

namespace Transcode

variable {h : Host} {w : World} {p q path : String} {lp lq : Location} {ms : List Member}

/-- The format that a rewritten archive seems to have is that of its first header. -/
theorem detect_bytesOf (hblocks : ∀ m ∈ ms, m.header.bytes.length = Archive.blockSize) :
    Compression.detect ((Archive.bytesOf ms).take Compression.signatureLength) =
      (ms.head?.map fun m => Compression.detect m.header.bytes).getD .plain := by
  have hblock : Compression.signatureLength ≤ Archive.blockSize := by decide
  cases ms with
  | nil =>
    -- Without members the archive is all zeros.
    have hending : Archive.bytesOf [] =
        List.replicate Archive.blockSize 0 ++ List.replicate Archive.blockSize 0 := by
      simp [Archive.bytesOf, Archive.ending, Nat.two_mul]
    have hzeros : Compression.signatureLength ≤
        (List.replicate Archive.blockSize (0 : UInt8)).length := by rwa [List.length_replicate]
    rw [hending, Compression.detect_take (by rw [List.length_append]; omega),
      Compression.detect_append hzeros, ← Compression.detect_take hzeros]
    decide
  | cons m ms =>
    have hlen := hblocks m List.mem_cons_self
    have hbytes : Archive.bytesOf (m :: ms) = m.header.bytes ++ (m.payload ++
        List.replicate (Member.paddingOf m.payload.length) 0 ++ Archive.bytesOf ms) := by
      simp only [Archive.bytesOf_cons, Member.bytes, List.append_assoc]
    rw [hbytes, Compression.detect_take (by rw [List.length_append]; omega),
      Compression.detect_append (by omega)]
    rfl

theorem bytesOf_ne_nil (ms : List Member) : Archive.bytesOf ms ≠ [] := by
  intro hnil
  have hending : Archive.ending = [] := (List.append_eq_nil_iff.1 hnil).2
  rw [Archive.ending, List.replicate_eq_nil_iff] at hending
  cases hending

/-- A rewritten archive is accepted again, with the same members, unless it seems to be
compressed. -/
theorem accepts_bytesOf {contents : Bytes} (ha : Archive.Accepts contents ms)
    (hplain : Compression.detect ((Archive.bytesOf ms).take Compression.signatureLength) = .plain) :
    Archive.Accepts (Archive.bytesOf ms) ms := by
  refine ⟨bytesOf_ne_nil ms, ?_⟩
  rw [hplain]
  exact Archive.membersFrom_bytesOf ha.2

/-- When a copy has taken the archive's place, the paths are in order for the next one. -/
theorem Complete.beside_again {w₁ w' : World} (hb : Beside h w.tree p q lp lq)
    (hbare : w.tree.IsBare lq) (hc : Complete h w p q lp lq ms w₁)
    (hm : Takes (.move lq lp) w₁ w') (halike : w.tree.Alike w₁.tree) :
    Beside h w'.tree p q lp lq ∧ locate h w'.tree false p = .ok lp ∧
      locate h w'.tree false q = .ok lq := by
  obtain ⟨halike', hp, hq, -⟩ := hc.moved hb hbare hm halike
  exact ⟨⟨hb.source.fades halike'.1, hb.copy.fades halike'.1, hb.apart,
    fun _ => .inr (.inr ⟨_, hp⟩), fun _ => .inl hq⟩,
    hb.source.alike halike' hc.ready.source, hb.copy.alike halike' hc.ready.copy.leads⟩

/-- A file that is not empty is opened, and read in the format that its first bytes tell. -/
theorem openAt_of_file {l : Location} {contents : Bytes} (hu : Disk.Undisturbed h w.tree p)
    (hl : locate h w.tree true p = .ok l) (hc : w.tree.find? l = some (.file contents))
    (hne : contents ≠ []) : ∃ o w₁, w.attempt (Archive.openAt h p) = (.ok o, w₁) ∧
      w₁.tree = w.tree ∧
      o.compression = Compression.detect (contents.take Compression.signatureLength) ∧
      o.stream w₁.tree = .ofContents o.compression contents := by
  rcases hw : w.attempt (Archive.openAt h p) with ⟨e | o, w₁⟩
  · obtain ⟨-, -, herr⟩ := (ends_iff hw).1 (Archive.openAt_ends hu)
    exact absurd ((herr e rfl).2 l contents hl hc) hne
  · obtain ⟨hsame, hok, -⟩ := (ends_iff hw).1 (Archive.openAt_ends hu)
    obtain ⟨l', contents', hl', hc', -, hcompression, hsource⟩ := hok o rfl
    cases hl.symm.trans hl'
    cases hc.symm.trans hc'
    refine ⟨o, w₁, rfl, hsame.tree, hcompression, ?_⟩
    simp only [Archive.Opened.stream, hsource, Disk.contentOf, hsame.tree, hc]

/-- A member whose name begins like a file of the format bzip2. -/
def disguise : Member := Archive.emptyMember [0x42, 0x5a, 0x68] [0x31, 0x30, 0x36, 0x34]

/-- The archive of that member, compressed in the format zstd: the bytes that are not zero as they
are, and between them zeros that are repeated. -/
def disguisedArchive : Bytes :=
  [0x28, 0xb5, 0x2f, 0xfd, 0x00, 0x00] ++ [0x18, 0x00, 0x00, 0x42, 0x5a, 0x68] ++
    [0xca, 0x03, 0x00, 0x00] ++ [0x08, 0x00, 0x00, 0x30] ++ [0xba, 0x00, 0x00, 0x00] ++
    [0x20, 0x00, 0x00, 0x31, 0x30, 0x36, 0x34] ++ [0x43, 0x0b, 0x00, 0x00]

theorem accepts_disguisedArchive : Archive.Accepts disguisedArchive [disguise] := by
  have hl : Archive.Layout none disguise.header.bytes [disguise] := by
    have hl : Archive.Layout none (disguise.header.bytes ++ []) [disguise] :=
      Archive.layout_emptyMember _ _ (by decide +kernel) (by decide +kernel) rfl (.ended rfl)
    rwa [List.append_nil] at hl
  have hdecode : Compression.zstd.decode disguisedArchive = ⟨disguise.header.bytes, none⟩ := by
    decide +kernel
  refine accepts_of_decode (by decide) (by decide) hdecode hl ?_ (by decide +kernel)
  intro m hm
  rw [List.mem_singleton.1 hm]
  decide +kernel

/-- Without compression the archive seems to be compressed in another format, and cannot be
decoded. -/
theorem not_accepts_disguise (ms : List Member) :
    ¬ Archive.Accepts (Archive.bytesOf [disguise]) ms := by
  intro ha
  have hdetect : Compression.detect ((Archive.bytesOf [disguise]).take 6) = .bzip2 := by decide
  have hdecode : Compression.bzip2.decode (Archive.bytesOf [disguise]) =
      ⟨[], some .bzip2Header⟩ := by decide +kernel
  have hlaid := laidOut_of_accepts ha
  rw [LaidOut, hdetect, hdecode] at hlaid
  cases hlaid.failure_of_nil

end Transcode

end FileListCache
