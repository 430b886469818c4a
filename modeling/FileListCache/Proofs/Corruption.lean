/-
  FileListCache.Proofs.Corruption

  Archives whose compression is damaged. The decoder is read no further than the archive goes: up
  to the first block of zeros behind a member. So a damage before that block is always noticed, and
  reported as a failure to read (`inPlace_damaged`); one behind it never is
  (`inPlace_unnoticed`).
-/

import FileListCache.Proofs.Replacement
import FileListCache.Proofs.Room

namespace FileListCache

open Archive (Member Layout)
open Disk (locate look)

namespace Archive

variable {failure : Option IoError} {bytes front rest : Bytes} {ms : List Member}

/-! ## Ends of archives -/

/-- An archive whose bytes were ended early by an error ends with a block of zeros before that. -/
theorem Layout.exists_mark (hl : Layout failure bytes ms) (hf : failure ≠ none) :
    ∃ front rest, bytes = front ++ (List.replicate blockSize 0 ++ rest) ∧ Layout none front ms := by
  induction hl with
  | ended h => exact absurd h hf
  | marked rest => exact ⟨[], rest, rfl, .ended rfl⟩
  | @member m padding rest ms hlen hzero hsize hpayload hfailure hpadding hrest ih =>
    obtain ⟨front, rest', rfl, hfront⟩ := ih
    refine ⟨m.header.bytes ++ (m.payload ++ (padding ++ front)), rest', ?_,
      .member hlen hzero hsize hpayload hfailure hpadding hfront⟩
    simp only [List.append_assoc]

end Archive

namespace Transcode

variable {h : Host} {w : World} {p q path : String} {lp lq : Location}

/-! ## Files that are no archives -/

/-- A file that is no archive is not copied, and the source is to blame for it. -/
theorem copyArchive_read {contents : Bytes} (hb : Beside h w.tree p q lp lq)
    (hr : Begins h w.tree p q lp lq contents) (hroom : h.room lq = none)
    (hbad : ∀ ms, ¬ Archive.Accepts contents ms) :
    Ends w (copyArchive h p q) fun r _ => ∃ reason, r = .error (.read p reason) := by
  refine copyArchive_begins hb hr fun w₁ hw₁ => ?_
  refine ends_imp (copyStream_ends _ hw₁) fun r w₂ hcopied => ?_
  refine ⟨?_, ?_, fun e wr _ => ⟨e, rfl⟩⟩
  · rintro report rfl
    obtain ⟨-, ms, hms, -⟩ := hcopied
    exact absurd ⟨hr.nonempty, hms⟩ (hbad ms)
  · rintro e rfl
    exact absurd hroom hcopied.2

/-- Nor is it rewritten. -/
theorem inPlace_read {contents : Bytes} (hb : Beside h w.tree p (copyPath p) lp lq)
    (hr : Begins h w.tree p (copyPath p) lp lq contents) (hroom : h.room lq = none)
    (hbad : ∀ ms, ¬ Archive.Accepts contents ms) :
    Ends w (inPlace h p) fun r _ => ∃ reason, r = .error (.read p reason) := by
  unfold inPlace
  refine ends_bind (R := fun r _ => ∃ reason, r = .error (.read p reason)) ?_ ?_ ?_
  · apply ends_catch (copyArchive_read hb hr hroom hbad)
    · rintro report w₁ ⟨reason, ⟨⟩⟩
    · rintro e w₁ ⟨reason, ⟨⟩⟩
      apply Files.ends_noted
      exact ends_imp (R := fun _ _ => True) trivial fun _ _ _ _ _ => ends_throw ⟨reason, rfl⟩
  · rintro report w₁ ⟨reason, ⟨⟩⟩
  · rintro e w₁ ⟨reason, ⟨⟩⟩
    exact ⟨reason, rfl⟩

/-! ## Damaged files -/

/-- A damage in the compression of an archive is noticed if it comes before the archive's end. When
rewriting succeeds, the decoder came to a clean end, or to a block of zeros behind the members
before it failed. When it failed before such a block, and a copy could be written, rewriting fails
to read the archive and leaves it as it was, with nothing beside it that could be removed. -/
theorem inPlace_damaged (hroot : w.tree.IsRooted) (hquiet : w.tree.IsQuiet)
    (hsource : ¬ Disk.NamesLink h w.tree path)
    (hcopy : ¬ Disk.NamesLink h w.tree (copyPath path)) :
    (∀ report w', w.attempt (inPlace h path) = (.ok report, w') → ∃ contents ms,
      look h w.tree path = .ok (.file contents) ∧ report = .ofMembers ms ∧
      let decoded := (Compression.detect (contents.take 6)).decode contents
      decoded.failure = none ∨ ∃ front rest, Layout none front ms ∧
        decoded.bytes = front ++ (List.replicate Archive.blockSize 0 ++ rest)) ∧
    (∀ contents, look h w.tree path = .ok (.file contents) →
      let decoded := (Compression.detect (contents.take 6)).decode contents
      decoded.failure ≠ none →
      (∀ ms front rest, Layout none front ms →
        decoded.bytes ≠ front ++ (List.replicate Archive.blockSize 0 ++ rest)) →
      (∃ l, locate h w.tree false (copyPath path) = .ok l ∧ h.room l = none ∧
        w.tree.IsLeaf l ∧ Disk.Makeable h w.tree l) →
      ∃ reason w', w.attempt (inPlace h path) = (.error (.read path reason), w') ∧
        (∀ l, locate h w.tree false path = .ok l → w'.tree.find? l = w.tree.find? l) ∧
        (∀ l, locate h w.tree false (copyPath path) = .ok l → Disk.Removable h w.tree l →
          w'.tree.find? l = none) ∧
        (∀ l, (∀ l', locate h w.tree false (copyPath path) = .ok l' → ¬ l' <+: l) →
          w'.tree.find? l = w.tree.find? l)) := by
  constructor
  · intro report w' hw
    obtain ⟨lp, lq, hb⟩ := beside_of_success hroot hquiet hsource hcopy hw
    obtain ⟨ms, w₁, rfl, hcomplete, -⟩ := ((ends_iff hw).1 (inPlace_ends hb)).1 report rfl
    obtain ⟨contents, hc, haccepts⟩ := hcomplete.ready.accepted
    have hl := Disk.locate_true_of_false hcomplete.ready.source
      (hb.plainSource hcomplete.ready.source).ne_link
    refine ⟨contents, ms, Disk.look_eq_ok.2 ⟨lp, hl, hc⟩, rfl, ?_⟩
    have hlaid := laidOut_of_accepts haccepts
    by_cases hclean : ((Compression.detect (contents.take 6)).decode contents).failure = none
    · exact .inl hclean
    · obtain ⟨front, rest, hbytes, hfront⟩ := hlaid.exists_mark (by simpa using hclean)
      exact .inr ⟨front, rest, hfront, hbytes⟩
  · intro contents hlook decoded hfailure hmark hdest
    obtain ⟨lq', hlq', hroom, hleaf, hmake⟩ := hdest
    obtain ⟨lp, hl, hc⟩ := Disk.look_eq_ok.1 hlook
    obtain ⟨hfalse, lq, hapart, hp, hq⟩ := exists_beside hroot hsource hl hc
    obtain rfl := hq.eq_of_locate hlq'
    have hq₀ : lq' ≠ [] := hapart.symm.ne_nil
    have hb : Beside h w.tree path (copyPath path) lp lq' :=
      ⟨hp, hq, hapart, fun _ => .inr (.inr ⟨contents, hc⟩), fun _ => hleaf.isPlain⟩
    have hcreate : Disk.CanCreate h w.tree (copyPath path) lq' :=
      ⟨hlq', hleaf.isDeadEnd.1, hmake⟩
    have hne : contents ≠ [] := by
      rintro rfl
      exact hfailure rfl
    -- An archive would have its mark before the failure.
    have hbad (ms : List Member) : ¬ Archive.Accepts contents ms := by
      intro haccepts
      obtain ⟨front, rest, hbytes, hfront⟩ :=
        (laidOut_of_accepts haccepts).exists_mark (by simpa using hfailure)
      exact hmark ms front rest hfront hbytes
    obtain ⟨reason, hread⟩ := inPlace_read hb ⟨hfalse, hcreate, hc, hne⟩ hroom hbad
    have habandoned := (inPlace_ends hb).2.2 _ hread id
    obtain ⟨w₁, hfills, hclears⟩ := habandoned.works
    have hframe (l : Location) (hl : ¬ lq' <+: l) :
        (w.attempt (inPlace h path)).2.tree.find? l = w.tree.find? l := by
      have hne : l ≠ lq' := fun hll => hl (hll ▸ List.prefix_rfl)
      rw [hclears.find?_of_clears hq₀ hl, hfills.find?_of_fills hq₀ hne]
    refine ⟨reason, _, Prod.ext hread rfl, fun l hl => ?_, fun l hl hremovable => ?_,
      fun l hl => hframe l (hl lq' hlq')⟩
    · obtain rfl := hp.eq_of_locate hl
      exact hframe l hapart.2
    · obtain rfl := hq.eq_of_locate hl
      exact habandoned.cleared hl hremovable

/-- The start of a file in the format zstd, and nothing else. -/
def startedArchive : Bytes := [0x28, 0xb5, 0x2f, 0xfd]

/-- What is cut off there is not rewritten. -/
theorem inPlace_damaged_started : ∃ reason w',
    (oneFile startedArchive).attempt (inPlace {} "/a") = (.error (.read "/a" reason), w') ∧
      w'.tree.find? ["a"] = some (.file startedArchive) ∧ w'.tree.find? ["a~"] = none := by
  have hsource : locate {} (oneFile startedArchive).tree false "/a" = .ok ["a"] :=
    locate_oneFile (by decide) (by decide) (by decide)
  have hcopy : locate {} (oneFile startedArchive).tree false "/a~" = .ok ["a~"] :=
    locate_oneFile (by decide) (by decide) (by decide)
  have hdecode : (Compression.detect (startedArchive.take 6)).decode startedArchive =
      ⟨[], some .zstdCutShort⟩ := by decide +kernel
  have hmark (front rest : Bytes) :
      ([] : Bytes) ≠ front ++ (List.replicate Archive.blockSize 0 ++ rest) := by
    intro hbytes
    have hblock := (List.append_eq_nil_iff.1 (List.append_eq_nil_iff.1 hbytes.symm).2).1
    rw [List.replicate_eq_nil_iff] at hblock
    cases hblock
  obtain ⟨-, hfailed⟩ := inPlace_damaged (oneFile_isRooted startedArchive) (oneFile_isQuiet _)
    (oneFile_namesLink _ "/a") (oneFile_namesLink _ _)
  obtain ⟨reason, w', hw', hkept, hgone, -⟩ := hfailed startedArchive (look_oneFile _)
    (by rw [hdecode]; simp) (fun ms front rest _ => by rw [hdecode]; exact hmark front rest)
    ⟨_, hcopy, rfl, .inl rfl, Disk.makeable_of_unlocked rfl⟩
  exact ⟨reason, w', hw', hkept _ hsource, hgone _ hcopy (Disk.removable_of_none rfl)⟩

/-- A frame of zeros in the format zstd, which is to be followed by a check of them. -/
def uncheckedArchive : Bytes := [0x28, 0xb5, 0x2f, 0xfd, 0x04, 0x00, 0x03, 0x10, 0x00, 0x00]

/-- That the check is missing is not noticed: the zeros are the archive's end. -/
theorem inPlace_unnoticed : ∃ w',
    Compression.detect (uncheckedArchive.take 6) = .zstd ∧
      (Compression.zstd.decode uncheckedArchive).failure = some .zstdCutShort ∧
      (oneFile uncheckedArchive).attempt (inPlace {} "/a") = (.ok ⟨0, 0⟩, w') := by
  have hdetect : Compression.detect (uncheckedArchive.take 6) = .zstd := by decide
  have hdecode : Compression.zstd.decode uncheckedArchive =
      ⟨List.replicate Archive.blockSize 0, some .zstdCutShort⟩ := by decide +kernel
  have hl : Layout (some (.stream .zstdCutShort)) (List.replicate Archive.blockSize 0) [] := by
    rw [← List.append_nil (List.replicate Archive.blockSize 0)]
    exact .marked []
  have haccepts : Archive.Accepts uncheckedArchive [] :=
    accepts_of_decode (by decide) hdetect hdecode hl (by simp) (by decide +kernel)
  obtain ⟨w', hw'⟩ := inPlace_oneFile haccepts
  exact ⟨w', hdetect, by rw [hdecode], hw'⟩

end Transcode

end FileListCache
