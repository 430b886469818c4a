/-
  FileListCache.Proofs.Truncation

  Archives that are cut off. What is left of a file decodes like the file, as far as it goes
  (`Compression.decode_agree`), so the members in it are members of the archive. An archive that is
  cut off inside of a member is not rewritten. One that is cut off between two members is, when the
  decoder sees no fault in that either (`inPlace_truncated`): a missing mark at the end is not
  noticed (`inPlace_shortened`).
-/

import FileListCache.Proofs.Cuts.Bzip2
import FileListCache.Proofs.Cuts.Gzip
import FileListCache.Proofs.Cuts.Xz
import FileListCache.Proofs.Cuts.Zstd
import FileListCache.Proofs.Repetition

namespace FileListCache

open Archive (Member Layout)
open Bytes (Agree)
open Disk (locate look)

/-! ## Compressed files that are cut off -/

namespace Compression

variable {part whole : Bytes}

theorem cut_pack (h : part <+: whole) : Cut (Bytes.pack part) (Bytes.pack whole) := by
  rwa [Cut, Bytes.ofPacked_pack, Bytes.ofPacked_pack]

/-- What is left of a file decodes like the file, as far as both go. -/
theorem decode_agree (c : Compression) (h : part <+: whole) (hs : c.signature <+: part) :
    Agree (c.decode part).bytes (c.decode whole).bytes := by
  cases c with
  | plain => exact .inl h
  | gzip => exact Gzip.decode_agree (cut_pack h)
  | bzip2 => exact Bzip2.decode_agree (cut_pack h)
  | xz =>
    -- The decoder of this format treats files that begin otherwise as if they were empty.
    refine Xz.decode_agree (cut_pack h) ?_
    obtain ⟨rest, rfl⟩ := hs
    rw [← Bytes.getElem?_ofPacked, Bytes.ofPacked_pack]
    rfl
  | zstd => exact Zstd.decode_agree (cut_pack h)

/-- What is left of a file has its format, unless all of its signature is cut off. -/
theorem detect_of_isPrefix (h : part <+: whole)
    (hp : detect part ≠ .plain ∨ signatureLength ≤ part.length) : detect part = detect whole := by
  by_cases hplain : detect part = .plain
  · have hlen := hp.resolve_left (not_not.2 hplain)
    obtain ⟨rest, rfl⟩ := h
    exact (detect_append hlen).symm
  · exact (detect_of_signature hplain ((signature_detect part).trans h)).symm

end Compression

/-! ## Archives that are cut off -/

namespace Archive

variable {failure : Option IoError} {bytes front rest : Bytes} {ms all : List Member}

/-- Where a member starts, there is no mark. -/
theorem not_agree_marked {h : Header} {x y : Bytes} (hlen : h.bytes.length = blockSize)
    (hzero : h.isZero = false) : ¬ Agree (h.bytes ++ x) (List.replicate blockSize 0 ++ y) := by
  intro hagree
  obtain ⟨hblock, -⟩ := hagree.of_append (by rw [hlen, List.length_replicate])
  have hmarked : h = ⟨List.replicate blockSize 0⟩ := congrArg Header.mk hblock
  rw [hmarked, isZero_replicate] at hzero
  cases hzero

/-- An archive that is not empty has a block. -/
theorem Layout.blockSize_le (hl : Layout failure bytes ms) (hne : bytes ≠ []) :
    blockSize ≤ bytes.length := by
  cases hl with
  | ended => exact absurd rfl hne
  | marked rest =>
    rw [List.length_append, List.length_replicate]
    omega
  | member hlen =>
    rw [List.length_append, hlen]
    omega

/-- Bytes that agree with an archive of which the end is marked hold the same members, or they end
cleanly behind some of them. -/
theorem Layout.of_agree (hl : Layout failure bytes ms) (hall : Layout none front all)
    (hagree : Agree bytes (front ++ (List.replicate blockSize 0 ++ rest))) :
    ms = all ∨ failure = none ∧ ∃ more lost, more ≠ [] ∧ all = ms ++ more ∧
      front = bytes ++ lost ∧ Layout none lost more := by
  -- By induction on the members in the part; in the whole there is the same member at each place.
  induction hl generalizing front all with
  | ended hf =>
    cases all with
    | nil => exact .inl rfl
    | cons m more => exact .inr ⟨hf, m :: more, front, by simp, rfl, rfl, hall⟩
  | marked rest' =>
    cases hall with
    | ended => exact .inl rfl
    | marked => exact .inl rfl
    | member hlen hzero =>
      rw [List.append_assoc] at hagree
      exact absurd hagree.symm (not_agree_marked hlen hzero)
  | @member m padding later ms hlen hzero hsize hpayload hfailure hpadding hrest ih =>
    cases hall with
    | ended => exact absurd hagree (not_agree_marked hlen hzero)
    | marked =>
      rw [List.append_assoc] at hagree
      exact absurd hagree (not_agree_marked hlen hzero)
    | @member m' padding' later' all hlen' hzero' hsize' hpayload' hfailure' hpadding' hrest' =>
      simp only [List.append_assoc] at hagree
      obtain ⟨hblock, hagree⟩ := hagree.of_append (by rw [hlen, hlen'])
      -- One header states one size, so payload and padding end at the same places.
      have hheader : m.header = m'.header := congrArg Header.mk hblock
      have hsizes : m.size = m'.size := by
        rw [hheader, hsize'] at hsize
        exact (Except.ok.inj hsize).symm
      obtain ⟨hpayloads, hagree⟩ := hagree.of_append (by rw [hpayload, hpayload', hsizes])
      obtain ⟨hpaddings, hlater⟩ := hagree.of_append (by rw [hpadding, hpadding', hsizes])
      have hm : m = m' := by
        obtain ⟨header, size, payload, fault⟩ := m
        obtain ⟨header', size', payload', fault'⟩ := m'
        simp_all
      subst hm hpaddings
      rcases ih hrest' hlater with rfl | ⟨hclean, more, lost, hmore, rfl, rfl, hlost⟩
      · exact .inl rfl
      · exact .inr ⟨hclean, more, lost, hmore, rfl, by simp only [List.append_assoc], hlost⟩

/-- A mark may follow the members of any archive. -/
theorem Layout.append_marked (hl : Layout none front ms) (failure : Option IoError)
    (rest : Bytes) : Layout failure (front ++ (List.replicate blockSize 0 ++ rest)) ms := by
  induction hl with
  | ended => exact .marked rest
  | marked rest' =>
    rw [List.append_assoc]
    exact .marked _
  | member hlen hzero hsize hpayload hfailure hpadding hrest ih =>
    simp only [List.append_assoc]
    exact .member hlen hzero hsize hpayload hfailure hpadding ih

/-- The first members of an archive that is read are read without the others, too. -/
theorem membersFrom_of_append {more : List Member} {position : Nat} (hl : Layout none bytes ms)
    (hm : membersFrom position ⟨bytes ++ rest, failure⟩ = (ms ++ more, none)) :
    membersFrom position ⟨bytes, none⟩ = (ms, none) := by
  induction hl generalizing position with
  | ended => exact membersFrom_of_readHeader rfl
  | marked => exact membersFrom_of_readHeader readHeader_marked
  | @member m padding later ms hlen hzero hsize hpayload hfailure hpadding hrest ih =>
    rcases membersFrom_eq_none hm with ⟨hms, -⟩ | ⟨m', padding', later', ms', hms, hbytes, -, -,
      hcheck, -, -, hpadding', hlater⟩
    · cases hms
    · cases hms
      -- The padding is as long as before, so the other members follow at the same place.
      simp only [List.append_assoc, List.append_cancel_left_eq] at hbytes
      obtain ⟨-, rfl⟩ := List.append_inj hbytes (by rw [hpadding, hpadding'])
      rw [membersFrom_append hlen hzero hcheck hpayload hfailure hpadding, ih hlater]

end Archive

namespace Transcode

variable {h : Host} {w : World} {path : String} {lp lq : Location} {part whole : Bytes}
  {ms all : List Member}

/-- The file is an archive of the members `ms`, of which the end is marked by a block of zeros. -/
def IsMarked (contents : Bytes) (ms : List Member) : Prop :=
  let decoded := (Compression.detect (contents.take 6)).decode contents
  ∃ front rest, decoded.bytes = front ++ (List.replicate Archive.blockSize 0 ++ rest) ∧
    Layout none front ms

/-- The part is cut off between two members: it decodes without a fault to the members `ms`, and
what it lacks of the whole are the members `more`, the mark and what follows that. -/
def EndsBetween (part whole : Bytes) (ms more : List Member) : Prop :=
  let decoded := (Compression.detect (part.take 6)).decode part
  let decoded' := (Compression.detect (whole.take 6)).decode whole
  decoded.failure = none ∧ Layout none decoded.bytes ms ∧ ∃ lost rest,
    decoded'.bytes = decoded.bytes ++ (lost ++ (List.replicate Archive.blockSize 0 ++ rest)) ∧
    Layout none lost more

theorem IsMarked.laidOut {contents : Bytes} (h : IsMarked contents ms) : LaidOut contents ms := by
  obtain ⟨front, rest, hbytes, hfront⟩ := h
  rw [LaidOut, hbytes]
  exact hfront.append_marked _ rest

/-- The members before a cut between two are all that there is behind it. -/
theorem EndsBetween.accepts {more : List Member} (hends : EndsBetween part whole ms more)
    (hne : part ≠ []) (ha : Archive.Accepts whole (ms ++ more)) : Archive.Accepts part ms := by
  obtain ⟨hclean, hl, lost, rest, hbytes, -⟩ := hends
  have hread : Archive.membersFrom 0 ⟨((Compression.detect (whole.take 6)).decode whole).bytes, _⟩ =
      (ms ++ more, none) := ha.2
  rw [hbytes] at hread
  refine ⟨hne, ?_⟩
  change Archive.membersFrom 0
    ⟨_, ((Compression.detect (part.take 6)).decode part).failure.map _⟩ = _
  rw [hclean]
  exact Archive.membersFrom_of_append hl hread

/-- An archive is decoded like the file that it is cut off from, as far as both go. -/
theorem LaidOut.agree (hl : LaidOut part ms) (hcut : part <+: whole) (hne : part ≠ []) :
    Agree ((Compression.detect (part.take 6)).decode part).bytes
      ((Compression.detect (whole.take 6)).decode whole).bytes := by
  have hformat : Compression.detect (part.take 6) = Compression.detect (whole.take 6) := by
    refine Compression.detect_of_isPrefix (hcut.take 6) ?_
    by_cases hplain : Compression.detect (part.take 6) = .plain
    · -- What is too short to have a signature, is also too short for an archive.
      have hlen : Archive.blockSize ≤ part.length := by
        rw [LaidOut, hplain] at hl
        exact hl.blockSize_le hne
      rw [List.length_take]
      exact .inr (Nat.le_min.2 ⟨Nat.le_refl _, (by decide : 6 ≤ Archive.blockSize).trans hlen⟩)
    · exact .inl hplain
  rw [← hformat]
  exact Compression.decode_agree _ hcut
    ((Compression.signature_detect _).trans (List.take_prefix 6 part))

/-- What is left of a marked archive is an archive of the same members, or of some first ones of
them if the cut is between two. -/
theorem IsMarked.truncated (hmarked : IsMarked whole all) (hl : LaidOut part ms)
    (hcut : part <+: whole) (hne : part ≠ []) :
    ms = all ∨ ∃ more, more ≠ [] ∧ all = ms ++ more ∧ EndsBetween part whole ms more := by
  obtain ⟨front, rest, hbytes, hfront⟩ := hmarked
  have hagree := hl.agree hcut hne
  rw [hbytes] at hagree
  rcases hl.of_agree hfront hagree with rfl | ⟨hclean, more, lost, hmore, rfl, hcutoff, hlost⟩
  · exact .inl rfl
  · have hlaid := hl
    rw [LaidOut, hclean] at hlaid
    refine .inr ⟨more, hmore, rfl, by simpa using hclean, hlaid, lost, rest, ?_, hlost⟩
    rw [hbytes, hcutoff, List.append_assoc]

/-- Where rewriting fails, the file is as it was. -/
theorem inPlace_kept {contents : Bytes} (hb : Beside h w.tree path (copyPath path) lp lq)
    (hc : w.tree.find? lp = some (.file contents)) :
    Ends w (inPlace h path) fun r w' => ∀ e, r = .error e →
      w'.tree.find? lp = some (.file contents) := by
  have hq₀ : lq ≠ [] := hb.apart.symm.ne_nil
  refine ends_imp (inPlace_ends hb) fun r w' hr e he => ?_
  obtain ⟨-, hrename, hother⟩ := hr
  cases e with
  | rename source target entries reason =>
    obtain ⟨-, -, -, ms, -, hcomplete⟩ := hrename _ _ _ _ he
    rw [hcomplete.works.find?_of_fills hq₀ hb.apart.ne, hc]
  | unopened | empty | read | write | badFile =>
    obtain ⟨w₁, hfills, hclears⟩ := (hother _ he id).works
    rw [hclears.find?_of_clears hq₀ hb.apart.2, hfills.find?_of_fills hq₀ hb.apart.ne, hc]

/-- A cut between two members is not noticed: where nothing stands in the way of a copy, rewriting
succeeds with the members before it. -/
theorem inPlace_shortened {more : List Member} (hh : h.IsSteady)
    (hb : Beside h w.tree path (copyPath path) lp lq) (hl : locate h w.tree false path = .ok lp)
    (hq : locate h w.tree false (copyPath path) = .ok lq) (hdir : w.tree.find? lq ≠ some .directory)
    (hc : w.tree.find? lp = some (.file part)) (hne : part ≠ [])
    (ha : Archive.Accepts whole (ms ++ more)) (hends : EndsBetween part whole ms more) :
    Ends w (inPlace h path) fun r _ => r = .ok (.ofMembers ms) :=
  inPlace_of_ready hh hb ⟨hl, ⟨hq, hdir, Disk.makeable_of_unlocked (hh.unlocked _)⟩, part, hc,
    hends.accepts hne ha⟩

/-- Rewriting what is left of an archive that was cut off. Let the whole archive be marked at its
end, in any compression, and let something of it be left. Then rewriting fails and leaves that as it
is, or it comes to an archive of all the members that there were, or the cut is between two members
and was no fault to the decoder; then it comes to exactly the members before the cut. It does so at
every such cut, if a file can be made beside the archive. -/
theorem inPlace_truncated (hroot : w.tree.IsRooted) (hsource : ¬ Disk.NamesLink h w.tree path)
    (hcopy : ∀ l, locate h w.tree false (copyPath path) = .ok l → w.tree.IsPlain l)
    (hmarked : IsMarked whole all) (hcut : part <+: whole) (hne : part ≠ [])
    (hlook : look h w.tree path = .ok (.file part)) :
    (∀ r w', w.attempt (inPlace h path) = (r, w') →
      (∃ e, r = .error e ∧ ∀ l, locate h w.tree true path = .ok l →
        w'.tree.find? l = some (.file part)) ∨
      ∃ ms, r = .ok (.ofMembers ms) ∧ look h w'.tree path = .ok (.file (Archive.bytesOf ms)) ∧
        Archive.members ⟨Archive.bytesOf ms, none⟩ = (ms, none) ∧
        (ms = all ∨ ∃ more, more ≠ [] ∧ all = ms ++ more ∧ EndsBetween part whole ms more)) ∧
    (∀ ms more, h.IsSteady → Archive.Accepts whole (ms ++ more) →
      EndsBetween part whole ms more →
      (∃ l, locate h w.tree false (copyPath path) = .ok l ∧ w.tree.find? l ≠ some .directory) →
      ∃ w', w.attempt (inPlace h path) = (.ok (.ofMembers ms), w')) := by
  obtain ⟨lp, hl, hc⟩ := Disk.look_eq_ok.1 hlook
  obtain ⟨hfalse, lq, hapart, hp, hq⟩ := exists_beside hroot hsource hl hc
  have hb : Beside h w.tree path (copyPath path) lp lq :=
    ⟨hp, hq, hapart, fun _ => .inr (.inr ⟨part, hc⟩), hcopy lq⟩
  constructor
  · rintro (e | report) w' hw
    · refine .inl ⟨e, rfl, fun l hl' => ?_⟩
      cases hl.symm.trans hl'
      exact (ends_iff hw).1 (inPlace_kept hb hc) e rfl
    · obtain ⟨ms, w₁, rfl, hcomplete, halike, hmoved⟩ :=
        ((ends_iff hw).1 (inPlace_ends hb)).1 report rfl
      obtain ⟨contents, hc', haccepts⟩ := hcomplete.ready.accepted
      cases hc.symm.trans hc'
      have hbare := hroot.isBare hcomplete.ready.copy.noDirectory
      obtain ⟨hnew, -⟩ := hcomplete.look_moved hb hbare hmoved halike
      exact .inr ⟨ms, rfl, hnew, Archive.membersFrom_bytesOf haccepts.2,
        hmarked.truncated (laidOut_of_accepts haccepts) hcut hne⟩
  · intro ms more hh ha hends hfree
    obtain ⟨l, hlq, hdir⟩ := hfree
    obtain rfl := hq.eq_of_locate hlq
    have hsuccess := inPlace_shortened hh hb hfalse hlq hdir hc hne ha hends
    exact ⟨_, Prod.ext hsuccess rfl⟩

/-! ## Archives of two members -/

/-- An archive of two members that are named by one letter, without compression. -/
def lettersArchive : Bytes := letterArchive ++ (letterArchive ++ Archive.ending)

/-- The first of the two members is all of a shorter archive. -/
theorem letterArchive_isPrefix : letterArchive <+: lettersArchive := List.prefix_append _ _

theorem isMarked_lettersArchive : IsMarked lettersArchive [letter, letter] := by
  have hdetect : Compression.detect (lettersArchive.take 6) = .plain := by decide
  have hfront : Layout none (letterArchive ++ (letterArchive ++ [])) [letter, letter] :=
    Archive.layout_emptyMember _ _ (by decide +kernel) (by decide +kernel) rfl
      (Archive.layout_emptyMember _ _ (by decide +kernel) (by decide +kernel) rfl (.ended rfl))
  refine ⟨_, List.replicate Archive.blockSize 0, ?_, hfront⟩
  rw [hdetect, Compression.decode, lettersArchive, Archive.ending, Nat.two_mul,
    ← List.replicate_append_replicate]
  simp only [List.append_assoc, List.append_nil]

theorem accepts_lettersArchive : Archive.Accepts lettersArchive [letter, letter] := by
  refine accepts_of_laidOut (by decide +kernel) isMarked_lettersArchive.laidOut ?_
    (by decide +kernel)
  intro m hm
  have hletter : m = letter := by simpa using hm
  rw [hletter]
  decide +kernel

/-- The archive without its second member and its mark is rewritten as if it were whole. -/
theorem inPlace_unnoticed_cut : ∃ w₁ w₂, letterArchive <+: lettersArchive ∧
    letterArchive ≠ lettersArchive ∧ IsMarked lettersArchive [letter, letter] ∧
    (oneFile lettersArchive).attempt (inPlace {} "/a") = (.ok ⟨2, 0⟩, w₁) ∧
    (oneFile letterArchive).attempt (inPlace {} "/a") = (.ok ⟨1, 0⟩, w₂) := by
  obtain ⟨w₁, hw₁⟩ := inPlace_oneFile accepts_lettersArchive
  obtain ⟨w₂, hw₂⟩ := inPlace_oneFile accepts_letterArchive
  exact ⟨w₁, w₂, letterArchive_isPrefix, by decide +kernel, isMarked_lettersArchive, hw₁, hw₂⟩

/-- What is left of this archive ends between its two members. -/
theorem inPlace_truncated_letters : ∃ w',
    (oneFile letterArchive).attempt (inPlace {} "/a") = (.ok ⟨1, 0⟩, w') ∧
      look {} w'.tree "/a" = .ok (.file (Archive.bytesOf [letter])) ∧
      EndsBetween letterArchive lettersArchive [letter] [letter] := by
  obtain ⟨w', hw'⟩ := inPlace_oneFile accepts_letterArchive
  obtain ⟨hresult, -⟩ := inPlace_truncated (oneFile_isRooted _) (oneFile_namesLink _ _)
    (fun l _ => oneFile_isPlain _ l) isMarked_lettersArchive letterArchive_isPrefix
    (by decide +kernel) (look_oneFile letterArchive)
  rcases hresult _ _ hw' with ⟨e, ⟨⟩, -⟩ | ⟨ms, hreport, hlook, -, hms⟩
  -- The report counts one member, so it is the first one that is left.
  have hentries : (Report.ofMembers [letter]).entries = (Report.ofMembers ms).entries :=
    congrArg Report.entries (Except.ok.inj hreport)
  rcases hms with rfl | ⟨more, hmore, hall, hends⟩
  · exact absurd hentries (by decide +kernel)
  · obtain ⟨rfl, rfl⟩ : ms = [letter] ∧ more = [letter] := by
      rcases List.cons_eq_append_iff.1 hall with ⟨rfl, -⟩ | ⟨ms', rfl, hrest⟩
      · exact absurd hentries (by decide +kernel)
      · rcases List.cons_eq_append_iff.1 hrest with ⟨rfl, hmore'⟩ | ⟨ms'', rfl, hnone⟩
        · exact ⟨rfl, hmore'⟩
        · exact absurd (List.append_eq_nil_iff.1 hnone.symm).2 hmore
    exact ⟨w', hw', hlook, hends⟩

end Transcode

end FileListCache
