/-
  FileListCache.Proofs.Rewriting

  What rewriting an archive in its place comes to. `inPlace_ends` lists the three ways it ends:

    * the copy is complete and takes the archive's place;
    * the copy is complete and stays beside the archive, because the exchange is refused;
    * there is no complete copy, and nothing is left of it.

  Each comes with what is known of the archive. Everything else about rewriting is read off this
  one statement.
-/

import FileListCache.Proofs.Copying

namespace FileListCache

open Archive (Member Opened)
open Disk (Aims CanCreate Removable Undisturbed Writer locate openRead)
open FileListCache.Tree (Step)
open World (Works Same Takes)

variable {h : Host} {w : World} {p q : String} {lp lq : Location}

/-- The error says that a complete copy could not take the archive's place. -/
def ArchiveError.IsRename : ArchiveError → Prop
  | .rename .. => True
  | _ => False

/-! ## Opening -/

/-- The start of a file is read where the path leads to a file. -/
theorem Files.signature_ends {count : Nat} (hcount : count ≠ 0) (hu : Undisturbed h w.tree p) :
    Ends w (Files.signature h p count) fun r w' => Same w w' ∧
      (∀ start, r = .ok start → start ≠ [] → ∃ l content, locate h w.tree true p = .ok l ∧
        w.tree.find? l = some (.file content) ∧ start = content.take count) ∧
      (∀ l content, locate h w.tree true p = .ok l → w.tree.find? l = some (.file content) →
        r = .ok (content.take count)) := by
  unfold Files.signature
  apply ends_adapt_bind (Disk.openRead_ends hu)
  · intro s w₁ hr
    obtain ⟨hsame, hok, -⟩ := hr
    obtain ⟨l, hl, hnode, rfl⟩ := hok s rfl
    rw [if_neg hcount]
    apply ends_get_bind
    obtain ⟨node, hnode⟩ := Option.ne_none_iff_exists'.1 hnode
    have hcontent : Disk.contentOf w₁.tree (.place l) = Disk.contentOf w.tree (.place l) := by
      rw [hsame.tree]
    rw [hcontent]
    -- Only of a file anything comes; a directory cannot be read.
    cases node with
    | file content =>
      have hread : Disk.contentOf w.tree (.place l) = .ok content := by
        simp [Disk.contentOf, hnode]
      rw [hread]
      refine ends_pure ⟨hsame, ?_, ?_⟩
      · intro _ he _
        cases he
        exact ⟨l, content, hl, hnode, rfl⟩
      · intro l' content' hl' hc'
        cases hl.symm.trans hl'
        cases hnode.symm.trans hc'
        rfl
    | directory =>
      have hread : Disk.contentOf w.tree (.place l) = .error (.system .isDirectory) := by
        simp [Disk.contentOf, hnode]
      rw [hread]
      refine ends_throw ⟨hsame, by rintro _ ⟨⟩, fun l' content' hl' hc' => ?_⟩
      cases hl.symm.trans hl'
      cases hnode.symm.trans hc'
    | contested content opens fate => exact absurd hnode (hu l content opens fate hl)
    | link | fullDevice =>
      -- A link at the end has been followed, and a device gives nothing.
      have hread : Disk.contentOf w.tree (.place l) = .ok [] := by
        simp [Disk.contentOf, hnode]
      rw [hread]
      refine ends_pure ⟨hsame, ?_, fun l' content' hl' hc' => ?_⟩
      · intro _ he hstart
        cases he
        exact absurd List.take_nil hstart
      · cases hl.symm.trans hl'
        cases hnode.symm.trans hc'
  · intro e w₁ hr
    obtain ⟨hsame, -, herr⟩ := hr
    refine ⟨hsame, by rintro _ ⟨⟩, fun l content hl hc => ?_⟩
    rw [herr e rfl l hl] at hc
    cases hc

/-- An archive is opened where the path leads to a file that is not empty. -/
theorem Archive.openAt_ends (hu : Undisturbed h w.tree p) :
    Ends w (Archive.openAt h p) fun r w' => Same w w' ∧
      (∀ o, r = .ok o → ∃ l content, locate h w.tree true p = .ok l ∧
        w.tree.find? l = some (.file content) ∧ content ≠ [] ∧
        o.compression = Compression.detect (content.take Compression.signatureLength) ∧
        o.source = .place l) ∧
      (∀ e, r = .error e → ¬ e.IsRename ∧ ∀ l content, locate h w.tree true p = .ok l →
        w.tree.find? l = some (.file content) → content = []) := by
  unfold Archive.openAt
  apply ends_adapt_bind (Files.signature_ends (by decide) hu)
  · intro start w₁ hr
    obtain ⟨hsame₁, hok, hread⟩ := hr
    -- An empty start is that of an empty file, which is no archive.
    by_cases hempty : start.isEmpty = true
    · simp only [hempty, if_true]
      refine ends_throw ⟨hsame₁, by rintro _ ⟨⟩, ?_⟩
      intro _ he
      cases he
      refine ⟨id, fun l content hl hc => ?_⟩
      have hstart : content.take Compression.signatureLength = [] := by
        cases hread l content hl hc
        exact List.isEmpty_iff.1 hempty
      rcases List.take_eq_nil_iff.1 hstart with h0 | h0
      · cases h0
      · exact h0
    · simp only [hempty, Bool.false_eq_true, if_false]
      obtain ⟨l, content, hl, hc, rfl⟩ := hok start rfl fun hs => hempty (by rw [hs]; rfl)
      apply ends_note_bind
      intro w₂ hsame₂
      have hsame := hsame₁.trans hsame₂.toSame
      have hu₂ : Undisturbed h w₂.tree p := by rwa [hsame.tree]
      apply ends_adapt_bind (Disk.openRead_ends hu₂)
      · intro s w₃ hr
        obtain ⟨hsame₃, hok₃, -⟩ := hr
        obtain ⟨l', hl', -, rfl⟩ := hok₃ s rfl
        rw [hsame.tree, hl] at hl'
        cases hl'
        refine ends_pure ⟨hsame.trans hsame₃, ?_, by rintro _ ⟨⟩⟩
        intro _ he
        cases he
        refine ⟨l, content, hl, hc, ?_, rfl, rfl⟩
        rintro rfl
        exact hempty rfl
      · intro e w₃ hr
        obtain ⟨hsame₃, -, herr₃⟩ := hr
        have hnone := herr₃ e rfl l (by rw [hsame.tree, hl])
        rw [hsame.tree, hc] at hnone
        cases hnone
  · intro e w₁ hr
    obtain ⟨hsame, -, hread⟩ := hr
    refine ⟨hsame, by rintro _ ⟨⟩, ?_⟩
    intro _ he
    cases he
    refine ⟨id, fun l content hl hc => ?_⟩
    cases hread l content hl hc

/-- The reader takes the contents for an archive with the members `ms`: it comes to their end. -/
def Archive.Accepts (contents : Bytes) (ms : List Member) : Prop :=
  contents ≠ [] ∧ Archive.members (.ofContents
    (Compression.detect (contents.take Compression.signatureLength)) contents) = (ms, none)

theorem Archive.Accepts.unique {contents : Bytes} {ms ms' : List Member}
    (ha : Archive.Accepts contents ms) (ha' : Archive.Accepts contents ms') : ms' = ms := by
  have := ha'.2.symm.trans ha.2
  simpa using this

namespace Transcode

/-! ## Copies beside archives -/

/-- The two paths aim at places apart, and nothing but files and directories stands there. -/
structure Beside (h : Host) (t : Tree) (p q : String) (lp lq : Location) : Prop where
  source : Aims h t p lp
  copy : Aims h t q lq
  apart : Tree.Apart lp lq
  plainSource : locate h t false p = .ok lp → t.IsPlain lp
  plainCopy : locate h t false q = .ok lq → t.IsPlain lq

theorem Beside.locate_true {t : Tree} {l : Location} (hb : Beside h t p q lp lq)
    (hl : locate h t true p = .ok l) : l = lp ∧ locate h t false p = .ok lp :=
  hb.source.locate_true (fun hp => (hb.plainSource hp).ne_link) hl

theorem Beside.undisturbed {t : Tree} (hb : Beside h t p q lp lq) : Undisturbed h t p := by
  intro l content opens fate hl
  obtain ⟨rfl, hp⟩ := hb.locate_true hl
  rcases hb.plainSource hp with hn | hn | ⟨bytes, hn⟩ <;> simp [hn]

/-- Everything is in order for a copy: the first path leads to an archive, and nothing keeps a file
from being made where the second aims. -/
structure Ready (h : Host) (t : Tree) (p q : String) (lp lq : Location) (ms : List Member) :
    Prop where
  source : locate h t false p = .ok lp
  copy : CanCreate h t q lq
  accepted : ∃ contents, t.find? lp = some (.file contents) ∧ Archive.Accepts contents ms

/-- A complete copy stands at `lq` in the world `w'`, and nothing else is different there. -/
structure Complete (h : Host) (w : World) (p q : String) (lp lq : Location) (ms : List Member)
    (w' : World) : Prop where
  ready : Ready h w.tree p q lp lq ms
  works : Works (Step.Fills lq) w w'
  copy : w'.tree.find? lq = some (.file (Archive.bytesOf ms))

/-- No complete copy was made, and nothing is left of it in the world `w'`, unless the system keeps
what was there before. -/
structure Abandoned (h : Host) (w : World) (p q : String) (lp lq : Location) (w' : World) :
    Prop where
  works : ∃ w₁, Works (Step.Fills lq) w w₁ ∧ Works (Step.Clears lq) w₁ w'
  cleared : locate h w.tree false q = .ok lq → Removable h w.tree lq → w'.tree.find? lq = none
  untouched : locate h w.tree false q ≠ .ok lq → Same w w'
  reason : h.room lq = none → ∀ ms, ¬ Ready h w.tree p q lp lq ms

theorem Abandoned.trans_same {w' w'' : World} (ha : Abandoned h w p q lp lq w')
    (hs : Same w' w'') : Abandoned h w p q lp lq w'' := by
  obtain ⟨w₁, hfills, hclears⟩ := ha.works
  refine ⟨⟨w₁, hfills, hclears.trans hs.works⟩, fun hq hr => ?_, fun hq => ?_, ha.reason⟩
  · rw [hs.tree, ha.cleared hq hr]
  · exact (ha.untouched hq).trans hs

/-- An archive that is read to its end is copied whole; the copy fails for no other reason than
that the disk is short of room. -/
theorem copyArchive_ends (hb : Beside h w.tree p q lp lq) :
    Ends w (copyArchive h p q) fun r w' => Works (Step.Fills lq) w w' ∧
      w.tree.Alike w'.tree ∧ (¬ CanCreate h w.tree q lq → Same w w') ∧
      (∀ report, r = .ok report → ∃ ms, report = .ofMembers ms ∧
        Complete h w p q lp lq ms w') ∧
      (∀ e, r = .error e → ¬ e.IsRename ∧
        (h.room lq = none → ∀ ms, ¬ Ready h w.tree p q lp lq ms)) := by
  unfold copyArchive
  apply ends_bind (Archive.openAt_ends hb.undisturbed)
  · intro o w₁ hr
    obtain ⟨hsame₁, hok, -⟩ := hr
    obtain ⟨l, contents, hl, hc, hne, hcompression, hsource⟩ := hok o rfl
    obtain ⟨rfl, hl⟩ := hb.locate_true hl
    have hb₁ : Beside h w₁.tree p q l lq := by rwa [hsame₁.tree]
    apply ends_adapt_bind (Disk.create_ends hb₁.copy hb₁.plainCopy)
    · intro sink w₂ hr
      obtain ⟨hok₂, -⟩ := hr
      obtain ⟨hcan, htakes, rfl⟩ := hok₂ sink rfl
      rw [hsame₁.tree] at hcan
      have hworks₂ : Works (Step.Fills lq) w w₂ := hsame₁.works.trans (htakes.works ⟨rfl, rfl⟩)
      have hq₀ : lq ≠ [] := hb.apart.symm.ne_nil
      have halike {w' : World} (hworks : Works (Step.Fills lq) w w') : w.tree.Alike w'.tree :=
        hworks.alike_of_fills hq₀ ((hb.plainCopy hcan.leads).isDeadEnd hcan.noDirectory)
      have hfile : w₂.tree.find? lq = some (.file []) := by
        rw [htakes.tree, Tree.find?_put hq₀, if_pos rfl]
      -- The archive is not what was made, so it is read as it was.
      have hcontent : w₂.tree.find? l = some (.file contents) := by
        rw [hworks₂.find?_of_fills hq₀ hb.apart.ne, hc]
      have hstream : o.stream w₂.tree = .ofContents
          (Compression.detect (contents.take Compression.signatureLength)) contents := by
        simp only [Opened.stream, hsource, Disk.contentOf, hcontent, hcompression]
      have hw₂ : Writer.Holds { sink := ⟨some lq, h.room lq⟩ } w₂.tree lq [] :=
        ⟨rfl, [], hfile, rfl⟩
      apply ends_get_bind
      rw [hstream]
      apply ends_outcome_bind
      refine ends_imp (copyStream_ends _ hw₂) ?_
      -- The source gave out, the destination did, or the copy is complete.
      rintro ((⟨e, wr⟩ | e) | report) w₃ ⟨hworks₃, hr⟩
      · obtain ⟨hmembers, bs, hw₃⟩ := hr
        apply ends_discard_bind
        apply ends_outcome_bind
        refine ends_imp (finish_ends hw₃) ?_
        intro r w₄ hr
        obtain ⟨hworks₄, -⟩ := hr
        have hworks := hworks₂.trans (hworks₃.trans hworks₄)
        refine ends_throw ⟨hworks, halike hworks, fun hn => absurd hcan hn, by rintro _ ⟨⟩, ?_⟩
        intro _ he
        cases he
        refine ⟨id, fun _ ms hready => ?_⟩
        obtain ⟨contents', hc', haccepts⟩ := hready.accepted
        cases hc.symm.trans hc'
        exact hmembers ms haccepts.2
      · have hworks := hworks₂.trans hworks₃
        refine ends_throw ⟨hworks, halike hworks, fun hn => absurd hcan hn, by rintro _ ⟨⟩, ?_⟩
        intro _ he
        cases he
        exact ⟨id, fun hroom => absurd hroom hr⟩
      · obtain ⟨ms, hms, rfl, hcopy⟩ := hr
        have hworks := hworks₂.trans hworks₃
        refine ends_pure ⟨hworks, halike hworks, fun hn => absurd hcan hn, ?_, by rintro _ ⟨⟩⟩
        intro _ he
        cases he
        exact ⟨ms, rfl, ⟨hl, hcan, contents, hc, hne, hms⟩, hworks, hcopy⟩
    · intro e w₂ hr
      obtain ⟨-, herr⟩ := hr
      obtain ⟨hsame₂, hcan⟩ := herr e rfl
      have hsame := hsame₁.trans hsame₂
      refine ⟨hsame.works, hsame.alike, fun _ => hsame, by rintro _ ⟨⟩, ?_⟩
      intro _ he
      cases he
      rw [hsame₁.tree] at hcan
      exact ⟨id, fun _ ms hready => hcan hready.copy⟩
  · intro e w₁ hr
    obtain ⟨hsame₁, -, herr⟩ := hr
    refine ⟨hsame₁.works, hsame₁.alike, fun _ => hsame₁, by rintro _ ⟨⟩, ?_⟩
    intro _ he
    cases he
    refine ⟨(herr e rfl).1, fun _ ms hready => ?_⟩
    obtain ⟨contents, hc, hne, -⟩ := hready.accepted
    have hl := Disk.locate_true_of_false hready.source (hb.plainSource hready.source).ne_link
    exact hne ((herr e rfl).2 lp contents hl hc)

/-- A copy that fails is removed with whatever else is in its place. -/
theorem tryCopy_ends (hb : Beside h w.tree p q lp lq) :
    Ends w (tryCatch (copyArchive h p q) fun e => do
      if let .error removal ← (Files.remove h q).run then
        World.note .warn .transcode removal.message
      throw e) fun r w' =>
        (∀ report, r = .ok report → ∃ ms, report = .ofMembers ms ∧ w.tree.Alike w'.tree ∧
          Complete h w p q lp lq ms w') ∧
        (∀ e, r = .error e → ¬ e.IsRename ∧ Abandoned h w p q lp lq w') := by
  have hq₀ : lq ≠ [] := hb.apart.symm.ne_nil
  apply ends_catch (copyArchive_ends hb)
  · intro report w₁ hr
    obtain ⟨-, halike, -, hok, -⟩ := hr
    obtain ⟨ms, hreport, hcomplete⟩ := hok report rfl
    refine ⟨?_, by rintro _ ⟨⟩⟩
    intro _ he
    cases he
    exact ⟨ms, hreport, halike, hcomplete⟩
  · intro e w₁ hr
    obtain ⟨hworks, halike, hsame, -, herr⟩ := hr
    obtain ⟨hrename, hroom⟩ := herr e rfl
    apply Files.ends_noted
    refine ends_imp (Files.remove_ends (hb.copy.fades halike.1)) ?_
    intro r w₂ hr w₃ hsame₃
    obtain ⟨hworks₂, hlocated, hmissed⟩ := hr
    -- Where the path leads what was made is gone; where it leads nowhere nothing was made.
    have habandoned : Abandoned h w p q lp lq w₂ := by
      refine ⟨⟨w₁, hworks, hworks₂⟩, fun hq hr => ?_, fun hq => ?_, hroom⟩
      · refine hlocated (hb.copy.alike halike hq) ?_
        by_cases hcan : CanCreate h w.tree q lq
        · exact hcan.removable hq₀ (hb.plainCopy hq) hr hworks
        · rwa [(hsame hcan).tree]
      · have hsame₁ := hsame fun hcan => hq hcan.leads
        have hq₁ : locate h w₁.tree false q ≠ .ok lq := by rwa [hsame₁.tree]
        exact hsame₁.trans (hmissed hq₁)
    refine ends_throw ⟨by rintro _ ⟨⟩, ?_⟩
    intro _ he
    cases he
    exact ⟨hrename, habandoned.trans_same hsame₃.toSame⟩

/-! ## Taking the archive's place -/

/-- What rewriting an archive comes to, by how it ends. -/
theorem inPlace_ends (hb : Beside h w.tree p (copyPath p) lp lq) :
    Ends w (inPlace h p) fun r w' =>
      (∀ report, r = .ok report → ∃ ms w₁, report = .ofMembers ms ∧
        Complete h w p (copyPath p) lp lq ms w₁ ∧ w.tree.Alike w₁.tree ∧
        Takes (.move lq lp) w₁ w') ∧
      (∀ source target entries reason, r = .error (.rename source target entries reason) →
        source = copyPath p ∧ target = p ∧ ¬ h.Moves lq lp ∧ ∃ ms,
          entries = (Report.ofMembers ms).entries ∧ Complete h w p (copyPath p) lp lq ms w') ∧
      (∀ e, r = .error e → ¬ e.IsRename → Abandoned h w p (copyPath p) lp lq w') := by
  have hq₀ : lq ≠ [] := hb.apart.symm.ne_nil
  unfold inPlace
  apply ends_bind (tryCopy_ends hb)
  · intro report w₁ hr
    obtain ⟨hok, -⟩ := hr
    obtain ⟨ms, rfl, halike, hcomplete⟩ := hok report rfl
    -- The copy is complete; only the exchange can still fail.
    have hcopy₁ : Aims h w₁.tree (copyPath p) lq := hb.copy.fades halike.1
    have hsource₁ : Aims h w₁.tree p lp := hb.source.fades halike.1
    apply ends_adapt_bind (Disk.rename_ends hcopy₁ hsource₁ hb.apart.symm.ne hcomplete.copy)
    · intro u w₂ hr
      obtain ⟨hmoved, -⟩ := hr
      obtain ⟨-, -, -, -, htakes⟩ := hmoved rfl
      apply ends_note_bind
      intro w₃ hsame₃
      refine ends_pure ⟨?_, by rintro _ _ _ _ ⟨⟩, by rintro _ ⟨⟩⟩
      intro _ he
      cases he
      exact ⟨ms, w₁, rfl, hcomplete, halike, htakes.trans_same hsame₃.toSame⟩
    · intro e w₂ hr
      obtain ⟨-, herr⟩ := hr
      obtain ⟨hsame₂, hrefusal⟩ := herr e rfl
      refine ⟨by rintro _ ⟨⟩, ?_, ?_⟩
      · intro _ _ _ _ he
        cases he
        refine ⟨rfl, rfl, hrefusal ?_ ?_ ?_, ms, rfl, hcomplete.ready,
          hcomplete.works.trans hsame₂.works, by rw [hsame₂.tree, hcomplete.copy]⟩
        · exact hb.copy.alike halike hcomplete.ready.copy.leads
        · exact hb.source.alike halike hcomplete.ready.source
        · obtain ⟨contents, hc, -⟩ := hcomplete.ready.accepted
          rw [hcomplete.works.find?_of_fills hq₀ hb.apart.ne, hc]
          simp
      · intro _ he hn
        cases he
        exact absurd trivial hn
  · intro e w' hr
    obtain ⟨-, herr⟩ := hr
    obtain ⟨hrename, habandoned⟩ := herr e rfl
    refine ⟨by rintro _ ⟨⟩, ?_, ?_⟩
    · intro _ _ _ _ he
      cases he
      exact absurd trivial hrename
    · intro _ he _
      cases he
      exact habandoned

end Transcode

end FileListCache
