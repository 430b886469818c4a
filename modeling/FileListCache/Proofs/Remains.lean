/-
  FileListCache.Proofs.Remains

  What a fetch that fails leaves behind. Whatever went wrong while the document was received, the
  file that held what had arrived is removed, if the system let go of what stood in its place before
  (`Fetcher.fetch_vacates`); what the fetch has made itself can always be removed again. The
  renaming is the one stage with no such end: where a directory has the final name, all of the
  document stays beside it (`Fetcher.fetch_onto_directory`).
-/

import FileListCache.Proofs.Confinement
import FileListCache.Proofs.Reports
import FileListCache.Proofs.Vacancy

namespace FileListCache

open Disk (Aims locate)
open World (Same Works)

/-- A renaming that fails changes nothing. -/
theorem Disk.rename_fails {h : Host} (w : World) (source target : String) :
    Ends w (rename h source target) fun r w' => ∀ e, r = .error e → w' = w := by
  have hmove (s d : Location) : Ends w (move h s d) fun r w' => ∀ e, r = .error e → w' = w := by
    unfold move
    split
    · exact ends_throw fun _ _ => rfl
    · exact ends_tell (by rintro _ ⟨⟩)
  unfold rename
  apply ends_get_bind
  refine ends_except_bind (fun s _ => ends_except_bind (fun d _ =>
    ends_except_bind (fun _ _ => ?_) fun _ _ _ _ => rfl) fun _ _ _ _ => rfl) fun _ _ _ _ => rfl
  split
  · exact ends_throw fun _ _ => rfl
  · refine ends_except_bind (fun _ _ => ?_) fun _ _ _ _ => rfl
    split
    · split
      · exact hmove s d
      · split
        · exact ends_pure (by rintro _ ⟨⟩)
        · split
          · exact hmove s d
          · exact ends_throw fun _ _ => rfl
      · exact ends_throw fun _ _ => rfl
    · split
      · exact ends_throw fun _ _ => rfl
      · split
        · exact ends_throw fun _ _ => rfl
        · split
          · exact ends_pure (by rintro _ ⟨⟩)
          · exact hmove s d

/-! ## What a fetch has made can be removed -/

namespace Disk

variable {h : Host} {w : World} {t : Tree} {p name : String} {ns : List String}

/-- Where a file was made no directory stood, and what stood there can be removed only if its
directory is not locked. -/
theorem create_opens (p : String) (w : World) :
    Ends w (create h p) fun r w' => (∀ e, r = .error e → w' = w) ∧
      ∀ sink, r = .ok sink → w.tree.Fades w'.tree ∧
        ∀ l, locate h w.tree false p = .ok l → w.tree.find? l ≠ some .directory ∧
          (Removable h w.tree l → h.locked l.dropLast = none) := by
  unfold create
  apply ends_get_bind
  refine ends_except_bind (fun place hplace => ?_) fun e _ => ⟨fun _ _ => rfl, nofun⟩
  by_cases hslash : Path.endsInSlash p = true
  · rw [if_pos hslash]
    exact ends_throw ⟨fun _ _ => rfl, nofun⟩
  rw [if_neg hslash]
  refine ends_except_bind (fun _ hmake => ?_) fun e _ => ⟨fun _ _ => rfl, nofun⟩
  have hown (hdir : w.tree.find? place ≠ some .directory) (l : Location)
      (hl : locate h w.tree false p = .ok l) : w.tree.find? l ≠ some .directory ∧
        (Removable h w.tree l → h.locked l.dropLast = none) := by
    -- The path leads on only from a link.
    have hsame (hlink : ∀ target, w.tree.find? l ≠ some (.link target)) : place = l :=
      Except.ok.inj (hplace.symm.trans (locate_true_of_false hl hlink))
    refine ⟨fun hd => hdir (hsame (by simp [hd]) ▸ hd), fun hremovable => ?_⟩
    rcases hnode : w.tree.find? l with _ | node
    · have hmakeable : Makeable h w.tree l := hsame (by simp [hnode]) ▸ hmake
      exact hmakeable.unlocked hnode
    · obtain ⟨cs, hcs, -⟩ := exists_doomed hnode
      exact hremovable l (by simp [hcs])
  have hput (hdir : w.tree.find? place ≠ some .directory) : Ends w (do
      World.take (.put place (.file []))
      return { place := some place, room := h.room place } : Attempt IoError Sink) fun r w' =>
        (∀ e, r = .error e → w' = w) ∧ ∀ sink, r = .ok sink → w.tree.Fades w'.tree ∧
          ∀ l, locate h w.tree false p = .ok l → w.tree.find? l ≠ some .directory ∧
            (Removable h w.tree l → h.locked l.dropLast = none) := by
    have hne : place ≠ [] := by
      rintro rfl
      exact hdir (Tree.find?_nil _)
    refine ends_tell_bind (ends_pure ⟨nofun, fun _ _ => ⟨?_, hown hdir⟩⟩)
    exact Tree.Step.Fills.fades hne ⟨rfl, rfl⟩
  rcases hnode : w.tree.find? place with - | (content | - | target | - | ⟨content, opens, fate⟩)
  · exact hput (by simp [hnode])
  · exact hput (by simp [hnode])
  · exact ends_throw ⟨fun _ _ => rfl, nofun⟩
  · exact hput (by simp [hnode])
  · exact ends_pure ⟨nofun, fun _ _ => ⟨.refl _, hown (by simp [hnode])⟩⟩
  · exact hput (by simp [hnode])

end Disk

theorem Tree.fades_extend (t : Tree) (p : Location) (bytes : Bytes) :
    t.Fades (t.apply (.extend p bytes)) := by
  intro l
  rcases find?_extend_cases t p bytes l with he | ⟨-, content, -, hfile⟩
  · exact .inl he
  · exact .inr (isDeadEnd_of_file hfile)

/-- What can be removed, or was not there, can be removed after a document was received in its
place. -/
theorem Fetcher.receive_removable {h : Host} {w : World} {f : Fetcher} {u : Url}
    {filename part name : String} {ns : List String} (hquiet : w.tree.IsQuiet) (hf : f.IsPassive)
    (hn : Path.EndsIn part ns name) (hremovable : Files.IsRemovable h w.tree part) :
    Ends w (f.receive h u filename part) fun _ w' => Files.IsRemovable h w'.tree part := by
  unfold receive
  apply ends_bind (openUrl_same hquiet u)
  · rintro ⟨incoming, total⟩ w₁ hsame
    rw [← hsame.tree] at hremovable
    apply ends_adapt_bind (Disk.create_opens part w₁)
    · intro sink w₂ hr
      obtain ⟨hfades, hown⟩ := hr.2 sink rfl
      -- From now on bytes are added at most, so no path comes to lead anywhere else.
      have hkept {t : Tree} (ht : w₁.tree.Fades t) : Files.IsRemovable h t part := by
        intro l hl
        obtain ⟨hsay, d, hd, rfl⟩ := (Disk.locate_endsIn hn).1 hl
        have hl₁ : locate h w₁.tree false part = .ok (d ++ [name]) :=
          (Disk.locate_endsIn hn).2 ⟨hsay, d, hd.of_fades ht, rfl⟩
        obtain ⟨hdir, hunlocked⟩ := hown _ hl₁
        refine Disk.removable_of_ne ?_ (hunlocked (hremovable _ hl₁))
        rcases ht (d ++ [name]) with he | hdead
        · rwa [he]
        · exact hdead.1
      have hadds {w w' : World} (hworks : Works (Tree.Step.Adds sink.place) w w')
          (ht : w₁.tree.Fades w.tree) : w₁.tree.Fades w'.tree := by
        refine hworks.induct (P := w₁.tree.Fades) (fun t s ht hs => ?_) ht
        obtain ⟨p, bytes, -, rfl⟩ := hs.exists_extend
        exact ht.trans (Tree.fades_extend t p bytes)
      apply ends_tell_bind
      have htree₃ := (hf ⟨filename, 0, total⟩ w₂).tree
      generalize ((f.onProgress ⟨filename, 0, total⟩).run w₂).2 = w₃ at htree₃
      rw [← htree₃] at hfades
      apply ends_get_bind
      apply ends_bind (foldlM_takeChunk_treads hf _ ({ sink }, 0) rfl w₃)
      · rintro ⟨wr, size⟩ w₄ ⟨hworks₄, hstate⟩
        refine ends_imp (closing_treads (hstate _ rfl) w₄) fun r w₅ hr => ?_
        exact hkept (hadds hr.1 (hadds hworks₄ hfades))
      · exact fun e w₄ hr => hkept (hadds hr.1 hfades)
    · intro e w₂ hr
      rw [hr.1 e rfl]
      exact hremovable
  · intro e w₁ hsame
    rw [hsame.tree]
    exact hremovable

namespace Fetcher

variable {h : Host} {w : World} {f : Fetcher} {url filename : String} {lp lo : Location}
  {bytes : Bytes}

theorem exists_endsIn_partPath (f : Fetcher) (filename : String) :
    ∃ ns name, Path.EndsIn (f.partPath filename) ns name := by
  obtain ⟨ns, name, -, happ⟩ := Path.exists_pieces_append (f.outputPath filename)
  rw [partPath_eq]
  exact ⟨ns, name ++ ".part", happ ".part" (by decide),
    Path.isName_of_getLast? (c := 't') (by simp) (by decide)⟩

/-- A fetch that fails leaves nothing at the path of what had arrived that can be removed, unless
the document was received and only the renaming failed. Then all is as the transfer left it. If
nobody else changes files meanwhile, all can be removed that could be at first, and so can what was
not there yet. An address that is none changes nothing at all. -/
theorem fetch_vacates (h : Host) (f : Fetcher) (w : World) (url filename : String) :
    Ends w (f.fetch h url filename) fun r w' => ∀ e, r = .error e →
      (w' = w ∧ ∃ reason, Url.ofText url = .error reason) ∨
      (∃ u w₁, Url.ofText url = .ok u ∧
        (f.starting url filename w).attempt (f.receive h u filename (f.partPath filename)) =
          (.error e, w₁) ∧
        (Files.IsRemovable h w₁.tree (f.partPath filename) →
          Disk.IsVacant h w'.tree (f.partPath filename)) ∧
        (f.IsPassive → w.tree.IsQuiet → Files.IsRemovable h w.tree (f.partPath filename) →
          Disk.IsVacant h w'.tree (f.partPath filename))) ∨
      ∃ u size w₁ cause, Url.ofText url = .ok u ∧
        (f.starting url filename w).attempt (f.receive h u filename (f.partPath filename)) =
          (.ok size, w₁) ∧
        w'.tree = w₁.tree ∧ e = .write (f.outputPath filename) cause := by
  cases hu : Url.ofText url with
  | error reason =>
    unfold fetch
    rw [hu]
    exact ends_throw fun _ _ => .inl ⟨rfl, reason, rfl⟩
  | ok u =>
    obtain ⟨ns, name, hn⟩ := f.exists_endsIn_partPath filename
    apply ends_fetch hu (R := fun r w₁ => (f.starting url filename w).attempt
      (f.receive h u filename (f.partPath filename)) = (r, w₁))
    · rfl
    · intro e w₁ hreceived
      refine ends_imp (Files.remove_vacates hn) fun _ w₂ hvacant w₃ hsame e' he => .inr (.inl ?_)
      rw [← hsame.tree] at hvacant
      cases he
      refine ⟨u, w₁, rfl, hreceived, hvacant, fun hf hquiet hremovable => hvacant ?_⟩
      exact (ends_iff hreceived).1 (receive_removable hquiet hf hn hremovable)
    · intro size w₁ hreceived w₂ hsame
      refine ends_imp (Disk.rename_fails w₂ _ _) fun r w₃ hfails =>
        ⟨fun _ => by rintro _ ⟨⟩, fun cause hr e he => .inr (.inr ?_)⟩
      cases he
      exact ⟨u, size, w₁, cause, rfl, hreceived, by rw [hfails cause hr, hsame.tree], rfl⟩

/-- A document that arrives whole does not take the place of a directory: the fetch fails, and the
document stays where it was received. -/
theorem fetch_onto_directory {answer : List Http.Request → Option Http.Body}
    (hl : Landing h w.tree (f.partPath filename) (f.outputPath filename) lp lo)
    (hf : f.IsPassive) (hanswers : f.Answers h (fun _ => True) url answer)
    (hanswer : answer w.requests = some ⟨bytes, none⟩) (hroom : h.room lp = none)
    (hunlocked : h.locked lp.dropLast = none)
    (hpart : locate h w.tree false (f.partPath filename) = .ok lp)
    (hdirectory : w.tree.find? lo = some .directory) :
    Ends w (f.fetch h url filename) fun r w' =>
      (∃ cause, r = .error (.write (f.outputPath filename) cause)) ∧
        locate h w'.tree false (f.partPath filename) = .ok lp ∧
        w'.tree.find? lp = some (.file bytes) := by
  have hlp : lp ≠ [] := hl.apart.ne_nil
  unfold Answers at hanswers
  cases hu : Url.ofText url with
  | error e =>
    rw [hu] at hanswers
    cases (hanswers _).symm.trans hanswer
  | ok u =>
    rw [hu] at hanswers
    apply ends_fetch hu (receive_ends hl hf (fun _ _ _ _ => trivial) trivial hanswers)
    · rintro e w₁ ⟨-, -, herr⟩
      have hcreate : Disk.CanCreate h w.tree (f.partPath filename) lp :=
        ⟨hpart, hl.leaf.isDeadEnd.1, Disk.makeable_of_unlocked hunlocked⟩
      exact absurd hanswer (herr e rfl hroom hcreate bytes)
    · rintro n w₁ ⟨hworks, hok, -⟩ w₂ hsame
      obtain ⟨-, bytes', hbytes, hfile⟩ := hok n rfl
      cases hanswer.symm.trans hbytes
      have hworks₂ := hworks.trans hsame.works
      have halike : w.tree.Alike w₂.tree := hworks₂.alike_of_fills hlp hl.leaf.isDeadEnd
      rw [← hsame.tree] at hfile
      have hlo : w₂.tree.find? lo = some .directory :=
        (hworks₂.find?_of_fills hlp hl.apart.symm.ne).trans hdirectory
      refine ends_imp (ends_and (Disk.rename_fails w₂ _ _) (Disk.rename_ends
        (hl.part.fades halike.1) (hl.output.fades halike.1) hl.apart.ne hfile)) fun r w₃ hr => ?_
      obtain ⟨hfails, hmoves, -⟩ := hr
      refine ⟨fun hok => absurd hlo (hmoves hok).2.2.1, fun e he => ⟨⟨e, rfl⟩, ?_⟩⟩
      rw [hfails e he]
      exact ⟨hl.part.alike halike hpart, hfile⟩

/-- A cache in which a directory has the name of a list. -/
def blockedCache : World where
  tree := ⟨[(["cache"], .directory), (["cache", "core.files"], .directory)]⟩

/-- Not every fetch that fails leaves nothing of its own behind: three bytes stay beside a directory
whose name they were to get. -/
theorem fetch_keeps_part : ¬ ∀ (h : Host) (f : Fetcher) (w : World) (url filename : String),
    Disk.IsVacant h w.tree (f.partPath filename) →
      Ends w (f.fetch h url filename) fun r w' => ∀ e, r = .error e →
        Disk.IsVacant h w'.tree (f.partPath filename) := by
  intro hclaim
  have hcache : locate (Sync.mirrors [1, 2, 3] []) blockedCache.tree true "/cache" =
      .ok ["cache"] :=
    Disk.locate_of_names (by decide) (by decide) (by decide) (by decide) (by decide)
      (by rintro _ ⟨⟩)
  have hpart : locate (Sync.mirrors [1, 2, 3] []) blockedCache.tree false
      "/cache/core.files.part" = .ok ["cache", "core.files.part"] :=
    Disk.locate_of_names (by decide) (by decide) (by decide) (by decide) (by decide)
      (by rintro _ ⟨⟩)
  have hnone : blockedCache.tree.find? ["cache", "core.files.part"] = none := by decide
  have hlanding : Landing (Sync.mirrors [1, 2, 3] []) blockedCache.tree
      (Path.join "/cache" "core.files.part") (Path.join "/cache" "core.files")
      (["cache"] ++ ["core.files.part"]) (["cache"] ++ ["core.files"]) :=
    ⟨Disk.aims_join hcache (by decide) (by decide) (by decide),
      Disk.aims_join hcache (by decide) (by decide) (by decide),
      Tree.apart_concat (by decide), .inl hnone⟩
  have hfetch : Ends blockedCache ((Sync.fetcher {} Sync.coreGoal false).fetch
      (Sync.mirrors [1, 2, 3] []) (Sync.coreGoal.url Sync.core "http://mirror") "core.files") _ :=
    fetch_onto_directory hlanding (Sync.fetcher_isPassive {} Sync.coreGoal false)
      (Sync.address_answers Sync.ofText_core) Sync.webAnswer_core rfl rfl hpart (by decide)
  obtain ⟨⟨cause, herr⟩, hpart', hfile⟩ := hfetch
  have hvacant := hclaim (Sync.mirrors [1, 2, 3] []) (Sync.fetcher {} Sync.coreGoal false)
    blockedCache (Sync.coreGoal.url Sync.core "http://mirror") "core.files" (fun l hl => ?_) _ herr
  · cases (hvacant _ hpart').symm.trans hfile
  · cases hpart.symm.trans hl
    exact hnone

end Fetcher

end FileListCache
