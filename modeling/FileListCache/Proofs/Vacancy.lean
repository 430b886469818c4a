/-
  FileListCache.Proofs.Vacancy

  What removing the old list leaves behind. A removal is work on the tree alone: the tree decides
  what it comes to, and it says nothing (`Files.attempt_remove`). Nothing stands at the path of a
  list afterwards if the system lets go of what stood there (`Files.remove_list`), so the list that
  is there after a download was delivered by it.

  A download that fails leaves no list behind if it asks a server at all, if the old list can be
  removed and if what fetches leaves nothing behind where it fails (`Download.run_vacates`). Without
  servers nothing is removed, and an old list stays (`Download.run_keeps_stale`).
-/

import FileListCache.Proofs.Results
import FileListCache.Proofs.Reach
import FileListCache.Proofs.Utterances

namespace FileListCache

variable {σ : Type} {h : Host}

/-! ## Removals -/

namespace Files

variable {w : World} {p name : String} {ns : List String}

theorem isRemovable_of_isVacant {t : Tree} (hp : Disk.IsVacant h t p) : IsRemovable h t p :=
  fun l hl => Disk.removable_of_none (hp l hl)

/-- Where a path ends in a name nothing is left of what it names and the system lets go of. -/
theorem remove_vacates (hn : Path.EndsIn p ns name) :
    Ends w (remove h p) fun _ w' => IsRemovable h w.tree p → Disk.IsVacant h w'.tree p := by
  rw [ends_iff (attempt_remove hn w)]
  intro hremovable l' hl'
  rcases hl : Disk.locate h w.tree false p with e | l
  · rw [clearingOf_of_error hl, World.taking_nil, hl] at hl'
    cases hl'
  · -- As entries go, no path comes to lead anywhere else.
    have hwithout := clearingOf_without hn hl hremovable
    obtain ⟨hsay, d, hd, rfl⟩ := (Disk.locate_endsIn hn).1 hl'
    have hbefore : Disk.locate h w.tree false p = .ok (d ++ [name]) :=
      (Disk.locate_endsIn hn).2 ⟨hsay, d, hd.of_fades hwithout.fades, rfl⟩
    cases hl.symm.trans hbefore
    exact hwithout.gone

/-- Nothing is left of the list of a repository, however the repository is called. -/
theorem remove_list (g : Download.Goal) (repo : Repository) :
    Ends w (remove h (g.path repo)) fun r w' => r = removal h w.tree (g.path repo) ∧
      (∃ ss, w' = w.taking ss) ∧
      (IsRemovable h w.tree (g.path repo) → Disk.IsVacant h w'.tree (g.path repo)) := by
  obtain ⟨ns, stem, hn⟩ := Role.exists_endsIn g.cache repo.name
  have htried : Ends w (remove h (g.path repo)) fun r w' =>
      r = removal h w.tree (g.path repo) ∧ ∃ ss, w' = w.taking ss := by
    exact (ends_iff (attempt_remove (hn .list) w)).2 ⟨rfl, _, rfl⟩
  exact ends_imp (ends_and htried (remove_vacates (hn .list))) fun _ _ hr =>
    ⟨hr.1.1, hr.1.2, hr.2⟩

end Files

/-! ## Downloads that fail -/

namespace Download

variable {fetch : Fetch σ} {g : Goal} {repo : Repository}

/-- What fetches leaves nothing at the path of the list where it fails. -/
def LeavesNothing (h : Host) (fetch : Fetch σ) (g : Goal) (repo : Repository) : Prop :=
  ∀ url (w : World) (s : σ), Disk.IsVacant h w.tree (g.path repo) →
    Settles w s (fetch url repo.fileName).run fun r _ w' =>
      ∀ e, r = .error e → Disk.IsVacant h w'.tree (g.path repo)

/-- As long as a server is left to be asked, it does not matter what stood at the path, if it can be
removed. -/
theorem fromServers_vacates (hfetch : LeavesNothing h fetch g repo) (servers : List String)
    (w : World) (s : σ) (hremovable : Files.IsRemovable h w.tree (g.path repo))
    (hw : servers = [] → Disk.IsVacant h w.tree (g.path repo)) :
    Settles w s (fromServers h fetch g repo servers).run fun r _ w' =>
      ∀ e, r = .error e → Disk.IsVacant h w'.tree (g.path repo) := by
  induction servers generalizing w s with
  | nil => exact settles_pure fun _ _ => hw rfl
  | cons server servers ih =>
    unfold fromServers
    dsimp only
    apply Files.settles_noted
    refine ends_imp (Files.remove_list g repo) fun _ w₁ hr w₂ hsame₂ => ?_
    obtain ⟨-, -, hvacant⟩ := hr
    have hvacant := hvacant hremovable
    apply settles_note_bind
    intro w₃ hsame₃
    rw [← hsame₂.tree, ← hsame₃.tree] at hvacant
    apply settles_run_lift_bind
    refine settles_imp (hfetch _ w₃ s hvacant) fun r s₁ w₄ hfailed => ?_
    cases r with
    | ok path => exact settles_run_tell_bind (settles_pure (by rintro _ ⟨⟩))
    | error e =>
      have hvacant₄ := hfailed e rfl
      apply settles_note_bind
      intro w₅ hsame₅
      apply settles_note_bind
      intro w₆ hsame₆
      apply settles_run_tell_bind
      rw [← hsame₅.tree, ← hsame₆.tree] at hvacant₄
      -- What a server has left is nothing, so from now on there is nothing to be removed.
      exact ih _ s₁ (Files.isRemovable_of_isVacant hvacant₄) fun _ => hvacant₄

/-- A download that fails leaves no list in the cache if the repository has a server and an old list
can be removed. One without servers fails at once, and the disk stays as it was. -/
theorem run_vacates (hfetch : LeavesNothing h fetch g repo) (w : World) (s : σ) :
    Settles w s (run h fetch g repo).run fun r s' w' =>
      (repo.servers ≠ [] → Files.IsRemovable h w.tree (g.path repo) →
        ∀ e, r = .error e → Disk.IsVacant h w'.tree (g.path repo)) ∧
      (repo.servers = [] → r = .error (.noServers repo.name) ∧ s' = s ∧ w'.tree = w.tree) := by
  unfold run
  apply settles_run_tell_bind
  by_cases hservers : repo.servers = []
  · rw [if_pos (by simp [hservers])]
    exact settles_pure ⟨fun hne => absurd hservers hne, fun _ => ⟨rfl, rfl, rfl⟩⟩
  rw [if_neg (by simpa using hservers)]
  by_cases hremovable : Files.IsRemovable h w.tree (g.path repo)
  · refine settles_imp (fromServers_vacates hfetch repo.servers _ s hremovable
      fun he => absurd he hservers) fun r s' w' hr => ?_
    exact ⟨fun _ _ => hr, fun he => absurd he hservers⟩
  · exact ⟨fun _ hr => absurd hr hremovable, fun he => absurd he hservers⟩

/-- Refuses whatever it is asked for. -/
def refuseAll : Fetch Unit := fun url _ => throw (.localPath url)

theorem refuseAll_leavesNothing : LeavesNothing h refuseAll g repo := fun _ _ _ hw =>
  settles_pure fun _ _ => hw

/-- An old list is gone when the only server has refused. -/
theorem run_vacates_refused :
    Sync.oldCache.tree.find? ["cache", "core.files"] = some (.file [0]) ∧
    Settles Sync.oldCache () (run {} refuseAll Sync.coreGoal Sync.core).run fun r _ w' =>
      r = .error (.allMirrorsFailed "core" 1) ∧ Disk.IsVacant {} w'.tree "/cache/core.files" := by
  have hfails : Settles Sync.oldCache () (run {} refuseAll Sync.coreGoal Sync.core).run
      fun r _ _ => r = .error (.allMirrorsFailed "core" 1) := by
    unfold run
    apply settles_run_tell_bind
    rw [if_neg (by decide), show Sync.core.servers = ["http://mirror"] from rfl]
    unfold fromServers
    apply Files.settles_noted
    refine ends_imp (Files.remove_list Sync.coreGoal Sync.core) fun _ _ _ _ _ => ?_
    exact settles_note_bind fun _ _ => settles_run_lift_bind (settles_pure
      (settles_note_bind fun _ _ => settles_note_bind fun _ _ => settles_run_tell_bind
        (settles_pure rfl)))
  have hleaves : LeavesNothing {} refuseAll Sync.coreGoal Sync.core := refuseAll_leavesNothing
  have hvacates := run_vacates hleaves Sync.oldCache ()
  have hremovable : Files.IsRemovable {} Sync.oldCache.tree (Sync.coreGoal.path Sync.core) :=
    fun _ _ => Disk.removable_of_isSteady Host.isSteady_default
  exact ⟨by decide, settles_imp (settles_and hfails hvacates) fun r _ w' hr =>
    ⟨hr.1, hr.2.1 (by decide) hremovable _ hr.1⟩⟩

/-- Not every failed download leaves the cache without the list: an old one stays where the
repository has no servers, though it could be removed. -/
theorem run_keeps_stale : ¬ ∀ (h : Host) (fetch : Fetch Unit) (g : Goal) (repo : Repository)
    (w : World), LeavesNothing h fetch g repo → Files.IsRemovable h w.tree (g.path repo) →
      Settles w () (run h fetch g repo).run fun r _ w' =>
        ∀ e, r = .error e → Disk.IsVacant h w'.tree (g.path repo) := by
  intro hclaim
  have hvacant := hclaim {} refuseAll Sync.coreGoal ⟨"core", []⟩ Sync.oldCache
    refuseAll_leavesNothing (fun _ _ => Disk.removable_of_isSteady Host.isSteady_default)
    (.noServers "core") rfl
  have hlist : Disk.locate {} Sync.oldCache.tree false "/cache/core.files" =
      .ok ["cache", "core.files"] :=
    Disk.locate_of_names (by decide) (by decide) (by decide) (by decide) (by decide)
      (by rintro _ ⟨⟩)
  cases hvacant _ hlist

end Download

end FileListCache
