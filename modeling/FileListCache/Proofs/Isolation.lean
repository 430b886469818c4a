/-
  FileListCache.Proofs.Isolation

  Repositories do not get in each other's way. The round of a repository in the middle of a run
  and its round in a run of its own go side by side: all that the rounds before have changed are
  files of other repositories. So a run comes to what its repositories come to one by one, which
  is `Sync.Gathered`, and the order of the repositories decides nothing but the order of the
  report (`Sync.run_isolated`).
-/

import FileListCache.Proofs.Leftovers
import FileListCache.Proofs.Stories

namespace FileListCache.Sync

open Disk (locate)
open Transcode (notedArchive brokenArchive)

variable {h : Host} {g : Download.Goal} {c l : Location} {repos done rest : List Repository}
  {repo repo' : Repository} {client : Http.Client} {interactive : Bool} {w w₁ w' : World}
  {o : Except SyncError Nat} {name : String}

/-! ## One repository alone -/

/-- What the round of one repository comes to, and the world it leaves. -/
def alone (h : Host) (client : Http.Client) (interactive : Bool) (g : Download.Goal) (w : World)
    (repo : Repository) : Except SyncError Nat × World :=
  let ((o, _), w') :=
    ((repository h ((fetcher client g interactive).toFetch h) g repo).run.run ()).run w
  (o, w')

/-- What is told of one repository, its end included. -/
def tale (h : Host) (client : Http.Client) (interactive : Bool) (g : Download.Goal) (w : World)
    (repo : Repository) : List Event :=
  (alone h client interactive g w repo).2.events.drop w.events.length ++
    [ending repo (alone h client interactive g w repo).1]

/-- The events of a round come after those that were told before, and are about its repository. -/
theorem tale_story (h : Host) (client : Http.Client) (interactive : Bool) (g : Download.Goal)
    (w : World) (repo : Repository) :
    (alone h client interactive g w repo).2.events ++
        [ending repo (alone h client interactive g w repo).1] =
      w.events ++ tale h client interactive g w repo ∧
    ∀ e ∈ tale h client interactive g w repo, e.repo = repo.name := by
  have hstory : ∃ es, (alone h client interactive g w repo).2.events = w.events ++ es ∧
      Block g interactive repo (es ++ [ending repo (alone h client interactive g w repo).1])
        (ending repo (alone h client interactive g w repo).1) :=
    repository_story (keepsToProgress_fetcher h client g interactive) w ()
  obtain ⟨es, hes, hblock⟩ := hstory
  have htale : tale h client interactive g w repo =
      es ++ [ending repo (alone h client interactive g w repo).1] := by
    rw [tale, hes, List.drop_left]
  rw [htale, hes, List.append_assoc]
  exact ⟨rfl, hblock.repo_eq⟩

/-- A run of one repository is its round and the report of it. -/
theorem run_singleton (repo : Repository) (hcache : locate h w.tree true g.cache = .ok c)
    (hdirectory : w.tree.find? c = some .directory) (hunlocked : h.locked c = none) : ∃ v,
    w.attempt (run h client interactive g [repo]) =
      (.ok (({} : Report).add repo (alone h client interactive g w repo).1), v) ∧
    v.tree = (alone h client interactive g w repo).2.tree ∧
    v.events = w.events ++ tale h client interactive g w repo := by
  have hcheck : Files.ensureWritable h w.tree g.cache = .ok () :=
    Files.ensureWritable_eq_ok.2 ⟨c, hcache, hdirectory, hunlocked⟩
  -- There is one round, before which nothing has happened and after which nothing more does.
  have hall : Settles w () (all h ((fetcher client g interactive).toFetch h) g [repo])
      fun r _ w' => r = ({} : Report).add repo (alone h client interactive g w repo).1 ∧
        w'.tree = (alone h client interactive g w repo).2.tree ∧
        w'.events = w.events ++ tale h client interactive g w repo := by
    refine settles_all (fun rest r _ w' => (rest = [repo] ∧ r = {} ∧ w' = w) ∨ (rest = [] ∧
      r = ({} : Report).add repo (alone h client interactive g w repo).1 ∧
      w'.tree = (alone h client interactive g w repo).2.tree ∧
      w'.events = w.events ++ tale h client interactive g w repo)) (.inl ⟨rfl, rfl, rfl⟩) ?_ ?_
    · intro repo' rest r s w₁ hI
      rcases hI with ⟨hrest, rfl, rfl⟩ | ⟨hrest, -⟩
      · obtain ⟨rfl, rfl⟩ := List.cons.inj hrest
        intro w' hemits
        refine .inr ⟨rfl, rfl, hemits.tree, ?_⟩
        rw [hemits.events, ← (tale_story h client interactive g w₁ repo').1]
        rfl
      · cases hrest
    · intro r s w₁ w' hI htree _ hevents _
      rcases hI with ⟨hrest, -⟩ | ⟨-, hr, htree', hevents'⟩
      · cases hrest
      · exact ⟨hr, htree.trans htree', hevents.trans hevents'⟩
  have hrun : Settles w () (runWith h ((fetcher client g interactive).toFetch h) g [repo]).run
      fun o _ w' => o = .ok (({} : Report).add repo (alone h client interactive g w repo).1) ∧
        w'.tree = (alone h client interactive g w repo).2.tree ∧
        w'.events = w.events ++ tale h client interactive g w repo :=
    runWith_admitted hcheck (settles_imp hall fun r _ w' hr => ⟨congrArg _ hr.1, hr.2⟩)
  exact ⟨_, Prod.ext hrun.1 rfl, hrun.2⟩

/-! ## Reports -/

/-- The report of repositories that come to the given outcomes. -/
def Report.ofOutcomes (outcome : Repository → Except SyncError Nat) (repos : List Repository) :
    Report where
  synced := repos.filterMap fun repo =>
    match outcome repo with
    | .ok _ => some repo.name
    | .error _ => none
  failed := repos.filterMap fun repo =>
    match outcome repo with
    | .ok _ => none
    | .error e => some (repo.name, e.message)

section Reports

variable {outcome : Repository → Except SyncError Nat}

theorem Report.ofOutcomes_concat :
    Report.ofOutcomes outcome (done ++ [repo]) =
      (Report.ofOutcomes outcome done).add repo (outcome repo) := by
  unfold ofOutcomes Report.add
  rw [List.filterMap_append, List.filterMap_append]
  cases hr : outcome repo <;> simp [hr]

theorem Report.about_of_forall_ne (hne : ∀ repo ∈ done, name ≠ repo.name) :
    (Report.ofOutcomes outcome done).about name = {} := by
  induction done using List.reverseRecOn with
  | nil => rfl
  | append_singleton done repo ih =>
    rw [ofOutcomes_concat, about_add_of_ne (hne repo (by simp))]
    exact ih fun repo' hrepo' => hne repo' (List.mem_append_left _ hrepo')

/-- Of each repository the report says what it came to. -/
theorem Report.about_ofOutcomes (hdistinct : (done.map (·.name)).Nodup) (hrepo : repo ∈ done) :
    (Report.ofOutcomes outcome done).about repo.name = ({} : Report).add repo (outcome repo) := by
  induction done using List.reverseRecOn with
  | nil => simp at hrepo
  | append_singleton done last ih =>
    rw [List.map_append, List.nodup_append] at hdistinct
    obtain ⟨hdone, -, hne⟩ := hdistinct
    have hother : ∀ repo' ∈ done, repo'.name ≠ last.name := fun repo' hrepo' =>
      hne _ (List.mem_map_of_mem hrepo') _ (by simp)
    rw [ofOutcomes_concat]
    rcases List.mem_append.1 hrepo with hmem | hlast
    · rw [about_add_of_ne (hother repo hmem), ih hdone hmem]
    · rw [List.mem_singleton.1 hlast]
      exact about_add (about_of_forall_ne fun repo' hrepo' => (hother repo' hrepo').symm)

/-- In another order the same is reported. -/
theorem Report.ofOutcomes_perm {repos' : List Repository} (hperm : repos'.Perm repos) :
    (Report.ofOutcomes outcome repos').synced.Perm (Report.ofOutcomes outcome repos).synced ∧
      (Report.ofOutcomes outcome repos').failed.Perm (Report.ofOutcomes outcome repos).failed :=
  ⟨hperm.filterMap _, hperm.filterMap _⟩

end Reports

/-- Among the events of several repositories those of one are what is told of it. -/
theorem filter_flatMap_eq {story : Repository → List Event}
    (hstory : ∀ repo, ∀ e ∈ story repo, e.repo = repo.name)
    (hdistinct : (done.map (·.name)).Nodup) (hrepo : repo ∈ done) :
    (done.flatMap story).filter (·.repo = repo.name) = story repo := by
  have hown (repo : Repository) : (story repo).filter (·.repo = repo.name) = story repo := by
    rw [List.filter_eq_self]
    exact fun e he => decide_eq_true (hstory repo e he)
  have hother {name : String} (repo' : Repository) (hne : repo'.name ≠ name) :
      (story repo').filter (·.repo = name) = [] := by
    rw [List.filter_eq_nil_iff]
    exact fun e he => by simpa [hstory repo' e he] using hne
  induction done with
  | nil => simp at hrepo
  | cons first done ih =>
    rw [List.map_cons, List.nodup_cons] at hdistinct
    rw [List.flatMap_cons, List.filter_append]
    rcases List.mem_cons.1 hrepo with rfl | hmem
    · have hnone : (done.flatMap story).filter (·.repo = repo.name) = [] := by
        rw [List.filter_eq_nil_iff]
        intro e he
        obtain ⟨repo', hrepo', he⟩ := List.mem_flatMap.1 he
        rw [hstory repo' e he]
        have hname : repo'.name ≠ repo.name := fun hname =>
          hdistinct.1 (hname ▸ List.mem_map_of_mem hrepo')
        simpa using hname
      rw [hown repo, hnone, List.append_nil]
    · have hne : first.name ≠ repo.name := fun hname =>
        hdistinct.1 (hname ▸ List.mem_map_of_mem hmem)
      rw [hother first hne, List.nil_append, ih hdistinct.2 hmem]

/-! ## Runs -/

/-- What a run that started in the world `w` has come to once the repositories in `done` are
synced, the report, the tree and the events: for each repository what it comes to alone. -/
structure Gathered (h : Host) (client : Http.Client) (interactive : Bool) (g : Download.Goal)
    (c : Location) (repos : List Repository) (w : World) (done : List Repository) (r : Report)
    (t : Tree) (es : List Event) : Prop where
  report : r = .ofOutcomes (fun repo => (alone h client interactive g w repo).1) done
  grounds : Grounds h g c repos w.tree t
  frame : AgreesOff c done w.tree t
  places : ∀ repo ∈ done, ∀ a : Role, t.find? (a.place c repo.name) =
    (alone h client interactive g w repo).2.tree.find? (a.place c repo.name)
  events : es = w.events ++ done.flatMap (tale h client interactive g w)

/-- A round adds what its repository comes to alone. -/
theorem Gathered.step {r : Report}
    (hd : Gathered h client interactive g c repos w done r w₁.tree w₁.events)
    (hgrounds : Grounds h g c repos w.tree w.tree)
    (hdistinct : ((done ++ [repo]).map (·.name)).Nodup) (hrepo : repo ∈ repos)
    (hslash : '/' ∉ repo.name.toList)
    (hreplies : ∀ server ∈ repo.servers,
      (fetcher client g interactive).RepliesAlike h (AgreesOff c repos w.tree)
        (g.url repo server)) :
    Settles w₁ () (repository h ((fetcher client g interactive).toFetch h) g repo).run
      fun o _ u => Gathered h client interactive g c repos w (done ++ [repo]) (r.add repo o) u.tree
        (u.events ++ [ending repo o]) := by
  have hround : Together (Twins h g c repo w₁.tree w.tree Set.univ)
      (repository h ((fetcher client g interactive).toFetch h) g repo).run
      fun _ => Twins h g c repo w₁.tree w.tree (AskedOf g repo repo.servers Set.univ) :=
    repository_together hslash (fetcher_reportsAlike client g interactive) rfl
      (fun _ hu => hd.grounds.frame.trans (hu.of_one hrepo)) (fun _ hu => hu.of_one hrepo)
      hreplies
  rw [List.map_append, List.nodup_append] at hdistinct
  have hne (repo' : Repository) (hrepo' : repo' ∈ done) : repo'.name ≠ repo.name :=
    hdistinct.2.2 _ (List.mem_map_of_mem hrepo') _ (by simp)
  -- The rounds before have not touched the files of this repository.
  have huntouched (a : Role) : w.tree.find? (a.place c repo.name) =
      w₁.tree.find? (a.place c repo.name) := by
    refine (hd.frame _ fun hown => ?_).symm
    obtain ⟨repo', hrepo', b, hprefix⟩ := hown
    exact (Role.apart (.inl (hne repo' hrepo'))).1 hprefix
  have hstart : Twins h g c repo w₁.tree w.tree Set.univ w₁.tree w.tree :=
    ⟨hd.grounds.workplace hrepo, hgrounds.workplace hrepo, fun a _ => huntouched a⟩
  refine settles_imp (settles_of_together hround hstart) fun o _ u hu => ?_
  have hu : (alone h client interactive g w repo).1 = o ∧
      World.Echoes w₁ w u (alone h client interactive g w repo).2 ∧
      Twins h g c repo w₁.tree w.tree (AskedOf g repo repo.servers Set.univ) u.tree
        (alone h client interactive g w repo).2.tree := hu
  obtain ⟨ho, ⟨⟨es, hes, hes'⟩, -⟩, hk⟩ := hu
  have htale : tale h client interactive g w repo = es ++ [ending repo o] := by
    rw [tale, hes', List.drop_left, ho]
  constructor
  · rw [hd.report, Report.ofOutcomes_concat, ho]
  · exact hd.grounds.after hrepo hk.left
  · intro l hl
    rw [hk.left.frame l fun hown => hl (hown.mono (by simp)),
      hd.frame l fun hown => hl (hown.mono (by simp))]
  · intro repo' hrepo' a
    rcases List.mem_append.1 hrepo' with hmem | hlast
    · rw [hk.left.frame.find?_place (hne repo' hmem) a, hd.places repo' hmem a]
    · rw [List.mem_singleton.1 hlast]
      exact (hk.known a (subset_askedOf _ (Set.mem_univ a))).symm
  · rw [hes, hd.events, List.flatMap_append, List.flatMap_singleton, htale]
    simp only [List.append_assoc]

section Runs

variable (hroot : w.tree.IsRooted) (hcache : locate h w.tree true g.cache = .ok c)
  (hdirectory : w.tree.find? c = some .directory) (hdistinct : (repos.map (·.name)).Nodup)
  (hslash : ∀ repo ∈ repos, '/' ∉ repo.name.toList)
  (hleaf : ∀ repo ∈ repos, ∀ a : Role, w.tree.IsLeaf (a.place c repo.name))
  (hreplies : ∀ repo ∈ repos, ∀ server ∈ repo.servers,
    (fetcher client g interactive).RepliesAlike h (AgreesOff c repos w.tree) (g.url repo server))
include hroot hcache hdirectory hdistinct hslash hleaf hreplies

/-- A run comes to what its repositories come to one by one. -/
theorem run_gathered (hunlocked : h.locked c = none) : ∃ report v,
    w.attempt (run h client interactive g repos) = (.ok report, v) ∧
      Gathered h client interactive g c repos w repos report v.tree v.events := by
  have hgrounds : Grounds h g c repos w.tree w.tree :=
    .of_isRooted hroot hcache hdirectory hunlocked hleaf fun _ _ => rfl
  have hcheck : Files.ensureWritable h w.tree g.cache = .ok () :=
    Files.ensureWritable_eq_ok.2 ⟨c, hcache, hdirectory, hunlocked⟩
  have hall : Settles w () (all h ((fetcher client g interactive).toFetch h) g repos)
      fun r _ v => Gathered h client interactive g c repos w repos r v.tree v.events := by
    refine settles_all (fun rest r _ w₁ => ∃ done, repos = done ++ rest ∧
      Gathered h client interactive g c repos w done r w₁.tree w₁.events) ⟨[], rfl, ?_⟩ ?_ ?_
    · exact ⟨rfl, hgrounds, fun _ _ => rfl, by simp, by simp⟩
    · intro repo rest r _ w₁ hI
      obtain ⟨done, hsplit, hd⟩ := hI
      have hsplit' : repos = (done ++ [repo]) ++ rest := by
        rw [hsplit, List.append_assoc, List.singleton_append]
      have hrepo : repo ∈ repos := hsplit ▸ List.mem_append_right done List.mem_cons_self
      have hnodup : ((done ++ [repo]).map (·.name)).Nodup := by
        rw [hsplit', List.map_append] at hdistinct
        exact (List.nodup_append.1 hdistinct).1
      refine settles_imp
        (hd.step hgrounds hnodup hrepo (hslash repo hrepo) (hreplies repo hrepo)) ?_
      intro o _ u hnext w' hemits
      rw [hemits.tree, hemits.events]
      exact ⟨done ++ [repo], hsplit', hnext⟩
    · intro r _ w₁ w' hI htree _ hevents _
      obtain ⟨done, hsplit, hd⟩ := hI
      obtain rfl : repos = done := hsplit.trans (List.append_nil done)
      rw [htree, hevents]
      exact hd
  have hrun : Settles w () (runWith h ((fetcher client g interactive).toFetch h) g repos).run
      fun o _ v => ∃ report, o = .ok report ∧
        Gathered h client interactive g c repos w repos report v.tree v.events :=
    runWith_admitted hcheck (settles_imp hall fun r _ v hr => ⟨r, rfl, hr⟩)
  obtain ⟨report, hreport, hgathered⟩ := hrun
  exact ⟨report, _, Prod.ext hreport rfl, hgathered⟩

/-- Repositories are isolated from each other. What a run comes to for one of them, its part of
the report, its events in their order and what stands at its three places in the end, is the same
as when it is synced alone. In another order the run leaves the same tree and reports the same,
in another order. Where the cache is locked, every run is refused alike and changes nothing. -/
theorem run_isolated : (h.locked c = none → ∃ report v events,
    w.attempt (run h client interactive g repos) = (.ok report, v) ∧
    v.events = w.events ++ events ∧
    (∀ repo ∈ repos, ∃ single v₁,
      w.attempt (run h client interactive g [repo]) = (.ok single, v₁) ∧
      report.about repo.name = single ∧
      v₁.events = w.events ++ events.filter (·.repo = repo.name) ∧
      ∀ a : Role, v.tree.find? (a.place c repo.name) = v₁.tree.find? (a.place c repo.name)) ∧
    ∀ repos' : List Repository, repos'.Perm repos → ∃ report' v',
      w.attempt (run h client interactive g repos') = (.ok report', v') ∧
      (∀ l, v'.tree.find? l = v.tree.find? l) ∧
      report'.synced.Perm report.synced ∧ report'.failed.Perm report.failed) ∧
    ∀ k, h.locked c = some k → ∀ repos' : List Repository,
      w.attempt (run h client interactive g repos') =
        (.error (.cacheAccess (.notWritable g.cache k.error)), w) := by
  refine ⟨fun hunlocked => ?_, fun k hk => run_locked hcache hdirectory hk client interactive⟩
  obtain ⟨report, v, hrun, hgathered⟩ :=
    run_gathered hroot hcache hdirectory hdistinct hslash hleaf hreplies hunlocked
  refine ⟨report, v, _, hrun, hgathered.events, fun repo hrepo => ?_, fun repos' hperm => ?_⟩
  · obtain ⟨v₁, hsingle, htree, hevents⟩ := run_singleton repo hcache hdirectory hunlocked
    refine ⟨_, v₁, hsingle, ?_, ?_, fun a => ?_⟩
    · rw [hgathered.report]
      exact Report.about_ofOutcomes hdistinct hrepo
    · rw [hevents, filter_flatMap_eq (fun repo => (tale_story h client interactive g w repo).2)
        hdistinct hrepo]
    · rw [htree, hgathered.places repo hrepo a]
  · have hmem {repo : Repository} : repo ∈ repos' ↔ repo ∈ repos := hperm.mem_iff
    obtain ⟨report', v', hrun', hgathered'⟩ := run_gathered hroot hcache
      hdirectory ((hperm.map _).nodup_iff.2 hdistinct)
      (fun repo hrepo => hslash repo (hmem.1 hrepo)) (fun repo hrepo => hleaf repo (hmem.1 hrepo))
      (fun repo hrepo server hserver => (hreplies repo (hmem.1 hrepo) server hserver).mono
        fun _ ht => ht.mono hperm.subset) hunlocked
    refine ⟨report', v', hrun', fun l => ?_, ?_⟩
    · -- What stands at a place that is no repository's has not changed in either run.
      by_cases hl : IsOwn c repos l
      · obtain ⟨repo, hrepo, a, r, rfl⟩ := hl
        by_cases hr : r = []
        · rw [hr, List.append_nil, hgathered.places repo hrepo,
            hgathered'.places repo (hmem.2 hrepo)]
        · rw [hgathered.grounds.bare repo hrepo a r hr,
            hgathered'.grounds.bare repo (hmem.2 hrepo) a r hr]
      · rw [hgathered.frame l hl, hgathered'.frame l fun hown => hl (hown.mono hperm.subset)]
    · rw [hgathered.report, hgathered'.report]
      exact Report.ofOutcomes_perm hperm

end Runs

/-- A second repository, whose list cannot be read to its end, changes nothing for the first,
whichever of them comes first. -/
theorem run_isolated_pair : ∃ report v single v₁ report' v',
    oldCache.attempt (run (mirrors notedArchive brokenArchive) {} false coreGoal
      [core, multilib]) = (.ok report, v) ∧
    oldCache.attempt (run (mirrors notedArchive brokenArchive) {} false coreGoal [core]) =
      (.ok single, v₁) ∧
    oldCache.attempt (run (mirrors notedArchive brokenArchive) {} false coreGoal
      [multilib, core]) = (.ok report', v') ∧
    report.about "core" = single ∧ v₁.events = v.events.filter (·.repo = "core") ∧
    (∀ a : Role, v.tree.find? (a.place ["cache"] "core") =
      v₁.tree.find? (a.place ["cache"] "core")) ∧
    (∀ l, v'.tree.find? l = v.tree.find? l) ∧ report'.failed.Perm report.failed := by
  have hs : Setting (mirrors notedArchive brokenArchive) oldCache.tree coreGoal ["cache"]
    [core, multilib] := oldCache_setting (by decide)
  have hleaf : ∀ repo ∈ [core, multilib], ∀ a : Role,
      oldCache.tree.IsLeaf (a.place ["cache"] repo.name) := by
    intro repo hrepo a
    rcases List.mem_pair.1 hrepo with rfl | rfl <;> exact oldCache_isLeaf (by decide) a
  have hreplies : ∀ repo ∈ [core, multilib], ∀ server ∈ repo.servers,
      (fetcher {} coreGoal false).RepliesAlike (mirrors notedArchive brokenArchive)
        (AgreesOff ["cache"] [core, multilib] oldCache.tree) (coreGoal.url repo server) := by
    intro repo hrepo server hserver
    rcases List.mem_pair.1 hrepo with rfl | rfl <;> obtain rfl := List.mem_singleton.1 hserver
    · exact address_repliesAlike ofText_core
    · exact address_repliesAlike ofText_multilib
  obtain ⟨hsynced, -⟩ := run_isolated oldCache_isRooted hs.cache hs.directory (by decide)
    (by decide) hleaf hreplies
  obtain ⟨report, v, events, hrun, hevents, hsingle, hperm⟩ := hsynced rfl
  obtain ⟨single, v₁, hrun₁, habout, hevents₁, hfind⟩ := hsingle core List.mem_cons_self
  obtain ⟨report', v', hrun', hfind', -, hfailed⟩ := hperm [multilib, core] (.swap _ _ _)
  have hnone : oldCache.events = [] := rfl
  rw [hnone, List.nil_append] at hevents hevents₁
  rw [← hevents] at hevents₁
  exact ⟨report, v, single, v₁, report', v', hrun, hrun₁, hrun', habout, hevents₁, hfind, hfind',
    hfailed⟩

end FileListCache.Sync
