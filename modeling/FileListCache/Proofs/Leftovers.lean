/-
  FileListCache.Proofs.Leftovers

  What an interrupted run leaves behind never influences the next one. Two caches that differ in
  nothing but the files that runs make for their repositories are synced side by side: by
  `Sync.repository_together` every round goes the same in both, and it leaves the same list in
  both, because the list is removed before the first server is asked (`Sync.run_leftovers`).
-/

import FileListCache.Proofs.Parallels
import FileListCache.Proofs.Results
import FileListCache.Proofs.Stories

namespace FileListCache.Sync

open Disk (locate look)
open Transcode (notedArchive brokenArchive)

variable {h : Host} {t₀ t₀' t t' : Tree} {g : Download.Goal} {c : Location}
  {repos done rest : List Repository} {repo repo' : Repository} {client : Http.Client}
  {interactive : Bool} {w w' : World} {R : Tree → Prop} {a : Role}

/-! ## Between two rounds -/

/-- The cache between two rounds of a run that started with the tree `t₀`: a directory that is not
locked, at most files stand at the places of the repositories, and all else is as it was. -/
structure Grounds (h : Host) (g : Download.Goal) (c : Location) (repos : List Repository)
    (t₀ t : Tree) : Prop where
  cache : locate h t true g.cache = .ok c
  directory : t.find? c = some .directory
  unlocked : h.locked c = none
  leaf : ∀ repo ∈ repos, ∀ a : Role, t.IsLeaf (a.place c repo.name)
  bare : ∀ repo ∈ repos, ∀ a : Role, t.IsBare (a.place c repo.name)
  frame : AgreesOff c repos t₀ t

theorem AgreesOff.trans {t'' : Tree} (hframe : AgreesOff c repos t t')
    (hframe' : AgreesOff c repos t' t'') : AgreesOff c repos t t'' := fun l hl =>
  (hframe' l hl).trans (hframe l hl)

theorem IsOwn.mono {repos' : List Repository} {l : Location} (hsub : repos ⊆ repos')
    (hl : IsOwn c repos l) : IsOwn c repos' l := by
  obtain ⟨repo, hrepo, hl⟩ := hl
  exact ⟨repo, hsub hrepo, hl⟩

theorem AgreesOff.mono {repos' : List Repository} (hsub : repos ⊆ repos')
    (hframe : AgreesOff c repos t t') : AgreesOff c repos' t t' := fun l hl =>
  hframe l fun hown => hl (hown.mono hsub)

/-- Changes in one repository's files are changes in those of all. -/
theorem AgreesOff.of_one (hrepo : repo ∈ repos) (hframe : AgreesOff c [repo] t t') :
    AgreesOff c repos t t' :=
  hframe.mono (List.cons_subset.2 ⟨hrepo, List.nil_subset _⟩)

/-- At the places of the repositories and below them no path leads on. -/
theorem isDeadEnd_of_isOwn {l : Location} (hroot : t.IsRooted)
    (hleaf : ∀ repo ∈ repos, ∀ a : Role, t.IsLeaf (a.place c repo.name)) (hl : IsOwn c repos l) :
    t.IsDeadEnd l := by
  obtain ⟨repo, hrepo, a, r, rfl⟩ := hl
  have hdead := (hleaf repo hrepo a).isDeadEnd
  by_cases hr : r = []
  · rw [hr, List.append_nil]
    exact hdead
  · exact Tree.isDeadEnd_of_none (hroot.isBare hdead.1 r hr)

/-- Changes in one repository's files leave those of another as they were. -/
theorem AgreesOff.find?_same (hframe : AgreesOff c [repo] t t') (hne : repo'.name ≠ repo.name)
    (a : Role) (r : Location) :
    t'.find? (a.place c repo'.name ++ r) = t.find? (a.place c repo'.name ++ r) := by
  apply hframe
  intro hown
  obtain ⟨repo₁, hrepo₁, b, hprefix⟩ := hown
  rw [List.mem_singleton.1 hrepo₁] at hprefix
  -- Both places would lie on the way to one entry.
  exact (Role.apart (.inl hne)).not_isPrefix (List.prefix_append _ r) hprefix

namespace Grounds

theorem of_isRooted (hroot : t.IsRooted) (hcache : locate h t true g.cache = .ok c)
    (hdirectory : t.find? c = some .directory) (hunlocked : h.locked c = none)
    (hleaf : ∀ repo ∈ repos, ∀ a : Role, t.IsLeaf (a.place c repo.name))
    (hframe : AgreesOff c repos t₀ t) : Grounds h g c repos t₀ t :=
  ⟨hcache, hdirectory, hunlocked, hleaf,
    fun repo hrepo a => hroot.isBare (hleaf repo hrepo a).isDeadEnd.1, hframe⟩

/-- A round finds its workplace. -/
theorem workplace (hg : Grounds h g c repos t₀ t) (hrepo : repo ∈ repos) :
    Workplace h g c repo t t :=
  ⟨hg.cache, hg.directory, hg.unlocked, hg.leaf repo hrepo, hg.bare repo hrepo, fun _ _ => rfl⟩

/-- It leaves the cache fit for the next one. -/
theorem after (hg : Grounds h g c repos t₀ t) (hrepo : repo ∈ repos)
    (hk : Workplace h g c repo t t') : Grounds h g c repos t₀ t' := by
  refine ⟨hk.cache, hk.directory, hk.unlocked, fun repo' hrepo' a => ?_,
    fun repo' hrepo' a r hr => ?_, hg.frame.trans (hk.frame.of_one hrepo)⟩
  · by_cases hname : repo'.name = repo.name
    · rw [hname]
      exact hk.leaf a
    · rw [Tree.IsLeaf, hk.frame.find?_place hname a]
      exact hg.leaf repo' hrepo' a
  · by_cases hname : repo'.name = repo.name
    · rw [hname]
      exact hk.bare a r hr
    · rw [hk.frame.find?_same hname a r]
      exact hg.bare repo' hrepo' a r hr

end Grounds

/-! ## Runs side by side -/

theorem record_together {P : Tree → Tree → Prop} (r : Report) (repo : Repository)
    (o : Except SyncError Nat) :
    Together P (record r repo o) fun r' t t' => r' = r.add repo o ∧ P t t' := by
  cases o with
  | ok entries =>
    exact together_tell_bind coupled_note fun _ => together_tell_bind coupled_emit fun _ =>
      together_pure fun _ _ ht => ⟨rfl, ht⟩
  | error e =>
    exact together_tell_bind coupled_note fun _ => together_tell_bind coupled_emit fun _ =>
      together_pure fun _ _ ht => ⟨rfl, ht⟩

/-- What every round preserves holds after two runs side by side in caches that are not locked. They
come to the same. -/
theorem run_coupled (hunlocked : h.locked c = none)
    (I : List Repository → Report → Tree → Tree → Prop)
    (hstart : ∀ t t', I repos {} t t' → (locate h t true g.cache = .ok c ∧
      t.find? c = some .directory) ∧ locate h t' true g.cache = .ok c ∧
      t'.find? c = some .directory)
    (hround : ∀ repo rest r, Together (I (repo :: rest) r)
      (repository h ((fetcher client g interactive).toFetch h) g repo).run
      fun o => I rest (r.add repo o)) :
    InStep (I repos {}) (run h client interactive g repos)
      fun o t t' => ∃ r, o = .ok r ∧ I [] r t t' := by
  have hcheck : InStep (I repos {}) (checkCache h g)
      fun o t t' => o = .ok () ∧ I repos {} t t' := by
    refine coupled_of_ends fun w w' hw => ?_
    obtain ⟨⟨hcache, hdirectory⟩, hcache', hdirectory'⟩ := hstart _ _ hw
    refine ends_imp (checkCache_ends hcache hdirectory) fun o v hv => ?_
    refine ends_imp (checkCache_ends hcache' hdirectory') fun o' v' hv' => ?_
    obtain ⟨hpassed, rfl⟩ := hv
    obtain ⟨hpassed', rfl⟩ := hv'
    exact ⟨(hpassed'.2 hunlocked).trans (hpassed.2 hunlocked).symm, .refl _ _,
      hpassed.2 hunlocked, hw⟩
  have hrounds := together_foldlM (f := fun r repo => do
      record r repo (← (repository h ((fetcher client g interactive).toFetch h) g repo).run)) I
    (fun repo rest r => together_bind (hround repo rest r) fun o =>
      coupled_imp (record_together r repo o) (fun _ _ ht => ht) fun _ _ _ ht => ht.1 ▸ ht.2)
    repos {}
  have hall : Together (I repos {})
      (all h ((fetcher client g interactive).toFetch h) g repos) (I []) := by
    unfold all
    refine together_bind hrounds fun r => ?_
    exact together_tell_bind coupled_note fun _ => together_pure fun _ _ ht => ht
  have hrun : Together (I repos {})
      (runWith h ((fetcher client g interactive).toFetch h) g repos).run
      fun o t t' => ∃ r, o = .ok r ∧ I [] r t t' := by
    unfold runWith
    refine together_run_bind (together_attempt hcheck) (fun _ => ?_) fun _ _ _ ht => nomatch ht.1
    refine together_run_lift (coupled_imp hall (fun _ _ ht => ht.2) fun r _ _ ht => ?_)
    exact ⟨r.1, rfl, ht⟩
  exact coupled_bind hrun fun o => coupled_pure fun _ _ ht => ht

/-! ## Leftovers -/

/-- Two caches between two rounds, in which the lists of the repositories that are done are the
same as far as anyone can ask for them. -/
structure Level (h : Host) (g : Download.Goal) (c : Location) (repos : List Repository)
    (t₀ t₀' : Tree) (done : List Repository) (t t' : Tree) : Prop where
  left : Grounds h g c repos t₀ t
  right : Grounds h g c repos t₀' t'
  done : ∀ repo ∈ done, Role.list.IsSayable g.cache repo.name →
    t'.find? (Role.list.place c repo.name) = t.find? (Role.list.place c repo.name)

namespace Level

/-- A round adds its own list to those that are the same, and leaves the others as they are. -/
theorem after {u u' : Tree} (hl : Level h g c repos t₀ t₀' done t t') (hrepo : repo ∈ repos)
    (hservers : repo.servers ≠ [])
    (hk : Twins h g c repo t t' (AskedOf g repo repo.servers ∅) u u') :
    Level h g c repos t₀ t₀' (done ++ [repo]) u u' := by
  refine ⟨hl.left.after hrepo hk.left, hl.right.after hrepo hk.right, fun repo' hrepo' hsay => ?_⟩
  by_cases hname : repo'.name = repo.name
  · rw [hname] at hsay ⊢
    refine hk.known .list ?_
    rw [AskedOf, if_neg hservers]
    exact .inr ⟨rfl, hsay⟩
  · rw [hk.left.frame.find?_place hname, hk.right.frame.find?_place hname]
    refine hl.done repo' ((List.mem_append.1 hrepo').resolve_right fun hmem => hname ?_) hsay
    rw [List.mem_singleton.1 hmem]

/-- The lists of the repositories that are done look the same. -/
theorem look_eq (hl : Level h g c repos t₀ t₀' done t t') (hrepo : repo ∈ done)
    (hmem : repo ∈ repos) (hslash : '/' ∉ repo.name.toList) :
    look h t' (g.path repo) = look h t (g.path repo) := by
  have hleft := (hl.left.workplace hmem).locate_eq hslash .list true
  have hright := (hl.right.workplace hmem).locate_eq hslash .list true
  have hpath : g.path repo = Role.list.path g.cache repo.name := rfl
  rw [Disk.look_eq, Disk.look_eq, hpath, hleft, hright]
  cases htarget : Role.list.target g.cache c repo.name with
  | error e => rfl
  | ok l =>
    obtain ⟨hsay, rfl⟩ := Role.target_eq_ok.1 htarget
    simp only [Except.bind, hl.done repo hrepo hsay]

end Level

/-- The files of an interrupted run never influence the next one. Two caches that differ at most
in what is left at the places of the repositories, each a file or nothing, are synced with the
same report, the same events and the same requests, and the lists are the same in the end. Where
the cache is locked, both runs are refused alike. -/
theorem run_leftovers (hroot : w.tree.IsRooted) (hroot' : w'.tree.IsRooted)
    (hcache : locate h w.tree true g.cache = .ok c) (hdirectory : w.tree.find? c = some .directory)
    (hslash : ∀ repo ∈ repos, '/' ∉ repo.name.toList)
    (hservers : ∀ repo ∈ repos, repo.servers ≠ [])
    (hreplies : ∀ repo ∈ repos, ∀ server ∈ repo.servers,
      (fetcher client g interactive).RepliesAlike h (AgreesOff c repos w.tree)
        (g.url repo server))
    (hagrees : AgreesOff c repos w.tree w'.tree)
    (hleaf : ∀ repo ∈ repos, ∀ a : Role,
      w.tree.IsLeaf (a.place c repo.name) ∧ w'.tree.IsLeaf (a.place c repo.name)) :
    (h.locked c = none → ∃ report v v' events requests,
      w.attempt (run h client interactive g repos) = (.ok report, v) ∧
      w'.attempt (run h client interactive g repos) = (.ok report, v') ∧
      v.events = w.events ++ events ∧ v'.events = w'.events ++ events ∧
      v.requests = w.requests ++ requests ∧ v'.requests = w'.requests ++ requests ∧
      ∀ repo ∈ repos, look h v'.tree (g.path repo) = look h v.tree (g.path repo)) ∧
    ∀ k, h.locked c = some k →
      w.attempt (run h client interactive g repos) =
        (.error (.cacheAccess (.notWritable g.cache k.error)), w) ∧
      w'.attempt (run h client interactive g repos) =
        (.error (.cacheAccess (.notWritable g.cache k.error)), w') := by
  -- All paths lead to the same places in both caches, the path of the cache too.
  have halike : w.tree.Alike w'.tree := by
    have hown (l : Location) (hl : IsOwn c repos l) :
        w.tree.IsDeadEnd l ∧ w'.tree.IsDeadEnd l :=
      ⟨isDeadEnd_of_isOwn hroot (fun repo hrepo a => (hleaf repo hrepo a).1) hl,
        isDeadEnd_of_isOwn hroot' (fun repo hrepo a => (hleaf repo hrepo a).2) hl⟩
    constructor <;> intro l <;> by_cases hl : IsOwn c repos l
    · exact .inr (hown l hl).2
    · exact .inl (hagrees l hl)
    · exact .inr (hown l hl).1
    · exact .inl (hagrees l hl).symm
  obtain ⟨hcache', hdirectory'⟩ := Disk.locate_directory halike hcache hdirectory
  refine ⟨fun hunlocked => ?_, fun k hk =>
    ⟨run_locked hcache hdirectory hk client interactive repos,
      run_locked hcache' hdirectory' hk client interactive repos⟩⟩
  have hleft : Grounds h g c repos w.tree w.tree :=
    .of_isRooted hroot hcache hdirectory hunlocked (fun repo hrepo a => (hleaf repo hrepo a).1)
      fun _ _ => rfl
  have hright : Grounds h g c repos w'.tree w'.tree :=
    .of_isRooted hroot' hcache' hdirectory' hunlocked (fun repo hrepo a => (hleaf repo hrepo a).2)
      fun _ _ => rfl
  have hrun : InStep (fun t t' => ∃ done, repos = done ++ repos ∧
        Level h g c repos w.tree w'.tree done t t') (run h client interactive g repos)
      fun o t t' => ∃ report, o = .ok report ∧ ∃ done, repos = done ++ [] ∧
        Level h g c repos w.tree w'.tree done t t' := by
    refine run_coupled hunlocked (fun rest _ t t' => ∃ done, repos = done ++ rest ∧
      Level h g c repos w.tree w'.tree done t t') ?_ ?_
    · intro t t' hI
      obtain ⟨done, -, hlevel⟩ := hI
      exact ⟨⟨hlevel.left.cache, hlevel.left.directory⟩, hlevel.right.cache,
        hlevel.right.directory⟩
    · intro repo rest r
      refine coupled_exists fun done => coupled_and fun hsplit =>
        coupled_of_trees fun t t' hlevel => ?_
      have hrepo : repo ∈ repos := hsplit ▸ List.mem_append_right done List.mem_cons_self
      -- Both trees are still such that the servers reply alike.
      have hround : Together (Twins h g c repo t t' ∅)
          (repository h ((fetcher client g interactive).toFetch h) g repo).run
          fun _ => Twins h g c repo t t' (AskedOf g repo repo.servers ∅) :=
        repository_together (hslash repo hrepo) (fetcher_reportsAlike client g interactive) rfl
          (fun _ hu => hlevel.left.frame.trans (hu.of_one hrepo))
          (fun _ hu => hagrees.trans (hlevel.right.frame.trans (hu.of_one hrepo)))
          (hreplies repo hrepo)
      refine coupled_imp hround ?_ fun o u u' hk => ?_
      · intro u u' hu
        rw [hu.1, hu.2]
        exact ⟨hlevel.left.workplace hrepo, hlevel.right.workplace hrepo, by simp⟩
      · exact ⟨done ++ [repo], by rw [hsplit, List.append_assoc, List.singleton_append],
          hlevel.after hrepo (hservers repo hrepo) hk⟩
  obtain ⟨hsame, ⟨⟨events, hevents, hevents'⟩, requests, hrequests, hrequests'⟩, report, hreport,
    done, hdone, hlevel⟩ := hrun w w' ⟨[], rfl, hleft, hright, by simp⟩
  refine ⟨report, _, _, events, requests, Prod.ext hreport rfl,
    Prod.ext (hsame.trans hreport) rfl, hevents, hevents', hrequests, hrequests', ?_⟩
  intro repo hrepo
  rw [List.append_nil] at hdone
  exact hlevel.look_eq (hdone ▸ hrepo) hrepo (hslash repo hrepo)

/-- A cache without a list, in which an interrupted run has left its other two files. -/
def litteredCache : World :=
  { tree := ⟨[(["cache"], .directory), (["cache", "core.files.part"], .file [1]),
      (["cache", "core.files~"], .file [2])]⟩ }

theorem litteredCache_isLeaf (a : Role) : litteredCache.tree.IsLeaf (a.place ["cache"] "core") := by
  cases a with
  | list => exact .inl (by decide)
  | part => exact .inr ⟨[1], by decide⟩
  | copy => exact .inr ⟨[2], by decide⟩

/-- It differs from the cache with an old list in the files of the repository only. -/
theorem litteredCache_agreesOff : AgreesOff ["cache"] [core] oldCache.tree litteredCache.tree := by
  intro l hl
  have hne (a : Role) : a.place ["cache"] "core" ≠ l := by
    rintro rfl
    exact hl ⟨core, List.mem_singleton_self core, a, List.prefix_rfl⟩
  have hlist : ["cache", "core.files"] ≠ l := hne .list
  have hpart : ["cache", "core.files.part"] ≠ l := hne .part
  have hcopy : ["cache", "core.files~"] ≠ l := hne .copy
  by_cases hnil : l = []
  · rw [hnil, Tree.find?_nil, Tree.find?_nil]
  · simp only [oldCache, litteredCache, Tree.find?_cons hnil, Tree.find?_empty hnil,
      if_neg hlist, if_neg hpart, if_neg hcopy]

/-- The mirrors do not mind what they were asked before. -/
theorem address_repliesAlike {good spoiled : Bytes} {url host file : String}
    (hurl : Url.ofText url = .ok (address host file)) :
    (fetcher {} coreGoal false).RepliesAlike (mirrors good spoiled) R url := by
  refine Fetcher.repliesAlike_of_web (Http.Servers.isSteady_steady _) fun u hu => ?_
  cases hurl.symm.trans hu
  exact (by decide : "http" ≠ "file")

/-- It does not matter to an archive with two members whether there was an old list or the two other
files. -/
theorem run_leftovers_littered : ∃ report v v',
    oldCache.attempt (run (mirrors notedArchive brokenArchive) {} false coreGoal [core]) =
      (.ok report, v) ∧
    litteredCache.attempt (run (mirrors notedArchive brokenArchive) {} false coreGoal [core]) =
      (.ok report, v') ∧
    v'.events = v.events ∧ v'.requests = v.requests ∧
    look (mirrors notedArchive brokenArchive) v'.tree "/cache/core.files" =
      look (mirrors notedArchive brokenArchive) v.tree "/cache/core.files" := by
  have hs : Setting (mirrors notedArchive brokenArchive) oldCache.tree coreGoal ["cache"] [core] :=
    oldCache_setting (by decide)
  have hreplies : ∀ repo ∈ [core], ∀ server ∈ repo.servers,
      (fetcher {} coreGoal false).RepliesAlike (mirrors notedArchive brokenArchive)
        (AgreesOff ["cache"] [core] oldCache.tree) (coreGoal.url repo server) := by
    intro repo hrepo server hserver
    obtain rfl := List.mem_singleton.1 hrepo
    obtain rfl := List.mem_singleton.1 hserver
    exact address_repliesAlike ofText_core
  obtain ⟨hsynced, -⟩ := run_leftovers oldCache_isRooted
    (Tree.isRooted_of_entries (t := litteredCache.tree) (by decide)) hs.cache hs.directory
    hs.noSlash (by decide) hreplies litteredCache_agreesOff fun repo hrepo a => by
      rw [List.mem_singleton.1 hrepo]
      exact ⟨oldCache_isLeaf (by decide) a, litteredCache_isLeaf a⟩
  obtain ⟨report, v, v', events, requests, hrun, hrun', hevents, hevents', hrequests, hrequests',
    hlook⟩ := hsynced rfl
  exact ⟨report, v, v', hrun, hrun', hevents'.trans hevents.symm, hrequests'.trans hrequests.symm,
    hlook core List.mem_cons_self⟩

end FileListCache.Sync
