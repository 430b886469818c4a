/-
  FileListCache.Proofs.Results

  The results of a run. Round after round the repositories that are done keep what they came to:
  the rounds after theirs work on other files and tell of other repositories. `Sync.Progressed`
  is the invariant behind this, and `Sync.run_results` what it comes to at the end of a run.
-/

import FileListCache.Proofs.Runs

namespace FileListCache

open Archive (Accepts)
open Disk (locate look)
open Transcode (letter note notedArchive brokenArchive)
open World (Via)

/-- Nothing stands where the path leads. -/
def Disk.IsVacant (h : Host) (t : Tree) (p : String) : Prop :=
  ∀ l, locate h t false p = .ok l → t.find? l = none

/-- The fetcher gets the document at the address into the file. -/
def Fetcher.CanFetch (h : Host) (f : Fetcher) (w : World) (url filename : String) : Prop :=
  ∃ path w', w.attempt (f.fetch h url filename) = (.ok path, w')

namespace Sync

variable {h : Host} {t₀ t t' : Tree} {g : Download.Goal} {c : Location} {repos : List Repository}
  {repo repo' : Repository} {respond : String → List Http.Request → Option Http.Body}
  {f : Fetcher} {client : Http.Client} {interactive : Bool} {w w₁ w' : World} {server name : String}
  {urls : List String} {o : Except SyncError Nat} {r : Report} {done rest : List Repository}

/-! ## Reports -/

/-- What the report says of one repository. -/
def Report.about (r : Report) (name : String) : Report :=
  ⟨r.synced.filter (· = name), r.failed.filter (·.1 = name)⟩

theorem Report.about_add (hr : r.about repo.name = {}) :
    (r.add repo o).about repo.name = ({} : Report).add repo o := by
  have hsynced : r.synced.filter (· = repo.name) = [] := congrArg Report.synced hr
  have hfailed : r.failed.filter (·.1 = repo.name) = [] := congrArg Report.failed hr
  cases o <;> simp [Report.about, Report.add, hsynced, hfailed]

theorem Report.about_add_of_ne (hne : name ≠ repo.name) :
    (r.add repo o).about name = r.about name := by
  cases o <;> simp [Report.about, Report.add, hne.symm]

/-! ## Outcomes that last -/

theorem Rewritten.congr {bytes : Bytes} (hr : Rewritten c repo bytes t o)
    (hfind : ∀ a : Role, t'.find? (a.place c repo.name) = t.find? (a.place c repo.name)) :
    Rewritten c repo bytes t' o := by
  cases hr with
  | complete haccepts hlist hbeside =>
    exact .complete haccepts ((hfind .list).trans hlist) fun a ha => (hfind a).trans (hbeside a ha)
  | spoiled hnot hlist hbeside =>
    exact .spoiled hnot ((hfind .list).trans hlist) fun a ha => (hfind a).trans (hbeside a ha)

/-- An outcome speaks of the repository's own files only. -/
theorem Outcome.congr (ho : Outcome h t₀ g c respond repo t urls o)
    (hfind : ∀ a : Role, t'.find? (a.place c repo.name) = t.find? (a.place c repo.name)) :
    Outcome h t₀ g c respond repo t' urls o := by
  cases ho with
  | noServers hservers => exact .noServers hservers
  | allFailed hservers hfails hvacant =>
    exact .allFailed hservers hfails fun hloc => (hfind .list).trans (hvacant hloc)
  | delivered before hservers hdelivers hbefore hrewritten =>
    exact .delivered before hservers hdelivers hbefore (hrewritten.congr hfind)

theorem AgreesOff.find?_place (hframe : AgreesOff c [repo] t t') (hne : repo'.name ≠ repo.name)
    (a : Role) : t'.find? (a.place c repo'.name) = t.find? (a.place c repo'.name) := by
  apply hframe
  intro hown
  obtain ⟨repo₁, hrepo₁, b, hprefix⟩ := hown
  rw [List.mem_singleton.1 hrepo₁] at hprefix
  exact (Role.apart (.inl hne)).2 hprefix

/-- Between two rounds of a calm run the cache is fit for a run of the repository alone. -/
theorem Snapshot.setting {sent : String → Bytes → Prop} (hk : Snapshot t₀ g c repos sent t)
    (hs : Setting h t₀ g c repos) (hc : IsCalm h t₀ c repos respond) (hrepo : repo ∈ repos) :
    Setting h t g c [repo] := by
  obtain ⟨hcache, hdirectory⟩ :=
    Disk.locate_directory (hk.alike hs hc) hs.cache hs.directory
  refine ⟨hcache, hdirectory, List.nodup_singleton _, ?_, ?_, ?_⟩ <;> intro repo' hrepo' <;>
    rw [List.mem_singleton.1 hrepo']
  · exact hs.noSlash repo hrepo
  · exact hk.leaf repo hrepo
  · exact hk.bare repo hrepo

/-! ## Progress of a run -/

/-- What a calm run has come to between two rounds. -/
structure Progressed (h : Host) (w : World) (g : Download.Goal) (c : Location)
    (repos : List Repository) (respond : String → List Http.Request → Option Http.Body)
    (done rest : List Repository) (r : Report) (w' : World) : Prop where
  split : repos = done ++ rest
  way : Way w g c repos respond w'
  told : ∃ es, w'.events = w.events ++ es ∧
    (∀ repo ∈ rest, Told repo.name [] [] es ∧ r.about repo.name = {}) ∧
    ∀ repo ∈ done, ∃ urls o, Outcome h w.tree g c respond repo w'.tree urls o ∧
      Told repo.name urls [ending repo o] es ∧ r.about repo.name = ({} : Report).add repo o

/-- A round adds what its own repository came to, and takes nothing from the others. -/
theorem Progressed.step (hp : Progressed h w g c repos respond done (repo :: rest) r w₁)
    (hdistinct : (repos.map (·.name)).Nodup)
    (hway : Way w g c repos respond w')
    (hframe : AgreesOff c [repo] w₁.tree w'.tree)
    (htells : World.Tells repo.name urls [ending repo o] w₁ w')
    (ho : Outcome h w.tree g c respond repo w'.tree urls o) :
    Progressed h w g c repos respond (done ++ [repo]) rest (r.add repo o) w' := by
  obtain ⟨es, hes, hrest, hdone⟩ := hp.told
  obtain ⟨es', hes', htold', hothers'⟩ := htells
  rw [hp.split, List.map_append, List.map_cons, List.nodup_middle, List.nodup_cons] at hdistinct
  have hne {repo' : Repository} (hmem : repo' ∈ done ++ rest) : repo'.name ≠ repo.name := by
    intro he
    apply hdistinct.1
    rw [← he, ← List.map_append]
    exact List.mem_map_of_mem hmem
  refine ⟨by rw [hp.split, List.append_assoc, List.singleton_append], hway, es ++ es', ?_, ?_, ?_⟩
  · rw [hes', hes, List.append_assoc]
  · intro repo' hrepo'
    have hne' := hne (List.mem_append_right done hrepo')
    obtain ⟨htold, habout⟩ := hrest repo' (List.mem_cons_of_mem repo hrepo')
    exact ⟨htold.append (hothers' _ hne'), (Report.about_add_of_ne hne').trans habout⟩
  · intro repo' hrepo'
    -- The round took nothing from those that were done, and says all about its own repository.
    rcases List.mem_append.1 hrepo' with hmem | hmem
    · have hne' := hne (List.mem_append_left rest hmem)
      obtain ⟨urls', o', ho', htold, habout⟩ := hdone repo' hmem
      refine ⟨urls', o', ho'.congr (hframe.find?_place hne'), ?_,
        (Report.about_add_of_ne hne').trans habout⟩
      have happend := htold.append (hothers' _ hne')
      rwa [List.append_nil, List.append_nil] at happend
    · rw [List.mem_singleton.1 hmem]
      obtain ⟨htold, habout⟩ := hrest repo List.mem_cons_self
      exact ⟨urls, o, ho, htold.append htold', Report.about_add habout⟩

/-- On a calm disk a run gives a report, and comes to an outcome for each repository. -/
theorem run_ends (hs : Setting h w.tree g c repos) (hc : IsCalm h w.tree c repos respond)
    (hanswers : ∀ repo ∈ repos, ∀ server ∈ repo.servers,
      (fetcher client g interactive).Answers h (AgreesOff c repos w.tree) (g.url repo server)
        (respond (g.url repo server))) :
    Ends w (run h client interactive g repos) fun r w' => ∃ report, r = .ok report ∧
      Progressed h w g c repos respond repos [] report w' := by
  have hpassive := fetcher_isPassive client g interactive
  have hasks := fetcher_asksNothing client g interactive
  refine ends_run (fun rest r w' => ∃ done, Progressed h w g c repos respond done rest r w')
    hs.cache hs.directory (fun hlocked => absurd (hc.steady.unlocked c) hlocked) ?_ ?_ ?_
  · refine ⟨[], rfl, hs.way, [], (List.append_nil _).symm, fun _ _ => ⟨⟨rfl, rfl⟩, rfl⟩, ?_⟩
    intro repo hrepo
    cases hrepo
  · intro repo rest r s w₁ hI
    obtain ⟨done, hp⟩ := hI
    have hrepo : repo ∈ repos := by
      rw [hp.split]
      exact List.mem_append_right done List.mem_cons_self
    have hk := hp.way.snapshot
    -- The same round is looked at twice: as a part of the run, and on its own.
    have hround := repository_ends hs hrepo hpassive hasks rfl (hanswers repo hrepo) w₁ s hp.way
    have hs₁ := hk.setting hs hc hrepo
    have hanswers₁ (server : String) (hserver : server ∈ repo.servers) :
        (fetcher client g interactive).Answers h (AgreesOff c [repo] w₁.tree)
          (g.url repo server) (respond (g.url repo server)) := by
      -- What does not depend on the files of all repositories depends on those of one even less.
      refine (hanswers repo hrepo server hserver).mono fun t ht l hl => ?_
      rw [ht l, hk.frame l hl]
      intro hown
      obtain ⟨repo', hrepo', a, hprefix⟩ := hown
      exact hl ⟨repo, hrepo, a, List.mem_singleton.1 hrepo' ▸ hprefix⟩
    have hround₁ := repository_ends hs₁ (List.mem_singleton.2 rfl) hpassive hasks rfl hanswers₁ w₁
      s hs₁.way
    refine settles_imp (settles_and hround hround₁) ?_
    intro o _ w₂ hr w₃ hafter hasked htells
    obtain ⟨⟨hway, urls, htells₂, ho⟩, hway₁, -⟩ := hr
    have htree : w₃.tree = w₂.tree := hafter.2
    have htells := htells₂.trans htells
    rw [List.append_nil, List.nil_append] at htells
    refine ⟨done ++ [repo], hp.step hs.distinct ?_ ?_ htells ?_⟩
    · exact hway.of_after_nil hafter hasked
    · exact htree ▸ hway₁.snapshot.frame
    · exact htree ▸ ho hc
  · intro r w₁ w' hI huntouched
    obtain ⟨done, hp⟩ := hI
    obtain rfl : repos = done := hp.split.trans (List.append_nil done)
    obtain ⟨es, hes, hrest, hdone⟩ := hp.told
    have hway := hp.way.of_after_nil huntouched.after huntouched.requests
    refine ⟨r, rfl, hp.split, hway, es, ?_, hrest, ?_⟩
    · rw [huntouched.events, hes]
    · rw [huntouched.tree]
      exact hdone

/-! ## What the servers decide -/

/-- The first element of a kind splits a list in one way only. -/
theorem eq_of_append_cons {α : Type} {P : α → Prop} {before before' after after' : List α}
    {a a' : α} (he : before ++ a :: after = before' ++ a' :: after')
    (hbefore : ∀ x ∈ before, ¬ P x) (ha : P a) (hbefore' : ∀ x ∈ before', ¬ P x) (ha' : P a') :
    before = before' ∧ a = a' := by
  induction before generalizing before' with
  | nil =>
    cases before' with
    | nil => exact ⟨rfl, (List.cons.inj he).1⟩
    | cons x xs =>
      obtain rfl : a = x := (List.cons.inj he).1
      exact absurd ha (hbefore' a List.mem_cons_self)
  | cons y ys ih =>
    cases before' with
    | nil =>
      obtain rfl : y = a' := (List.cons.inj he).1
      exact absurd ha' (hbefore y List.mem_cons_self)
    | cons x xs =>
      obtain ⟨hyx, htail⟩ := List.cons.inj he
      obtain ⟨hys, haa⟩ := ih htail (fun z hz => hbefore z (List.mem_cons_of_mem y hz))
        fun z hz => hbefore' z (List.mem_cons_of_mem x hz)
      exact ⟨by rw [hyx, hys], haa⟩

section Servers

variable (hs : Setting h w.tree g c repos) (hc : IsCalm h w.tree c repos respond)
  (hrepo : repo ∈ repos)
include hs hc hrepo

/-- A list can be fetched from the servers that send all of it. -/
theorem canFetch_iff (hf : f.IsPassive) (hcache : f.cache = g.cache)
    (hans : ∀ server ∈ repo.servers,
      f.Answers h (AgreesOff c repos w.tree) (g.url repo server) (respond (g.url repo server)))
    (hserver : server ∈ repo.servers) :
    f.CanFetch h w (g.url repo server) repo.fileName ↔
      ∃ bytes, Delivers h w.tree g c respond repo server bytes := by
  -- What was sent before does not matter here.
  have hk : Snapshot w.tree g c repos (fun _ _ => True) w.tree := hs.snapshot
  have hfetch := fetch_ends hs hrepo hf hcache hans hserver hk fun _ _ => trivial
  constructor
  · intro hcan
    obtain ⟨path, w', hw⟩ := hcan
    obtain ⟨-, -, hok, -⟩ := (ends_iff hw).1 hfetch
    obtain ⟨-, bytes, hclear, hanswer, -⟩ := hok path rfl
    exact ⟨bytes, hc.delivers hclear hanswer⟩
  · intro hdelivers
    obtain ⟨bytes, hdelivers⟩ := hdelivers
    rcases hw : w.attempt (f.fetch h (g.url repo server) repo.fileName) with ⟨e | path, w'⟩
    · obtain ⟨-, -, -, herr⟩ := (ends_iff hw).1 hfetch
      exact absurd hdelivers ((herr e rfl).2 hc.steady bytes)
    · exact ⟨path, w', hw⟩

variable {sent : String → Bytes → Prop} (hk : Snapshot w.tree g c repos sent t)
include hk

omit hc in
theorem isVacant_of_none {a : Role} (hnone : t.find? (a.place c repo.name) = none) :
    Disk.IsVacant h t (a.path g.cache repo.name) := by
  intro l hl
  rw [((hs.aims hrepo a).fades hk.fades).eq_of_locate hl]
  exact hnone

theorem look_of_file {bytes : Bytes}
    (hlocate : locate h w.tree false (g.path repo) = .ok (Role.list.place c repo.name))
    (hlist : t.find? (Role.list.place c repo.name) = some (.file bytes)) :
    look h t (g.path repo) = .ok (.file bytes) := by
  have hlocate' := (hs.aims hrepo .list).alike (hk.alike hs hc) hlocate
  exact Disk.look_eq_ok.2 ⟨_, Disk.locate_true_of_false hlocate' (by simp [hlist]), hlist⟩

end Servers

/-! ## Results -/

/-- A repository of which the second server has the last word. -/
def fallingBack : Repository :=
  { name := "core", servers := ["http://broken", "http://mirror", "http://broken"] }

/-- A repository that no server has a list of. -/
def lost : Repository := { name := "lost", servers := ["http://down"] }

section Mirrors

variable {good spoiled : Bytes} {before : List Http.Request} {R : Tree → Prop}

theorem ofText_broken : Url.ofText (coreGoal.url fallingBack "http://broken") =
    .ok (address "broken" "/core.files") := by
  decide +kernel

theorem ofText_down : Url.ofText (coreGoal.url lost "http://down") =
    .ok (address "down" "/lost.files") := by
  decide +kernel

theorem webAnswer_broken : (fetcher {} coreGoal false).webAnswer (mirrors good spoiled)
    (coreGoal.url fallingBack "http://broken") before = some brokenOff :=
  webAnswer_address ofText_broken (by decide +kernel) rfl rfl body_cutShort

theorem webAnswer_down : (fetcher {} coreGoal false).webAnswer (mirrors good spoiled)
    (coreGoal.url lost "http://down") before = none :=
  Fetcher.webAnswer_of_none ofText_down (show "http" ≠ "file" by decide) rfl

/-- What the servers send at any time. -/
def sent (good spoiled : Bytes) (url : String) : Option Http.Body :=
  (fetcher {} coreGoal false).webAnswer (mirrors good spoiled) url []

/-- A server that does not mind what it was asked before sends that. -/
theorem answers_sent {url host file : String} {body : Option Http.Body}
    (hurl : Url.ofText url = .ok (address host file))
    (hbody : ∀ before, (fetcher {} coreGoal false).webAnswer (mirrors good spoiled) url before =
      body) :
    (fetcher {} coreGoal false).Answers (mirrors good spoiled) R url
      fun _ => sent good spoiled url := by
  have hsent : (fun _ => sent good spoiled url) =
      (fetcher {} coreGoal false).webAnswer (mirrors good spoiled) url := by
    funext before
    rw [sent, hbody, hbody]
  exact hsent ▸ address_answers hurl

theorem mirrors_sent : ∀ repo ∈ [fallingBack, multilib, lost], ∀ server ∈ repo.servers,
    (fetcher {} coreGoal false).Answers (mirrors good spoiled) R (coreGoal.url repo server)
      fun _ => sent good spoiled (coreGoal.url repo server) := by
  have hbroken : (fetcher {} coreGoal false).Answers (mirrors good spoiled) R
      (coreGoal.url fallingBack "http://broken")
      fun _ => sent good spoiled (coreGoal.url fallingBack "http://broken") :=
    answers_sent ofText_broken fun _ => webAnswer_broken
  simp only [List.forall_mem_cons, fallingBack, multilib, lost]
  refine ⟨⟨hbroken, answers_sent ofText_core fun _ => webAnswer_core, hbroken, ?_⟩,
    ⟨answers_sent ofText_multilib fun _ => webAnswer_multilib, ?_⟩,
    ⟨answers_sent ofText_down fun _ => webAnswer_down, ?_⟩, ?_⟩ <;>
  exact List.forall_mem_nil _

theorem mirrors_setting : Setting (mirrors good spoiled) oldCache.tree coreGoal ["cache"]
    [fallingBack, multilib, lost] := oldCache_setting (by decide)

theorem mirrors_isLeaf : ∀ repo ∈ [fallingBack, multilib, lost], ∀ a : Role,
    oldCache.tree.IsLeaf (a.place ["cache"] repo.name) := by
  have hnames : ∀ repo ∈ [fallingBack, multilib, lost],
    repo.name ∈ ["core", "multilib", "lost"] := by decide
  exact fun repo hrepo => oldCache_isLeaf (hnames repo hrepo)

theorem mirrors_isSteady : (mirrors good spoiled).IsSteady :=
  ⟨fun _ => rfl, fun _ => rfl, fun _ _ => rfl⟩

theorem mirrors_isCalm : IsCalm (mirrors good spoiled) oldCache.tree ["cache"]
    [fallingBack, multilib, lost] fun url _ => sent good spoiled url where
  steady := mirrors_isSteady
  leaf := fun repo hrepo => mirrors_isLeaf repo hrepo .list
  bare := fun repo hrepo =>
    oldCache_isRooted.isBare (mirrors_isLeaf repo hrepo .list).isDeadEnd.1
  alike := fun _ _ _ => rfl

/-- Of a list of these a server's answer decides whether it can be fetched. -/
theorem canFetch_mirrors {repo : Repository} {server : String}
    (hrepo : repo ∈ [fallingBack, multilib, lost]) (hserver : server ∈ repo.servers) :
    (fetcher {} coreGoal false).CanFetch (mirrors good spoiled) oldCache
      (coreGoal.url repo server) repo.fileName ↔
        ∃ bytes, sent good spoiled (coreGoal.url repo server) = some ⟨bytes, none⟩ := by
  have hs : Setting (mirrors good spoiled) oldCache.tree coreGoal ["cache"]
    [fallingBack, multilib, lost] := mirrors_setting
  rw [canFetch_iff hs mirrors_isCalm hrepo (fetcher_isPassive {} coreGoal false) rfl
    (mirrors_sent repo hrepo) hserver]
  -- The paths of all of them can be found, and no directory is in the way.
  have hsay : ∀ repo ∈ [fallingBack, multilib, lost], ∀ a ∈ [Role.part, Role.list],
      Disk.Sayable (a.path coreGoal.cache repo.name) (repo.name ++ a.suffix) := by
    decide +kernel
  have hlocate {a : Role} (ha : a ∈ [Role.part, Role.list]) :=
    (hs.locate_iff hrepo a).2 (hsay repo hrepo a ha)
  have hclear := Fetcher.IsClear.mk (hlocate (a := .part) (by decide))
    (hlocate (a := .list) (by decide)) (mirrors_isLeaf repo hrepo .list).isDeadEnd.1
  exact exists_congr fun bytes =>
    ⟨fun hdelivers => hdelivers.answer [], fun hsent => ⟨hclear, fun _ => hsent⟩⟩

end Mirrors

end Sync

end FileListCache
