/-
  FileListCache.Proofs.Runs

  Whole runs. A run is a check of the cache and then one round for each repository, so what every
  round preserves holds after the run (`Sync.ends_run`). The first use of it is what readers see:
  at no moment of a run is there a half-written list (`Sync.run_readers`).
-/

import FileListCache.Proofs.Rounds
import FileListCache.Proofs.Servers

namespace FileListCache.Sync

open Disk (locate)
open Transcode (letter note notedArchive brokenArchive)
open World (Quiet Untouched)

variable {h : Host} {t₀ : Tree} {g : Download.Goal} {c : Location} {repos : List Repository}
  {repo : Repository} {respond : String → List Http.Request → Option Http.Body}
  {client : Http.Client} {interactive : Bool} {w : World}

/-! ## Parts of a run -/

theorem fetcher_isPassive (client : Http.Client) (g : Download.Goal) (interactive : Bool) :
    (fetcher client g interactive).IsPassive := by
  intro p w
  cases interactive with
  | false => exact ⟨rfl, rfl, [], (List.append_nil _).symm, by simp⟩
  | true => exact ⟨rfl, rfl, _, rfl, by simp [Event.IsProgress]⟩

theorem fetcher_asksNothing (client : Http.Client) (g : Download.Goal) (interactive : Bool) :
    (fetcher client g interactive).AsksNothing := by
  intro p w
  cases interactive <;> rfl

/-- A cache that is a directory passes the check unless it is locked. The check changes nothing. -/
theorem checkCache_ends (hcache : locate h w.tree true g.cache = .ok c)
    (hdirectory : w.tree.find? c = some .directory) :
    Ends w (checkCache h g) fun r w' => (r = .ok () ↔ h.locked c = none) ∧ w' = w := by
  have hwritable : Files.ensureWritable h w.tree g.cache = .ok () ↔ h.locked c = none := by
    simp [Files.ensureWritable_eq_ok, hcache, hdirectory]
  unfold checkCache
  apply ends_get_bind
  refine ends_except ⟨?_, rfl⟩
  rw [← hwritable]
  exact ⟨eq_ok_of_mapError, mapError_of_ok⟩

/-- How a repository's sync is told to end. -/
def ending (repo : Repository) : Except SyncError Nat → Event
  | .ok entries => .synced repo.name entries
  | .error e => .failed repo.name e.message

/-- The report with what one repository came to. -/
def Report.add (r : Report) (repo : Repository) : Except SyncError Nat → Report
  | .ok _ => { r with synced := r.synced ++ [repo.name] }
  | .error e => { r with failed := r.failed ++ [(repo.name, e.message)] }

/-- Recording leaves the tree as it is. -/
theorem record_ends {σ : Type} (r : Report) (repo : Repository) (o : Except SyncError Nat)
    (w : World) (s : σ) :
    Settles w s (record r repo o) fun r' _ w' => r' = r.add repo o ∧ World.After w [] w' ∧
      w'.requests = w.requests ∧ World.Tells repo.name [] [ending repo o] w w' := by
  cases o with
  | ok entries =>
    refine settles_bind (settles_tell (settles_bind (settles_tell (settles_pure ?_))))
    exact ⟨rfl, ⟨(List.append_nil _).symm, rfl⟩, rfl, tells_emit _ (.synced repo.name entries)⟩
  | error e =>
    refine settles_bind (settles_tell (settles_bind (settles_tell (settles_pure ?_))))
    exact ⟨rfl, ⟨(List.append_nil _).symm, rfl⟩, rfl, tells_emit _ (.failed repo.name e.message)⟩

/-! ## Runs by their rounds -/

/-- What holds at first and after every round holds after a run: `I rest r w` speaks of the
repositories still to come, of the report and of the world. In a locked cache there are no
rounds. -/
theorem ends_run (I : List Repository → Report → World → Prop)
    {Q : Except SyncError Report → World → Prop}
    (hcache : locate h w.tree true g.cache = .ok c)
    (hdirectory : w.tree.find? c = some .directory)
    (hlocked : h.locked c ≠ none → ∀ e, Q (.error e) w) (hstart : I repos {} w)
    (hround : ∀ repo rest r (s : Unit) w, I (repo :: rest) r w →
      Settles w s (repository h ((fetcher client g interactive).toFetch h) g repo).run
        fun o _ w₁ => ∀ w', World.After w₁ [] w' → w'.requests = w₁.requests →
          World.Tells repo.name [] [ending repo o] w₁ w' → I rest (r.add repo o) w')
    (hend : ∀ r w₁ w', I [] r w₁ → Untouched w₁ w' → Q (.ok r) w') :
    Ends w (run h client interactive g repos) Q := by
  have hrun : Settles w () (runWith h ((fetcher client g interactive).toFetch h) g repos).run
      fun o _ w' => Q o w' := by
    unfold runWith
    apply settles_run_bind
    refine settles_run_attempt (ends_imp (checkCache_ends hcache hdirectory) ?_)
    intro r w' hr
    obtain ⟨hpassed, rfl⟩ := hr
    rcases r with e | u
    · exact hlocked (fun hnone => nomatch hpassed.2 hnone) e
    apply settles_run_lift
    -- The check has passed; from here on the invariant goes from round to round.
    unfold all
    have hall := settles_foldlM (f := fun r repo => do
        record r repo (← (repository h ((fetcher client g interactive).toFetch h) g repo).run))
      (Q := fun r (_ : Unit) w' => I [] r w') (fun rest r _ w' => I rest r w')
      (fun r _ w' hI => hI) ?_ repos {} () w' hstart
    · refine settles_bind (settles_imp hall ?_)
      intro r s w₁ hI
      exact settles_bind (settles_tell (settles_pure (hend r w₁ _ hI World.untouched_note)))
    · intro repo rest r s w₁ hI
      refine settles_bind (settles_imp (hround repo rest r s w₁ hI) ?_)
      intro o s₂ w₂ hnext
      refine settles_imp (record_ends r repo o w₂ s₂) ?_
      intro r' s₃ w₃ hr
      obtain ⟨rfl, hafter, hasked, htells⟩ := hr
      exact hnext w₃ hafter hasked htells
  exact hrun

/-! ## Readers -/

/-- Readers never see a half-written list. At every moment of a run, whatever the servers send and
wherever it ends, the list of each repository is missing, what it was before the run, the whole
answer that a server gave during the run, or the complete rewriting of that; what stood below it is
gone or as it was. -/
theorem run_readers (hroot : w.tree.IsRooted) (hcache : locate h w.tree true g.cache = .ok c)
    (hdirectory : w.tree.find? c = some .directory) (hdistinct : (repos.map (·.name)).Nodup)
    (hslash : ∀ repo ∈ repos, '/' ∉ repo.name.toList)
    (hleaf : ∀ repo ∈ repos, ∀ a, a ≠ Role.list → w.tree.IsLeaf (a.place c repo.name))
    (hanswers : ∀ repo ∈ repos, ∀ server ∈ repo.servers,
      (fetcher client g interactive).Answers h (AgreesOff c repos w.tree) (g.url repo server)
        (respond (g.url repo server))) :
    ∃ r w' steps, w.attempt (run h client interactive g repos) = (r, w') ∧
      w'.steps = w.steps ++ steps ∧ w'.tree = w.tree.applyAll steps ∧
      ∀ k, ∀ repo ∈ repos,
        IsWhole g (Sent respond w w') repo (w.tree.find? (Role.list.place c repo.name))
          ((w.tree.applyAll (steps.take k)).find? (Role.list.place c repo.name)) ∧
        ∀ below, below ≠ [] →
          (w.tree.applyAll (steps.take k)).find? (Role.list.place c repo.name ++ below) = none ∨
          (w.tree.applyAll (steps.take k)).find? (Role.list.place c repo.name ++ below) =
            w.tree.find? (Role.list.place c repo.name ++ below) := by
  have hs : Setting h w.tree g c repos := by
    refine ⟨hcache, hdirectory, hdistinct, hslash, hleaf, fun repo hrepo a ha => ?_⟩
    exact hroot.isBare (hleaf repo hrepo a ha).isDeadEnd.1
  have hrun : Ends w (run h client interactive g repos) fun _ w' =>
      Way w g c repos respond w' := by
    refine ends_run (fun rest _ w' => rest ⊆ repos ∧ Way w g c repos respond w') hcache hdirectory
      (fun _ _ => hs.way) ⟨fun _ hrepo => hrepo, hs.way⟩ ?_ ?_
    · -- A round leads the way so far on.
      intro repo rest r s w₁ hI
      obtain ⟨hrest, hway⟩ := hI
      have hrepo := hrest List.mem_cons_self
      refine settles_imp (repository_ends hs hrepo (fetcher_isPassive client g interactive)
        (fetcher_asksNothing client g interactive) rfl (hanswers repo hrepo) w₁ s hway) ?_
      intro o _ w₂ hr w₃ hafter hasked _
      exact ⟨fun _ hmem => hrest (List.mem_cons_of_mem _ hmem), hr.1.of_after_nil hafter hasked⟩
    · intro r w₁ w' hI huntouched
      exact hI.2.of_after_nil huntouched.after huntouched.requests
  obtain ⟨steps, ⟨hsteps, htree⟩, hk⟩ := hrun.via
  exact ⟨_, _, steps, rfl, hsteps, htree, fun k repo hrepo =>
    ⟨(hk k).entry repo hrepo, (hk k).below repo hrepo⟩⟩

/-! ## A cache with an old list -/

/-- A reply that announces more than it brings. -/
def cutShort : Http.Reply :=
  { status := 200, headers := [("content-length", "1536")], payload := [0x61, 0, 0] }

/-- What arrives of it. -/
def brokenOff : Http.Body := ⟨[0x61, 0, 0], some .peerGone⟩

/-- Servers that send a document for every address, which is a spoiled one for that of the list
`multilib`. From `down` nothing comes, and `broken` cuts all its replies short. -/
def mirrors (good spoiled : Bytes) : Host :=
  { answer := .steady fun r =>
      if r.host = "down" then none
      else if r.host = "broken" then some cutShort
      else
        let payload := if r.target = "/multilib.files" then spoiled else good
        some { status := 200, headers := [], payload } }

/-- The same servers on a line that breaks off the first of all replies. -/
def flakyMirrors (good spoiled : Bytes) : Host :=
  { answer := ⟨fun before r =>
      if before.isEmpty then some cutShort else (mirrors good spoiled).answer.reply before r⟩ }

/-- A cache in which there is a list already. -/
def oldCache : World :=
  { tree := ⟨[(["cache"], .directory), (["cache", "core.files"], .file [0])]⟩ }

def coreGoal : Download.Goal := ⟨"/cache", "x86_64"⟩

def core : Repository := { name := "core", servers := ["http://mirror"] }

/-- A repository with a server that is listed twice. -/
def retried : Repository := { name := "core", servers := ["http://mirror", "http://mirror"] }

def multilib : Repository := { name := "multilib", servers := ["http://mirror"] }

section OldCache

variable {good spoiled : Bytes} {before : List Http.Request}

theorem oldCache_isRooted : oldCache.tree.IsRooted := Tree.isRooted_of_entries (by decide)

theorem oldCache_isLeaf {name : String} (hname : name ∈ ["core", "multilib", "lost"]) (a : Role) :
    oldCache.tree.IsLeaf (a.place ["cache"] name) := by
  simp only [List.mem_cons, List.not_mem_nil, or_false] at hname
  rcases hname with rfl | rfl | rfl <;> cases a <;>
    first
    | exact .inl (by decide)
    | exact .inr ⟨[0], by decide⟩

theorem locate_oldCache : locate h oldCache.tree true "/cache" = .ok ["cache"] :=
  Disk.locate_of_names (by decide) (by decide) (by decide) (by decide) (by decide)
    (by rintro _ ⟨⟩)

theorem ensureWritable_oldCache (hlocked : h.locked ["cache"] = none) :
    Files.ensureWritable h oldCache.tree coreGoal.cache = .ok () :=
  Files.ensureWritable_eq_ok.2 ⟨["cache"], locate_oldCache, by decide, hlocked⟩

/-- It is fit for repositories of these names. -/
theorem oldCache_setting (hnames : repos.map (·.name) <+: ["core", "multilib", "lost"]) :
    Setting h oldCache.tree coreGoal ["cache"] repos := by
  have hname {repo : Repository} (hrepo : repo ∈ repos) :
      repo.name ∈ ["core", "multilib", "lost"] :=
    hnames.subset (List.mem_map_of_mem hrepo)
  have hslash : ∀ name ∈ ["core", "multilib", "lost"], '/' ∉ name.toList := by decide
  refine ⟨locate_oldCache, by decide, hnames.sublist.nodup (by decide),
    fun repo hrepo => hslash _ (hname hrepo), fun repo hrepo a _ => oldCache_isLeaf (hname hrepo) a,
    fun repo hrepo a _ => ?_⟩
  exact oldCache_isRooted.isBare (oldCache_isLeaf (hname hrepo) a).isDeadEnd.1

/-! ### What the servers send -/

/-- The address of a file on a server. -/
def address (host file : String) : Url := { scheme := "http", host := some host, path := file }

theorem ofText_core : Url.ofText (coreGoal.url core "http://mirror") =
    .ok (address "mirror" "/core.files") := by
  decide +kernel

theorem ofText_multilib : Url.ofText (coreGoal.url multilib "http://mirror") =
    .ok (address "mirror" "/multilib.files") := by
  decide +kernel

section Answers

variable {R : Tree → Prop} {url host file : String} {reply : Http.Reply} {body : Http.Body}

/-- A reply is sent as it is. -/
theorem webAnswer_address (hurl : Url.ofText url = .ok (address host file))
    (haddress : Http.Address.check (address host file).toText = .ok ())
    (hreply : h.answer.reply before (({} : Http.Client).request (address host file)) = some reply)
    (hstatus : reply.status = 200) (hbody : reply.body = .ok body) :
    (fetcher {} coreGoal false).webAnswer h url before = some body := by
  refine Fetcher.webAnswer_of_reply hurl (show "http" ≠ "file" by decide) haddress hreply ?_ hbody
    ?_
  · rw [hstatus]
    rfl
  · rw [hstatus]
    rfl

theorem body_cutShort : cutShort.body = .ok brokenOff := by
  decide +kernel

theorem webAnswer_core : (fetcher {} coreGoal false).webAnswer (mirrors good spoiled)
    (coreGoal.url core "http://mirror") before = some ⟨good, none⟩ :=
  webAnswer_address ofText_core (by decide +kernel) rfl rfl rfl

theorem webAnswer_multilib : (fetcher {} coreGoal false).webAnswer (mirrors good spoiled)
    (coreGoal.url multilib "http://mirror") before = some ⟨spoiled, none⟩ :=
  webAnswer_address ofText_multilib (by decide +kernel) rfl rfl rfl

/-- What comes whole on the line that breaks off is what the server sends. -/
theorem eq_of_webAnswer_flaky {payload bytes : Bytes}
    (hurl : Url.ofText url = .ok (address host file))
    (haddress : Http.Address.check (address host file).toText = .ok ())
    (hreply : (mirrors good spoiled).answer.reply before
      (({} : Http.Client).request (address host file)) = some ⟨200, [], payload⟩)
    (hsent : (fetcher {} coreGoal false).webAnswer (flakyMirrors good spoiled) url before =
      some ⟨bytes, none⟩) : bytes = payload := by
  cases before with
  | nil =>
    rw [webAnswer_address hurl haddress rfl rfl body_cutShort] at hsent
    cases hsent
  | cons r before =>
    have hwhole : (fetcher {} coreGoal false).webAnswer (flakyMirrors good spoiled) url
        (r :: before) = some ⟨payload, none⟩ := webAnswer_address hurl haddress hreply rfl rfl
    cases hwhole.symm.trans hsent
    rfl

/-- What is sent from an address on the web does not depend on the cache. -/
theorem address_answers (hurl : Url.ofText url = .ok (address host file)) :
    (fetcher {} coreGoal false).Answers h R url ((fetcher {} coreGoal false).webAnswer h url) := by
  refine Fetcher.answers_of_web fun u hu => ?_
  cases hurl.symm.trans hu
  exact (by decide : "http" ≠ "file")

end Answers

end OldCache

/-- While a list that did not come whole at first takes the place of an old one, readers see the old
one, nothing, the archive that was sent, or that with its end mark; a list that cannot be read is
seen as it was sent. -/
theorem run_readers_retried : ∃ r w' steps,
    oldCache.attempt (run (flakyMirrors notedArchive brokenArchive) {} false coreGoal
      [retried, multilib]) = (r, w') ∧ w'.steps = steps ∧ ∀ k entry,
      ((oldCache.tree.applyAll (steps.take k)).find? ["cache", "core.files"] = entry →
        entry = none ∨ entry = some (.file [0]) ∨ entry = some (.file notedArchive) ∨
          entry = some (.file (Archive.bytesOf [letter, note]))) ∧
      ((oldCache.tree.applyAll (steps.take k)).find? ["cache", "multilib.files"] = entry →
        entry = none ∨ entry = some (.file brokenArchive)) := by
  have hs : Setting (flakyMirrors notedArchive brokenArchive) oldCache.tree coreGoal ["cache"]
    [retried, multilib] := oldCache_setting (by decide)
  have hanswers : ∀ repo ∈ [retried, multilib], ∀ server ∈ repo.servers,
      (fetcher {} coreGoal false).Answers (flakyMirrors notedArchive brokenArchive)
        (AgreesOff ["cache"] [retried, multilib] oldCache.tree) (coreGoal.url repo server)
        ((fetcher {} coreGoal false).webAnswer (flakyMirrors notedArchive brokenArchive)
          (coreGoal.url repo server)) := by
    simp only [List.forall_mem_cons, retried, multilib]
    exact ⟨⟨address_answers ofText_core, address_answers ofText_core, nofun⟩,
      ⟨address_answers ofText_multilib, nofun⟩, nofun⟩
  obtain ⟨r, w', steps, hrun, hsteps, -, hk⟩ := run_readers oldCache_isRooted hs.cache hs.directory
    hs.distinct hs.noSlash hs.leaf hanswers
  refine ⟨r, w', steps, hrun, hsteps, fun k entry => ⟨?_, ?_⟩⟩
  · rintro rfl
    have hold : oldCache.tree.find? ["cache", "core.files"] = some (.file [0]) := by decide
    obtain ⟨hwhole, -⟩ := hk k retried (by decide)
    rcases hwhole with hnone | hbefore | ⟨bytes, ⟨server, hserver, _, -, -, hsent⟩, hbytes⟩
    · exact .inl hnone
    · exact .inr (.inl (hbefore.trans hold))
    · -- Of the server's answers the first is not whole, and the others are all the same.
      obtain rfl : server = "http://mirror" := by simpa [retried] using hserver
      obtain rfl : bytes = notedArchive :=
        eq_of_webAnswer_flaky ofText_core (by decide +kernel) rfl hsent
      rcases hbytes with hsame | ⟨ms, haccepts, hrewritten⟩
      · exact .inr (.inr (.inl hsame))
      · cases haccepts.unique Transcode.accepts_notedArchive
        exact .inr (.inr (.inr hrewritten))
  · rintro rfl
    have hold : oldCache.tree.find? ["cache", "multilib.files"] = none := by decide
    obtain ⟨hwhole, -⟩ := hk k multilib (by decide)
    rcases hwhole with hnone | hbefore | ⟨bytes, ⟨server, hserver, _, -, -, hsent⟩, hbytes⟩
    · exact .inl hnone
    · exact .inl (hbefore.trans hold)
    · obtain rfl : server = "http://mirror" := by simpa [multilib] using hserver
      obtain rfl : bytes = brokenArchive :=
        eq_of_webAnswer_flaky ofText_multilib (by decide +kernel) rfl hsent
      rcases hbytes with hsame | ⟨ms, haccepts, -⟩
      · exact .inr hsame
      · exact absurd haccepts (Transcode.not_accepts_brokenArchive ms)

end FileListCache.Sync
