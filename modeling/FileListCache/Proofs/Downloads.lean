/-
  FileListCache.Proofs.Downloads

  What asking servers for a list comes to. Whatever happens, every tree on the way is a snapshot
  in the sense of the invariant. On a disk that refuses nothing, which server has the last word
  is decided by what the servers send (`Sync.Asked`), and those who watch are told of every
  address that was tried (`World.Tells`).
-/

import FileListCache.Sync
import FileListCache.Proofs.Fetching
import FileListCache.Proofs.Snapshots
import FileListCache.Proofs.Utterances

namespace FileListCache

open Archive (Member)
open Disk (Aims locate)
open Fetcher (Landing IsClear)
open FileListCache.Tree (Step)
open World (Works Same Takes Via)

/-! ## What watchers are told -/

/-- The address that was tried, if the event tells of one. -/
def Event.attempt? : Event → Option String
  | .mirrorFailed _ url _ | .downloaded _ url => some url
  | _ => none

/-- What events tell of one repository: the addresses that were tried, and how it ended. -/
structure Told (name : String) (urls : List String) (endings es : List Event) : Prop where
  attempts : (Collector.eventsFor ⟨es⟩ name).filterMap Event.attempt? = urls
  endings : (Collector.eventsFor ⟨es⟩ name).filter Event.isTerminal = endings

section Events

variable {name : String} {urls urls' : List String} {endings endings' es es' : List Event}

theorem Told.append (h : Told name urls endings es) (h' : Told name urls' endings' es') :
    Told name (urls ++ urls') (endings ++ endings') (es ++ es') := by
  constructor
  · rw [Collector.eventsFor, List.filter_append, List.filterMap_append]
    exact congrArg₂ _ h.attempts h'.attempts
  · rw [Collector.eventsFor, List.filter_append, List.filter_append]
    exact congrArg₂ _ h.endings h'.endings

/-- Progress tells of no address and no end. -/
theorem told_of_isProgress (h : ∀ e ∈ es, e.IsProgress) : Told name [] [] es := by
  constructor
  · rw [List.filterMap_eq_nil_iff]
    intro e he
    have hprogress := h e (List.mem_of_mem_filter he)
    cases e <;> first | rfl | exact hprogress.elim
  · rw [List.filter_eq_nil_iff]
    intro e he
    have hprogress := h e (List.mem_of_mem_filter he)
    cases e <;> first | exact Bool.false_ne_true | exact hprogress.elim

theorem told_singleton (e : Event) :
    Told e.repo e.attempt?.toList ([e].filter Event.isTerminal) [e] := by
  have hself : Collector.eventsFor ⟨[e]⟩ e.repo = [e] := by simp [Collector.eventsFor]
  constructor
  · rw [hself]
    cases h : e.attempt? <;> simp [h]
  · rw [hself]

theorem told_singleton_of_ne {e : Event} (h : name ≠ e.repo) : Told name [] [] [e] := by
  have hother : Collector.eventsFor ⟨[e]⟩ name = [] := by simp [Collector.eventsFor, h.symm]
  constructor <;> rw [hother] <;> rfl

end Events

/-- Between two worlds those who watch were told of one repository, and of others at most
progress. -/
def World.Tells (name : String) (urls : List String) (endings : List Event) (w w' : World) :
    Prop :=
  ∃ es, w'.events = w.events ++ es ∧ Told name urls endings es ∧
    ∀ other, other ≠ name → Told other [] [] es

section Tells

variable {name : String} {urls urls' : List String} {endings endings' : List Event}
  {w w' w'' : World}

theorem World.Tells.trans (h : World.Tells name urls endings w w')
    (h' : World.Tells name urls' endings' w' w'') :
    World.Tells name (urls ++ urls') (endings ++ endings') w w'' := by
  obtain ⟨es, hes, htold, hothers⟩ := h
  obtain ⟨es', hes', htold', hothers'⟩ := h'
  refine ⟨es ++ es', ?_, htold.append htold', fun other hne => ?_⟩
  · rw [hes', hes, List.append_assoc]
  · exact (hothers other hne).append (hothers' other hne)

theorem World.Works.tells {S : Step → Prop} (h : Works S w w') : World.Tells name [] [] w w' := by
  obtain ⟨-, es, hes, hprogress⟩ := h
  exact ⟨es, hes, told_of_isProgress hprogress, fun _ _ => told_of_isProgress hprogress⟩

theorem World.Same.tells (h : Same w w') : World.Tells name [] [] w w' :=
  (h.works (S := fun _ => False)).tells

theorem World.Takes.tells {s : Step} (h : Takes s w w') : World.Tells name [] [] w w' :=
  (h.works (S := fun _ => True) trivial).tells

theorem tells_emit (w : World) (e : Event) :
    World.Tells e.repo e.attempt?.toList ([e].filter Event.isTerminal) w
      ((World.emit e).run w).2 :=
  ⟨[e], rfl, told_singleton e, fun _ hne => told_singleton_of_ne hne⟩

end Tells

namespace Fetcher

/-- Reporting progress asks no server for anything. -/
def AsksNothing (f : Fetcher) : Prop :=
  ∀ p (w : World), ((f.onProgress p).run w).2.requests = w.requests

/-- What servers were asked is still on record after a fetch. -/
theorem fetch_asked {h : Host} {f : Fetcher} (hf : f.IsPassive) (hasks : f.AsksNothing)
    (url filename : String) (w : World) :
    Ends w (f.fetch h url filename) fun _ w' => w.requests <+: w'.requests := by
  have hreports (current total : Nat) (w : World) :
      w.Uttered Event.IsProgress ((f.onProgress ⟨filename, current, total⟩).run w).2 :=
    ⟨(hf _ w).events, hasks _ w ▸ List.prefix_rfl⟩
  exact ends_imp (utters_fetch hreports url w) fun _ _ hr => hr.asked

end Fetcher

namespace Sync

variable {h : Host} {t₀ t : Tree} {g : Download.Goal} {c : Location} {repos : List Repository}
  {repo : Repository} {respond : String → List Http.Request → Option Http.Body} {f : Fetcher}
  {sent : String → Bytes → Prop} {w₀ w : World} {server : String} {bytes : Bytes}

/-! ## Paths during a run -/

/-- The system refuses nothing, at most files stand in the places of the lists too, and it does not
matter to what servers send which requests came before. -/
structure IsCalm (h : Host) (t : Tree) (c : Location) (repos : List Repository)
    (respond : String → List Http.Request → Option Http.Body) : Prop where
  steady : h.IsSteady
  leaf : ∀ repo ∈ repos, t.IsLeaf (Role.list.place c repo.name)
  bare : ∀ repo ∈ repos, t.IsBare (Role.list.place c repo.name)
  alike : ∀ url before before', respond url before = respond url before'

/-- The server's answer is whole whenever it is asked, and the list can be put into the cache. -/
structure Delivers (h : Host) (t : Tree) (g : Download.Goal) (c : Location)
    (respond : String → List Http.Request → Option Http.Body) (repo : Repository)
    (server : String) (bytes : Bytes) : Prop where
  clear : IsClear h t (Role.part.path g.cache repo.name) (Role.list.path g.cache repo.name)
    (Role.part.place c repo.name) (Role.list.place c repo.name)
  answer : ∀ before, respond (g.url repo server) before = some ⟨bytes, none⟩

/-- What a server sent once it sends always. -/
theorem IsCalm.delivers {before : List Http.Request} (hc : IsCalm h t₀ c repos respond)
    (hclear : IsClear h t (Role.part.path g.cache repo.name) (Role.list.path g.cache repo.name)
      (Role.part.place c repo.name) (Role.list.place c repo.name))
    (hanswer : respond (g.url repo server) before = some ⟨bytes, none⟩) :
    Delivers h t g c respond repo server bytes :=
  ⟨hclear, fun _ => (hc.alike _ _ _).trans hanswer⟩

theorem Setting.aims (hs : Setting h t₀ g c repos) (hrepo : repo ∈ repos) (a : Role) :
    Aims h t₀ (a.path g.cache repo.name) (a.place c repo.name) :=
  Role.aims hs.cache hs.directory (hs.noSlash repo hrepo) a

/-- A file of a repository can be found if its path and its name are not too long. -/
theorem Setting.locate_iff (hs : Setting h t₀ g c repos) (hrepo : repo ∈ repos) (a : Role) :
    locate h t₀ false (a.path g.cache repo.name) = .ok (a.place c repo.name) ↔
      Disk.Sayable (a.path g.cache repo.name) (repo.name ++ a.suffix) := by
  have hslash := hs.noSlash repo hrepo
  have hends := Role.endsIn (Disk.cache_ne_empty hs.cache) hslash a
  constructor
  · intro hl
    exact ((Disk.locate_endsIn hends).1 hl).1
  · intro hsay
    have hlooks := Disk.looksIn_join hs.cache hs.directory (Role.slash_notMem hslash a)
    exact (Disk.locate_endsIn hends).2 ⟨hsay, c, hlooks, rfl⟩

theorem Setting.landing (hs : Setting h t₀ g c repos) (hrepo : repo ∈ repos)
    (hk : Snapshot t₀ g c repos sent t) :
    Landing h t (Role.part.path g.cache repo.name) (Role.list.path g.cache repo.name)
      (Role.part.place c repo.name) (Role.list.place c repo.name) where
  part := (hs.aims hrepo .part).fades hk.fades
  output := (hs.aims hrepo .list).fades hk.fades
  apart := Role.apart (.inr (by decide))
  leaf := hk.leaf repo hrepo .part (by decide)

/-- On a calm disk all paths go on leading where they led. -/
theorem Snapshot.alike (hk : Snapshot t₀ g c repos sent t) (hs : Setting h t₀ g c repos)
    (hc : IsCalm h t₀ c repos respond) : t₀.Alike t := by
  refine ⟨hk.fades, fun l => ?_⟩
  -- Outside of the run's own files nothing has changed; in their places stood at most files.
  by_cases hl : IsOwn c repos l
  · obtain ⟨repo, hrepo, a, r, rfl⟩ := hl
    have hleaf : t₀.IsLeaf (a.place c repo.name) := by
      by_cases ha : a = .list
      · exact ha ▸ hc.leaf repo hrepo
      · exact hs.leaf repo hrepo a ha
    have hbare : t₀.IsBare (a.place c repo.name) := by
      by_cases ha : a = .list
      · exact ha ▸ hc.bare repo hrepo
      · exact hs.bare repo hrepo a ha
    by_cases hr : r = []
    · rw [hr, List.append_nil]
      exact .inr hleaf.isDeadEnd
    · exact .inr (Tree.isDeadEnd_of_none (hbare r hr))
  · exact .inl (hk.frame l hl).symm

/-- On a calm disk a list is never a directory. -/
theorem Snapshot.noDirectory (hk : Snapshot t₀ g c repos sent t)
    (hc : IsCalm h t₀ c repos respond) (hrepo : repo ∈ repos) :
    t.find? (Role.list.place c repo.name) ≠ some .directory := by
  rcases hk.entry repo hrepo with he | he | ⟨bytes, -, he | ⟨ms, -, he⟩⟩
  · simp [he]
  · rw [he]
    exact (hc.leaf repo hrepo).isDeadEnd.1
  · simp [he]
  · simp [he]

/-- What stands in the way of a list at one moment of a calm run does so at every moment. -/
theorem Snapshot.isClear_iff (hk : Snapshot t₀ g c repos sent t)
    (hs : Setting h t₀ g c repos) (hc : IsCalm h t₀ c repos respond) (hrepo : repo ∈ repos) :
    IsClear h t (Role.part.path g.cache repo.name) (Role.list.path g.cache repo.name)
        (Role.part.place c repo.name) (Role.list.place c repo.name) ↔
      IsClear h t₀ (Role.part.path g.cache repo.name) (Role.list.path g.cache repo.name)
        (Role.part.place c repo.name) (Role.list.place c repo.name) := by
  have halike := hk.alike hs hc
  have haims (a : Role) := hs.aims hrepo a
  constructor
  · intro hclear
    exact ⟨((haims _).fades hk.fades).alike halike.symm hclear.part,
      ((haims _).fades hk.fades).alike halike.symm hclear.output,
      (hc.leaf repo hrepo).isDeadEnd.1⟩
  · intro hclear
    exact ⟨(haims _).alike halike hclear.part, (haims _).alike halike hclear.output,
      hk.noDirectory hc hrepo⟩

theorem Snapshot.delivers_iff (hk : Snapshot t₀ g c repos sent t)
    (hs : Setting h t₀ g c repos) (hc : IsCalm h t₀ c repos respond) (hrepo : repo ∈ repos) :
    Delivers h t g c respond repo server bytes ↔ Delivers h t₀ g c respond repo server bytes :=
  ⟨fun hd => ⟨(hk.isClear_iff hs hc hrepo).1 hd.clear, hd.answer⟩,
    fun hd => ⟨(hk.isClear_iff hs hc hrepo).2 hd.clear, hd.answer⟩⟩

/-! ## Snapshots on the way -/

section Ways

variable {w' : World} {a : Role} (hrepo : repo ∈ repos)
  (hk : Snapshot t₀ g c repos sent w.tree)
include hrepo hk

theorem via_of_fills (ha : a ≠ .list) (hw : Works (Step.Fills (a.place c repo.name)) w w') :
    Via (Snapshot t₀ g c repos sent) w w' :=
  hw.via (fun _ _ ht hs => ht.fills hrepo ha hs) hk

theorem via_of_clears (hw : Works (Step.Clears (a.place c repo.name)) w w') :
    Via (Snapshot t₀ g c repos sent) w w' :=
  hw.via (fun _ _ ht hs => ht.clears hrepo hs) hk

end Ways

/-! ## Downloads -/

/-- One server is asked for the list. -/
theorem fetch_ends (hs : Setting h t₀ g c repos) (hrepo : repo ∈ repos) (hf : f.IsPassive)
    (hcache : f.cache = g.cache)
    (hans : ∀ server ∈ repo.servers,
      f.Answers h (AgreesOff c repos t₀) (g.url repo server) (respond (g.url repo server)))
    (hserver : server ∈ repo.servers) (hk : Snapshot t₀ g c repos sent w.tree)
    (hsent : ∀ bytes, respond (g.url repo server) w.requests = some ⟨bytes, none⟩ →
      sent (g.url repo server) bytes) :
    Ends w (f.fetch h (g.url repo server) repo.fileName) fun r w' =>
      Via (Snapshot t₀ g c repos sent) w w' ∧ World.Tells repo.name [] [] w w' ∧
      (∀ path, r = .ok path → path = g.path repo ∧ ∃ bytes,
        IsClear h w.tree (Role.part.path g.cache repo.name) (Role.list.path g.cache repo.name)
          (Role.part.place c repo.name) (Role.list.place c repo.name) ∧
        respond (g.url repo server) w.requests = some ⟨bytes, none⟩ ∧
        w'.tree.find? (Role.list.place c repo.name) = some (.file bytes) ∧
        w'.tree.find? (Role.part.place c repo.name) = none) ∧
      (∀ e, r = .error e →
        w'.tree.find? (Role.list.place c repo.name) =
          w.tree.find? (Role.list.place c repo.name) ∧
        (h.IsSteady → ∀ bytes, ¬ Delivers h w.tree g c respond repo server bytes)) := by
  have hpart : f.partPath repo.fileName = Role.part.path g.cache repo.name := by
    rw [Role.path_part, hcache]
  have houtput : f.outputPath repo.fileName = Role.list.path g.cache repo.name := by
    rw [Role.path_output, hcache]
  have hland := hs.landing hrepo hk
  rw [← hpart, ← houtput] at hland
  have hR (t : Tree) (s : Step) (ht : AgreesOff c repos t₀ t)
      (hfills : s.Fills (Role.part.place c repo.name)) : AgreesOff c repos t₀ (t.apply s) := by
    intro l hl
    have hne : l ≠ Role.part.place c repo.name := by
      intro he
      exact hl ⟨repo, hrepo, .part, he ▸ List.prefix_rfl⟩
    rw [hfills.find?_eq place_ne_nil hne, ht l hl]
  have hfetch := Fetcher.fetch_ends hland hf hR hk.frame (hans server hserver)
  rw [hpart, houtput] at hfetch
  refine ends_imp hfetch ?_
  intro r w' hr
  obtain ⟨hok, herr⟩ := hr
  cases r with
  | ok path =>
    -- The part was filled, and one move put all of it in the place of the list.
    obtain ⟨rfl, w₁, bytes, hbytes, hfills, hfile, hclear, hmoved⟩ := hok path rfl
    have hvia₁ := via_of_fills hrepo hk (by decide) hfills
    have hwhole : IsWhole g sent repo (t₀.find? (Role.list.place c repo.name))
        (some (.file bytes)) :=
      .inr (.inr ⟨bytes, ⟨server, hserver, hsent bytes hbytes⟩, .inl rfl⟩)
    have hk' := hvia₁.last.move hs.distinct hrepo (by decide) hfile hwhole
    rw [← hmoved.tree] at hk'
    refine ⟨hvia₁.trans (hmoved.via hvia₁.last hk'), hfills.tells.trans hmoved.tells, ?_,
      by rintro _ ⟨⟩⟩
    intro path he
    cases he
    have hapart : Tree.Apart (Role.part.place c repo.name) (Role.list.place c repo.name) :=
      Role.apart (.inr (by decide))
    refine ⟨rfl, bytes, hclear, hbytes, ?_, ?_⟩
    · rw [hmoved.tree, Tree.find?_move_target hapart, hfile]
    · rw [hmoved.tree, Tree.find?_move_source hapart List.prefix_rfl]
  | error e =>
    -- Only the part was touched, and it was cleared again.
    obtain ⟨⟨w₁, hfills, hclears⟩, hreason⟩ := herr e rfl
    have hvia₁ := via_of_fills hrepo hk (by decide) hfills
    have hvia₂ := via_of_clears hrepo hvia₁.last hclears
    refine ⟨hvia₁.trans hvia₂, hfills.tells.trans hclears.tells, by rintro _ ⟨⟩, ?_⟩
    intro e' he
    cases he
    refine ⟨?_, fun hh bytes hd => hreason hh hd.clear bytes (hd.answer _)⟩
    have hpre : ¬ Role.part.place c repo.name <+: Role.list.place c repo.name :=
      (Role.apart (.inr (by decide))).1
    rw [hclears.find?_of_clears place_ne_nil hpre,
      hfills.find?_of_fills place_ne_nil (list_ne_place (by decide))]

/-- What asking servers in their order comes to, in a run that started in the world `w₀`: the first
that delivers has the last word. -/
inductive Asked (h : Host) (w₀ : World) (g : Download.Goal) (c : Location)
    (repos : List Repository) (respond : String → List Http.Request → Option Http.Body)
    (repo : Repository) (servers : List String) (w w' : World) : Except SyncError String → Prop
  | delivered (before : List String) {after : List String} {server : String} {bytes : Bytes}
      (hservers : servers = before ++ server :: after)
      (hsent : Sent respond w₀ w' (g.url repo server) bytes)
      (hlist : w'.tree.find? (Role.list.place c repo.name) = some (.file bytes))
      (hpart : w'.tree.find? (Role.part.place c repo.name) = none)
      (htells : World.Tells repo.name ((before ++ [server]).map (g.url repo)) [] w w')
      (hcalm : IsCalm h w₀.tree c repos respond →
        Delivers h w₀.tree g c respond repo server bytes ∧
        ∀ s ∈ before, ∀ b, ¬ Delivers h w₀.tree g c respond repo s b) :
      Asked h w₀ g c repos respond repo servers w w' (.ok (g.path repo))
  | failed
      (htells : World.Tells repo.name (servers.map (g.url repo)) [] w w')
      (hvacant : IsCalm h w₀.tree c repos respond →
        (servers = [] → w.tree.find? (Role.list.place c repo.name) = none) →
        locate h w₀.tree false (g.path repo) = .ok (Role.list.place c repo.name) →
          w'.tree.find? (Role.list.place c repo.name) = none)
      (hcalm : IsCalm h w₀.tree c repos respond →
        ∀ s ∈ servers, ∀ b, ¬ Delivers h w₀.tree g c respond repo s b) :
      Asked h w₀ g c repos respond repo servers w w'
        (.error (.allMirrorsFailed repo.name repo.servers.length))

theorem Asked.of_quiet {servers : List String} {w₁ w' : World} {r : Except SyncError String}
    (ha : Asked h w₀ g c repos respond repo servers w₁ w' r)
    (htells : World.Tells repo.name [] [] w w₁) (htree : w₁.tree = w.tree) :
    Asked h w₀ g c repos respond repo servers w w' r := by
  cases ha with
  | delivered before hservers hsent hlist hpart htells' hcalm =>
    exact .delivered before hservers hsent hlist hpart (htells.trans htells') hcalm
  | failed htells' hvacant hcalm =>
    refine .failed (htells.trans htells') (fun hc hnone => ?_) hcalm
    rw [← htree] at hnone
    exact hvacant hc hnone

/-- A server in front that delivers nothing leaves the word to those behind it. -/
theorem Asked.after_failure {servers : List String} {w₁ w' : World} {r : Except SyncError String}
    (ha : Asked h w₀ g c repos respond repo servers w₁ w' r)
    (htells : World.Tells repo.name [g.url repo server] [] w w₁)
    (hnone : IsCalm h w₀.tree c repos respond →
      locate h w₀.tree false (g.path repo) = .ok (Role.list.place c repo.name) →
        w₁.tree.find? (Role.list.place c repo.name) = none)
    (hnot : IsCalm h w₀.tree c repos respond →
      ∀ b, ¬ Delivers h w₀.tree g c respond repo server b) :
    Asked h w₀ g c repos respond repo (server :: servers) w w' r := by
  cases ha with
  | delivered before hrest hsent hlist hpart htells' hcalm =>
    refine .delivered (server :: before) (by rw [hrest]; rfl) hsent hlist hpart
      (htells.trans htells') fun hc => ?_
    obtain ⟨hdelivers, hbefore⟩ := hcalm hc
    refine ⟨hdelivers, ?_⟩
    simpa using ⟨hnot hc, hbefore⟩
  | failed htells' hvacant hcalm =>
    refine .failed (htells.trans htells') (fun hc _ hloc => ?_) fun hc => ?_
    · exact hvacant hc (fun _ => hnone hc hloc) hloc
    · simpa using ⟨hnot hc, hcalm hc⟩

section Downloads

variable (hs : Setting h w₀.tree g c repos) (hrepo : repo ∈ repos) (hf : f.IsPassive)
  (hasks : f.AsksNothing) (hcache : f.cache = g.cache)
  (hans : ∀ server ∈ repo.servers,
    f.Answers h (AgreesOff c repos w₀.tree) (g.url repo server) (respond (g.url repo server)))
include hs hrepo hf hasks hcache hans

theorem fromServers_ends {σ : Type} (servers : List String)
    (hservers : ∀ s ∈ servers, s ∈ repo.servers) (w : World) (s : σ)
    (hway : Way w₀ g c repos respond w) :
    Settles w s (Download.fromServers h (f.toFetch h) g repo servers).run fun r _ w' =>
      Way w₀ g c repos respond w' ∧ Asked h w₀ g c repos respond repo servers w w' r := by
  induction servers generalizing w s with
  | nil =>
    refine settles_pure ⟨hway, ?_⟩
    exact .failed (Same.refl w).tells (fun _ hnone _ => hnone rfl) (by simp)
  | cons server servers ih =>
    unfold Download.fromServers
    dsimp only
    have haims : Aims h w.tree (g.path repo) (Role.list.place c repo.name) :=
      (hs.aims hrepo .list).fades hway.snapshot.fades
    -- The old list goes before the server is asked.
    apply Files.settles_noted
    refine ends_imp (ends_and (Files.remove_ends haims)
      (Files.utters_remove (P := fun _ => False) _ w)) ?_
    intro r w₁ hremove w₂ hnoted₂
    obtain ⟨⟨hclears, hlocated, -⟩, hsilent⟩ := hremove
    have hway₁ := hway.further hsilent.asked (via_of_clears hrepo hway.snapshot hclears)
    apply settles_note_bind
    intro w₃ hnoted₃
    have hnoted₃ := hnoted₂.trans hnoted₃
    have hsame₃ := hnoted₃.toSame
    have hway₃ := hway₁.of_after_nil hsame₃.after hnoted₃.requests
    have htells₃ : World.Tells repo.name [] [] w w₃ := hclears.tells.trans hsame₃.tells
    have hserver : server ∈ repo.servers := hservers server List.mem_cons_self
    apply settles_run_lift_bind
    refine settles_run_attempt (ends_imp (ends_and
      (fetch_ends hs hrepo hf hcache hans hserver hway₃.snapshot fun _ => hway₃.sends)
      (Fetcher.fetch_asked hf hasks _ _ w₃)) ?_)
    intro r w₄ hfetch
    obtain ⟨⟨hvia₄, htells₄, hok, herr⟩, hasked₄⟩ := hfetch
    have hway₄ := hway₃.further hasked₄ hvia₄
    have htells₄ := htells₃.trans htells₄
    cases r with
    | ok path =>
      obtain ⟨rfl, bytes, hclear, hanswer, hlist, hpart⟩ := hok path rfl
      refine settles_run_tell_bind (settles_pure ⟨hway₄.emit _, ?_⟩)
      refine .delivered [] rfl ((hway₃.sends hanswer).mono hasked₄) hlist hpart
        (htells₄.trans (tells_emit w₄ (.downloaded repo.name (g.url repo server)))) fun hc => ?_
      exact ⟨(hway₃.snapshot.delivers_iff hs hc hrepo).1 (hc.delivers hclear hanswer), by simp⟩
    | error e =>
      obtain ⟨hlist, hfails⟩ := herr e rfl
      apply settles_note_bind
      intro w₅ hnoted₅
      apply settles_note_bind
      intro w₆ hnoted₆
      have hnoted₆ := hnoted₅.trans hnoted₆
      have hsame₆ := hnoted₆.toSame
      have hway₆ := hway₄.of_after_nil hsame₆.after hnoted₆.requests
      apply settles_run_tell_bind
      have hway₇ := hway₆.emit (.mirrorFailed repo.name (g.url repo server) e.message)
      have htells₇ := (htells₄.trans hsame₆.tells).trans
        (tells_emit w₆ (.mirrorFailed repo.name (g.url repo server) e.message))
      -- The other servers are asked in the cache that this one left.
      refine settles_imp (ih (fun s' hs' => hservers s' (List.mem_cons_of_mem _ hs')) _ _ hway₇) ?_
      intro r s' w' hrest
      obtain ⟨hway', hasked⟩ := hrest
      refine ⟨hway', hasked.after_failure htells₇ (fun hc hloc => ?_) fun hc b hd => ?_⟩
      · -- The old list was removed before, and a failed fetch brings nothing in its place.
        have hloc' := (hs.aims hrepo .list).alike (hway.snapshot.alike hs hc) hloc
        change w₆.tree.find? (Role.list.place c repo.name) = none
        rw [hsame₆.tree, hlist, hsame₃.tree]
        exact hlocated hloc' (Disk.removable_of_isSteady hc.steady)
      · exact hfails hc.steady b ((hway₃.snapshot.delivers_iff hs hc hrepo).2 hd)

/-- Downloading asks all servers, if there are any. -/
theorem download_ends {σ : Type} (w : World) (s : σ) (hway : Way w₀ g c repos respond w) :
    Settles w s (Download.run h (f.toFetch h) g repo).run fun r _ w' =>
      Way w₀ g c repos respond w' ∧
        if repo.servers = [] then
          r = .error (.noServers repo.name) ∧ World.Tells repo.name [] [] w w'
        else Asked h w₀ g c repos respond repo repo.servers w w' r := by
  unfold Download.run
  apply settles_run_tell_bind
  have hway₁ := hway.emit (.downloading repo.name)
  have htells := tells_emit w (.downloading repo.name)
  by_cases hservers : repo.servers = []
  · rw [if_pos (by simp [hservers])]
    refine settles_pure ⟨hway₁, ?_⟩
    rw [if_pos hservers]
    exact ⟨rfl, htells⟩
  · rw [if_neg (by simpa using hservers)]
    refine settles_imp (fromServers_ends hs hrepo hf hasks hcache hans repo.servers
      (fun _ hs => hs) _ s hway₁) ?_
    intro r _ w' hr
    obtain ⟨hway', hasked⟩ := hr
    refine ⟨hway', ?_⟩
    rw [if_neg hservers]
    exact hasked.of_quiet htells rfl

end Downloads

end Sync

end FileListCache
