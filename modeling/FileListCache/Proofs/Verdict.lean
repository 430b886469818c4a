/-
  FileListCache.Proofs.Verdict

  A sync command is checked as a whole before anything is done. `Program.Fault` lists what can be
  wrong, one case for each check; where one of them holds the run ends with status 1 and has left
  nothing but messages, and where none does every selected repository is attempted and the status
  says whether all of them were synced (`Program.run_verdict`).

  The list is complete because a preparation fails for no other reason (`fault_of_prepared`,
  `fault_of_cache`), and no case of it is idle because each makes the preparation fail
  (`not_fault`).
-/

import FileListCache.Proofs.Confinement
import FileListCache.Proofs.Preparation
import FileListCache.Proofs.Stories

namespace FileListCache

open World (Untouched)

/-! ## What events say -/

namespace Sync

variable {h : Host} {w : World} {client : Http.Client} {interactive : Bool} {g : Download.Goal}
  {repo : Repository} {repos : List Repository} {es : List Event} {last : Event}
  {blocks : List (List Event)}

/-- The events say that a repository was synced. -/
def tellsSynced (es : List Event) : Bool := !(syncedIn es).isEmpty

/-- A block says of its repository that it was synced, or that it was not. -/
theorem Block.synced_or_failed (hb : Block g interactive repo es last) :
    (syncedIn es = [repo.name] ∧ failedIn es = []) ∨
      syncedIn es = [] ∧ ∃ error, failedIn es = [(repo.name, error)] := by
  rw [← syncedIn_filter, ← failedIn_filter, hb.ends_once.1]
  cases hb with
  | undelivered => exact .inr ⟨rfl, _, rfl⟩
  | @delivered _ o =>
    cases o with
    | ok entries => exact .inl ⟨rfl, rfl⟩
    | error e => exact .inr ⟨rfl, _, rfl⟩

/-- The names that blocks give for failures are those of the repositories that they do not say were
synced, in the same order. -/
theorem failedIn_blocks (hblocks : List.Forall₂
      (fun repo es => ∃ last, Block g interactive repo es last) repos blocks) :
    (failedIn blocks.flatten).map (·.1) =
      ((repos.zip blocks).filter fun x => !tellsSynced x.2).map (·.1.name) := by
  induction hblocks with
  | nil => rfl
  | @cons repo es repos blocks hblock _ ih =>
    obtain ⟨last, hblock⟩ := hblock
    have hflatten : failedIn (es :: blocks).flatten = failedIn es ++ failedIn blocks.flatten := by
      rw [List.flatten_cons]
      exact List.filterMap_append
    rw [hflatten, List.map_append, ih, List.zip_cons_cons]
    rcases hblock.synced_or_failed with ⟨hsynced, hfailed⟩ | ⟨hsynced, error, hfailed⟩
    · simp [tellsSynced, hsynced, hfailed]
    · simp [tellsSynced, hsynced, hfailed]

/-- The events of a run are one block for each of the repositories, in their order. -/
structure Attempted (g : Download.Goal) (interactive : Bool) (repos : List Repository)
    (blocks : List (List Event)) (w w' : World) : Prop where
  each : List.Forall₂ (fun repo es => ∃ last, Block g interactive repo es last) repos blocks
  events : w'.events = w.events ++ blocks.flatten

/-- A cache that cannot be used ends the run before anything happens. -/
theorem run_refused {e : FileError}
    (hcheck : Files.ensureWritable h w.tree g.cache = .error e) :
    w.attempt (run h client interactive g repos) = (.error (.cacheAccess e), w) := by
  have hrefused :
      Settles w () (runWith h ((fetcher client g interactive).toFetch h) g repos).run _ :=
    runWith_refused () hcheck
  exact Prod.ext hrefused.1 hrefused.2.2

/-- In one that can, each repository is attempted. -/
theorem run_blocks (hcheck : Files.ensureWritable h w.tree g.cache = .ok ()) :
    Ends w (run h client interactive g repos) fun r w' => ∃ report blocks, r = .ok report ∧
      Attempted g interactive repos blocks w w' ∧ report.failed = failedIn blocks.flatten := by
  have hall := runWith_admitted (Q := fun r _ w' => ∃ report blocks, r = .ok report ∧
      Attempted g interactive repos blocks w w' ∧ report.failed = failedIn blocks.flatten) hcheck
    (settles_imp (all_story (keepsToProgress_fetcher h client g interactive) w ())
      fun report _ w' hr => by
        obtain ⟨blocks, hevents, hblocks, -, hfailed⟩ := hr
        exact ⟨report, blocks, rfl, ⟨hblocks, hevents⟩, hfailed⟩)
  exact hall

end Sync

namespace Program

open CommandLine (Arguments)

variable {h : Host} {w : World} {t : Tree} {a : Arguments} {s : Settings} {p : Plan}
  {names words : List String}

/-! ## Faults -/

/-- What can be wrong with a sync command before anything is done. -/
inductive Fault (h : Host) (t : Tree) (a : Arguments) (names : List String) : Prop
  /-- The path of the settings file does not resolve. -/
  | settingsPath {path : String} {e : PathError} (hgiven : a.config = some path)
      (hpath : PathNotation.resolve h path = .error e)
  /-- There are settings that cannot be read. -/
  | settingsUnreadable {path : String} {e : IoError} (hpath : settingsPath h a = .ok path)
      (hread : Disk.reading h t path = .error e) (hthere : ¬ e.isMissing)
  /-- What can be read is no text, no document, or gives a setting a value that it cannot have. -/
  | settingsInvalid {path : String} {bytes : Bytes} (hpath : settingsPath h a = .ok path)
      (hread : Disk.reading h t path = .ok bytes)
      (hbad : ∀ text s, Utf8.strict? bytes = some text → Settings.ofToml text ≠ .ok s)
  | proxy {s : Settings} {proxy : String} (hs : settingsIn h t a = .ok s)
      (hgiven : s.proxy = some proxy) (hbad : Http.Address.isProxy proxy = false)
  | header {lines : List String} {line : String} (hgiven : a.headers = some lines)
      (hline : line ∈ lines) (hbad : Http.HeaderLine.parse? line = none)
  /-- The path of the mirror list does not resolve, so that it cannot be read either. -/
  | mirrorListPath {s : Settings} {e : PathError} (hs : settingsIn h t a = .ok s)
      (hpath : PathNotation.resolve h s.mirrorConfig = .error e)
  | mirrorListUnreadable {s : Settings} {path : String} {e : IoError}
      (hs : settingsIn h t a = .ok s) (hpath : PathNotation.resolve h s.mirrorConfig = .ok path)
      (hread : Disk.reading h t path = .error e)
  | unknownName {s : Settings} {path name : String} {bytes : Bytes}
      (hs : settingsIn h t a = .ok s) (hpath : PathNotation.resolve h s.mirrorConfig = .ok path)
      (hread : Disk.reading h t path = .ok bytes) (hname : name ∈ names)
      (hunknown : ∀ r ∈ MirrorList.repositoriesOf h t bytes, r.name ≠ name)
  | cachePath {s : Settings} {e : ConfigError} (hs : settingsIn h t a = .ok s)
      (hpath : s.cacheDirectory h = .error e)
  /-- The cache is no directory in which files can be made. -/
  | cacheUnusable {s : Settings} {path : String} {e : FileError} (hs : settingsIn h t a = .ok s)
      (hpath : s.cacheDirectory h = .ok path) (hcheck : Files.ensureWritable h t path = .error e)

/-- Where there is a plan and its cache can be used, nothing is wrong. -/
theorem not_fault (hp : prepared h t a names = .ok p)
    (hcheck : Files.ensureWritable h t p.goal.cache = .ok ()) : ¬ Fault h t a names := by
  intro hfault
  obtain ⟨s, bytes, hplan⟩ := prepared_eq_ok.1 hp
  obtain ⟨hproxy, hheaders, -⟩ := of_client hplan.client
  -- What each case says of the settings contradicts what the plan was made of.
  have hsettings {s' : Settings} (hs : settingsIn h t a = .ok s') : s' = s :=
    Except.ok.inj (hs.symm.trans hplan.settings)
  obtain ⟨path, hpath, hoverridden⟩ := exists_of_bind_ok hplan.settings
  obtain ⟨s', hstored, -⟩ := exists_of_bind_ok hoverridden
  cases hfault with
  | settingsPath hgiven herr =>
    simp only [settingsPath, hgiven, herr] at hpath
    cases hpath
  | settingsUnreadable hpath' hread hthere =>
    cases hpath.symm.trans hpath'
    rw [Settings.stored_of_unreadable hread hthere] at hstored
    cases hstored
  | settingsInvalid hpath' hread hbad =>
    cases hpath.symm.trans hpath'
    rw [Settings.stored_of_bytes hread] at hstored
    split at hstored
    · cases hstored
    · rename_i text htext
      exact hbad text s' htext hstored
  | proxy hs hgiven hbad =>
    rw [hsettings hs] at hgiven
    simp [hproxy _ hgiven] at hbad
  | header hgiven hline hbad => exact hheaders _ hgiven _ hline hbad
  | mirrorListPath hs herr =>
    rw [hsettings hs] at herr
    cases herr.symm.trans hplan.mirrorConfig
  | mirrorListUnreadable hs hpath' herr =>
    rw [hsettings hs] at hpath'
    cases hpath'.symm.trans hplan.mirrorConfig
    cases herr.symm.trans hplan.content
  | unknownName hs hpath' hread hname hunknown =>
    rw [hsettings hs] at hpath'
    cases hpath'.symm.trans hplan.mirrorConfig
    cases hread.symm.trans hplan.content
    obtain ⟨r, hr, hrname⟩ := hplan.known _ hname
    exact hunknown r hr hrname
  | cachePath hs herr =>
    rw [hsettings hs] at herr
    cases herr.symm.trans hplan.cache
  | cacheUnusable hs hpath' herr =>
    rw [hsettings hs] at hpath'
    cases hpath'.symm.trans hplan.cache
    cases herr.symm.trans hcheck

/-- If there are no settings, their file is to blame. -/
theorem fault_of_settings {e : ConfigError} (he : settingsIn h t a = .error e) :
    Fault h t a names := by
  unfold settingsIn at he
  cases hpath : settingsPath h a with
  | error e' =>
    obtain ⟨path, e', hgiven, herr⟩ := unresolved_of_settingsPath hpath
    exact .settingsPath hgiven herr
  | ok path =>
    have hstored (s : Settings) : Settings.stored h t path ≠ .ok s := by
      intro hs
      rw [hpath] at he
      change (Settings.stored h t path >>= _) = _ at he
      rw [hs] at he
      cases he
    cases hread : Disk.reading h t path with
    | error e' =>
      by_cases hmissing : e'.isMissing
      · exact absurd (Settings.stored_of_missing hread hmissing) (hstored _)
      · exact .settingsUnreadable hpath hread hmissing
    | ok bytes =>
      refine .settingsInvalid hpath hread fun text s htext hs => hstored s ?_
      rw [Settings.stored_of_bytes hread, htext]
      exact hs

/-- If there is no plan for settings, one of the other checks has failed. -/
theorem fault_of_planIn {e : CommandError} (hs : settingsIn h t a = .ok s)
    (he : planIn h t a s names = .error e) : Fault h t a names := by
  cases hclient : client s a.headers with
  | error e' =>
    rcases of_client_error hclient with ⟨proxy, hgiven, hbad⟩ | ⟨lines, line, hgiven, hline, hbad⟩
    · exact .proxy hs hgiven hbad
    · exact .header hgiven hline hbad
  | ok c =>
    cases hmirror : PathNotation.resolve h s.mirrorConfig with
    | error e' => exact .mirrorListPath hs hmirror
    | ok path =>
      cases hread : Disk.reading h t path with
      | error e' => exact .mirrorListUnreadable hs hmirror hread
      | ok bytes =>
        have hlist : MirrorList.repositoriesAt h t path = .ok _ :=
          MirrorList.repositoriesAt_eq_ok.2 ⟨bytes, hread, rfl⟩
        cases hselect : Repository.select (MirrorList.repositoriesOf h t bytes) names with
        | error name =>
          obtain ⟨hname, hunknown⟩ := Repository.unknown_of_select hselect
          exact .unknownName hs hmirror hread hname hunknown
        | ok selection =>
          cases hcache : s.cacheDirectory h with
          | error e' => exact .cachePath hs hcache
          | ok cache =>
            have hplan : planIn h t a s names = .ok _ :=
              bind_of_ok hclient <| bind_of_ok (mapError_of_ok (mapError_of_ok hmirror)) <|
                bind_of_ok (mapError_of_ok hlist) <| bind_of_ok (mapError_of_ok hselect) <|
                  bind_of_ok (mapError_of_ok hcache) rfl
            cases hplan.symm.trans he

/-- There is no further reason for a preparation to fail. -/
theorem fault_of_prepared {e : CommandError} (he : prepared h t a names = .error e) :
    Fault h t a names := by
  unfold prepared at he
  cases hs : settingsIn h t a with
  | error e' => exact fault_of_settings hs
  | ok s =>
    rw [hs] at he
    exact fault_of_planIn hs he

theorem fault_of_cache {e : FileError} (hp : prepared h t a names = .ok p)
    (hcheck : Files.ensureWritable h t p.goal.cache = .error e) : Fault h t a names := by
  obtain ⟨s, bytes, hfollows⟩ := prepared_eq_ok.1 hp
  exact .cacheUnusable hfollows.settings hfollows.cache hcheck

/-! ## Verdicts -/

/-- The repositories that were not synced, as their blocks say. -/
def unsynced (repositories : List Repository) (blocks : List (List Event)) : List String :=
  ((repositories.zip blocks).filter fun x => !Sync.tellsSynced x.2).map (·.1.name)

/-- A command with a fault fails and leaves messages; one without attempts each repository of its
plan, and succeeds if none is left unsynced. -/
theorem execute_verdict (hquiet : w.tree.IsQuiet) (hcommand : a.command = .sync names) :
    Ends w (execute h a) fun r w' =>
      (Fault h w.tree a names → (∃ e, r = .error e) ∧ Untouched w w') ∧
      (¬ Fault h w.tree a names →
        ∃ (p : Plan) (s : Settings) (bytes : Bytes) (blocks : List (List Event)),
          p.Follows h w.tree a names s bytes ∧
          Sync.Attempted p.goal (isInteractive h a) p.repositories blocks w w' ∧
          r = if unsynced p.repositories blocks = [] then .ok ""
            else .error (.incomplete (unsynced p.repositories blocks))) := by
  apply ends_execute hquiet hcommand
  · intro e w' he hw'
    exact ⟨fun _ => ⟨⟨e, rfl⟩, hw'⟩, fun hsound => absurd (fault_of_prepared he) hsound⟩
  · intro p w₁ hp hw₁
    cases hcheck : Files.ensureWritable h w.tree p.goal.cache with
    | error e =>
      have hcheck₁ : Files.ensureWritable h w₁.tree p.goal.cache = .error e := by
        rw [hw₁.tree, hcheck]
      rw [ends_iff (Sync.run_refused hcheck₁)]
      intro w₂ hw₂
      exact ⟨fun _ => ⟨⟨_, rfl⟩, hw₁.trans hw₂⟩, fun hsound =>
        absurd (fault_of_cache hp hcheck) hsound⟩
    | ok u =>
      refine ends_imp (Sync.run_blocks (w := w₁) (by rw [hw₁.tree, hcheck])) ?_
      intro r w₂ hr w₃ hw₃
      obtain ⟨report, blocks, rfl, hall, hfailed⟩ := hr
      obtain ⟨s, bytes, hplan⟩ := prepared_eq_ok.1 hp
      refine ⟨fun hfault => absurd hfault (not_fault hp hcheck), fun _ =>
        ⟨p, s, bytes, blocks, hplan, ⟨hall.each, ?_⟩, ?_⟩⟩
      · rw [hw₃.events, hall.events, hw₁.events]
      · have hnames := Sync.failedIn_blocks hall.each
        rw [← hfailed] at hnames
        unfold verdict unsynced Sync.Report.isSuccess
        rw [← hnames]
        simp

/-- A sync command is checked as a whole before anything is done, and its status is faithful. If
anything is wrong, whichever of the checks it is that fails and however many of them do, the run
ends with status 1 and an error, and nothing but messages has been added to the world: no server
was asked, no step of the file system was taken, and no repository was begun. Otherwise each of
the repositories that the names select from the mirror list has its block of events, in the order
of the list; the status is 0 if every block says that its repository was synced, and else it is 1
with an error that names exactly the others, in that order. -/
theorem run_verdict (hquiet : w.tree.IsQuiet) (hwords : Arguments.ofWords words = .ok a)
    (hcommand : a.command = .sync names) :
    let o := ((run h words).run w).1
    let w' := ((run h words).run w).2
    (Fault h w.tree a names → o.status = 1 ∧ (∃ e, o.error = some e) ∧ Untouched w w') ∧
    (¬ Fault h w.tree a names →
      ∃ (p : Plan) (s : Settings) (bytes : Bytes) (blocks : List (List Event)),
      p.Follows h w.tree a names s bytes ∧
      Sync.Attempted p.goal (isInteractive h a) p.repositories blocks w w' ∧
      let failed := unsynced p.repositories blocks
      o.status = (if failed = [] then 0 else 1) ∧
      o.error = if failed = [] then none else some (.incomplete failed)) := by
  obtain ⟨htells, hworld⟩ := run_tells (h := h) (w := w) hwords
  obtain ⟨hfaulty, hsound⟩ := execute_verdict (h := h) hquiet hcommand
  dsimp only
  rw [hworld]
  refine ⟨fun hfault => ?_, fun hfault => ?_⟩
  · obtain ⟨⟨e, he⟩, hw⟩ := hfaulty hfault
    rw [he] at htells
    exact ⟨htells.1, ⟨e, htells.2.1⟩, hw⟩
  · obtain ⟨p, s, bytes, blocks, hplan, hall, hr⟩ := hsound hfault
    rw [hr] at htells
    refine ⟨p, s, bytes, blocks, hplan, hall, ?_⟩
    by_cases hnone : unsynced p.repositories blocks = []
    · rw [if_pos hnone] at htells
      simp only [hnone, if_true]
      exact ⟨htells.1, htells.2.1⟩
    · rw [if_neg hnone] at htells
      simp only [hnone, if_false]
      exact ⟨htells.1, htells.2.1⟩

/-- A mirror list of one repository that has no server. -/
def coreBytes : Bytes := "[core]".toList.map fun c => UInt8.ofNat c.toNat

/-- A command line that names all the files it needs. -/
def coreWords : List String :=
  ["-c", "/c", "--mirror-config", "/a", "--cache-path", "/", "sync"]

/-- What it says. -/
def coreArguments : Arguments where
  command := .sync []
  config := some "/c"
  mirrorConfig := some "/a"
  cachePath := some "/"

theorem prepared_core : prepared {} (Transcode.oneFile coreBytes).tree coreArguments [] =
    .ok ⟨{}, "/a", [⟨"core", []⟩], ⟨"/", "x86_64"⟩⟩ := by
  have hpath : settingsPath {} coreArguments = .ok "/c" := by decide +kernel
  refine prepared_eq_ok.2 ⟨_, coreBytes, settingsIn_oneFile hpath, rfl, by decide +kernel, ?_, ?_,
    by simp, by decide +kernel, by decide +kernel⟩
  · exact Disk.reading_eq_ok.2 ⟨_, Transcode.look_oneFile coreBytes, rfl⟩
  · decide +kernel

/-- A machine on which the account may change no directory. -/
def lockedHost : Host := { locked := fun _ => some .denied }

/-- The repository is attempted and named. Where the cache is locked nothing is done. -/
theorem run_verdict_core :
    ((run {} coreWords).run (Transcode.oneFile coreBytes)).1.status = 1 ∧
      ((run {} coreWords).run (Transcode.oneFile coreBytes)).1.error =
        some (.incomplete ["core"]) ∧
      ((run lockedHost coreWords).run (Transcode.oneFile coreBytes)).1.status = 1 ∧
      Untouched (Transcode.oneFile coreBytes)
        ((run lockedHost coreWords).run (Transcode.oneFile coreBytes)).2 := by
  have hwords : Arguments.ofWords coreWords = .ok coreArguments := by decide +kernel
  have hcheck : Files.ensureWritable {} (Transcode.oneFile coreBytes).tree "/" = .ok () :=
    Files.ensureWritable_eq_ok.2 ⟨[], Disk.locate_root _ _ _, rfl, rfl⟩
  have hquiet := Transcode.oneFile_isQuiet coreBytes
  obtain ⟨-, hsound⟩ := run_verdict (h := {}) hquiet hwords rfl
  obtain ⟨p, s, bytes, blocks, hplan, hall, hverdict⟩ := hsound (not_fault prepared_core hcheck)
  cases (prepared_eq_ok.2 ⟨s, bytes, hplan⟩).symm.trans prepared_core
  -- On the other machine the check of the cache fails.
  have hlocked : Files.ensureWritable lockedHost (Transcode.oneFile coreBytes).tree "/" =
      .error (.notWritable "/" .denied) :=
    Files.ensureWritable_of_locked (k := .denied) (Disk.locate_root _ _ _) rfl rfl
  have hpath : settingsPath lockedHost coreArguments = .ok "/c" := by decide +kernel
  have hfault : Fault lockedHost (Transcode.oneFile coreBytes).tree coreArguments [] :=
    .cacheUnusable (settingsIn_oneFile hpath) (by decide +kernel) hlocked
  obtain ⟨hrefused, -⟩ := run_verdict (h := lockedHost) hquiet hwords rfl
  obtain ⟨hstatus, -, huntouched⟩ := hrefused hfault
  -- On the first there is one block, and it tells of no server that could have delivered.
  cases hall.each with
  | cons hblock hnone =>
    cases hnone
    obtain ⟨last, hblock⟩ := hblock
    cases hblock with
    | delivered hasking => cases hasking
    | undelivered hasking =>
      cases hasking
      exact ⟨hverdict.1, hverdict.2, hstatus, huntouched⟩

end Program

end FileListCache
