/-
  FileListCache.Proofs.Selection

  Which repositories a sync command processes. Before it looks at the names it was given, a run
  reads the mirror list (`Program.listing`); then it either takes the repositories that were named,
  each once and in the order of the list, or stops at the first name that is no section of the
  list (`Program.run_selects`).

  Reading tells those who watch nothing, whatever other processes do to the files meanwhile
  (`MirrorList.utters_ofFile`), so all that they are told of a run is about the repositories that
  were chosen.
-/

import FileListCache.Proofs.Lines
import FileListCache.Proofs.Storing
import FileListCache.Proofs.Verdict

namespace FileListCache

variable {P : Event → Prop} {h : Host} {w w₁ : World}

/-! ## Reading in silence -/

namespace Utters

variable {ε α β : Type}

theorem lift_bind {x : Run β} {f : β → Run α} (hx : Utters P (liftM x : Attempt ε β))
    (hf : ∀ b, Utters P (liftM (f b) : Attempt ε α)) :
    Utters P (liftM (x >>= f) : Attempt ε α) := by
  rw [liftM_bind]
  exact hx.bind hf

theorem lift_pure (a : α) : Utters P (liftM (Pure.pure a : Run α) : Attempt ε α) := fun _ =>
  World.Uttered.of_eq rfl rfl

theorem lift_get : Utters P (liftM (MonadState.get : Run World) : Attempt ε World) := fun _ =>
  World.Uttered.of_eq rfl rfl

theorem lift_foldlM {f : β → α → Run β} (hf : ∀ b a, Utters P (liftM (f b a) : Attempt ε β))
    (l : List α) (b : β) : Utters P (liftM (l.foldlM f b) : Attempt ε β) := by
  induction l generalizing b with
  | nil => exact lift_pure b
  | cons a l ih =>
    rw [List.foldlM_cons]
    exact lift_bind (hf b a) ih

/-- A message, and then nothing more. -/
theorem lift_note_pure (level : Level) (topic : Topic) (message : String) (a : α) :
    Utters P (liftM (World.note level topic message >>= fun _ => Pure.pure a : Run α) :
      Attempt ε α) :=
  lift_bind (note level topic message) fun _ => lift_pure a

end Utters

namespace MirrorList

variable {ε : Type}

theorem utters_includedServers (value : String) :
    Utters P (liftM (includedServers h value) : Attempt ε (List String)) := by
  unfold includedServers
  cases PathNotation.resolve h value with
  | error e => exact .lift_note_pure _ _ _ _
  | ok path =>
    refine .lift_bind (.outcome (Disk.utters_openRead path)) fun r => ?_
    cases r with
    | error e => exact .lift_note_pure _ _ _ _
    | ok source =>
      refine .lift_bind .lift_get fun w => ?_
      dsimp only
      cases Disk.contentOf w.tree source with
      | ok content => exact .lift_note_pure _ _ _ _
      | error e => exact .lift_bind (.note _ _ _) fun _ => .lift_note_pure _ _ _ _

namespace Draft

variable (d : Draft)

theorem utters_pushServer (name server : String) :
    Utters P (liftM (d.pushServer name server) : Attempt ε Draft) := by
  unfold pushServer
  split
  · exact .lift_note_pure _ _ _ _
  · exact .lift_pure _

theorem utters_openSection (name : String) :
    Utters P (liftM (d.openSection name) : Attempt ε Draft) := by
  unfold openSection
  repeat' split
  all_goals first
    | exact .lift_pure _
    | exact .lift_note_pure _ _ _ _

theorem utters_directive (key value : String) :
    Utters P (liftM (d.directive h key value) : Attempt ε Draft) := by
  unfold directive
  cases d.active with
  | options | nothing => exact .lift_note_pure _ _ _ _
  | repository name =>
    dsimp only
    split
    · exact utters_pushServer d name value
    · exact .lift_bind (utters_includedServers value) fun servers =>
        .lift_foldlM (fun d server => utters_pushServer d name server) servers d
    · exact .lift_note_pure _ _ _ _

theorem utters_feed (raw : List Char) :
    Utters P (liftM (d.feed h raw) : Attempt ε Draft) := by
  unfold feed
  cases Line.ofText? raw with
  | none => exact .lift_pure _
  | some line =>
    cases line with
    | header name => exact utters_openSection d name
    | directive key value => exact utters_directive d key value
    | other text => exact .lift_note_pure _ _ _ _

end Draft

theorem utters_ofFile (path : String) : Utters P (ofFile h path) := by
  unfold ofFile
  refine .bind (.adapt (Disk.utters_openRead path)) fun source => .bind (.note _ _ _) fun _ =>
    .bind .get fun w => .bind (.except _) fun content => ?_
  refine .bind (.lift_bind ?_ fun d => .lift_pure _) fun _ => .bind (.note _ _ _) fun _ => .pure _
  exact .lift_foldlM (fun d raw => Draft.utters_feed d raw) _ _

/-- What is read from a mirror list in a file is what its text states, whatever world the text is
read in. -/
theorem ofFile_reads (path : String) :
    Ends w (ofFile h path) fun r w' => w'.events = w.events ∧
      ∀ repositories, r = .ok repositories → ∃ bytes v,
        Disk.reading h w.tree path = .ok bytes ∧ (w.tree.IsQuiet → v.tree = w.tree) ∧
          repositories = ((ofText h (Utf8.lossy bytes)).run v).1 := by
  refine ends_and (ends_imp (utters_ofFile path w) fun _ _ hr => hr.events_eq) ?_
  unfold ofFile
  refine ends_adapt_bind (Disk.openRead_looks path) ?_ fun _ _ _ _ he => by cases he
  intro source w₁ hr
  obtain ⟨herr, hok, hsame⟩ := hr
  cases hlook : Disk.look h w.tree path with
  | error e => cases herr e hlook
  | ok node =>
    obtain ⟨source', hsource, hcontent⟩ := hok node hlook
    cases hsource
    refine ends_note_bind fun w₂ hw₂ => ends_get_bind ?_
    rw [hw₂.tree, hcontent]
    refine ends_except_bind (fun bytes hbytes => ?_) fun e _ _ he => by cases he
    apply ends_tell_bind
    apply ends_tell_bind
    refine ends_pure fun repositories hrepositories => ?_
    cases hrepositories
    have hread := Disk.reading_eq_ok.2 ⟨node, hlook, eq_ok_of_mapError hbytes⟩
    refine ⟨bytes, w₂, hread, fun hquiet => ?_, ?_⟩
    · rw [hw₂.tree, hsame hquiet]
    · rw [ofBytes_eq]

/-- The sections of a mirror list in bytes that hold repositories, in the order in which they are
first opened. -/
def sectionsOf (bytes : Bytes) : List String := sectionNames ((Utf8.lossyChars bytes).splitOn '\n')

theorem notMem_sectionsOf {bytes : Bytes} {name : String} (hname : IsReserved name) :
    name ∉ sectionsOf bytes := fun hmem => (mem_sectionNames.1 hmem).2 hname

end MirrorList

/-! ## Chosen repositories -/

namespace Repository

variable {repositories : List Repository} {names : List String} {name : String}

theorem selected_eq_filter :
    selected repositories names = repositories.filter fun r => names = [] ∨ r.name ∈ names := by
  unfold selected
  split
  · rename_i hnames
    simp [hnames]
  · rename_i hnames
    simp [hnames]

/-- The name that is reported is the first one that no repository has. -/
theorem select_eq_error :
    select repositories names = .error name ↔
      ∃ before after, names = before ++ name :: after ∧
        (∀ n ∈ before, ∃ r ∈ repositories, r.name = n) ∧ ∀ r ∈ repositories, r.name ≠ name := by
  have hfind : names.find? (fun n => !repositories.any fun r => r.name = n) = some name ↔
      ∃ before after, names = before ++ name :: after ∧
        (∀ n ∈ before, ∃ r ∈ repositories, r.name = n) ∧ ∀ r ∈ repositories, r.name ≠ name := by
    rw [List.find?_eq_some_iff_append]
    simp only [Bool.not_eq_true', List.any_eq_false, decide_eq_true_eq, Bool.not_not,
      List.any_eq_true, ne_eq]
    constructor
    · rintro ⟨hunknown, before, after, hsplit, hbefore⟩
      exact ⟨before, after, hsplit, hbefore, hunknown⟩
    · rintro ⟨before, after, hsplit, hbefore, hunknown⟩
      exact ⟨hunknown, before, after, hsplit, hbefore⟩
  rw [← hfind]
  unfold select
  by_cases hnames : names = []
  · simp [hnames]
  · rw [if_neg (by simpa using hnames)]
    cases names.find? fun n => !repositories.any fun r => r.name = n <;> simp

end Repository

namespace Program

open CommandLine (Arguments)

variable {a : Arguments} {names words : List String}

/-- What a sync command has found before it looks at the names. -/
structure Listing where
  settings : Settings
  client : Http.Client
  /-- The path of the mirror list. -/
  mirrorConfig : String
  /-- All repositories of the mirror list. -/
  repositories : List Repository
  deriving DecidableEq, Repr

/-- Reads the settings and the mirror list. -/
def listing (h : Host) (a : Arguments) : Attempt CommandError Listing := do
  let settings ← (settings h a).adapt CommandError.config
  World.note .debug .command ("mirror config: " ++ settings.mirrorConfig)
  let client ← client settings a.headers
  let mirrorConfig ← ((settings.mirrorConfigPath h).mapError .config : Except CommandError String)
  let repositories ← (MirrorList.ofFile h mirrorConfig).adapt CommandError.config
  return { settings, client, mirrorConfig, repositories }

/-- Syncs the repositories of a mirror list that have the given names. -/
def syncListed (h : Host) (a : Arguments) (l : Listing) (names : List String) :
    Attempt CommandError Unit := do
  let chosen ← ((Repository.select l.repositories names).mapError
    fun name => .config (.unknownRepository name) : Except CommandError (List Repository))
  let cache ← ((l.settings.cacheDirectory h).mapError .config : Except CommandError String)
  World.note .debug .commandSync
    ("syncing " ++ toString chosen.length ++ " repositories into " ++ cache)
  let report ← (Sync.run h l.client (isInteractive h a)
    ⟨cache, l.settings.architectureName h⟩ chosen).adapt CommandError.sync
  if report.isSuccess then
    World.note .info .commandSync (toString report.synced.length ++ " repositories synced")
  else throw (.incomplete (report.failed.map (·.1)))

/-- A sync command looks at the names only after it has read the mirror list. -/
theorem execute_eq_listing (hcommand : a.command = .sync names) :
    execute h a = (do
      let l ← listing h a
      syncListed h a l names
      return "") := by
  unfold execute listing
  rw [hcommand]
  simp only [sync, plan, syncListed, bind_assoc, pure_bind]

/-- What it takes for a listing to be the one that a run finds: the settings, the content of the
mirror list when it is opened, and what this states when it is read. -/
structure Listing.Follows (l : Listing) (h : Host) (w : World) (a : Arguments) (bytes : Bytes) :
    Prop where
  settings : settingsIn h w.tree a = .ok l.settings
  mirrorConfig : PathNotation.resolve h l.settings.mirrorConfig = .ok l.mirrorConfig
  content : ∃ v : World, Disk.reading h v.tree l.mirrorConfig = .ok bytes ∧
    (w.tree.IsQuiet → v.tree = w.tree)
  repositories : ∃ v : World, l.repositories = ((MirrorList.ofText h (Utf8.lossy bytes)).run v).1 ∧
    (w.tree.IsQuiet → v.tree = w.tree)

/-- There is one repository for each section. -/
theorem Listing.Follows.sections {l : Listing} {bytes : Bytes} (hl : l.Follows h w a bytes) :
    l.repositories.map (·.name) = MirrorList.sectionsOf bytes := by
  obtain ⟨v, hrepositories, -⟩ := hl.repositories
  obtain ⟨hnames, -⟩ := MirrorList.ofText_sections h v (Utf8.lossy bytes)
  rwa [← hrepositories, Utf8.lossy, String.toList_ofList] at hnames

/-- Before it looks at the names, a run reads what the settings name. -/
theorem listing_reads :
    Ends w (listing h a) fun r w' => w'.events = w.events ∧
      ∀ l, r = .ok l → ∃ bytes, l.Follows h w a bytes := by
  have hsettings : Ends w (settings h a) fun r w' => r = settingsIn h w.tree a ∧
      w'.events = w.events ∧ (w.tree.IsQuiet → w'.tree = w.tree) :=
    ⟨settings_discreet.1, settings_discreet.2.events, fun hquiet => (settings_finds hquiet).2.tree⟩
  unfold listing
  refine ends_adapt_bind hsettings ?_ fun e w₁ hr => ⟨hr.2.1, fun _ hl => by cases hl⟩
  intro s w₁ hr
  obtain ⟨hs, hevents, hsame⟩ := hr
  refine ends_note_bind fun w₂ hw₂ => ?_
  have hevents₂ : w₂.events = w.events := hw₂.events.trans hevents
  have hsame₂ (hquiet : w.tree.IsQuiet) : w₂.tree = w.tree := hw₂.tree.trans (hsame hquiet)
  refine ends_except_bind (fun client _ => ?_) fun e _ => ⟨hevents₂, fun _ hl => by cases hl⟩
  refine ends_except_bind (fun mirrorConfig hmirror => ?_) fun e _ =>
    ⟨hevents₂, fun _ hl => by cases hl⟩
  refine ends_adapt_bind (MirrorList.ofFile_reads mirrorConfig) ?_ fun e w₃ hr =>
    ⟨hr.1.trans hevents₂, fun _ hl => by cases hl⟩
  intro repositories w₃ hr
  obtain ⟨hevents₃, hread⟩ := hr
  obtain ⟨bytes, v, hbytes, hv, hrepositories⟩ := hread repositories rfl
  refine ends_pure ⟨hevents₃.trans hevents₂, fun l hl => ?_⟩
  cases hl
  refine ⟨bytes, hs.symm, eq_ok_of_mapError (eq_ok_of_mapError hmirror), ⟨w₂, hbytes, hsame₂⟩, v,
    hrepositories, fun hquiet => ?_⟩
  rw [hv (by rwa [hsame₂ hquiet]), hsame₂ hquiet]

/-- Where no other process replaces files, a run with readable settings and a readable mirror list
always comes so far. -/
theorem listing_finds {s : Settings} {client : Http.Client} {mirrorConfig : String} {bytes : Bytes}
    (hquiet : w.tree.IsQuiet) (hs : settingsIn h w.tree a = .ok s)
    (hclient : Program.client s a.headers = .ok client)
    (hmirror : PathNotation.resolve h s.mirrorConfig = .ok mirrorConfig)
    (hread : Disk.reading h w.tree mirrorConfig = .ok bytes) :
    Finds w (listing h a)
      (.ok ⟨s, client, mirrorConfig, MirrorList.repositoriesOf h w.tree bytes⟩) := by
  have hlist : MirrorList.repositoriesAt h w.tree mirrorConfig = .ok _ :=
    MirrorList.repositoriesAt_eq_ok.2 ⟨bytes, hread, rfl⟩
  have hsettings := settings_finds (h := h) (a := a) hquiet
  rw [hs] at hsettings
  refine finds_bind (g := fun _ => .ok _) (finds_adapt hsettings) fun s' w₁ hs' hw₁ => ?_
  cases hs'
  refine finds_note_bind fun w₂ hw₂ => ?_
  have htree : w₂.tree = w.tree := hw₂.tree.trans hw₁.tree
  have hfile := MirrorList.ofFile_finds (h := h) (w := w₂) (by rwa [htree]) mirrorConfig
  rw [htree, hlist] at hfile
  unfold Settings.mirrorConfigPath
  rw [hclient, hmirror]
  refine finds_except_bind (g := fun _ => .ok _) fun client' hclient' => ?_
  cases hclient'
  refine finds_except_bind (g := fun _ => .ok _) fun mirrorConfig' hmirror' => ?_
  cases hmirror'
  refine finds_bind (g := fun _ => .ok _) (finds_adapt hfile) fun repositories w₃ hr _ => ?_
  cases hr
  exact finds_pure _

/-- Where all names are known, none is reported. -/
theorem syncListed_known {l : Listing}
    (hknown : ∀ name ∈ names, ∃ r ∈ l.repositories, r.name = name) :
    Ends w (syncListed h a l names) fun r _ =>
      ∀ name, r ≠ .error (.config (.unknownRepository name)) := by
  unfold syncListed
  rw [Repository.select_eq_ok.2 ⟨rfl, hknown⟩]
  refine ends_except_bind (fun chosen _ => ?_) fun e he => by cases he
  refine ends_except_bind (fun cache _ => ?_) fun e he => ?_
  · refine ends_note_bind fun w₁ _ => ?_
    refine ends_adapt_bind (R := fun _ _ => True) trivial (fun report w₂ _ => ?_)
      fun e w₂ _ => nofun
    split
    · exact ends_tell nofun
    · exact ends_throw nofun
  · -- A cache whose path does not resolve is another kind of failure.
    unfold Settings.cacheDirectory at he
    dsimp only at he
    generalize PathNotation.resolve h _ = resolved at he
    cases resolved with
    | ok path => cases he
    | error e' =>
      cases he
      exact nofun

/-- Repositories that were chosen are synced, if the cache can be used; all that is told is about
them. -/
theorem syncListed_attempts {l : Listing} {cache : String}
    (hknown : ∀ name ∈ names, ∃ r ∈ l.repositories, r.name = name)
    (hcache : l.settings.cacheDirectory h = .ok cache)
    (hcheck : Files.ensureWritable h w.tree cache = .ok ()) :
    Ends w (syncListed h a l names) fun _ w' =>
      ∃ blocks, Sync.Attempted ⟨cache, l.settings.architectureName h⟩ (isInteractive h a)
        (Repository.selected l.repositories names) blocks w w' := by
  unfold syncListed
  rw [Repository.select_eq_ok.2 ⟨rfl, hknown⟩, hcache]
  refine ends_except_bind (fun chosen hchosen => ?_) fun e he => by cases he
  cases hchosen
  refine ends_except_bind (fun cache' hcache' => ?_) fun e he => by cases he
  cases hcache'
  refine ends_note_bind fun w₁ hw₁ => ?_
  refine ends_adapt_bind (Sync.run_blocks (by rwa [hw₁.tree])) ?_ ?_
  · rintro report w₂ ⟨_, blocks, -, hall, -⟩
    have hevents : w₂.events = w.events ++ blocks.flatten := by rw [hall.events, hw₁.events]
    split
    · exact ends_tell ⟨blocks, hall.each, hevents⟩
    · exact ends_throw ⟨blocks, hall.each, hevents⟩
  · rintro e w₂ ⟨_, blocks, he, -⟩
    cases he

/-- The first name that no repository has ends a run before anything happens. -/
theorem syncListed_unknown {l : Listing} {before : List String} {name : String}
    (after : List String) (hbefore : ∀ n ∈ before, ∃ r ∈ l.repositories, r.name = n)
    (hunknown : ∀ r ∈ l.repositories, r.name ≠ name) :
    w.attempt (syncListed h a l (before ++ name :: after)) =
      (.error (.config (.unknownRepository name)), w) := by
  unfold syncListed
  rw [Repository.select_eq_error.2 ⟨before, after, rfl, hbefore, hunknown⟩]
  rfl

/-- A run that has read the mirror list goes on with the names. -/
theorem run_listed {l : Listing} (hwords : Arguments.ofWords words = .ok a)
    (hcommand : a.command = .sync names) (hlist : w.attempt (listing h a) = (.ok l, w₁)) :
    ((run h words).run w).1.Tells ((w₁.attempt (syncListed h a l names)).1.map fun _ => "") ∧
      ((run h words).run w).2 = (w₁.attempt (syncListed h a l names)).2 := by
  have hexecute : w.attempt (execute h a) =
      ((w₁.attempt (syncListed h a l names)).1.map fun _ => "",
        (w₁.attempt (syncListed h a l names)).2) := by
    rw [execute_eq_listing hcommand, World.attempt_bind, hlist]
    dsimp only
    rw [World.attempt_bind]
    rcases w₁.attempt (syncListed h a l names) with ⟨e | u, w₂⟩ <;> rfl
  have htells := run_tells (h := h) (w := w) hwords
  rwa [hexecute] at htells

/-- Selecting repositories is exact, for every mirror list that was read and all names. The list has
one repository for each of its sections, in the order in which these are first opened; general
options and what has no name are none. If all names are those of repositories, the repositories
that are processed are the ones that were named, or all if no name is given: each has its block of
events, once, with its servers as they are in the list and in the order of the list. Otherwise the
run ends with the first name that is no section of the list, and does nothing after it has read the
list. -/
theorem run_selects {l : Listing} (hwords : Arguments.ofWords words = .ok a)
    (hcommand : a.command = .sync names) (hlist : w.attempt (listing h a) = (.ok l, w₁)) :
    let o := ((run h words).run w).1
    let w' := ((run h words).run w).2
    ∃ bytes, l.Follows h w a bytes ∧
      let sections := MirrorList.sectionsOf bytes
      l.repositories.map (·.name) = sections ∧ sections.Nodup ∧
        MirrorList.optionsName ∉ sections ∧ "" ∉ sections ∧
      ((∀ name ∈ names, name ∈ sections) →
        let chosen := l.repositories.filter fun r => names = [] ∨ r.name ∈ names
        chosen.map (·.name) = sections.filter (fun name => names = [] ∨ name ∈ names) ∧
        (∀ name, o.error ≠ some (.config (.unknownRepository name))) ∧
        ∀ cache, l.settings.cacheDirectory h = .ok cache →
          Files.ensureWritable h w₁.tree cache = .ok () →
          ∃ blocks, Sync.Attempted ⟨cache, l.settings.architectureName h⟩ (isInteractive h a)
            chosen blocks w w') ∧
      ∀ before name after, names = before ++ name :: after → (∀ n ∈ before, n ∈ sections) →
        name ∉ sections →
        o.status = 1 ∧ o.error = some (.config (.unknownRepository name)) ∧ w' = w₁ ∧
          w'.events = w.events := by
  obtain ⟨htells, hworld⟩ := run_listed hwords hcommand hlist
  obtain ⟨hevents, hfollows⟩ := (ends_iff hlist).1 (listing_reads (h := h) (w := w) (a := a))
  obtain ⟨bytes, hbytes⟩ := hfollows l rfl
  have hnames := hbytes.sections
  have hsection (name : String) :
      name ∈ MirrorList.sectionsOf bytes ↔ ∃ r ∈ l.repositories, r.name = name := by
    rw [← hnames, List.mem_map]
  dsimp only
  rw [hworld]
  refine ⟨bytes, hbytes, hnames, MirrorList.nodup_sectionNames _,
    MirrorList.notMem_sectionsOf (.inl rfl), MirrorList.notMem_sectionsOf (.inr rfl), ?_, ?_⟩
  · intro hknown
    have hknown (name : String) (hname : name ∈ names) : ∃ r ∈ l.repositories, r.name = name :=
      (hsection name).1 (hknown name hname)
    refine ⟨?_, fun name herror => ?_, fun cache hcache hcheck => ?_⟩
    · rw [← hnames, List.filter_map]
      rfl
    · have hend := syncListed_known (h := h) (w := w₁) (a := a) hknown name
      cases hr : (w₁.attempt (syncListed h a l names)).1 with
      | ok u =>
        rw [hr] at htells
        cases htells.2.1.symm.trans herror
      | error e =>
        rw [hr] at htells
        cases htells.2.1.symm.trans herror
        exact hend hr
    · obtain ⟨blocks, hall⟩ := syncListed_attempts (a := a) hknown hcache hcheck
      rw [Repository.selected_eq_filter] at hall
      exact ⟨blocks, hall.each, by rw [hall.events, hevents]⟩
  · rintro before name after rfl hbefore hunknown
    have hend := syncListed_unknown (h := h) (w := w₁) (a := a) after
      (fun n hn => (hsection n).1 (hbefore n hn))
      (fun r hr hname => hunknown ((hsection name).2 ⟨r, hr, hname⟩))
    rw [hend] at htells ⊢
    exact ⟨htells.1, htells.2.1, rfl, hevents⟩

/-- A mirror list with general options, a section without a name and one that is opened again. -/
def repeatedBytes : Bytes :=
  "[b]\n[options]\n[]\n[a]\n[b]".toList.map fun c => UInt8.ofNat c.toNat

/-- A command line that names its repositories in another order, and one of them twice. -/
def repeatedWords : List String :=
  ["-c", "/c", "--mirror-config", "/a", "--cache-path", "/", "sync", "a", "b", "a"]

/-- What it says. -/
def repeatedArguments : Arguments where
  command := .sync ["a", "b", "a"]
  config := some "/c"
  mirrorConfig := some "/a"
  cachePath := some "/"

/-- Each repository is processed once, in the order of the list. -/
theorem run_selects_repeated :
    ∃ blocks, Sync.Attempted ⟨"/", "x86_64"⟩ false [⟨"b", []⟩, ⟨"a", []⟩] blocks
      (Transcode.oneFile repeatedBytes)
      ((run {} repeatedWords).run (Transcode.oneFile repeatedBytes)).2 := by
  have hwords : Arguments.ofWords repeatedWords = .ok repeatedArguments := by decide +kernel
  have hpath : settingsPath {} repeatedArguments = .ok "/c" := by decide +kernel
  have hread : Disk.reading {} (Transcode.oneFile repeatedBytes).tree "/a" = .ok repeatedBytes :=
    Disk.reading_eq_ok.2 ⟨_, Transcode.look_oneFile repeatedBytes, rfl⟩
  obtain ⟨hlist, hw₁⟩ := listing_finds (Transcode.oneFile_isQuiet repeatedBytes)
    (settingsIn_oneFile hpath) rfl (by decide +kernel) hread
  have hrepositories : MirrorList.repositoriesOf {} (Transcode.oneFile repeatedBytes).tree
      repeatedBytes = [⟨"b", []⟩, ⟨"a", []⟩] := by decide +kernel
  rw [hrepositories] at hlist
  have hcheck : Files.ensureWritable {} (Transcode.oneFile repeatedBytes).tree "/" = .ok () :=
    Files.ensureWritable_eq_ok.2 ⟨[], Disk.locate_root _ _ _, rfl, rfl⟩
  rw [← hw₁.tree] at hcheck
  obtain ⟨bytes, -, hnames, -, -, -, hchosen, -⟩ :=
    run_selects (h := {}) hwords rfl (Prod.ext hlist rfl)
  obtain ⟨-, -, hblocks⟩ := hchosen (by rw [← hnames]; decide)
  exact hblocks "/" (by decide +kernel) hcheck

end Program

end FileListCache
