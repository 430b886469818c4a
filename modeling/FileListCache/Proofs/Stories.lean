/-
  FileListCache.Proofs.Stories

  What a run tells those who watch it, and what it reports. The events of a run are one block for
  each repository, in the order of the list; each block is of the form that `Sync.Block` lays
  down, and the report says in the end what the last events of the blocks said. Nothing is asked
  of the fetcher but that it keeps to its reports of progress.
-/

import FileListCache.Proofs.Downloads
import FileListCache.Proofs.Runs
import FileListCache.Proofs.Utterances

namespace FileListCache

open World (Same)

/-! ## The form of a story -/

/-- Progress of a file, told in interactive runs only. -/
def Event.IsProgressOf (interactive : Bool) (name filename : String) (e : Event) : Prop :=
  interactive = true ∧ ∃ current total, e = .progress name filename current total

/-- Nothing but one event lies between two worlds. -/
structure World.Emits (e : Event) (w w' : World) : Prop where
  tree : w'.tree = w.tree
  steps : w'.steps = w.steps
  events : w'.events = w.events ++ [e]
  requests : w'.requests = w.requests

namespace Sync

/-- The way to fetch tells those who watch of nothing but the progress of the file it fetches. -/
def KeepsToProgress {σ : Type} (interactive : Bool) (fetch : Fetch σ) : Prop :=
  ∀ url filename (w : World) (s : σ), Settles w s (fetch url filename).run fun _ _ w' =>
    w.Heard (Event.IsProgressOf interactive (repositoryOf filename) filename) w'

/-- What is told while servers are asked in their order: of each that fails once, and last of the
one that delivers, if there is one. Progress is told of on the way only. -/
inductive Asking (g : Download.Goal) (interactive : Bool) (repo : Repository) :
    List String → Bool → List Event → Prop
  | exhausted : Asking g interactive repo [] false []
  | failed {server error : String} {servers : List String} {isDelivered : Bool}
      {reports es : List Event}
      (hreports : ∀ e ∈ reports, e.IsProgressOf interactive repo.name repo.fileName)
      (hrest : Asking g interactive repo servers isDelivered es) :
      Asking g interactive repo (server :: servers) isDelivered
        (reports ++ .mirrorFailed repo.name (g.url repo server) error :: es)
  | delivered {server : String} {servers : List String} {reports : List Event}
      (hreports : ∀ e ∈ reports, e.IsProgressOf interactive repo.name repo.fileName) :
      Asking g interactive repo (server :: servers) true
        (reports ++ [.downloaded repo.name (g.url repo server)])

/-- All that is told of a repository in one run, and how it ends. -/
inductive Block (g : Download.Goal) (interactive : Bool) (repo : Repository) :
    List Event → Event → Prop
  | undelivered {error : String} {es : List Event}
      (hasking : Asking g interactive repo repo.servers false es) :
      Block g interactive repo
        (.downloading repo.name :: (es ++ [.failed repo.name error])) (.failed repo.name error)
  | delivered {es : List Event} {o : Except SyncError Nat}
      (hasking : Asking g interactive repo repo.servers true es) :
      Block g interactive repo
        (.downloading repo.name :: (es ++ [.transcoding repo.name, ending repo o])) (ending repo o)

variable {σ : Type} {h : Host} {g : Download.Goal} {interactive : Bool} {repo : Repository}
  {repos : List Repository} {fetch : Fetch σ} {w : World} {servers : List String}
  {isDelivered : Bool} {es : List Event} {last : Event} {client : Http.Client}

/-! ## Single blocks -/

/-- What is told while servers are asked is progress, or that one of them failed or delivered. -/
theorem Asking.forall_mem {P : Event → Prop} (ha : Asking g interactive repo servers isDelivered es)
    (hprogress : ∀ current total, P (.progress repo.name repo.fileName current total))
    (hfailed : ∀ url error, P (.mirrorFailed repo.name url error))
    (hdelivered : ∀ url, P (.downloaded repo.name url)) : ∀ e ∈ es, P e := by
  have hreported {reports : List Event}
      (hreports : ∀ e ∈ reports, e.IsProgressOf interactive repo.name repo.fileName) :
      ∀ e ∈ reports, P e := by
    intro e he
    obtain ⟨-, current, total, rfl⟩ := hreports e he
    exact hprogress current total
  induction ha with
  | exhausted => simp
  | failed hreports _ ih =>
    intro e he
    rcases List.mem_append.1 he with he | he
    · exact hreported hreports e he
    · rcases List.mem_cons.1 he with rfl | he
      · exact hfailed _ _
      · exact ih e he
  | delivered hreports =>
    intro e he
    rcases List.mem_append.1 he with he | he
    · exact hreported hreports e he
    · rw [List.mem_singleton.1 he]
      exact hdelivered _

/-- It is about the repository and says nothing of an end. -/
theorem Asking.about (ha : Asking g interactive repo servers isDelivered es) :
    ∀ e ∈ es, e.repo = repo.name ∧ e.isTerminal = false :=
  ha.forall_mem (fun _ _ => ⟨rfl, rfl⟩) (fun _ _ => ⟨rfl, rfl⟩) fun _ => ⟨rfl, rfl⟩

@[simp] theorem repo_ending (repo : Repository) (o : Except SyncError Nat) :
    (ending repo o).repo = repo.name := by
  cases o <;> rfl

@[simp] theorem isTerminal_ending (repo : Repository) (o : Except SyncError Nat) :
    (ending repo o).isTerminal = true := by
  cases o <;> rfl

/-- A block is about its repository. -/
theorem Block.repo_eq (hb : Block g interactive repo es last) : ∀ e ∈ es, e.repo = repo.name := by
  intro e he
  cases hb with
  | undelivered hasking =>
    have habout := hasking.about
    simp only [List.mem_cons, List.mem_append, List.not_mem_nil, or_false] at he
    rcases he with rfl | he | rfl
    · rfl
    · exact (habout e he).1
    · rfl
  | @delivered _ o hasking =>
    have habout := hasking.about
    simp only [List.mem_cons, List.mem_append, List.not_mem_nil, or_false] at he
    rcases he with rfl | he | rfl | rfl
    · rfl
    · exact (habout e he).1
    · rfl
    · exact repo_ending repo o

/-- Of the events of a block only the last one says that it is over. -/
theorem Block.ends_once (hb : Block g interactive repo es last) :
    es.filter Event.isTerminal = [last] ∧ es.getLast? = some last := by
  have hsilent {isDelivered : Bool} {asked : List Event}
      (ha : Asking g interactive repo repo.servers isDelivered asked) :
      asked.filter Event.isTerminal = [] := by
    rw [List.filter_eq_nil_iff]
    intro e he
    simp [(ha.about e he).2]
  -- Everything up to the last event is silent about an end.
  have hsplit (front : List Event) (hfront : front.filter Event.isTerminal = [])
      (hlast : last.isTerminal = true) : (front ++ [last]).filter Event.isTerminal = [last] ∧
        (front ++ [last]).getLast? = some last := by
    refine ⟨?_, List.getLast?_concat⟩
    rw [List.filter_append, hfront, List.nil_append, List.filter_singleton, hlast, cond_true]
  cases hb with
  | @undelivered error asked hasking =>
    exact hsplit (.downloading repo.name :: asked) (by
      rw [List.filter_cons_of_neg (by simp [Event.isTerminal]), hsilent hasking]) rfl
  | @delivered asked o hasking =>
    have hfront := hsplit (.downloading repo.name :: (asked ++ [.transcoding repo.name])) (by
        rw [List.filter_cons_of_neg (by simp [Event.isTerminal]), List.filter_append,
          hsilent hasking]
        rfl) (isTerminal_ending repo o)
    simpa using hfront

/-! ## Blocks are told -/

/-- The name of the file leads back to the repository. -/
theorem repositoryOf_fileName (repo : Repository) : repositoryOf repo.fileName = repo.name := by
  have hlist : repo.fileName.toList = repo.name.toList ++ fileListSuffix.toList := by
    simp [Repository.fileName]
  rw [repositoryOf, hlist]
  simp

/-- What is told while servers are asked. -/
theorem fromServers_story (hfetch : KeepsToProgress interactive fetch) (servers : List String)
    (w : World) (s : σ) :
    Settles w s (Download.fromServers h fetch g repo servers).run fun r _ w' =>
      ∃ es, w'.events = w.events ++ es ∧ Asking g interactive repo servers r.isOk es := by
  induction servers generalizing w s with
  | nil => exact settles_pure ⟨[], (List.append_nil _).symm, .exhausted⟩
  | cons server servers ih =>
    unfold Download.fromServers
    dsimp only
    apply Files.settles_noted
    refine ends_imp (Files.utters_remove (P := fun _ => False) _ w) ?_
    intro r w₁ hremoved w₂ hsame₂
    apply settles_note_bind
    intro w₃ hsame₃
    have hevents₃ : w₃.events = w.events := by
      rw [hsame₃.events, hsame₂.events, hremoved.events_eq]
    apply settles_run_lift_bind
    refine settles_imp (hfetch (g.url repo server) repo.fileName w₃ s) ?_
    intro r s₁ w₄ hheard
    obtain ⟨reports, hreports, hprogress⟩ := hheard
    rw [repositoryOf_fileName] at hprogress
    rw [hevents₃] at hreports
    cases r with
    | ok path =>
      refine settles_run_tell_bind (settles_pure ⟨_, ?_, .delivered hprogress⟩)
      rw [← List.append_assoc, ← hreports]
      rfl
    | error e =>
      apply settles_note_bind
      intro w₅ hsame₅
      apply settles_note_bind
      intro w₆ hsame₆
      apply settles_run_tell_bind
      refine settles_imp (ih _ s₁) ?_
      intro r s₂ w₇ hrest
      obtain ⟨es, hes, hasking⟩ := hrest
      refine ⟨reports ++ .mirrorFailed repo.name (g.url repo server) e.message :: es, ?_,
        .failed hprogress hasking⟩
      rw [hes, List.append_cons, ← List.append_assoc, ← List.append_assoc, ← hreports,
        ← hsame₅.events, ← hsame₆.events]
      rfl

/-- What is told of a repository before its end is recorded: with the end it is a block. -/
theorem repository_story (hfetch : KeepsToProgress interactive fetch) (w : World) (s : σ) :
    Settles w s (repository h fetch g repo).run fun o _ w' =>
      ∃ es, w'.events = w.events ++ es ∧
        Block g interactive repo (es ++ [ending repo o]) (ending repo o) := by
  unfold repository Download.run
  apply settles_run_bind
  apply settles_run_tell_bind
  by_cases hservers : repo.servers = []
  · rw [if_pos (by simp [hservers])]
    refine settles_pure ⟨[.downloading repo.name], rfl, ?_⟩
    exact .undelivered (by rw [hservers]; exact .exhausted)
  · rw [if_neg (by simpa using hservers)]
    refine settles_imp (fromServers_story hfetch repo.servers _ s) ?_
    intro r s₁ w₁ hr
    obtain ⟨es, hes, hasking⟩ := hr
    have hevents₁ : w₁.events = w.events ++ .downloading repo.name :: es := by
      rw [hes, List.append_cons]
      rfl
    cases r with
    | error e => exact ⟨_, hevents₁, .undelivered hasking⟩
    | ok path =>
      apply settles_run_tell_bind
      refine settles_run_attempt (ends_imp (utters_entriesOf (P := fun _ => False) path _) ?_)
      intro o w₂ hsilent
      refine ⟨.downloading repo.name :: (es ++ [.transcoding repo.name]), ?_, ?_⟩
      · rw [hsilent.events_eq, ← List.cons_append, ← List.append_assoc, ← hevents₁]
        rfl
      · simpa using Block.delivered (o := o) hasking

/-! ## Runs by their rounds, whatever fetches -/

theorem record_emits (r : Report) (repo : Repository) (o : Except SyncError Nat) (w : World)
    (s : σ) :
    Settles w s (record r repo o) fun r' s' w' => r' = r.add repo o ∧ s' = s ∧
      World.Emits (ending repo o) w w' := by
  cases o with
  | ok entries =>
    exact settles_bind (settles_tell (settles_bind (settles_tell (settles_pure
      ⟨rfl, rfl, rfl, rfl, rfl, rfl⟩))))
  | error e =>
    exact settles_bind (settles_tell (settles_bind (settles_tell (settles_pure
      ⟨rfl, rfl, rfl, rfl, rfl, rfl⟩))))

/-- What holds at first and after every round holds after all of them. -/
theorem settles_all (I : List Repository → Report → σ → World → Prop)
    {Q : Report → σ → World → Prop} {s : σ} (hstart : I repos {} s w)
    (hround : ∀ repo rest r s w, I (repo :: rest) r s w →
      Settles w s (repository h fetch g repo).run fun o s' w₁ =>
        ∀ w', World.Emits (ending repo o) w₁ w' → I rest (r.add repo o) s' w')
    (hend : ∀ r s w₁ w', I [] r s w₁ → w'.tree = w₁.tree → w'.steps = w₁.steps →
      w'.events = w₁.events → w'.requests = w₁.requests → Q r s w') :
    Settles w s (all h fetch g repos) Q := by
  unfold all
  have hrounds := settles_foldlM (f := fun r repo => do
      record r repo (← (repository h fetch g repo).run))
    (Q := fun r s' w' => I [] r s' w') I (fun r s' w' hI => hI) ?_ repos {} s w hstart
  · refine settles_bind (settles_imp hrounds ?_)
    intro r s' w₁ hI
    exact settles_bind (settles_tell (settles_pure (hend r s' w₁ _ hI rfl rfl rfl rfl)))
  · intro repo rest r s w₁ hI
    refine settles_bind (settles_imp (hround repo rest r s w₁ hI) ?_)
    intro o s₂ w₂ hnext
    refine settles_imp (record_emits r repo o w₂ s₂) ?_
    intro r' s₃ w₃ hr
    obtain ⟨rfl, rfl, hemits⟩ := hr
    exact hnext w₃ hemits

theorem checkCache_eq (w : World) : w.attempt (checkCache h g) =
    ((Files.ensureWritable h w.tree g.cache).mapError .cacheAccess, w) := by
  have hends : Ends w (checkCache h g) fun r w' =>
      r = (Files.ensureWritable h w.tree g.cache).mapError .cacheAccess ∧ w' = w := by
    unfold checkCache
    apply ends_get_bind
    exact ends_except ⟨rfl, rfl⟩
  exact Prod.ext hends.1 hends.2

/-- A cache that fails the check ends the run before it begins. -/
theorem runWith_refused {e : FileError} (s : σ)
    (hcheck : Files.ensureWritable h w.tree g.cache = .error e) :
    Settles w s (runWith h fetch g repos).run fun r s' w' =>
      r = .error (.cacheAccess e) ∧ s' = s ∧ w' = w := by
  unfold runWith
  apply settles_run_bind
  apply settles_run_attempt
  rw [ends_iff (checkCache_eq w), hcheck]
  exact ⟨rfl, rfl, rfl⟩

/-- So in a locked cache nothing is synced. -/
theorem run_locked {c : Location} {k : Lock} (hcache : Disk.locate h w.tree true g.cache = .ok c)
    (hdirectory : w.tree.find? c = some .directory) (hk : h.locked c = some k)
    (client : Http.Client) (interactive : Bool) (repos : List Repository) :
    w.attempt (run h client interactive g repos) =
      (.error (.cacheAccess (.notWritable g.cache k.error)), w) := by
  have hrefused : Settles w () (runWith h ((fetcher client g interactive).toFetch h) g repos).run
      fun r s' w' => r = .error (.cacheAccess (.notWritable g.cache k.error)) ∧ s' = () ∧ w' = w :=
    runWith_refused () (Files.ensureWritable_of_locked hcache hdirectory hk)
  exact Prod.ext hrefused.1 hrefused.2.2

/-- One that passes it leaves the word to the rounds. -/
theorem runWith_admitted {s : σ} {Q : Except SyncError Report → σ → World → Prop}
    (hcheck : Files.ensureWritable h w.tree g.cache = .ok ())
    (hall : Settles w s (all h fetch g repos) fun r s' w' => Q (.ok r) s' w') :
    Settles w s (runWith h fetch g repos).run Q := by
  unfold runWith
  apply settles_run_bind
  apply settles_run_attempt
  rw [ends_iff (checkCache_eq w), hcheck]
  exact settles_run_lift hall

/-! ## The fetcher of a run -/

/-- The program's own fetcher keeps to the progress of its file. -/
theorem keepsToProgress_fetcher (h : Host) (client : Http.Client) (g : Download.Goal)
    (interactive : Bool) :
    KeepsToProgress (σ := σ) interactive ((fetcher client g interactive).toFetch h) := by
  intro url filename w s
  have hreports (current total : Nat) (w : World) :
      w.Uttered (Event.IsProgressOf interactive (repositoryOf filename) filename)
        (((fetcher client g interactive).onProgress ⟨filename, current, total⟩).run w).2 := by
    cases interactive with
    | false => exact .of_eq rfl rfl
    | true =>
      refine ⟨⟨[_], rfl, fun e he => ⟨rfl, current, total, ?_⟩⟩, List.prefix_rfl⟩
      exact List.mem_singleton.1 he
  exact settles_run_attempt (ends_imp (Fetcher.utters_fetch hreports url w) fun _ _ hr => hr.heard)

/-! ## Whole runs -/

/-- The repositories that events say were synced. -/
def syncedIn (es : List Event) : List String :=
  es.filterMap fun
    | .synced name _ => some name
    | _ => none

/-- The repositories that events say were not, with the reason. -/
def failedIn (es : List Event) : List (String × String) :=
  es.filterMap fun
    | .failed name error => some (name, error)
    | _ => none

/-- Only events that end a block say what became of a repository. -/
theorem syncedIn_filter (es : List Event) :
    syncedIn (es.filter Event.isTerminal) = syncedIn es := by
  rw [syncedIn, List.filterMap_filter, syncedIn]
  congr 1
  funext e
  cases e <;> rfl

theorem failedIn_filter (es : List Event) :
    failedIn (es.filter Event.isTerminal) = failedIn es := by
  rw [failedIn, List.filterMap_filter, failedIn]
  congr 1
  funext e
  cases e <;> rfl

/-- The report adds what the last event of a block says. -/
theorem Report.add_block {r : Report} {o : Except SyncError Nat}
    (hb : Block g interactive repo es (ending repo o)) :
    (r.add repo o).synced = r.synced ++ syncedIn es ∧
      (r.add repo o).failed = r.failed ++ failedIn es := by
  rw [← syncedIn_filter es, ← failedIn_filter es, hb.ends_once.1]
  cases o <;> simp [Report.add, ending, syncedIn, failedIn]

/-- The rounds tell one block for each repository, and the report says what the blocks say. -/
theorem all_story (hfetch : KeepsToProgress interactive fetch) (w : World) (s : σ) :
    Settles w s (all h fetch g repos) fun report _ w' => ∃ blocks : List (List Event),
      w'.events = w.events ++ blocks.flatten ∧
      List.Forall₂ (fun repo es => ∃ last, Block g interactive repo es last) repos blocks ∧
      report.synced = syncedIn blocks.flatten ∧ report.failed = failedIn blocks.flatten := by
  -- What was told so far are the blocks of the repositories that are done.
  refine settles_all (fun rest r _ w₁ => ∃ done blocks, repos = done ++ rest ∧
    w₁.events = w.events ++ blocks.flatten ∧
    List.Forall₂ (fun repo es => ∃ last, Block g interactive repo es last) done blocks ∧
    r.synced = syncedIn blocks.flatten ∧ r.failed = failedIn blocks.flatten)
    ⟨[], [], rfl, by simp, .nil, rfl, rfl⟩ ?_ ?_
  · intro repo rest r s₁ w₁ hI
    obtain ⟨done, blocks, hsplit, hevents, hblocks, hsynced, hfailed⟩ := hI
    refine settles_imp (repository_story hfetch w₁ s₁) ?_
    intro o s₂ w₂ hr w₃ hemits
    obtain ⟨es, hes, hblock⟩ := hr
    obtain ⟨hsynced', hfailed'⟩ := Report.add_block (r := r) hblock
    refine ⟨done ++ [repo], blocks ++ [es ++ [ending repo o]], ?_, ?_, ?_, ?_, ?_⟩
    · rw [hsplit, List.append_assoc, List.singleton_append]
    · rw [hemits.events, hes, hevents]
      simp
    · exact List.rel_append hblocks (.cons ⟨_, hblock⟩ .nil)
    · rw [hsynced', hsynced, List.flatten_append, syncedIn, syncedIn, List.filterMap_append]
      simp [syncedIn]
    · rw [hfailed', hfailed]
      simp [failedIn]
  · intro r s₁ w₁ w' hI htree hsteps hevents' hrequests
    obtain ⟨done, blocks, hsplit, hevents, hblocks, hsynced, hfailed⟩ := hI
    obtain rfl : repos = done := hsplit.trans (List.append_nil done)
    exact ⟨blocks, hevents'.trans hevents, hblocks, hsynced, hfailed⟩

/-- Events and report tell one story. If the cache cannot be used, the run ends with that failure
before anything happens: no event, no call of the fetcher, no change of the tree. Otherwise it
gives a report, and its events are one block for each repository in the order of the list, in
which only the last event says that it is over; the report names those that the last events say
were synced, and those that failed with the same words. The fetcher may do whatever it likes, but
for telling more than the progress of its file; the program's own fetcher tells just that. -/
theorem runWith_story (h : Host) (g : Download.Goal) (repos : List Repository)
    (hfetch : KeepsToProgress interactive fetch) (w : World) (s : σ) :
    (∀ e, Files.ensureWritable h w.tree g.cache = .error e →
      ((runWith h fetch g repos).run.run s).run w = ((.error (.cacheAccess e), s), w)) ∧
    (Files.ensureWritable h w.tree g.cache = .ok () → ∃ report s' w' blocks,
      ((runWith h fetch g repos).run.run s).run w = ((.ok report, s'), w') ∧
      w'.events = w.events ++ blocks.flatten ∧
      List.Forall₂ (fun repo es => ∃ last, Block g interactive repo es last ∧
        es.filter Event.isTerminal = [last] ∧ es.getLast? = some last) repos blocks ∧
      report.synced = syncedIn blocks.flatten ∧ report.failed = failedIn blocks.flatten) ∧
    ∀ client, KeepsToProgress (σ := Unit) interactive ((fetcher client g interactive).toFetch h) ∧
      w.attempt (run h client interactive g repos) =
        let ((outcome, _), w') :=
          ((runWith h ((fetcher client g interactive).toFetch h) g repos).run.run ()).run w
        (outcome, w') := by
  refine ⟨fun e hcheck => ?_, fun hcheck => ?_, fun client => ⟨?_, rfl⟩⟩
  · have hrefused : Settles w s (runWith h fetch g repos).run _ := runWith_refused s hcheck
    obtain ⟨hr, hs, hw⟩ := hrefused
    exact Prod.ext (Prod.ext hr hs) hw
  · have hall := runWith_admitted (Q := fun r _ w' => ∃ report blocks, r = .ok report ∧
        w'.events = w.events ++ blocks.flatten ∧
        List.Forall₂ (fun repo es => ∃ last, Block g interactive repo es last) repos blocks ∧
        report.synced = syncedIn blocks.flatten ∧ report.failed = failedIn blocks.flatten) hcheck
      (settles_imp (all_story hfetch w s) fun report s' w' hr => by
        obtain ⟨blocks, hr⟩ := hr
        exact ⟨report, blocks, rfl, hr⟩)
    obtain ⟨report, blocks, hr, hevents, hblocks, hreport⟩ := hall
    refine ⟨report, _, _, blocks, Prod.ext (Prod.ext hr rfl) rfl, hevents, ?_, hreport⟩
    refine hblocks.imp fun repo es hblock => ?_
    obtain ⟨last, hblock⟩ := hblock
    exact ⟨last, hblock, hblock.ends_once⟩
  · exact keepsToProgress_fetcher h client g interactive

/-- A way to fetch that finds no document anywhere and counts how often it is asked. -/
def refusing : Fetch Nat := fun url _ => do
  modify (· + 1)
  throw (.http 404 url)

theorem keepsToProgress_refusing : KeepsToProgress false refusing := fun _ _ _ _ => .of_eq rfl

/-- A repository whose one server has nothing, and one without servers: two blocks. In a locked
cache there are none. -/
theorem runWith_story_refusing : (∃ report s' w' es es' last last',
    ((runWith {} refusing coreGoal [core, ⟨"extra", []⟩]).run.run 0).run oldCache =
      ((.ok report, s'), w') ∧
    w'.events = es ++ es' ∧ Block coreGoal false core es last ∧
    Block coreGoal false ⟨"extra", []⟩ es' last' ∧
    report.synced = syncedIn (es ++ es') ∧ report.failed = failedIn (es ++ es')) ∧
    ((runWith { locked := fun _ => some .denied } refusing coreGoal [core]).run.run 0).run
      oldCache = ((.error (.cacheAccess (.notWritable "/cache" .denied)), 0), oldCache) := by
  obtain ⟨-, hstory, -⟩ := runWith_story {} coreGoal [core, ⟨"extra", []⟩]
    keepsToProgress_refusing oldCache 0
  obtain ⟨hrefused, -⟩ := runWith_story { locked := fun _ => some .denied } coreGoal [core]
    keepsToProgress_refusing oldCache 0
  have hlocked : Files.ensureWritable { locked := fun _ => some .denied } oldCache.tree "/cache" =
      .error (.notWritable "/cache" Lock.denied.error) :=
    Files.ensureWritable_of_locked locate_oldCache (by decide) rfl
  refine ⟨?_, hrefused _ hlocked⟩
  obtain ⟨report, s', w', blocks, hrun, hevents, hblocks, hsynced, hfailed⟩ :=
    hstory (ensureWritable_oldCache rfl)
  -- Two repositories, so two blocks.
  cases hblocks with
  | @cons _ es _ _ hfirst hrest =>
    cases hrest with
    | @cons _ es' _ _ hsecond hnone =>
      cases hnone
      obtain ⟨last, hfirst, -⟩ := hfirst
      obtain ⟨last', hsecond, -⟩ := hsecond
      simp only [List.flatten_cons, List.flatten_nil, List.append_nil] at *
      exact ⟨report, s', w', es, es', last, last', hrun, hevents, hfirst, hsecond, hsynced, hfailed⟩

end Sync

end FileListCache
