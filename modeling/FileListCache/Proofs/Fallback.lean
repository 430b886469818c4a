/-
  FileListCache.Proofs.Fallback

  How a download falls back from server to server, whatever fetches, whatever that remembers and
  whatever it does to the world. Its calls are observed by a way to fetch that also remembers them
  (`Fetch.recorded`); to the download it is the same as the one it records (`run_recorded`).

  `Download.Asked` is the story of the calls, one constructor for each way a server is dealt with;
  what it says of addresses, messages and events is read off by induction. The addresses are those
  that a listing of the repository shows (`Program.listRepositories_expanded`).
-/

import FileListCache.Program
import FileListCache.Proofs.Vacancy

namespace FileListCache

variable {ε ε' α β σ κ : Type} {h : Host}

/-! ## Memory beside memory -/

/-- Without what it remembers on the right, `x` is `y`. -/
def Forgets (x : StateT (σ × κ) Run α) (y : StateT σ Run α) : Prop :=
  ∀ (w : World) (m : σ × κ), Settles w m x fun a m' w' => (y.run m.1).run w = ((a, m'.1), w')

theorem forgets_pure (a : α) : Forgets (pure a : StateT (σ × κ) Run α) (pure a) := fun _ _ => rfl

theorem forgets_tell (x : Run α) : Forgets (liftM x : StateT (σ × κ) Run α) (liftM x) :=
  fun _ _ => rfl

theorem forgets_bind {x : StateT (σ × κ) Run β} {y : StateT σ Run β}
    {f : β → StateT (σ × κ) Run α} {k : β → StateT σ Run α} (hx : Forgets x y)
    (hf : ∀ b, Forgets (f b) (k b)) : Forgets (x >>= f) (y >>= k) := by
  intro w m
  apply settles_bind
  refine settles_imp (hx w m) fun b m₁ w₁ hy => ?_
  refine settles_imp (hf b w₁ m₁) fun a m' w' hk => ?_
  have hrun : ((y >>= k).run m.1).run w =
      ((k ((y.run m.1).run w).1.1).run ((y.run m.1).run w).1.2).run ((y.run m.1).run w).2 := rfl
  rw [hrun, hy]
  exact hk

theorem forgets_run_tell_bind (x : Run β) {f : β → ExceptT ε (StateT (σ × κ) Run) α}
    {k : β → ExceptT ε (StateT σ Run) α} (hf : ∀ b, Forgets (f b).run (k b).run) :
    Forgets (liftM x >>= f).run (liftM x >>= k).run :=
  forgets_bind (forgets_tell x) hf

theorem forgets_run_lift_bind {x : StateT (σ × κ) Run β} {y : StateT σ Run β}
    {f : β → ExceptT ε (StateT (σ × κ) Run) α} {k : β → ExceptT ε (StateT σ Run) α}
    (hx : Forgets x y) (hf : ∀ b, Forgets (f b).run (k b).run) :
    Forgets (liftM x >>= f).run (liftM y >>= k).run :=
  forgets_bind hx hf

theorem forgets_noted {level : Level} {topic : Topic} {x : Attempt FileError Unit}
    {f : ExceptT ε (StateT (σ × κ) Run) α} {k : ExceptT ε (StateT σ Run) α}
    (hf : Forgets f.run k.run) :
    Forgets (do
      if let .error e ← x.run then
        World.note level topic e.message
      f : ExceptT ε (StateT (σ × κ) Run) α).run (do
      if let .error e ← x.run then
        World.note level topic e.message
      k : ExceptT ε (StateT σ Run) α).run := by
  refine forgets_run_tell_bind x.run fun r => ?_
  cases r with
  | ok u => exact hf
  | error e => exact forgets_run_tell_bind _ fun _ => hf

/-! ## Calls -/

/-- The warnings among the messages that were left. -/
def World.warnings (w : World) : List LogRecord := w.log.filter (·.level = .warn)

namespace Download

/-- A call of what fetches: what it was given, the world it found, what it came to and the world it
left. -/
structure Call where
  url : String
  filename : String
  before : World
  outcome : Except DownloadError String
  after : World

end Download

open Download (Call)

/-- The same way to fetch, which also remembers its calls in their order. -/
def Fetch.recorded (fetch : Fetch σ) : Fetch (σ × List Call) := fun url filename =>
  ExceptT.mk do
    let (s, calls) ← get
    let before ← (get : Run World)
    let (outcome, s') ← ((fetch url filename).run.run s : Run _)
    let after ← (get : Run World)
    set (s', calls ++ [⟨url, filename, before, outcome, after⟩])
    return outcome

theorem settles_recorded {fetch : Fetch σ} {url filename : String} {w : World} {s : σ}
    {calls : List Call} {Q : Except DownloadError String → σ × List Call → World → Prop}
    (h : ∀ r s' w', (((fetch url filename).run.run s).run w) = ((r, s'), w') →
      Q r (s', calls ++ [⟨url, filename, w, r, w'⟩]) w') :
    Settles w (s, calls) (fetch.recorded url filename).run Q :=
  h _ _ _ rfl

theorem forgets_recorded (fetch : Fetch σ) (url filename : String) :
    Forgets (fetch.recorded url filename).run (fetch url filename).run := fun _ _ => rfl

namespace Download

variable {fetch : Fetch σ} {g : Goal} {repo : Repository} {server : String}
  {servers : List String} {w w₁ w' v : World} {calls : List Call} {c : Call}
  {r : Except SyncError String}

theorem fromServers_recorded (servers : List String) :
    Forgets (fromServers h fetch.recorded g repo servers).run
      (fromServers h fetch g repo servers).run := by
  induction servers with
  | nil => exact forgets_pure _
  | cons server servers ih =>
    unfold fromServers
    refine forgets_noted (forgets_run_tell_bind _ fun _ =>
      forgets_run_lift_bind (forgets_recorded fetch _ _) fun r => ?_)
    cases r with
    | ok path => exact forgets_run_tell_bind _ fun _ => forgets_pure _
    | error e =>
      exact forgets_run_tell_bind _ fun _ => forgets_run_tell_bind _ fun _ =>
        forgets_run_tell_bind _ fun _ => ih

/-- Recording makes no difference to a download. -/
theorem run_recorded (h : Host) (fetch : Fetch σ) (g : Goal) (repo : Repository) :
    Forgets (run h fetch.recorded g repo).run (run h fetch g repo).run := by
  unfold run
  refine forgets_run_tell_bind _ fun _ => ?_
  by_cases hservers : repo.servers.isEmpty
  · rw [if_pos hservers, if_pos hservers]
    exact forgets_pure _
  · rw [if_neg hservers, if_neg hservers]
    exact fromServers_recorded repo.servers

/-! ## The story of the calls -/

/-- The message about a removal that failed. -/
def warningOf : Except FileError Unit → List LogRecord
  | .ok _ => []
  | .error e => [⟨.warn, .download, e.message⟩]

/-- The call was made: its outcome is what fetching came to, with something remembered. -/
def Call.IsOf (fetch : Fetch σ) (c : Call) : Prop :=
  ∃ s s', ((fetch c.url c.filename).run.run s).run c.before = ((c.outcome, s'), c.after)

/-- What lies between a world and the call for a server: the old list was removed if it could be. -/
structure Ready (h : Host) (fetch : Fetch σ) (g : Goal) (repo : Repository) (server : String)
    (w : World) (c : Call) : Prop where
  made : c.IsOf fetch
  url : c.url = g.url repo server
  filename : c.filename = repo.fileName
  vacant : Files.IsRemovable h w.tree (g.path repo) → Disk.IsVacant h c.before.tree (g.path repo)
  events : c.before.events = w.events
  log : c.before.log = w.log ++ warningOf (Files.removal h w.tree (g.path repo)) ++
    [⟨.debug, .download, "trying " ++ c.url⟩]

/-- The calls by which servers are asked in their order, starting in the world `w`. -/
inductive Asked (h : Host) (fetch : Fetch σ) (g : Goal) (repo : Repository) :
    List String → World → List Call → Except SyncError String → World → Prop
  | exhausted (w : World) :
      Asked h fetch g repo [] w [] (.error (.allMirrorsFailed repo.name repo.servers.length)) w
  | delivered {server : String} {servers : List String} {w w' : World} {c : Call} {path : String}
      (ready : Ready h fetch g repo server w c) (outcome : c.outcome = .ok path)
      (events : w'.events = c.after.events ++ [.downloaded repo.name c.url])
      (log : w'.log = c.after.log) : Asked h fetch g repo (server :: servers) w [c] (.ok path) w'
  | failed {server : String} {servers : List String} {w w₁ w' : World} {c : Call}
      {e : DownloadError} {calls : List Call} {r : Except SyncError String}
      (ready : Ready h fetch g repo server w c) (outcome : c.outcome = .error e)
      (events : w₁.events = c.after.events ++ [.mirrorFailed repo.name c.url e.message])
      (log : w₁.log = c.after.log ++ [⟨.warn, .download, "failed to download: " ++ c.url⟩,
        ⟨.debug, .download, c.url ++ ": " ++ e.message⟩])
      (tree : w₁.tree = c.after.tree) (rest : Asked h fetch g repo servers w₁ calls r w') :
      Asked h fetch g repo (server :: servers) w (c :: calls) r w'

/-- What is warned of is a removal that failed. -/
theorem settles_warned {ε α : Type} {s : σ} {x : Attempt FileError Unit}
    {rest : ExceptT ε (StateT σ Run) α} {Q : Except ε α → σ → World → Prop}
    (hx : Ends w x fun removed w₁ => ∀ w₂, w₂.tree = w₁.tree → w₂.events = w₁.events →
      w₂.log = w₁.log ++ warningOf removed → Settles w₂ s rest.run Q) :
    Settles w s (do
      if let .error e ← x.run then
        World.note .warn .download e.message
      rest : ExceptT ε (StateT σ Run) α).run Q := by
  apply settles_run_outcome_bind
  refine ends_imp hx fun removed w₁ hr => ?_
  cases removed with
  | ok u => exact hr w₁ rfl rfl (List.append_nil _).symm
  | error e => exact settles_run_tell_bind (hr _ rfl rfl rfl)

/-- Servers are asked by these calls. -/
theorem fromServers_asked (servers : List String) (w : World) (s : σ) (past : List Call) :
    Settles w (s, past) (fromServers h fetch.recorded g repo servers).run fun r m w' =>
      ∃ calls, m.2 = past ++ calls ∧ Asked h fetch g repo servers w calls r w' := by
  induction servers generalizing w s past with
  | nil => exact settles_pure ⟨[], (List.append_nil _).symm, .exhausted w⟩
  | cons server servers ih =>
    unfold fromServers
    apply settles_warned
    refine ends_imp (Files.remove_list g repo) fun removed w₁ hr w₂ htree hevents hlog => ?_
    obtain ⟨rfl, ⟨ss, rfl⟩, hvacant⟩ := hr
    apply settles_run_tell_bind
    apply settles_run_lift_bind
    apply settles_recorded
    intro o s' w₃ hmade
    generalize hc : (⟨_, _, _, o, w₃⟩ : Call) = c
    have hready : Ready h fetch g repo server w c := by
      subst hc
      refine ⟨⟨s, s', hmade⟩, rfl, rfl, ?_, hevents, ?_⟩
      · exact fun hremovable => htree ▸ hvacant hremovable
      · show w₂.log ++ _ = _
        rw [hlog]
        rfl
    cases o with
    | ok path =>
      refine settles_run_tell_bind (settles_pure ⟨[c], rfl, .delivered hready ?_ ?_ ?_⟩) <;>
      · subst hc
        rfl
    | error e =>
      apply settles_run_tell_bind
      apply settles_run_tell_bind
      apply settles_run_tell_bind
      refine settles_imp (ih _ s' _) fun r m w' hrest => ?_
      obtain ⟨calls, hm, hasked⟩ := hrest
      refine ⟨c :: calls, by rw [hm, List.append_assoc]; rfl, .failed (e := e) hready ?_ ?_ ?_ ?_
        hasked⟩
      · subst hc
        rfl
      · subst hc
        rfl
      · subst hc
        exact List.append_assoc _ _ _
      · subst hc
        rfl

/-! ## What the story says -/

/-- Servers are asked in their order, up to the first that delivers. -/
theorem Asked.urls (ha : Asked h fetch g repo servers w calls r w') :
    calls.map Call.url <+: servers.map (g.url repo) := by
  induction ha with
  | exhausted => exact List.nil_prefix
  | @delivered server servers _ _ c _ ready =>
    rw [List.map_singleton, ready.url, List.map_cons]
    exact List.prefix_append [_] _
  | failed ready _ _ _ _ _ ih =>
    rw [List.map_cons, ready.url, List.map_cons, List.prefix_cons_inj]
    exact ih

theorem Asked.ready (ha : Asked h fetch g repo servers w calls r w') :
    ∀ c ∈ calls, c.IsOf fetch ∧ c.filename = repo.fileName := by
  induction ha with
  | exhausted => rintro _ ⟨⟩
  | delivered ready =>
    intro c hc
    rw [List.mem_singleton.1 hc]
    exact ⟨ready.made, ready.filename⟩
  | failed ready _ _ _ _ _ ih =>
    intro c hc
    rcases List.mem_cons.1 hc with rfl | hc
    · exact ⟨ready.made, ready.filename⟩
    · exact ih c hc

/-- The trees in which the old list is removed for each call: the first one, and those that the
calls before have left. -/
def foundBy (t : Tree) (calls : List Call) : List (Tree × Call) :=
  (t :: calls.map fun c => c.after.tree).zip calls

/-- A call finds nothing at the path of the list if what stood there could be removed. -/
theorem Asked.vacant (ha : Asked h fetch g repo servers w calls r w') :
    ∀ found ∈ foundBy w.tree calls, Files.IsRemovable h found.1 (g.path repo) →
      Disk.IsVacant h found.2.before.tree (g.path repo) := by
  induction ha with
  | exhausted => rintro _ ⟨⟩
  | delivered ready =>
    intro found hfound
    obtain rfl := List.mem_singleton.1 hfound
    exact ready.vacant
  | failed ready _ _ _ tree _ ih =>
    intro found hfound
    -- The next removal finds the tree that the call has left.
    rcases List.mem_cons.1 hfound with rfl | hfound
    · exact ready.vacant
    · exact ih found (tree ▸ hfound)

/-- What fetches found nothing. -/
def Call.Failed (c : Call) : Prop := ∃ e, c.outcome = .error e

/-- The last call delivers, or every server was asked in vain. -/
theorem Asked.outcome (ha : Asked h fetch g repo servers w calls r w') :
    (∃ failed last path, calls = failed ++ [last] ∧ (∀ c ∈ failed, Call.Failed c) ∧
      last.outcome = .ok path ∧ r = .ok path) ∨
    ((∀ c ∈ calls, Call.Failed c) ∧ calls.map Call.url = servers.map (g.url repo) ∧
      r = .error (.allMirrorsFailed repo.name repo.servers.length)) := by
  induction ha with
  | exhausted => exact .inr ⟨by rintro _ ⟨⟩, rfl, rfl⟩
  | @delivered _ _ _ _ c path _ outcome =>
    exact .inl ⟨[], c, path, rfl, by rintro _ ⟨⟩, outcome, rfl⟩
  | @failed _ _ _ _ _ c e _ _ ready outcome _ _ _ _ ih =>
    rcases ih with ⟨failed, last, path, rfl, hfailed, hlast⟩ | ⟨hfailed, hurls, hr⟩
    · refine .inl ⟨c :: failed, last, path, rfl, fun c' hc' => ?_, hlast⟩
      rcases List.mem_cons.1 hc' with rfl | hc'
      · exact ⟨e, outcome⟩
      · exact hfailed c' hc'
    · refine .inr ⟨fun c' hc' => ?_, by rw [List.map_cons, hurls, ready.url, List.map_cons], hr⟩
      rcases List.mem_cons.1 hc' with rfl | hc'
      · exact ⟨e, outcome⟩
      · exact hfailed c' hc'

/-- A list that worlds hold grows by the first part before the first call, and after each call by
the next part, before the next call is made or the last world is reached. During the calls it may
grow by anything. -/
def Adds (f : World → List α) (last : World) : World → List Call → List (List α) → Prop
  | w, [], [part] => f last = f w ++ part
  | w, c :: calls, part :: parts => f c.before = f w ++ part ∧ Adds f last c.after calls parts
  | _, _, _ => False

/-- What was there already is part of what was added before that. -/
theorem Adds.prepend {f : World → List α} {early part : List α} {parts : List (List α)}
    (ha : Adds f w' w calls (part :: parts)) (hw : f w = f v ++ early) :
    Adds f w' v calls ((early ++ part) :: parts) := by
  cases calls with
  | nil =>
    cases parts with
    | nil => exact (show f w' = f w ++ part from ha).trans (by rw [hw, List.append_assoc])
    | cons part' parts => exact ha.elim
  | cons c calls =>
    obtain ⟨hbefore, hrest⟩ := ha
    exact ⟨by rw [hbefore, hw, List.append_assoc], hrest⟩

/-- What those who watch are told of a call. -/
def Call.verdict (repo : Repository) (c : Call) : Event :=
  match c.outcome with
  | .ok _ => .downloaded repo.name c.url
  | .error e => .mirrorFailed repo.name c.url e.message

/-- After each call those who watch are told of it, and of nothing else. -/
theorem Asked.events (ha : Asked h fetch g repo servers w calls r w') :
    Adds World.events w' w calls ([] :: calls.map fun c => [c.verdict repo]) := by
  induction ha with
  | exhausted => exact (List.append_nil _).symm
  | delivered ready outcome events _ =>
    refine ⟨by rw [ready.events, List.append_nil], ?_⟩
    simp only [List.map_cons, List.map_nil, Call.verdict, outcome]
    exact events
  | failed ready outcome events _ _ _ ih =>
    refine ⟨by rw [ready.events, List.append_nil], ?_⟩
    simp only [List.map_cons, Call.verdict, outcome]
    exact ih.prepend events

/-- The warning about a call that failed. -/
def Call.warning (c : Call) : List LogRecord :=
  match c.outcome with
  | .ok _ => []
  | .error _ => [⟨.warn, .download, "failed to download: " ++ c.url⟩]

/-- After each call that failed there is a warning about it, and no other if the old list could
always be removed. -/
theorem Asked.warnings (ha : Asked h fetch g repo servers w calls r w')
    (hremoved : ∀ found ∈ foundBy w.tree calls,
      Files.removal h found.1 (g.path repo) = .ok ()) :
    Adds World.warnings w' w calls ([] :: calls.map Call.warning) := by
  induction ha with
  | exhausted => exact (List.append_nil _).symm
  | delivered ready outcome _ log =>
    have hw := hremoved _ List.mem_cons_self
    refine ⟨?_, ?_⟩
    · simp [World.warnings, ready.log, hw, warningOf]
    · simp [Call.warning, outcome, Adds, World.warnings, log]
  | @failed _ _ w w₁ _ c _ calls _ ready outcome _ log tree _ ih =>
    have hw := hremoved _ List.mem_cons_self
    refine ⟨?_, ?_⟩
    · simp [World.warnings, ready.log, hw, warningOf]
    · rw [tree] at ih
      have hnext := ih fun found hfound => hremoved found (List.mem_cons_of_mem _ hfound)
      have hearly : w₁.warnings = c.after.warnings ++
          [⟨.warn, .download, "failed to download: " ++ c.url⟩] := by
        simp [World.warnings, log]
      simp only [List.map_cons, Call.warning, outcome]
      exact hnext.prepend hearly

end Download

/-! ## Listings -/

namespace Program

open CommandLine (Arguments)

/-- The lines by which a listing shows a repository. -/
def shown (colors : Bool) (r : Repository) : List LogRecord :=
  let name := Terminal.paint colors .cyan r.name
  if r.servers.isEmpty then
    [⟨.info, .commandRepos, name ++ " " ++ Terminal.paint colors .yellow "(no servers)"⟩]
  else
    ⟨.info, .commandRepos, name⟩ ::
      r.servers.map fun server => ⟨.info, .commandRepos, "  " ++ server⟩

theorem forM_note_log (servers : List String) (w : World) :
    ((servers.forM fun server => World.note .info .commandRepos ("  " ++ server)).run w).2.log =
      w.log ++ servers.map fun server => ⟨.info, .commandRepos, "  " ++ server⟩ := by
  induction servers generalizing w with
  | nil => exact (List.append_nil _).symm
  | cons server servers ih =>
    exact (ih _).trans (List.append_assoc _ [_] _)

theorem showRepository_log (colors : Bool) (r : Repository) (w : World) :
    ((showRepository colors r).run w).2.log = w.log ++ shown colors r := by
  unfold showRepository shown
  by_cases hservers : r.servers.isEmpty
  · rw [if_pos hservers]
    simp only [hservers, if_true]
    rfl
  · rw [if_neg hservers]
    simp only [hservers, Bool.false_eq_true, if_false]
    rw [World.run_bind, forM_note_log]
    exact List.append_assoc _ [_] _

theorem forM_showRepository_log (colors : Bool) (rs : List Repository) (w : World) :
    Ends w (rs.forM fun r => (showRepository colors r : Attempt ConfigError Unit)) fun _ w' =>
      w'.log = w.log ++ rs.flatMap (shown colors) := by
  induction rs generalizing w with
  | nil => exact ends_pure (List.append_nil _).symm
  | cons r rs ih =>
    refine ends_tell_bind (ends_imp (ih _) fun _ w' hw' => ?_)
    rw [hw', showRepository_log, List.append_assoc, List.flatMap_cons]

/-- A listing with addresses shows those by which the list of each repository would be asked for. -/
theorem listRepositories_expanded (a : Arguments) (s : Settings) (w : World)
    (hjson : a.json = false) :
    Ends w (listRepositories h a s true) fun r w' => ∀ text, r = .ok text →
      ∃ path repositories w₁, s.mirrorConfigPath h = .ok path ∧
        w.attempt (MirrorList.ofFile h path) = (.ok repositories, w₁) ∧ w'.log = w₁.log ++
          repositories.flatMap fun r => shown (!a.noColor) (expanded (s.architectureName h) r) := by
  unfold listRepositories
  refine ends_except_bind (fun path hpath => ?_) fun _ _ => by rintro _ ⟨⟩
  have hread : Ends w (MirrorList.ofFile h path) fun r w₁ =>
      w.attempt (MirrorList.ofFile h path) = (r, w₁) := rfl
  refine ends_bind hread (fun repositories w₁ hread => ?_) fun _ _ _ => by rintro _ ⟨⟩
  simp only [if_true, hjson, Bool.false_eq_true, if_false]
  refine ends_bind (forM_showRepository_log (!a.noColor) _ w₁) (fun _ w₂ hlog => ?_)
    fun _ _ _ => by rintro _ ⟨⟩
  refine ends_pure fun _ _ => ⟨path, repositories, w₁, hpath, hread, ?_⟩
  rw [hlog, List.flatMap_map]

end Program

/-! ## Falling back -/

namespace Download

variable {fetch : Fetch σ} {g : Goal} {repo : Repository} {w w' : World} {calls : List Call}
  {r : Except SyncError String}

/-- The calls of a download that started in the world `w`, its result and the world in the end. -/
structure Fallback (h : Host) (fetch : Fetch σ) (g : Goal) (repo : Repository) (w : World)
    (calls : List Call) (r : Except SyncError String) (w' : World) : Prop where
  made : ∀ c ∈ calls, c.IsOf fetch
  /-- The addresses come from the servers, one from each, in their order. -/
  urls : calls.map Call.url <+: (Program.expanded g.architecture repo).servers
  filename : ∀ c ∈ calls, c.filename = repo.fileName
  /-- No call finds anything at the path of the list, whatever stood there before, if the system
  lets go of that; where the removal succeeds it does (`Files.isRemovable_of_removal`). -/
  vacant : ∀ found ∈ foundBy w.tree calls, Files.IsRemovable h found.1 (g.path repo) →
    Disk.IsVacant h found.2.before.tree (g.path repo)
  /-- The first call that delivers is the last, or all servers were called in vain. -/
  outcome : (∃ failed last path, calls = failed ++ [last] ∧ (∀ c ∈ failed, Call.Failed c) ∧
      last.outcome = .ok path ∧ r = .ok path) ∨
    ((∀ c ∈ calls, Call.Failed c) ∧
      calls.map Call.url = (Program.expanded g.architecture repo).servers ∧
      r = .error (.allMirrorsFailed repo.name repo.servers.length))
  /-- The download tells of its start, and after each call of that call. -/
  events : Adds World.events w' w calls
    ([.downloading repo.name] :: calls.map fun c => [c.verdict repo])
  /-- It warns after each call that failed, and never else where the old list could be removed. -/
  warnings : (∀ found ∈ foundBy w.tree calls, Files.removal h found.1 (g.path repo) = .ok ()) →
    Adds World.warnings w' w calls ([] :: calls.map Call.warning)

/-- A download falls back from server to server. Whatever fetches, it is called for the addresses
that a listing shows for the repository, in that order and up to the first that delivers, each time
with the name of the list and with nothing at its path if what was there could be removed; nothing
else is told or warned of but the outcomes of these calls. -/
theorem run_falls_back (hservers : repo.servers ≠ []) (w : World) (s : σ) :
    (∃ calls r s' w', ((run h fetch g repo).run.run s).run w = ((r, s'), w') ∧
      ((run h fetch.recorded g repo).run.run (s, [])).run w = ((r, (s', calls)), w') ∧
      Fallback h fetch g repo w calls r w') ∧
    ∀ (a : CommandLine.Arguments) (settings : Settings) (u : World), a.json = false →
      settings.architectureName h = g.architecture →
      Ends u (Program.listRepositories h a settings true) fun listed u' => ∀ text,
        listed = .ok text → ∃ path repositories u₁, settings.mirrorConfigPath h = .ok path ∧
          u.attempt (MirrorList.ofFile h path) = (.ok repositories, u₁) ∧
          (repo ∈ repositories → ∃ front back, u'.log = u₁.log ++ front ++
            (⟨.info, .commandRepos, Terminal.paint (!a.noColor) .cyan repo.name⟩ ::
              (Program.expanded g.architecture repo).servers.map fun url =>
                ⟨.info, .commandRepos, "  " ++ url⟩) ++ back) := by
  constructor
  · have hrun : Settles w (s, []) (run h fetch.recorded g repo).run fun r m w' =>
        Fallback h fetch g repo w m.2 r w' := by
      unfold run
      apply settles_run_tell_bind
      rw [if_neg (by simpa using hservers)]
      refine settles_imp (fromServers_asked repo.servers _ s []) fun r m w' hr => ?_
      obtain ⟨calls, hm, ha⟩ := hr
      obtain rfl : m.2 = calls := hm
      refine ⟨fun c hc => (ha.ready c hc).1, ha.urls, fun c hc => (ha.ready c hc).2,
        ha.vacant, ha.outcome, ha.events.prepend rfl, fun hremoved => ?_⟩
      have hwarnings := ha.warnings hremoved
      have hearly : ((World.emit (.downloading repo.name)).run w).2.warnings = w.warnings ++ [] :=
        (List.append_nil _).symm
      exact hwarnings.prepend hearly
    have hplain := run_recorded h fetch g repo w (s, [])
    exact ⟨_, _, _, _, hplain, rfl, hrun⟩
  · intro a settings u hjson harch
    refine ends_imp (Program.listRepositories_expanded a settings u hjson) ?_
    intro _ u' hr text htext
    obtain ⟨path, repositories, u₁, hpath, hread, hlog⟩ := hr text htext
    refine ⟨path, repositories, u₁, hpath, hread, fun hrepo => ?_⟩
    obtain ⟨front, back, rfl⟩ := List.append_of_mem hrepo
    have hexpanded : (Program.expanded g.architecture repo).servers.isEmpty = false := by
      simpa [Program.expanded] using hservers
    rw [List.flatMap_append, List.flatMap_cons, harch, ← List.append_assoc, ← List.append_assoc,
      Program.shown, hexpanded] at hlog
    exact ⟨_, _, hlog⟩

/-- Finds nothing at one address and leaves half a list behind there; delivers from any other. -/
def stumbling : Fetch Unit := fun url filename => do
  if url = "http://one/core.files" then
    World.take (.put ["cache", filename] (.file [1]))
    throw (.http 404 url)
  else return Path.join "/cache" filename

theorem Call.IsOf.stumbles {c : Call} (hc : c.IsOf stumbling) :
    c.outcome = if c.url = "http://one/core.files" then .error (.http 404 c.url)
      else .ok (Path.join "/cache" c.filename) := by
  obtain ⟨s, s', hc⟩ := hc
  have houtcome := congrArg (fun r => r.1.1) hc
  unfold stumbling at houtcome
  split at houtcome
  · rename_i hone
    rw [if_pos hone]
    exact houtcome.symm
  · rename_i hone
    rw [if_neg hone]
    exact houtcome.symm

/-- The second of two servers delivers: both are called, and the second call finds nothing of what
the first has left. -/
theorem run_falls_back_once : ∃ calls w',
    ((run {} stumbling.recorded ⟨"/cache", "x86_64"⟩
      ⟨"core", ["http://one", "http://two"]⟩).run.run ((), [])).run Sync.oldCache =
        ((.ok "/cache/core.files", ((), calls)), w') ∧
    calls.map Call.url = ["http://one/core.files", "http://two/core.files"] ∧
    ∀ c ∈ calls, Disk.IsVacant {} c.before.tree "/cache/core.files" := by
  have hservers : (⟨"core", ["http://one", "http://two"]⟩ : Repository).servers ≠ [] := by decide
  have hexpanded : (Program.expanded "x86_64" ⟨"core", ["http://one", "http://two"]⟩).servers =
      ["http://one/core.files", "http://two/core.files"] := by decide +kernel
  obtain ⟨⟨calls, r, s', w', -, hrun, hfallback⟩, -⟩ :=
    @run_falls_back Unit {} stumbling ⟨"/cache", "x86_64"⟩ _ hservers Sync.oldCache ()
  obtain ⟨hmade, hurls, hfilename, hfound, houtcome, -, -⟩ := hfallback
  rw [hexpanded] at hurls houtcome
  have hvacant (c : Call) (hc : c ∈ calls) :
      Disk.IsVacant {} c.before.tree "/cache/core.files" := by
    -- Nothing is locked, so each of the two lists could be removed.
    have hcalls : (foundBy Sync.oldCache.tree calls).map Prod.snd = calls :=
      List.map_snd_zip (by simp)
    rw [← hcalls] at hc
    obtain ⟨found, hmem, rfl⟩ := List.mem_map.1 hc
    exact hfound found hmem fun _ _ => Disk.removable_of_isSteady Host.isSteady_default
  have hstumbles (c : Call) (hc : c ∈ calls) := (hmade c hc).stumbles
  have hfails (c : Call) (hc : c ∈ calls) (hfailed : c.Failed) :
      c.url = "http://one/core.files" := by
    obtain ⟨e, he⟩ := hfailed
    by_contra hone
    rw [hstumbles c hc, if_neg hone] at he
    cases he
  rcases houtcome with ⟨failed, last, path, rfl, hfailed, hlast, rfl⟩ | ⟨hfailed, hall, -⟩
  · have hlastMem : last ∈ failed ++ [last] := List.mem_append_right failed List.mem_cons_self
    have hone : last.url ≠ "http://one/core.files" := by
      intro hone
      rw [hstumbles last hlastMem, if_pos hone] at hlast
      cases hlast
    rw [hstumbles last hlastMem, if_neg hone, hfilename last hlastMem] at hlast
    refine ⟨_, w', ?_, ?_, hvacant⟩
    · rw [hrun, ← Except.ok.inj hlast]
      rfl
    · -- The last call is not the first, so it is the second of two.
      rcases failed with _ | ⟨c, _ | ⟨c', failed⟩⟩
      · simp [List.cons_prefix_cons, hone] at hurls
      · simpa [List.cons_prefix_cons] using hurls
      · have hlength := hurls.length_le
        simp at hlength
  · have htwo : "http://two/core.files" ∈ calls.map Call.url := by
      rw [hall]
      decide
    obtain ⟨c, hc, hurl⟩ := List.mem_map.1 htwo
    have hone := hfails c hc (hfailed c hc)
    rw [hurl] at hone
    exact absurd hone (by decide)

end Download

end FileListCache
