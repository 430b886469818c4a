/-
  FileListCache.Proofs.Preparation

  What a sync run works with, as a function of its command line, the host and the tree. Before the
  first repository is synced the program reads two files and checks what it was told. As long as
  no other process replaces files, all of that comes to what `Program.prepared` says and leaves
  messages behind, and nothing else; `Finds` says this of an attempt, with one rule for each way
  of putting attempts together. So a run is a preparation that fails, or one that gives a plan and
  then a sync run by that plan (`Program.ends_execute`).
-/

import FileListCache.Program
import FileListCache.Proofs.Splicing

namespace FileListCache

open World (Untouched)

/-! ## Attempts that only find something out -/

/-- The attempt comes to this outcome, and leaves messages at most. -/
def Finds {ε α : Type} (w : World) (x : Attempt ε α) (r : Except ε α) : Prop :=
  Ends w x fun r' w' => r' = r ∧ Untouched w w'

section Finds

variable {ε ε' α β : Type} {w : World}

theorem finds_pure (a : α) : Finds w (pure a : Attempt ε α) (.ok a) := ⟨rfl, .refl w⟩

/-- The rest may go by what was found. -/
theorem finds_bind {x : Attempt ε β} {r : Except ε β} {f : β → Attempt ε α}
    {g : β → Except ε α} (hx : Finds w x r)
    (hf : ∀ b w', r = .ok b → Untouched w w' → Finds w' (f b) (g b)) :
    Finds w (x >>= f) (r >>= g) := by
  apply ends_bind hx
  · intro b w' hr
    obtain ⟨rfl, hw⟩ := hr
    refine ends_imp (hf b w' rfl hw) fun r' w'' hr' => ?_
    exact ⟨hr'.1, hw.trans hr'.2⟩
  · intro e w' hr
    obtain ⟨rfl, hw⟩ := hr
    exact ⟨rfl, hw⟩

theorem finds_except_bind {x : Except ε β} {f : β → Attempt ε α} {g : β → Except ε α}
    (hf : ∀ b, x = .ok b → Finds w (f b) (g b)) : Finds w (liftM x >>= f) (x >>= g) := by
  apply ends_except_bind
  · intro b hb
    rw [hb]
    exact hf b hb
  · intro e he
    rw [he]
    exact ⟨rfl, .refl w⟩

theorem finds_adapt {x : Attempt ε' α} {r : Except ε' α} {f : ε' → ε} (hx : Finds w x r) :
    Finds w (x.adapt f) (r.mapError f) :=
  ends_adapt (ends_imp hx fun _ _ hr => ⟨congrArg _ hr.1, hr.2⟩)

theorem finds_note_bind {level : Level} {topic : Topic} {message : String}
    {f : Unit → Attempt ε α} {r : Except ε α} (hf : ∀ w', Untouched w w' → Finds w' (f ()) r) :
    Finds w (liftM (World.note level topic message) >>= f) r :=
  ends_note_bind fun w' hw => ends_imp (hf w' hw) fun _ _ hr => ⟨hr.1, hw.trans hr.2⟩

end Finds

variable {h : Host} {w : World} {t : Tree}

/-! ## Settings -/

namespace Settings

/-- The names in a settings file and their values; where there is no file, there are none. -/
def fieldsAt (h : Host) (t : Tree) (path : String) : Except ConfigError Toml.Fields :=
  match Disk.reading h t path with
  | .error e => if e.isMissing then .ok [] else .error (.read path e)
  | .ok bytes =>
    match Utf8.strict? bytes with
    | none => .error (.read path .notUtf8)
    | some text => ((Toml.document? text).map .ok).getD (.error .malformed)

/-- The settings in a file. -/
def stored (h : Host) (t : Tree) (path : String) : Except ConfigError Settings :=
  fieldsAt h t path >>= ofFields

variable {path : String} {e : IoError} {bytes : Bytes}

/-- Settings that are missing are those of an empty document. -/
theorem stored_of_missing (hread : Disk.reading h t path = .error e) (hmissing : e.isMissing) :
    stored h t path = .ok {} := by
  rw [stored, fieldsAt, hread]
  dsimp only
  rw [if_pos hmissing]
  rfl

theorem stored_of_unreadable (hread : Disk.reading h t path = .error e) (hthere : ¬ e.isMissing) :
    stored h t path = .error (.read path e) := by
  rw [stored, fieldsAt, hread]
  dsimp only
  rw [if_neg hthere]
  rfl

theorem stored_of_bytes (hread : Disk.reading h t path = .ok bytes) :
    stored h t path =
      match Utf8.strict? bytes with
      | none => .error (.read path .notUtf8)
      | some text => ofToml text := by
  rw [stored, fieldsAt, hread]
  dsimp only
  cases Utf8.strict? bytes with
  | none => rfl
  | some text =>
    dsimp only
    unfold ofToml
    cases Toml.document? text <;> rfl

/-- A load goes by what reading the file comes to; all that it says is a message for developers. -/
theorem load_ends {R : World → Prop} {path : Option String}
    (hread : Ends w (Disk.readAll h (path.getD (defaultPath h))) fun r w' =>
      r = Disk.reading h w.tree (path.getD (defaultPath h)) ∧ R w')
    (hnote : ∀ w' message, R w' → R ((World.note .debug .settings message).run w').2) :
    Ends w (load h path) fun r w' =>
      r = stored h w.tree (path.getD (defaultPath h)) ∧ R w' := by
  unfold load
  apply ends_outcome_bind
  refine ends_imp hread fun r w₁ hr => ?_
  obtain ⟨hread, hw₁⟩ := hr
  cases r with
  | error e =>
    dsimp only
    split
    · rename_i hmissing
      rw [stored_of_missing hread.symm hmissing]
      exact ends_tell_bind (ends_pure ⟨rfl, hnote w₁ _ hw₁⟩)
    · rename_i hthere
      rw [stored_of_unreadable hread.symm hthere]
      exact ends_throw ⟨rfl, hw₁⟩
  | ok bytes =>
    rw [stored_of_bytes hread.symm]
    dsimp only
    cases Utf8.strict? bytes with
    | none => exact ends_throw ⟨rfl, hw₁⟩
    | some text => exact ends_tell_bind (ends_except ⟨rfl, hnote w₁ _ hw₁⟩)

theorem load_finds (hquiet : w.tree.IsQuiet) (path : Option String) :
    Finds w (load h path) (stored h w.tree (path.getD (defaultPath h))) := by
  refine load_ends ?_ fun _ _ hw => hw.trans World.untouched_note
  rw [ends_iff (Disk.readAll_quiet hquiet _)]
  exact ⟨rfl, .refl w⟩

end Settings

/-! ## The mirror list -/

namespace MirrorList

/-- The repositories that a mirror list states, if this is what the tree is. -/
def repositoriesOf (h : Host) (t : Tree) (bytes : Bytes) : List Repository :=
  ((ofBytes h bytes).run { tree := t }).1

/-- The repositories of the mirror list that a path leads to. -/
def repositoriesAt (h : Host) (t : Tree) (path : String) :
    Except ConfigError (List Repository) := do
  let node ← (Disk.look h t path).mapError (.access path)
  let bytes ← (Disk.contentIn node).mapError (.read path)
  return repositoriesOf h t bytes

theorem repositoriesAt_eq_ok {path : String} {repositories : List Repository} :
    repositoriesAt h t path = .ok repositories ↔
      ∃ bytes, Disk.reading h t path = .ok bytes ∧ repositories = repositoriesOf h t bytes := by
  constructor
  · intro hok
    obtain ⟨node, hlook, hok⟩ := exists_of_bind_ok hok
    obtain ⟨bytes, hread, hok⟩ := exists_of_bind_ok hok
    cases hok
    have hreading := Disk.reading_eq_ok.2 ⟨node, eq_ok_of_mapError hlook, eq_ok_of_mapError hread⟩
    exact ⟨bytes, hreading, rfl⟩
  · rintro ⟨bytes, hread, rfl⟩
    obtain ⟨node, hlook, hread⟩ := Disk.reading_eq_ok.1 hread
    exact bind_of_ok (mapError_of_ok hlook) (bind_of_ok (mapError_of_ok hread) rfl)

theorem ofBytes_run (hquiet : w.tree.IsQuiet) (bytes : Bytes) :
    ((ofBytes h bytes).run w).1 = repositoriesOf h w.tree bytes ∧
      Untouched w ((ofBytes h bytes).run w).2 := by
  constructor
  · obtain ⟨hsame, -, -⟩ :=
      byTree_foldlM Draft.feed_byTree (linesOfBytes bytes) {} { tree := w.tree } w rfl
    exact congrArg Draft.repositories hsame
  · exact foldlM_feed_untouched hquiet _

theorem ofFile_finds (hquiet : w.tree.IsQuiet) (path : String) :
    Finds w (ofFile h path) (repositoriesAt h w.tree path) := by
  unfold ofFile repositoriesAt
  refine ends_adapt_bind (Disk.openRead_looks path) ?_ ?_
  · intro source w₁ hr
    obtain ⟨herr, hok, hsame⟩ := hr
    obtain rfl := hsame hquiet
    cases hlook : Disk.look h w₁.tree path with
    | error e => cases herr e hlook
    | ok node =>
      obtain ⟨source', hsource, hcontent⟩ := hok node hlook
      cases hsource
      refine finds_note_bind fun w₂ hw₂ => ends_get_bind ?_
      rw [hw₂.tree, hcontent]
      refine finds_except_bind fun content _ => ?_
      obtain ⟨hsame, hread⟩ := ofBytes_run (h := h) (w := w₂) (by rwa [hw₂.tree]) content
      rw [hw₂.tree] at hsame
      apply ends_tell_bind
      apply ends_tell_bind
      exact ⟨congrArg _ hsame, hread.trans World.untouched_note⟩
  · intro e w₁ hr
    obtain ⟨herr, hok, hsame⟩ := hr
    obtain rfl := hsame hquiet
    cases hlook : Disk.look h w₁.tree path with
    | error e' =>
      cases herr e' hlook
      exact ⟨rfl, .refl w₁⟩
    | ok node =>
      obtain ⟨source', hsource, -⟩ := hok node hlook
      cases hsource

end MirrorList

/-! ## How servers are asked -/

namespace Http.HeaderLine

/-- What the outcome of reading header lines says of these: all are well-formed, or one that is
not is reported. -/
def Explains (lines : List String) : Except String (List Header) → Prop
  | .ok _ => ∀ line ∈ lines, parse? line ≠ none
  | .error line => line ∈ lines ∧ parse? line = none

theorem Explains.cons {first : String} {lines : List String} {r : Except String (List Header)}
    (hfirst : parse? first ≠ none) (hrest : Explains lines r) : Explains (first :: lines) r := by
  cases r with
  | ok headers => exact List.forall_mem_cons.2 ⟨hfirst, hrest⟩
  | error line => exact ⟨List.mem_cons_of_mem _ hrest.1, hrest.2⟩

theorem parseAll_explains (lines : List String) : Explains lines (parseAll lines) := by
  unfold parseAll
  generalize ([] : List Header) = headers
  induction lines generalizing headers with
  | nil => exact List.forall_mem_nil _
  | cons first lines ih =>
    rw [List.foldlM_cons]
    cases hfirst : parse? first with
    | none => exact ⟨List.mem_cons_self, hfirst⟩
    | some header => exact (ih (insert headers header)).cons (by simp [hfirst])

end Http.HeaderLine

namespace Program

variable {s : Settings} {headerLines : Option (List String)}

theorem client_eq : client s headerLines =
    match s.proxy.filter fun proxy => !Http.Address.isProxy proxy with
    | some proxy => .error (.invalidProxy proxy)
    | none => do
      let headers ← (Http.HeaderLine.parseAll (headerLines.getD [])).mapError .invalidHeader
      return {
        userAgent := s.userAgent.getD ({} : Http.Client).userAgent
        headers
        proxy := s.proxy
        timeout := s.timeout } := by
  unfold client
  cases hproxy : s.proxy with
  | none => rfl
  | some proxy =>
    cases hvalid : Http.Address.isProxy proxy with
    | true =>
      simp only [Option.filter, hvalid]
      rfl
    | false =>
      simp only [Option.filter, hvalid]
      rfl

/-- Servers are asked as the settings say, and only if these and all header lines are
well-formed. -/
theorem of_client {c : Http.Client} (hok : client s headerLines = .ok c) :
    (∀ proxy, s.proxy = some proxy → Http.Address.isProxy proxy = true) ∧
      (∀ lines, headerLines = some lines →
        ∀ line ∈ lines, Http.HeaderLine.parse? line ≠ none) ∧
      c.userAgent = s.userAgent.getD ({} : Http.Client).userAgent ∧ c.proxy = s.proxy ∧
      c.timeout = s.timeout := by
  have hexplains := Http.HeaderLine.parseAll_explains (headerLines.getD [])
  rw [client_eq] at hok
  split at hok
  · cases hok
  · rename_i hproxy
    cases hparse : Http.HeaderLine.parseAll (headerLines.getD []) with
    | error line =>
      rw [hparse] at hok
      cases hok
    | ok headers =>
      rw [hparse] at hok hexplains
      cases hok
      refine ⟨by simpa using hproxy, ?_, rfl, rfl, rfl⟩
      rintro lines rfl
      exact hexplains

/-- What else is wrong is either the proxy or one of the lines. -/
theorem of_client_error {e : CommandError} (herr : client s headerLines = .error e) :
    (∃ proxy, s.proxy = some proxy ∧ Http.Address.isProxy proxy = false) ∨
      ∃ lines line, headerLines = some lines ∧ line ∈ lines ∧
        Http.HeaderLine.parse? line = none := by
  have hexplains := Http.HeaderLine.parseAll_explains (headerLines.getD [])
  rw [client_eq] at herr
  split at herr
  · rename_i proxy hproxy
    exact .inl ⟨proxy, by simpa using hproxy⟩
  · cases hparse : Http.HeaderLine.parseAll (headerLines.getD []) with
    | ok headers =>
      rw [hparse] at herr
      cases herr
    | error line =>
      rw [hparse] at hexplains
      cases headerLines with
      | none => cases hexplains.1
      | some lines => exact .inr ⟨lines, line, rfl, hexplains⟩

end Program

/-! ## Selected repositories -/

namespace Repository

variable {repositories selection : List Repository} {names : List String} {name : String}

/-- The repositories with the given names, or all. -/
def selected (repositories : List Repository) (names : List String) : List Repository :=
  if names = [] then repositories else repositories.filter fun r => r.name ∈ names

theorem select_eq_ok :
    select repositories names = .ok selection ↔
      selection = selected repositories names ∧
        ∀ name ∈ names, ∃ r ∈ repositories, r.name = name := by
  unfold select selected
  by_cases hnames : names = []
  · simp [hnames, eq_comm]
  · rw [if_neg (by simpa using hnames), if_neg hnames]
    cases hfind : names.find? fun n => !repositories.any fun r => r.name = n with
    | some missing =>
      refine ⟨nofun, fun hknown => ?_⟩
      obtain ⟨r, hr, hname⟩ := hknown.2 missing (List.mem_of_find?_eq_some hfind)
      have hnone := List.find?_some hfind
      simp only [Bool.not_eq_true', List.any_eq_false, decide_eq_true_eq] at hnone
      exact absurd hname (hnone r hr)
    | none =>
      have hknown : ∀ name ∈ names, ∃ r ∈ repositories, r.name = name := fun name hname => by
        simpa using List.find?_eq_none.1 hfind name hname
      simp [and_iff_left hknown, eq_comm (a := selection)]

/-- The name that is reported is that of no repository. -/
theorem unknown_of_select (herr : select repositories names = .error name) :
    name ∈ names ∧ ∀ r ∈ repositories, r.name ≠ name := by
  unfold select at herr
  split at herr
  · cases herr
  · split at herr
    · rename_i hfind
      cases herr
      refine ⟨List.mem_of_find?_eq_some hfind, fun r hr hname => ?_⟩
      have hnone := List.find?_some hfind
      simp only [Bool.not_eq_true', List.any_eq_false, decide_eq_true_eq] at hnone
      exact hnone r hr hname
    · cases herr

end Repository

/-! ## The whole preparation -/

namespace Program

open CommandLine (Arguments)

variable {a : Arguments} {s : Settings} {names words : List String}

/-- The path of the settings file. -/
def settingsPath (h : Host) (a : Arguments) : Except ConfigError String :=
  match a.config with
  | none => .ok (Settings.defaultPath h)
  | some path => (PathNotation.resolve h path).mapError fun e => .host (.path e)

theorem unresolved_of_settingsPath {e : ConfigError} (he : settingsPath h a = .error e) :
    ∃ path e', a.config = some path ∧ PathNotation.resolve h path = .error e' := by
  unfold settingsPath at he
  split at he
  · cases he
  · rename_i path hgiven
    cases hresolve : PathNotation.resolve h path with
    | error e' => exact ⟨path, e', hgiven, hresolve⟩
    | ok resolved =>
      rw [hresolve] at he
      cases he

/-- The settings of a run. -/
def settingsIn (h : Host) (t : Tree) (a : Arguments) : Except ConfigError Settings := do
  let path ← settingsPath h a
  return overridden a (← Settings.stored h t path)

/-- Where there is no settings file, the command line says all that is not as usual. -/
theorem settingsIn_of_missing {path : String} {e : IoError} (hpath : settingsPath h a = .ok path)
    (hread : Disk.reading h t path = .error e) (hmissing : e.isMissing) :
    settingsIn h t a = .ok (overridden a {}) :=
  bind_of_ok hpath (bind_of_ok (Settings.stored_of_missing hread hmissing) rfl)

/-- A file that is alone on the disk holds no settings. -/
theorem settingsIn_oneFile {contents : Bytes} (hpath : settingsPath h a = .ok "/c") :
    settingsIn h (Transcode.oneFile contents).tree a = .ok (overridden a {}) :=
  settingsIn_of_missing hpath (Disk.reading_of_error (Transcode.look_oneFile_missing
    (by decide) (by decide) (by decide) (show "c" ≠ "a" by decide))) rfl

/-- What a sync run with given settings works with. -/
def planIn (h : Host) (t : Tree) (a : Arguments) (s : Settings) (names : List String) :
    Except CommandError Plan := do
  let client ← client s a.headers
  let mirrorConfig ← (s.mirrorConfigPath h).mapError .config
  let repositories ← (MirrorList.repositoriesAt h t mirrorConfig).mapError .config
  let repositories ← (Repository.select repositories names).mapError
    fun name => .config (.unknownRepository name)
  let cache ← (s.cacheDirectory h).mapError .config
  return { client, mirrorConfig, repositories, goal := ⟨cache, s.architectureName h⟩ }

/-- What a sync run works with, or what is wrong with its settings. -/
def prepared (h : Host) (t : Tree) (a : Arguments) (names : List String) :
    Except CommandError Plan := do
  let s ← (settingsIn h t a).mapError .config
  planIn h t a s names

/-- What it takes for a plan to be the one that a run works with: the settings, the content of the
mirror list, and what is made of these. -/
structure Plan.Follows (p : Plan) (h : Host) (t : Tree) (a : Arguments) (names : List String)
    (s : Settings) (bytes : Bytes) : Prop where
  settings : settingsIn h t a = .ok s
  client : Program.client s a.headers = .ok p.client
  mirrorConfig : PathNotation.resolve h s.mirrorConfig = .ok p.mirrorConfig
  content : Disk.reading h t p.mirrorConfig = .ok bytes
  repositories : p.repositories =
    Repository.selected (MirrorList.repositoriesOf h t bytes) names
  known : ∀ name ∈ names, ∃ r ∈ MirrorList.repositoriesOf h t bytes, r.name = name
  cache : s.cacheDirectory h = .ok p.goal.cache
  architecture : p.goal.architecture = s.architectureName h

theorem prepared_eq_ok {p : Plan} :
    prepared h t a names = .ok p ↔ ∃ s bytes, p.Follows h t a names s bytes := by
  constructor
  · intro hp
    obtain ⟨s, hs, hp⟩ := exists_of_bind_ok hp
    obtain ⟨client, hclient, hp⟩ := exists_of_bind_ok hp
    obtain ⟨mirrorConfig, hmirror, hp⟩ := exists_of_bind_ok hp
    obtain ⟨repositories, hlist, hp⟩ := exists_of_bind_ok hp
    obtain ⟨selection, hselect, hp⟩ := exists_of_bind_ok hp
    obtain ⟨cache, hcache, hp⟩ := exists_of_bind_ok hp
    cases hp
    obtain ⟨bytes, hread, rfl⟩ := MirrorList.repositoriesAt_eq_ok.1 (eq_ok_of_mapError hlist)
    obtain ⟨hselected, hknown⟩ := Repository.select_eq_ok.1 (eq_ok_of_mapError hselect)
    exact ⟨s, bytes, eq_ok_of_mapError hs, hclient,
      eq_ok_of_mapError (eq_ok_of_mapError hmirror), hread, hselected, hknown,
      eq_ok_of_mapError hcache, rfl⟩
  · rintro ⟨s, bytes, hplan⟩
    have hlist := MirrorList.repositoriesAt_eq_ok.2 ⟨bytes, hplan.content, rfl⟩
    have hselect := Repository.select_eq_ok.2 ⟨hplan.repositories, hplan.known⟩
    have hgoal : (⟨p.goal.cache, s.architectureName h⟩ : Download.Goal) = p.goal := by
      rw [← hplan.architecture]
    refine bind_of_ok (mapError_of_ok hplan.settings) <| bind_of_ok hplan.client <|
      bind_of_ok (mapError_of_ok (mapError_of_ok hplan.mirrorConfig)) <|
      bind_of_ok (mapError_of_ok hlist) <| bind_of_ok (mapError_of_ok hselect) <|
      bind_of_ok (mapError_of_ok hplan.cache) ?_
    rw [hgoal]
    rfl

theorem settings_ends {R : World → Prop} (hw : R w)
    (hload : ∀ path, Ends w (Settings.load h path) fun r w' =>
      r = Settings.stored h w.tree (path.getD (Settings.defaultPath h)) ∧ R w') :
    Ends w (settings h a) fun r w' => r = settingsIn h w.tree a ∧ R w' := by
  have hfrom (path : Option String) :
      Ends w (do return overridden a (← Settings.load h path)) fun r w' => r = (do
        return overridden a (← Settings.stored h w.tree (path.getD (Settings.defaultPath h)))) ∧
          R w' := by
    refine ends_bind (hload path) (fun s w' hr => ?_) fun e w' hr => ?_
    · exact ends_pure ⟨by rw [← hr.1]; rfl, hr.2⟩
    · exact ⟨by rw [← hr.1]; rfl, hr.2⟩
  unfold settings settingsIn settingsPath
  cases a.config with
  | none => exact hfrom none
  | some path =>
    simp only [Option.mapM_some]
    generalize (PathNotation.resolve h path).mapError _ = resolved
    cases resolved with
    | error e => exact ends_throw ⟨rfl, hw⟩
    | ok path => exact hfrom (some path)

theorem settings_finds (hquiet : w.tree.IsQuiet) :
    Finds w (settings h a) (settingsIn h w.tree a) :=
  settings_ends (.refl w) (Settings.load_finds hquiet)

theorem plan_finds (hquiet : w.tree.IsQuiet) :
    Finds w (plan h a s names) (planIn h w.tree a s names) := by
  unfold plan planIn
  refine finds_except_bind fun client _ => finds_except_bind fun mirrorConfig _ => ?_
  refine finds_bind (finds_adapt (MirrorList.ofFile_finds hquiet mirrorConfig)) ?_
  intro repositories w' _ _
  exact finds_except_bind fun selected _ => finds_except_bind fun cache _ => finds_pure _

/-- How a sync command ends, by what the sync run comes to. -/
def verdict : Except SyncError Sync.Report → Except CommandError String
  | .error e => .error (.sync e)
  | .ok report =>
    if report.isSuccess then .ok "" else .error (.incomplete (report.failed.map (·.1)))

/-- A sync command fails in its preparation, or is a sync run by the plan that this gives. -/
theorem ends_execute {Q : Except CommandError String → World → Prop} (hquiet : w.tree.IsQuiet)
    (hcommand : a.command = .sync names)
    (hunprepared : ∀ e w', prepared h w.tree a names = .error e → Untouched w w' →
      Q (.error e) w')
    (hprepared : ∀ p w', prepared h w.tree a names = .ok p → Untouched w w' →
      Ends w' (Sync.run h p.client (isInteractive h a) p.goal p.repositories) fun r w₂ =>
        ∀ w₃, Untouched w₂ w₃ → Q (verdict r) w₃) : Ends w (execute h a) Q := by
  unfold prepared at hunprepared hprepared
  unfold execute
  refine ends_adapt_bind (settings_finds hquiet) ?_ ?_
  · intro s w₁ hr
    obtain ⟨hs, hw₁⟩ := hr
    rw [← hs] at hunprepared hprepared
    refine ends_note_bind fun w₂ hw₂ => ?_
    have hw₂ := hw₁.trans hw₂
    rw [hcommand]
    unfold sync
    refine ends_bind (R := fun r w' => Q (r.map fun _ => "") w') ?_ (fun _ _ hr => hr)
      fun _ _ hr => hr
    refine ends_bind (plan_finds (by rwa [hw₂.tree])) ?_ ?_
    · intro p w₃ hr
      obtain ⟨hp, hw₃⟩ := hr
      rw [hw₂.tree] at hp
      refine ends_note_bind fun w₄ hw₄ => ?_
      have hrun := hprepared p w₄ hp.symm (hw₂.trans (hw₃.trans hw₄))
      refine ends_adapt_bind hrun ?_ ?_
      · intro report w₅ hr
        unfold verdict at hr
        by_cases hsuccess : report.isSuccess
        · simp only [hsuccess, if_true] at hr ⊢
          exact ends_tell (hr _ World.untouched_note)
        · simp only [hsuccess] at hr ⊢
          exact ends_throw (hr _ (.refl w₅))
      · intro e w₅ hr
        exact hr w₅ (.refl w₅)
    · intro e w₃ hr
      obtain ⟨he, hw₃⟩ := hr
      rw [hw₂.tree] at he
      exact hunprepared e w₃ he.symm (hw₂.trans hw₃)
  · intro e w₁ hr
    obtain ⟨he, hw₁⟩ := hr
    rw [← he] at hunprepared
    exact hunprepared _ w₁ rfl hw₁

/-- The status and the error that tell how a command ended. -/
def Outcome.Tells (o : Outcome) : Except CommandError String → Prop
  | .ok text => o.status = 0 ∧ o.error = none ∧ o.text = text
  | .error e => o.status = 1 ∧ o.error = some e ∧ o.text = ""

/-- A run whose command line is understood tells how its command ended and shows what that added to
messages and events, and does nothing else. -/
theorem run_ends (hwords : Arguments.ofWords words = .ok a) :
    ((run h words).run w).1.Tells (w.attempt (execute h a)).1 ∧
      ((run h words).run w).1.lines = lines h a
        ((w.attempt (execute h a)).2.log.drop w.log.length)
        ((w.attempt (execute h a)).2.events.drop w.events.length) ∧
      ((run h words).run w).2 = (w.attempt (execute h a)).2 := by
  unfold run
  have hget (v : World) : (get : Run World).run v = (v, v) := rfl
  have hend : (execute h a).run.run w = w.attempt (execute h a) := rfl
  rw [hwords]
  dsimp only
  rw [World.run_bind, World.run_bind, World.run_bind, hget, hget, hend]
  cases (w.attempt (execute h a)).1 with
  | ok text => exact ⟨⟨rfl, rfl, rfl⟩, rfl, rfl⟩
  | error e => exact ⟨⟨rfl, rfl, rfl⟩, rfl, rfl⟩

theorem run_tells (hwords : Arguments.ofWords words = .ok a) :
    ((run h words).run w).1.Tells (w.attempt (execute h a)).1 ∧
      ((run h words).run w).2 = (w.attempt (execute h a)).2 := by
  obtain ⟨htells, -, hworld⟩ := run_ends (h := h) (w := w) hwords
  exact ⟨htells, hworld⟩

end Program

end FileListCache
