/-
  FileListCache.Proofs.Layers

  Where the settings of a sync run come from. A setting is looked for on the command line, then in
  the settings file, and has a usual value if it is in neither; `Program.Layered` states this of
  each setting that a sync run works with. The path of the cache is the exception: an environment
  variable decides it before either is asked, so that the option for it has no effect while that
  variable is set (`Program.run_overrules_cachePath`).
-/

import FileListCache.Proofs.Options
import FileListCache.Proofs.Verdict

namespace FileListCache

open World (Untouched)

/-! ## Values in a settings file -/

namespace Settings

variable {fields : Toml.Fields} {name : String} {s : Settings}

/-- The text that a settings file gives to a name. -/
def textIn? (fields : Toml.Fields) (name : String) : Option String :=
  match fields.find? name with
  | some (.text value) => some value
  | _ => none

/-- The number that a settings file gives to a name. -/
def numberIn? (fields : Toml.Fields) (name : String) : Option Nat :=
  match fields.find? name with
  | some (.integer n) => some n.toNat
  | _ => none

theorem textIn?_of_textField {value : Option String}
    (hok : textField fields name = .ok value) : value = textIn? fields name := by
  unfold textField at hok
  unfold textIn?
  split at hok <;> cases hok <;> simp [*]

theorem numberIn?_of_numberField {value : Option Nat}
    (hok : numberField fields name = .ok value) : value = numberIn? fields name := by
  unfold numberField at hok
  unfold numberIn?
  split at hok
  · cases hok
    simp [*]
  · split at hok <;> cases hok
    simp [*]
  · cases hok

/-- A settings file that is accepted gives each setting the value of its name, if that has one. -/
theorem of_ofFields (hok : ofFields fields = .ok s) :
    s.mirrorConfig = (textIn? fields "mirror_config").getD "/etc/pacman.conf" ∧
      s.cachePath = (textIn? fields "cache_path").getD "/var/cache/filesdb" ∧
      s.architecture = (textIn? fields "architecture").getD "auto" ∧
      s.userAgent = textIn? fields "user_agent" ∧ s.proxy = textIn? fields "proxy" ∧
      s.timeout = numberIn? fields "timeout" := by
  obtain ⟨mirrorConfig, hmirror, hok⟩ := exists_of_bind_ok hok
  obtain ⟨cachePath, hcache, hok⟩ := exists_of_bind_ok hok
  obtain ⟨architecture, harchitecture, hok⟩ := exists_of_bind_ok hok
  obtain ⟨userAgent, huserAgent, hok⟩ := exists_of_bind_ok hok
  obtain ⟨proxy, hproxy, hok⟩ := exists_of_bind_ok hok
  obtain ⟨timeout, htimeout, hok⟩ := exists_of_bind_ok hok
  cases hok
  rw [textIn?_of_textField hmirror, textIn?_of_textField hcache,
    textIn?_of_textField harchitecture, textIn?_of_textField huserAgent,
    textIn?_of_textField hproxy, numberIn?_of_numberField htimeout]
  exact ⟨rfl, rfl, rfl, rfl, rfl, rfl⟩

end Settings

namespace Program

open CommandLine (Arguments)
open Settings (textIn? numberIn?)

variable {h : Host} {w : World} {t : Tree} {a : Arguments} {p : Plan} {names words : List String}

/-! ## Layers -/

/-- The path of the cache that the environment names, unless it is blank. -/
def cacheVariable? (h : Host) : Option String :=
  (h.variableValue? "FILESDB_CACHE").filter fun path => Text.trimmed path ≠ ""

/-- What a plan works with is what the command line says, else what the settings file says, else
the usual; only the path of the cache is first of all what the environment says. -/
structure Plan.Layered (p : Plan) (h : Host) (a : Arguments) (fields : Toml.Fields) : Prop where
  mirrorConfig : PathNotation.resolve h
    ((a.mirrorConfig <|> textIn? fields "mirror_config").getD "/etc/pacman.conf") =
      .ok p.mirrorConfig
  cache : PathNotation.resolve h
    ((cacheVariable? h <|> a.cachePath <|> textIn? fields "cache_path").getD
      "/var/cache/filesdb") = .ok p.goal.cache
  architecture :
    let name := Text.trimmed
      ((a.architecture <|> textIn? fields "architecture").getD "auto")
    p.goal.architecture = if name = "" ∨ name = "auto" then h.machine else name
  userAgent : p.client.userAgent =
    (a.userAgent <|> textIn? fields "user_agent").getD ({} : Http.Client).userAgent
  proxy : p.client.proxy = (a.proxy <|> textIn? fields "proxy")
  timeout : p.client.timeout = (a.timeout <|> numberIn? fields "timeout")

theorem cacheDirectory_eq (h : Host) (s : Settings) :
    s.cacheDirectory h =
      (PathNotation.resolve h ((cacheVariable? h).getD s.cachePath)).mapError
        fun e => .host (.path e) := by
  unfold Settings.cacheDirectory cacheVariable?
  cases hvalue : h.variableValue? "FILESDB_CACHE" with
  | none => rfl
  | some path =>
    by_cases hblank : Text.trimmed path = ""
    · simp [hblank, Option.filter]
    · simp [hblank, Option.filter]

/-- Plans are layered over the fields of the settings file. -/
theorem layered_of_prepared (hp : prepared h t a names = .ok p) :
    ∃ path fields, settingsPath h a = .ok path ∧ Settings.fieldsAt h t path = .ok fields ∧
      p.Layered h a fields := by
  obtain ⟨s, bytes, hplan⟩ := prepared_eq_ok.1 hp
  obtain ⟨path, hpath, hs⟩ := exists_of_bind_ok hplan.settings
  obtain ⟨stored, hstored, hs⟩ := exists_of_bind_ok hs
  obtain ⟨fields, hfields, hstored⟩ := exists_of_bind_ok hstored
  obtain ⟨hmirror, hcache, harchitecture, huserAgent, hproxy, htimeout⟩ :=
    Settings.of_ofFields hstored
  obtain ⟨-, -, hclientAgent, hclientProxy, hclientTimeout⟩ := of_client hplan.client
  cases hs
  refine ⟨path, fields, hpath, hfields, ?_, ?_, ?_, ?_, ?_, ?_⟩
  · rw [Option.orElse_eq_orElse, Option.orElse_eq_or, Option.getD_or, ← hmirror]
    exact hplan.mirrorConfig
  · have hresolved := hplan.cache
    rw [cacheDirectory_eq] at hresolved
    simp only [Option.orElse_eq_orElse, Option.orElse_eq_or, Option.getD_or, ← hcache]
    exact eq_ok_of_mapError hresolved
  · rw [Option.orElse_eq_orElse, Option.orElse_eq_or, Option.getD_or, ← harchitecture]
    exact hplan.architecture
  · rw [hclientAgent, ← huserAgent]
    rfl
  · rw [hclientProxy, ← hproxy]
    rfl
  · rw [hclientTimeout, ← htimeout]
    rfl

/-- What a sync command works with. Every setting that a word of its command line gives is among
its arguments; and a run that passes the checks of its settings is a sync run by a plan that takes
each value from the arguments if they have one, else from the settings file if that has one, and
else takes the usual one. Before all of these the path of the cache is what the environment
names, if that is not blank. -/
theorem run_layers (hquiet : w.tree.IsQuiet) (hwords : Arguments.ofWords words = .ok a)
    (hcommand : a.command = .sync names) (hp : prepared h w.tree a names = .ok p) :
    (∀ s, ∀ word ∈ words.takeWhile (· ≠ "--"), CommandLine.Gives s word.toList → a.has s) ∧
    (∃ path fields, settingsPath h a = .ok path ∧ Settings.fieldsAt h w.tree path = .ok fields ∧
      p.Layered h a fields) ∧
    ∃ w₁, Untouched w w₁ ∧
      Untouched (w₁.attempt (Sync.run h p.client (isInteractive h a) p.goal p.repositories)).2
        ((run h words).run w).2 := by
  refine ⟨fun s word hword hs => CommandLine.has_of_ofWords hwords hword hs,
    layered_of_prepared hp, ?_⟩
  rw [(run_tells hwords).2]
  refine ends_execute (Q := fun _ w' => ∃ w₁, Untouched w w₁ ∧ Untouched
    (w₁.attempt (Sync.run h p.client (isInteractive h a) p.goal p.repositories)).2 w')
    hquiet hcommand (fun e w' he _ => ?_) fun p' w₁ hp' hw₁ => ?_
  · cases he.symm.trans hp
  · cases hp'.symm.trans hp
    exact fun w₃ hw₃ => ⟨w₁, hw₁, hw₃⟩

/-! ## The option that is overruled -/

/-- A host whose environment names a cache. -/
def rootedHost : Host := { environment := [("FILESDB_CACHE", "/")] }

/-- A command line that names another. -/
def overruledWords : List String :=
  ["-c", "/c", "--mirror-config", "/a", "--cache-path", "/b", "sync"]

/-- What it says. -/
def overruledArguments : Arguments where
  command := .sync []
  config := some "/c"
  mirrorConfig := some "/a"
  cachePath := some "/b"

/-- What a run works with if the mirror list is empty. -/
def overruledPlan : Plan := ⟨{}, "/a", [], ⟨"/", "x86_64"⟩⟩

theorem ofWords_overruled : Arguments.ofWords overruledWords = .ok overruledArguments := by
  decide +kernel

theorem prepared_overruled :
    prepared rootedHost (Transcode.oneFile []).tree overruledArguments [] = .ok overruledPlan := by
  have hpath : settingsPath rootedHost overruledArguments = .ok "/c" := by decide +kernel
  have hread : Disk.reading rootedHost (Transcode.oneFile []).tree "/a" = .ok [] :=
    Disk.reading_eq_ok.2 ⟨_, Transcode.look_oneFile [], rfl⟩
  exact prepared_eq_ok.2 ⟨_, [], settingsIn_oneFile hpath, rfl, by decide +kernel, hread,
    by decide +kernel, by simp, by decide +kernel, by decide +kernel⟩

theorem run_layers_overruled : overruledArguments.has .cachePath ∧
    ∃ fields, overruledPlan.Layered rootedHost overruledArguments fields := by
  have hlayers := run_layers (w := Transcode.oneFile []) (Transcode.oneFile_isQuiet [])
    ofWords_overruled rfl prepared_overruled
  obtain ⟨hgiven, ⟨path, fields, -, -, hlayered⟩, -⟩ := hlayers
  have hword : "--cache-path" ∈ overruledWords.takeWhile (· ≠ "--") := by decide
  exact ⟨hgiven .cachePath "--cache-path" hword .named, fields, hlayered⟩

/-- The option for the path of the cache is overruled without a word: the run succeeds, although
there is no directory where the option says that the cache is. -/
theorem run_overrules_cachePath :
    Arguments.ofWords overruledWords = .ok overruledArguments ∧
      overruledArguments.cachePath = some "/b" ∧
      Disk.look rootedHost (Transcode.oneFile []).tree "/b" = .error (.system .missing) ∧
      prepared rootedHost (Transcode.oneFile []).tree overruledArguments [] = .ok overruledPlan ∧
      overruledPlan.goal.cache = "/" ∧
      ((run rootedHost overruledWords).run (Transcode.oneFile [])).1.status = 0 := by
  have hmissing : Disk.look rootedHost (Transcode.oneFile []).tree "/b" =
      .error (.system .missing) :=
    Transcode.look_oneFile_missing (by decide) (by decide) (by decide) (show "b" ≠ "a" by decide)
  refine ⟨ofWords_overruled, rfl, hmissing, prepared_overruled, rfl, ?_⟩
  have hcheck : Files.ensureWritable rootedHost (Transcode.oneFile []).tree "/" = .ok () :=
    Files.ensureWritable_eq_ok.2 ⟨[], Disk.locate_root _ _ _, rfl, rfl⟩
  obtain ⟨htells, -⟩ := run_tells (h := rootedHost) (w := Transcode.oneFile []) ofWords_overruled
  have hcommand : overruledArguments.command = .sync [] := rfl
  obtain ⟨-, hsound⟩ := execute_verdict (h := rootedHost) (Transcode.oneFile_isQuiet []) hcommand
  obtain ⟨p, s, bytes, blocks, hplan, hall, hr⟩ := hsound (not_fault prepared_overruled hcheck)
  cases (prepared_eq_ok.2 ⟨s, bytes, hplan⟩).symm.trans prepared_overruled
  cases hall.each
  rw [hr] at htells
  exact htells.1

end Program

end FileListCache
