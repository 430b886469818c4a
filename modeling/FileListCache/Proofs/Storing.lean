/-
  FileListCache.Proofs.Storing

  Settings that are saved and read again. They are written as lines of a document (`entries`), so
  reading it finds them as they were (`ofToml_toToml`), whatever their texts hold. Therefore what
  a run prints when it is asked for the settings is printed again by any run that reads them from
  a file with that text. Other processes may replace the file at that time: a run reads the
  settings once, and gets what the file holds when it is opened (`ActsOnTree`: the tree decides
  what the reading comes to).
-/

import FileListCache.Proofs.Documents
import FileListCache.Proofs.Preparation

namespace FileListCache

variable {ε α β : Type}

/-! ## Work on the tree -/

/-- The tree decides what the attempt comes to and which steps it takes, and it does nothing
else. -/
def ActsOnTree (x : Attempt ε α) : Prop :=
  ∃ F : Tree → Except ε α × List Tree.Step,
    ∀ w : World, w.attempt x = ((F w.tree).1, w.taking (F w.tree).2)

namespace ActsOnTree

theorem pure (a : α) : ActsOnTree (pure a : Attempt ε α) :=
  ⟨fun _ => (.ok a, []), fun w => by rw [World.taking_nil]; rfl⟩

theorem throw (e : ε) : ActsOnTree (throw e : Attempt ε α) :=
  ⟨fun _ => (.error e, []), fun w => by rw [World.taking_nil]; rfl⟩

theorem except (x : Except ε α) : ActsOnTree (liftM x : Attempt ε α) := by
  cases x with
  | error e => exact throw e
  | ok a => exact pure a

theorem take (s : Tree.Step) : ActsOnTree (liftM (World.take s) : Attempt ε Unit) :=
  ⟨fun _ => (.ok (), [s]), fun _ => rfl⟩

theorem bind {x : Attempt ε β} {f : β → Attempt ε α} (hx : ActsOnTree x)
    (hf : ∀ b, ActsOnTree (f b)) : ActsOnTree (x >>= f) := by
  obtain ⟨F, hF⟩ := hx
  choose G hG using hf
  -- The rest goes on in the tree that the first part leaves.
  refine ⟨fun t => match F t with
    | (.ok b, ss) => ((G b (t.applyAll ss)).1, ss ++ (G b (t.applyAll ss)).2)
    | (.error e, ss) => (.error e, ss), fun w => ?_⟩
  rw [World.attempt_bind, hF]
  rcases hr : F w.tree with ⟨e | b, ss⟩
  · simp only [hr]
  · simp only [hr, hG, World.taking_taking]
    rfl

/-- The tree may be looked at. -/
theorem get_bind {f : World → Attempt ε α} (hf : ∀ w, ActsOnTree (f w))
    (htree : ∀ w w' : World, w'.tree = w.tree → f w' = f w) : ActsOnTree (get >>= f) := by
  choose F hF using hf
  refine ⟨fun t => F { tree := t } t, fun w => ?_⟩
  have hsame : f w = f { tree := w.tree } := htree { tree := w.tree } w rfl
  rw [← hF, ← hsame]
  rfl

end ActsOnTree

/-! ## Reading a file -/

namespace Disk

variable {h : Host}

theorem openRead_acts (p : String) : ActsOnTree (openRead h p) := by
  unfold openRead
  refine .get_bind (fun w => .bind (.except _) fun place => ?_) fun w w' hw => by rw [hw]
  split
  · exact .throw _
  · split
    · exact .bind (.take _) fun _ => .pure _
    · split
      · exact .bind (.take _) fun _ => .pure _
      · exact .bind (.take _) fun _ => .pure _
  · exact .pure _

theorem readAll_acts (p : String) : ActsOnTree (readAll h p) :=
  .bind (openRead_acts p) fun _ => .get_bind (fun _ => .except _) fun _ _ hw => by rw [hw]

end Disk

/-! ## Settings -/

namespace Settings

open Toml (Entry)

variable {s : Settings}

/-- The line that gives a name a text. -/
def textEntry (name value : String) : Entry :=
  ⟨name, .text value, Toml.Quoted.write value.toList⟩

/-- The line that gives a name a number. -/
def numberEntry (name : String) (n : Nat) : Entry := ⟨name, .integer n, Nat.toDigits 10 n⟩

/-- The lines of the settings as they are written. -/
def entries (s : Settings) : List Entry :=
  [textEntry "mirror_config" s.mirrorConfig, textEntry "cache_path" s.cachePath,
    textEntry "architecture" s.architecture] ++
  s.userAgent.toList.map (textEntry "user_agent") ++ s.proxy.toList.map (textEntry "proxy") ++
  s.timeout.toList.map (numberEntry "timeout")

theorem isRead_textEntry {name : String} (hnamed : name.toList ≠ [])
    (hbare : name.toList.all Toml.isBare) (value : String) :
    (textEntry name value).IsRead where
  named := hnamed
  bare := hbare
  reads rest := by
    have hread := Toml.value?_write Toml.deepest value.toList rest
    rwa [String.ofList_toList] at hread

theorem isRead_numberEntry {name : String} {n : Nat} (hnamed : name.toList ≠ [])
    (hbare : name.toList.all Toml.isBare) (hn : n ≤ Text.largestCount) :
    (numberEntry name n).IsRead where
  named := hnamed
  bare := hbare
  reads rest := Toml.value?_toDigits Toml.deepest hn rest

theorem isRead_entries (htimeout : ∀ n ∈ s.timeout, n ≤ Text.largestCount) :
    ∀ e ∈ s.entries, e.IsRead := by
  intro e he
  simp only [entries, List.mem_append, List.mem_cons, List.not_mem_nil, or_false, List.mem_map,
    Option.mem_toList] at he
  rcases he with (((rfl | rfl | rfl) | ⟨value, -, rfl⟩) | ⟨value, -, rfl⟩) | ⟨n, hn, rfl⟩
  · exact isRead_textEntry (by decide) rfl _
  · exact isRead_textEntry (by decide) rfl _
  · exact isRead_textEntry (by decide) rfl _
  · exact isRead_textEntry (by decide) rfl _
  · exact isRead_textEntry (by decide) rfl _
  · exact isRead_numberEntry (by decide) rfl (htimeout n hn)

theorem nodup_entries (s : Settings) : (s.entries.map Entry.name).Nodup := by
  unfold entries
  cases s.userAgent <;> cases s.proxy <;> cases s.timeout <;> simp [textEntry, numberEntry]

theorem textLine_eq (name value : String) :
    (textLine name value).toList = (textEntry name value).line := by
  simp [textLine, textEntry, Entry.line, String.toList_append]

theorem toToml_eq (s : Settings) : s.toToml = String.ofList (s.entries.flatMap Entry.line) := by
  apply String.toList_inj.1
  have htimeout (n : Nat) :
      ("timeout = " ++ toString n ++ "\n").toList = (numberEntry "timeout" n).line := by
    simp [numberEntry, Entry.line, String.toList_append, Nat.repr_eq_ofList_toDigits]
  simp only [toToml, entries, String.toList_append, textLine_eq, String.toList_ofList]
  have hoption {α : Type} (value : Option α) (write : α → String) (entry : α → Entry)
      (hline : ∀ a, (write a).toList = (entry a).line) :
      ((value.map write).getD "").toList = (value.toList.map entry).flatMap Entry.line := by
    cases value with
    | none => rfl
    | some a => simp [hline]
  rw [hoption s.userAgent _ _ (textLine_eq "user_agent"), hoption s.proxy _ _ (textLine_eq "proxy"),
    hoption s.timeout _ _ htimeout]
  simp only [List.flatMap_append, List.flatMap_cons, List.flatMap_nil, List.append_nil,
    List.append_assoc]

theorem textField_of_find? {fields : Toml.Fields} {name : String} {value : Option String}
    (hfind : fields.find? name = value.map .text) : textField fields name = .ok value := by
  rw [textField, hfind]
  cases value <;> rfl

theorem numberField_of_find? {fields : Toml.Fields} {name : String} {value : Option Nat}
    (hfind : fields.find? name = value.map fun n => .integer n)
    (hvalue : ∀ n ∈ value, n ≤ Text.largestCount) : numberField fields name = .ok value := by
  rw [numberField, hfind]
  cases value with
  | none => rfl
  | some n =>
    have hn := hvalue n rfl
    exact if_pos ⟨by omega, by omega⟩

theorem lookup_field_cons (e : Entry) (fields : Toml.Fields) (key : String) :
    List.lookup key (e.field :: fields) =
      if key = e.name then some e.value else fields.lookup key := by
  rw [Entry.field, List.lookup_cons]
  by_cases hkey : key = e.name
  · rw [if_pos hkey, hkey, beq_self_eq_true]
  · rw [if_neg hkey, beq_false_of_ne hkey]

/-- A setting that may be absent is looked up as it is. -/
theorem lookup_option {α : Type} (value : Option α) (entry : α → Entry) {name : String}
    (hname : ∀ a, (entry a).name = name) (key : String) :
    ((value.toList.map entry).map Entry.field).lookup key =
      if key = name then value.map fun a => (entry a).value else none := by
  cases value with
  | none => simp
  | some a => simp [lookup_field_cons, hname]

theorem find?_entries (s : Settings) (key : String) :
    Toml.Fields.find? (s.entries.map Entry.field) key =
      ((((if key = "mirror_config" then some (.text s.mirrorConfig)
        else if key = "cache_path" then some (.text s.cachePath)
        else if key = "architecture" then some (.text s.architecture) else none).or
      (if key = "user_agent" then s.userAgent.map .text else none)).or
      (if key = "proxy" then s.proxy.map .text else none)).or
      (if key = "timeout" then s.timeout.map fun n => .integer n else none)) := by
  have huser := lookup_option s.userAgent (textEntry "user_agent") (fun _ => rfl) key
  have hproxy := lookup_option s.proxy (textEntry "proxy") (fun _ => rfl) key
  have htimeout := lookup_option s.timeout (numberEntry "timeout") (fun _ => rfl) key
  unfold entries Toml.Fields.find?
  rw [List.map_append, List.map_append, List.map_append, List.lookup_append, List.lookup_append,
    List.lookup_append, huser, hproxy, htimeout]
  simp only [List.map_cons, List.map_nil, lookup_field_cons, List.lookup_nil]
  rfl

theorem ofFields_entries (htimeout : ∀ n ∈ s.timeout, n ≤ Text.largestCount) :
    ofFields (s.entries.map Entry.field) = .ok s := by
  have hfind := find?_entries s
  have hmirror : textField (s.entries.map Entry.field) "mirror_config" =
      .ok (some s.mirrorConfig) := textField_of_find? ((hfind _).trans (by simp))
  have hcache : textField (s.entries.map Entry.field) "cache_path" = .ok (some s.cachePath) :=
    textField_of_find? ((hfind _).trans (by simp))
  have harch : textField (s.entries.map Entry.field) "architecture" = .ok (some s.architecture) :=
    textField_of_find? ((hfind _).trans (by simp))
  have huser : textField (s.entries.map Entry.field) "user_agent" = .ok s.userAgent :=
    textField_of_find? ((hfind _).trans (by simp))
  have hproxy : textField (s.entries.map Entry.field) "proxy" = .ok s.proxy :=
    textField_of_find? ((hfind _).trans (by simp))
  have hseconds : numberField (s.entries.map Entry.field) "timeout" = .ok s.timeout :=
    numberField_of_find? ((hfind _).trans (by simp)) htimeout
  exact bind_of_ok hmirror <| bind_of_ok hcache <| bind_of_ok harch <| bind_of_ok huser <|
    bind_of_ok hproxy <| bind_of_ok hseconds rfl

/-- The settings come back from the text that they are written as. -/
theorem ofToml_toToml (htimeout : ∀ n ∈ s.timeout, n ≤ Text.largestCount) :
    ofToml s.toToml = .ok s := by
  rw [ofToml, toToml_eq, Toml.document?_entries (isRead_entries htimeout) (nodup_entries s)]
  exact ofFields_entries htimeout

/-- So they do from a file that holds it. -/
theorem stored_toToml {h : Host} {t : Tree} {path : String}
    (htimeout : ∀ n ∈ s.timeout, n ≤ Text.largestCount)
    (hread : Disk.reading h t path = .ok (Bytes.ofText s.toToml)) : stored h t path = .ok s := by
  rw [stored_of_bytes hread, Utf8.strict?_ofText]
  exact ofToml_toToml htimeout

/-! ## How long a transfer may take -/

theorem timeout_le_of_ofFields {fields : Toml.Fields} (hok : ofFields fields = .ok s) :
    ∀ n ∈ s.timeout, n ≤ Text.largestCount := by
  obtain ⟨mirrorConfig, -, hok⟩ := exists_of_bind_ok hok
  obtain ⟨cachePath, -, hok⟩ := exists_of_bind_ok hok
  obtain ⟨architecture, -, hok⟩ := exists_of_bind_ok hok
  obtain ⟨userAgent, -, hok⟩ := exists_of_bind_ok hok
  obtain ⟨proxy, -, hok⟩ := exists_of_bind_ok hok
  obtain ⟨timeout, htimeout, hok⟩ := exists_of_bind_ok hok
  cases hok
  rintro n hn
  obtain rfl : timeout = some n := hn
  unfold numberField at htimeout
  split at htimeout
  · cases htimeout
  · split at htimeout <;> cases htimeout
    omega
  · cases htimeout

end Settings

theorem Text.count?_le {value : String} {n : Nat} (hn : count? value = some n) :
    n ≤ largestCount := by
  unfold count? at hn
  dsimp only at hn
  split_ifs at hn with hdigits hlimit
  cases hn
  exact hlimit

/-- What a command line says was put together from options in front of the command and behind. -/
theorem CommandLine.exists_assemble {d : Draft} {words : List String} {a : Arguments}
    (h : readFront d words = .ok a) : ∃ front p behind, a = assemble front p behind := by
  induction words generalizing d with
  | nil =>
    obtain ⟨settled, -, h⟩ := exists_of_bind_ok h
    cases h
  | cons w rest ih =>
    unfold readFront at h
    split at h
    · split at h
      · split at h
        · obtain ⟨settled, -, h⟩ := exists_of_bind_ok h
          cases h
        · cases h
      · obtain ⟨next, -, h⟩ := exists_of_bind_ok h
        exact ih h
    · split at h
      · exact ih h
      · split at h
        · cases h
        · cases h
        · obtain ⟨behind, -, h⟩ := exists_of_bind_ok h
          obtain ⟨settled, -, h⟩ := exists_of_bind_ok h
          cases h
          exact ⟨_, _, _, rfl⟩

namespace Program

open CommandLine (Arguments)
open World (Untouched)

variable {h : Host} {w : World} {t : Tree} {a : Arguments} {s : Settings} {words : List String}

theorem timeout_le_of_ofWords (hwords : Arguments.ofWords words = .ok a) :
    ∀ n ∈ a.timeout, n ≤ Text.largestCount := by
  obtain ⟨front, p, behind, rfl⟩ := CommandLine.exists_assemble hwords
  intro n hn
  obtain ⟨value, -, hvalue⟩ := Option.bind_eq_some_iff.1 hn
  exact Text.count?_le hvalue

/-- Whatever the settings of a run come from, their text can be read. -/
theorem timeout_le_of_settingsIn (hwords : Arguments.ofWords words = .ok a)
    (hs : settingsIn h t a = .ok s) : ∀ n ∈ s.timeout, n ≤ Text.largestCount := by
  obtain ⟨path, -, hs⟩ := exists_of_bind_ok hs
  obtain ⟨saved, hsaved, hs⟩ := exists_of_bind_ok hs
  obtain ⟨fields, -, hfields⟩ := exists_of_bind_ok hsaved
  cases hs
  intro n hn
  replace hn : (a.timeout <|> saved.timeout) = some n := hn
  cases hsaid : a.timeout with
  | none =>
    rw [hsaid] at hn
    exact Settings.timeout_le_of_ofFields hfields n hn
  | some m =>
    rw [hsaid] at hn
    cases hn
    exact timeout_le_of_ofWords hwords n hsaid

/-! ## Runs -/

/-- The command line asks for the settings as a text that can be saved. -/
structure AsksForSettings (words : List String) (a : Arguments) : Prop where
  said : Arguments.ofWords words = .ok a
  command : a.command = .config
  plain : a.json = false

/-- The command line says nothing that stands in place of a setting. -/
structure OverridesNothing (a : Arguments) : Prop where
  mirrorConfig : a.mirrorConfig = none
  cachePath : a.cachePath = none
  architecture : a.architecture = none
  userAgent : a.userAgent = none
  proxy : a.proxy = none
  timeout : a.timeout = none

theorem OverridesNothing.overridden (ha : OverridesNothing a) (s : Settings) :
    overridden a s = s := by
  simp [Program.overridden, ha.mirrorConfig, ha.cachePath, ha.architecture, ha.userAgent, ha.proxy,
    ha.timeout]

/-- All that a run writes on the output. -/
def Outcome.printed (o : Outcome) : String := Terminal.written .output o.lines ++ o.text

/-- The run succeeds, and what it prints is the text. -/
def Prints (h : Host) (w : World) (words : List String) (text : String) : Prop :=
  ((run h words).run w).1.status = 0 ∧ ((run h words).run w).1.printed = text

/-- Between the two worlds nothing was said that is shown on the output. -/
structure Discreet (w w' : World) : Prop where
  events : w'.events = w.events
  log : ∃ more, w'.log = w.log ++ more ∧ ∀ m ∈ more, m.level ≠ .info

theorem discreet_taking (w : World) (ss : List Tree.Step) : Discreet w (w.taking ss) :=
  ⟨rfl, [], (List.append_nil _).symm, by simp⟩

theorem Discreet.refl (w : World) : Discreet w w := ⟨rfl, [], (List.append_nil _).symm, by simp⟩

theorem Discreet.trans {w' w'' : World} (hd : Discreet w w') (hd' : Discreet w' w'') :
    Discreet w w'' := by
  obtain ⟨more, hmore, hlevels⟩ := hd.log
  obtain ⟨more', hmore', hlevels'⟩ := hd'.log
  refine ⟨hd'.events.trans hd.events, more ++ more', ?_, fun m hm => ?_⟩
  · rw [hmore', hmore, List.append_assoc]
  · exact (List.mem_append.1 hm).elim (hlevels m) (hlevels' m)

theorem discreet_debug (w : World) (topic : Topic) (message : String) :
    Discreet w ((World.note .debug topic message).run w).2 :=
  ⟨rfl, [⟨.debug, topic, message⟩], rfl, by simp⟩

theorem load_discreet (path : Option String) :
    Ends w (Settings.load h path) fun r w' =>
      r = Settings.stored h w.tree (path.getD (Settings.defaultPath h)) ∧ Discreet w w' := by
  refine Settings.load_ends ?_ fun w' message hd => hd.trans (discreet_debug w' _ message)
  obtain ⟨F, hF⟩ := Disk.readAll_acts (h := h) (path.getD (Settings.defaultPath h))
  have htaking : Ends w (Disk.readAll h _) fun _ w' => ∃ ss, w' = w.taking ss :=
    (ends_iff (hF w)).2 ⟨_, rfl⟩
  refine ends_imp (ends_and (Disk.readAll_reads _) htaking) fun r w' hr => ?_
  obtain ⟨⟨hread, -⟩, ss, rfl⟩ := hr
  exact ⟨hread, discreet_taking w ss⟩

theorem settings_discreet :
    Ends w (settings h a) fun r w' => r = settingsIn h w.tree a ∧ Discreet w w' :=
  settings_ends (.refl w) load_discreet

/-- Asked for the settings, a run finds their text, and says nothing else on the output. -/
theorem execute_finds (ha : AsksForSettings words a) :
    Ends w (execute h a) fun r w' => Discreet w w' ∧
      r = ((settingsIn h w.tree a).map Settings.toToml).mapError .config := by
  unfold execute
  refine ends_adapt_bind settings_discreet ?_ ?_
  · rintro s w₁ ⟨hs, hd⟩
    rw [← hs, ha.command, ha.plain]
    exact ends_tell_bind (ends_pure ⟨hd.trans (discreet_debug w₁ _ _), rfl⟩)
  · rintro e w₁ ⟨he, hd⟩
    rw [← he]
    exact ⟨hd, rfl⟩

/-- What was said discreetly is not among what is printed. -/
theorem written_lines {log : List LogRecord} (hlog : ∀ m ∈ log, m.level ≠ .info) :
    Terminal.written .output (lines h a log []) = "" := by
  have hremarks (look : Terminal.Look) :
      ((log.filter (filter h a).shows).map look.line).filter (·.stream = .output) = [] := by
    refine List.filter_eq_nil_iff.2 fun line hline => ?_
    obtain ⟨m, hm, rfl⟩ := List.mem_map.1 hline
    have hlevel := hlog m (List.mem_of_mem_filter hm)
    simp [Terminal.Look.line, Terminal.streamOf, hlevel]
  have hevents (interactive : Bool) : Terminal.runLines (!a.noColor) interactive [] = [] := rfl
  unfold Terminal.written lines
  dsimp only
  rw [hevents, ite_self, List.nil_append, hremarks]
  rfl

theorem prints_of_settingsIn (ha : AsksForSettings words a)
    (hs : settingsIn h w.tree a = .ok s) : Prints h w words s.toToml := by
  obtain ⟨htells, hlines, -⟩ := run_ends (h := h) (w := w) ha.said
  obtain ⟨hdiscreet, hfinds⟩ := execute_finds (h := h) (w := w) ha
  obtain ⟨more, hmore, hlevels⟩ := hdiscreet.log
  rw [hs] at hfinds
  rw [hfinds] at htells
  rw [hmore, hdiscreet.events, List.drop_left, List.drop_length] at hlines
  refine ⟨htells.1, ?_⟩
  rw [Outcome.printed, hlines, written_lines hlevels, htells.2.2, String.empty_append]

theorem settingsIn_of_status (ha : AsksForSettings words a)
    (hstatus : ((run h words).run w).1.status = 0) : ∃ s, settingsIn h w.tree a = .ok s := by
  have htells := (run_tells (h := h) (w := w) ha.said).1
  obtain ⟨-, hfinds⟩ := execute_finds (h := h) (w := w) ha
  cases hs : settingsIn h w.tree a with
  | ok s => exact ⟨s, rfl⟩
  | error e =>
    rw [hs] at hfinds
    rw [hfinds] at htells
    cases hstatus.symm.trans htells.1

/-- Settings come back from where they are saved: from their text, from a file that holds it, and
in every run that is pointed to such a file, which prints the text once more. -/
structure Survives (s : Settings) : Prop where
  text : Settings.ofToml s.toToml = .ok s
  file : ∀ (h : Host) (w : World) (path : Option String),
    Disk.reading h w.tree (path.getD (Settings.defaultPath h)) = .ok (Bytes.ofText s.toToml) →
    (w.attempt (Settings.load h path)).1 = .ok s
  run : ∀ (h : Host) (w : World) (words : List String) (a : Arguments) (given path : String),
    AsksForSettings words a → OverridesNothing a → a.config = some given →
    PathNotation.resolve h given = .ok path →
    Disk.reading h w.tree path = .ok (Bytes.ofText s.toToml) → Prints h w words s.toToml

theorem survives (htimeout : ∀ n ∈ s.timeout, n ≤ Text.largestCount) : Survives s where
  text := Settings.ofToml_toToml htimeout
  file h w path hread := by
    obtain ⟨hload, -⟩ := load_discreet (h := h) (w := w) path
    exact hload.trans (Settings.stored_toToml htimeout hread)
  run h w words a given path ha hnothing hgiven hpath hread := by
    have hsettingsPath : settingsPath h a = .ok path := by
      rw [settingsPath, hgiven]
      exact mapError_of_ok hpath
    refine prints_of_settingsIn ha ?_
    refine bind_of_ok hsettingsPath (bind_of_ok (Settings.stored_toToml htimeout hread) ?_)
    rw [hnothing.overridden]
    rfl

/-- Settings survive being saved, whatever their texts are. What a run prints when it is asked for
its settings is their text, so a run that is pointed to a file with what another printed prints
the same. -/
theorem settings_survive :
    (∀ s : Settings, (∀ n ∈ s.timeout, n ≤ Text.largestCount) → Survives s) ∧
      ∀ (h : Host) (w : World) (words : List String) (a : Arguments),
        AsksForSettings words a → ((run h words).run w).1.status = 0 →
        ∃ s, settingsIn h w.tree a = .ok s ∧ ((run h words).run w).1.printed = s.toToml ∧
          Survives s := by
  refine ⟨fun s htimeout => survives htimeout, fun h w words a ha hstatus => ?_⟩
  obtain ⟨s, hs⟩ := settingsIn_of_status ha hstatus
  exact ⟨s, hs, (prints_of_settingsIn ha hs).2,
    survives (timeout_le_of_settingsIn ha.said hs)⟩

/-- Settings with texts that hold quotes, escapes, line breaks and lines of settings. -/
def awkward : Settings where
  mirrorConfig := "a\"'\\\n\"\"\"'''\x00"
  cachePath := "timeout = 5\n[table]\n"
  architecture := ""
  userAgent := some "\r'''''"
  timeout := some (2 ^ 63 - 1)

/-- A command line that asks for the settings in a file. -/
def savedWords : List String := ["-c", "/a", "config"]

/-- What it says. -/
def savedArguments : Arguments where
  command := .config
  config := some "/a"

/-- A world with a file that holds the text of these settings. -/
def savedWorld : World := Transcode.oneFile (Bytes.ofText awkward.toToml)

theorem settings_survive_awkward :
    Survives awkward ∧ Prints {} savedWorld savedWords awkward.toToml ∧
      ∃ s, settingsIn {} savedWorld.tree savedArguments = .ok s ∧ s.toToml = awkward.toToml ∧
        Survives s := by
  have hsurvives : Survives awkward := settings_survive.1 awkward (by decide)
  have hasks : AsksForSettings savedWords savedArguments := ⟨by decide +kernel, rfl, rfl⟩
  have hread : Disk.reading {} savedWorld.tree "/a" = .ok (Bytes.ofText awkward.toToml) :=
    Disk.reading_eq_ok.2 ⟨_, Transcode.look_oneFile _, rfl⟩
  have hprints : Prints {} savedWorld savedWords awkward.toToml :=
    hsurvives.run {} savedWorld savedWords savedArguments "/a" "/a" hasks
      ⟨rfl, rfl, rfl, rfl, rfl, rfl⟩ rfl (by decide +kernel) hread
  obtain ⟨s, hs, hprinted, hsaved⟩ :=
    settings_survive.2 {} savedWorld savedWords savedArguments hasks hprints.1
  exact ⟨hsurvives, hprints, s, hs, hprinted.symm.trans hprints.2, hsaved⟩

end Program

end FileListCache
