/-
  FileListCache.Proofs.Sections

  What a mirror list says, without a reader. A line is a section header or gives a value to a key
  (`Line.heading?`, `Line.valueOf?`); the repositories are the sections in the order in which they
  are first opened (`sectionNames`); and the servers of a repository are what the lines add that
  stand in its section, however often the section is left and opened again (`serversIn`).

  The reader goes through the lines once and keeps the active section and the repositories so far.
  That this is enough is one equation, `Draft.foldlM_feed`: the draft after any lines is the one
  that the lines describe (`Draft.ofLines`), and each further line changes both alike.
-/

import FileListCache.MirrorList.Reader
import FileListCache.Proofs.Characters
import FileListCache.Proofs.Replacement
import Mathlib.Data.List.Basic
import Mathlib.Data.List.TakeWhile

namespace FileListCache

namespace Disk

/-! ## Files that are read at once -/

variable {h : Host} {w : World} {t : Tree}

/-- What comes of reading whatever stands at a place. -/
def contentIn : Node → Except IoError Bytes
  | .file content | .contested content .. => .ok content
  | .directory => .error (.system .isDirectory)
  | _ => .ok []

/-- What comes of reading whatever a path leads to. -/
def reading (h : Host) (t : Tree) (p : String) : Except IoError Bytes :=
  (look h t p).bind contentIn

theorem reading_of_error {p : String} {e : IoError} (he : look h t p = .error e) :
    reading h t p = .error e := by
  rw [reading, he]
  rfl

theorem reading_eq_ok {p : String} {bytes : Bytes} :
    reading h t p = .ok bytes ↔ ∃ node, look h t p = .ok node ∧ contentIn node = .ok bytes := by
  unfold reading
  cases look h t p with
  | error e => simp [Except.bind]
  | ok node => simp [Except.bind]

/-- The content of the file that a path leads to; anything else has none. -/
def fileAt (h : Host) (t : Tree) (p : String) : Bytes :=
  match look h t p with
  | .ok (.file content) | .ok (.contested content ..) => content
  | _ => []

theorem fileAt_eq (t : Tree) (p : String) :
    fileAt h t p = (reading h t p).toOption.getD [] := by
  unfold fileAt reading
  cases look h t p with
  | error e => rfl
  | ok node => cases node <;> rfl

/-- What can be opened is what can be looked at, and what is read is the content at that time, also
if another process replaces the file then. Where none does, opening leaves no trace. -/
theorem openRead_looks (p : String) :
    Ends w (openRead h p) fun r w' =>
      (∀ e, look h w.tree p = .error e → r = .error e) ∧
      (∀ node, look h w.tree p = .ok node →
        ∃ source, r = .ok source ∧ contentOf w'.tree source = contentIn node) ∧
      (w.tree.IsQuiet → w' = w) := by
  unfold openRead
  rw [look_eq]
  apply ends_get_bind
  apply ends_except_bind
  · intro l hl
    rw [hl, Except.bind]
    cases hnode : w.tree.find? l with
    | none =>
      refine ends_throw ⟨fun e he => ?_, (fun _ hlook => by cases hlook), fun _ => rfl⟩
      cases he
      rfl
    | some node =>
      cases node with
      | contested content opens fate =>
        have hloud : w.tree.IsQuiet → False := fun hquiet => hquiet l content opens fate hnode
        by_cases hopens : 1 < opens
        · simp only [hopens, if_true]
          refine ends_tell_bind (ends_pure ⟨(fun _ he => by cases he), fun node hsome => ?_,
            fun hquiet => (hloud hquiet).elim⟩)
          cases hsome
          exact ⟨_, rfl, rfl⟩
        · simp only [hopens, if_false]
          cases fate <;>
          · refine ends_tell_bind (ends_pure ⟨(fun _ he => by cases he), fun node hsome => ?_,
              fun hquiet => (hloud hquiet).elim⟩)
            cases hsome
            exact ⟨_, rfl, rfl⟩
      | file | directory | link | fullDevice =>
        refine ends_pure ⟨(fun _ he => by cases he), fun node hsome => ⟨_, rfl, ?_⟩, fun _ => rfl⟩
        cases hsome
        simp only [contentOf, hnode, contentIn]
  · intro e he
    rw [he]
    refine ⟨fun e he => ?_, (fun _ hlook => by cases hlook), fun _ => rfl⟩
    cases he
    rfl

/-- Reading all of a file gives what it holds when it is opened. -/
theorem readAll_reads (p : String) :
    Ends w (readAll h p) fun r w' => r = reading h w.tree p ∧ (w.tree.IsQuiet → w' = w) := by
  unfold readAll reading
  refine ends_bind (openRead_looks p) (fun source w' hr => ?_) fun e w' hr => ?_
  · obtain ⟨herr, hok, hsame⟩ := hr
    cases hlook : look h w.tree p with
    | error e => cases herr e hlook
    | ok node =>
      obtain ⟨source', hsource, hcontent⟩ := hok node hlook
      cases hsource
      exact ends_get_bind (ends_except ⟨hcontent, hsame⟩)
  · obtain ⟨herr, hok, hsame⟩ := hr
    cases hlook : look h w.tree p with
    | error e' =>
      cases herr e' hlook
      exact ⟨rfl, hsame⟩
    | ok node =>
      obtain ⟨source', hsource, -⟩ := hok node hlook
      cases hsource

/-- Where no other process replaces files, reading all of a file leaves no trace. -/
theorem readAll_quiet (hquiet : w.tree.IsQuiet) (p : String) :
    w.attempt (readAll h p) = (reading h w.tree p, w) := by
  obtain ⟨hreading, hsame⟩ := readAll_reads (h := h) (w := w) p
  exact Prod.ext hreading (hsame hquiet)

/-- What can be read from what was opened; nothing from what was not. -/
def readable (t : Tree) : Except IoError Source → Bytes
  | .ok source => (contentOf t source).toOption.getD []
  | .error _ => []

/-- What can be read from a file is its content at the time when it is opened. -/
theorem openRead_readable (p : String) :
    Ends w (openRead h p) fun r w' => readable w'.tree r = fileAt h w.tree p := by
  refine ends_imp (openRead_looks p) fun r w' hr => ?_
  obtain ⟨herr, hok, -⟩ := hr
  rw [fileAt_eq, reading]
  cases hlook : look h w.tree p with
  | error e =>
    rw [herr e hlook]
    rfl
  | ok node =>
    obtain ⟨source, rfl, hcontent⟩ := hok node hlook
    rw [readable, hcontent]
    rfl

end Disk

namespace MirrorList

/-! ## Lines -/

namespace Line

/-- The name in a section header: what stands between brackets that enclose the whole line. -/
def heading? (raw : List Char) : Option String :=
  let line := content raw
  if line.head? = some '[' ∧ line.getLast? = some ']' then some (String.ofList line.tail.dropLast)
  else none

/-- The value that a line, unless it is a header, gives to a key: all behind the first equals
sign. -/
def valueOf? (key : String) (raw : List Char) : Option String :=
  let line := content raw
  if heading? raw = none ∧ '=' ∈ line ∧ Text.trim (line.takeWhile (· ≠ '=')) = key.toList then
    some (String.ofList (Text.trim (line.dropWhile (· ≠ '=')).tail))
  else none

variable {raw : List Char} {name key value : String}

theorem bracketed?_eq (line : List Char) :
    bracketed? line =
      if line.head? = some '[' ∧ line.getLast? = some ']' then some line.tail.dropLast
      else none := by
  unfold bracketed?
  split
  · rename_i rest
    cases rest <;> simp
  · rename_i hline
    rw [if_neg]
    intro hr
    obtain ⟨hhead, -⟩ := hr
    cases line with
    | nil => cases hhead
    | cons c rest =>
      cases hhead
      exact hline rest rfl

/-- What the reader makes of a line, by the two questions that can be asked of it. -/
theorem ofText?_eq (raw : List Char) :
    ofText? raw =
      match heading? raw with
      | some name => some (.header name)
      | none =>
        if '=' ∈ content raw then
          some (.directive (String.ofList (Text.trim ((content raw).takeWhile (· ≠ '='))))
            (String.ofList (Text.trim ((content raw).dropWhile (· ≠ '=')).tail)))
        else if content raw = [] then none
        else some (.other (String.ofList (content raw))) := by
  unfold ofText? heading?
  simp only [bracketed?_eq, Text.splitFirst_eq]
  by_cases hempty : content raw = []
  · simp [hempty]
  · rw [if_neg (by simpa using hempty)]
    by_cases hbrackets : (content raw).head? = some '[' ∧ (content raw).getLast? = some ']'
    · simp only [if_pos hbrackets]
    · simp only [if_neg hbrackets, if_neg hempty]
      by_cases hequals : '=' ∈ content raw
      · simp only [if_pos hequals]
      · simp only [if_neg hequals]

theorem ofText?_eq_header : ofText? raw = some (.header name) ↔ heading? raw = some name := by
  rw [ofText?_eq]
  cases heading? raw with
  | some other => simp
  | none =>
    simp only [reduceCtorEq, iff_false]
    split
    · simp
    · split <;> simp

theorem ofText?_eq_directive :
    ofText? raw = some (.directive key value) ↔ valueOf? key raw = some value := by
  rw [ofText?_eq, valueOf?]
  cases heading? raw with
  | some other => simp
  | none =>
    by_cases hequals : '=' ∈ content raw
    · simp only [hequals, if_true, true_and]
      constructor
      · intro hr
        cases hr
        rw [if_pos String.toList_ofList.symm]
      · intro hr
        split at hr
        · rename_i hkey
          cases hr
          rw [hkey, String.ofList_toList]
        · cases hr
    · simp only [hequals, if_false, false_and, and_false]
      split <;> simp

theorem valueOf?_of_directive (hline : ofText? raw = some (.directive key value))
    (key' : String) : valueOf? key' raw = if key' = key then some value else none := by
  by_cases hkey : key' = key
  · rw [if_pos hkey, hkey]
    exact ofText?_eq_directive.1 hline
  · rw [if_neg hkey]
    cases hvalue : valueOf? key' raw with
    | none => rfl
    | some value' =>
      cases hline.symm.trans (ofText?_eq_directive.2 hvalue)
      exact absurd rfl hkey

theorem valueOf?_eq_none (hline : ∀ key value, ofText? raw ≠ some (.directive key value)) :
    valueOf? key raw = none := by
  cases hvalue : valueOf? key raw with
  | none => rfl
  | some value => exact absurd (ofText?_eq_directive.2 hvalue) (hline key value)

end Line

variable {h : Host} {w : World} {t : Tree} {d : Draft} {raw line : List Char}
  {lines : List (List Char)} {name key value server path : String} {servers servers' : List String}

/-! ## Sections -/

/-- The section holds no repository. -/
def IsReserved (name : String) : Prop := name = optionsName ∨ name = ""

instance (name : String) : Decidable (IsReserved name) := inferInstanceAs (Decidable (_ ∨ _))

/-- The sections that hold repositories, in the order in which they are first opened. -/
def sectionNames (lines : List (List Char)) : List String :=
  ((lines.filterMap Line.heading?).filter fun name => ¬ IsReserved name).eraseDups

/-- The name in the last header among the lines. -/
def lastHeading? (lines : List (List Char)) : Option String :=
  (lines.filterMap Line.heading?).getLast?

theorem lastHeading?_concat :
    lastHeading? (lines ++ [line]) = (Line.heading? line).or (lastHeading? lines) := by
  unfold lastHeading?
  cases hline : Line.heading? line <;> simp [List.filterMap_append, hline]

theorem mem_sectionNames :
    name ∈ sectionNames lines ↔ name ∈ lines.filterMap Line.heading? ∧ ¬ IsReserved name := by
  simp [sectionNames, List.mem_eraseDups]

theorem eraseDups_concat {α : Type} [BEq α] [LawfulBEq α] (xs : List α) (x : α) :
    (xs ++ [x]).eraseDups = if x ∈ xs then xs.eraseDups else xs.eraseDups ++ [x] := by
  rw [List.eraseDups_append]
  split <;> simp_all [List.removeAll, List.eraseDups_cons]

/-- A header adds its section unless that is reserved or was opened before; no other line adds
one. -/
theorem sectionNames_concat :
    sectionNames (lines ++ [line]) =
      match Line.heading? line with
      | some name =>
        if IsReserved name ∨ name ∈ sectionNames lines then sectionNames lines
        else sectionNames lines ++ [name]
      | none => sectionNames lines := by
  cases hline : Line.heading? line with
  | none => simp [sectionNames, List.filterMap_append, hline]
  | some name =>
    simp only [mem_sectionNames]
    by_cases hreserved : IsReserved name
    · simp [sectionNames, List.filterMap_append, hline, hreserved]
    · simp only [sectionNames, List.filterMap_append, List.filterMap_cons, hline,
        List.filterMap_nil, List.filter_append, List.filter_cons, hreserved, not_false_eq_true,
        decide_true, if_true, List.filter_nil, eraseDups_concat, List.mem_filter, and_true,
        false_or]

theorem nodup_sectionNames (lines : List (List Char)) : (sectionNames lines).Nodup := by
  induction lines using List.reverseRecOn with
  | nil => exact List.nodup_nil
  | append_singleton lines line ih =>
    rw [sectionNames_concat]
    cases Line.heading? line with
    | none => exact ih
    | some name =>
      simp only
      split
      · exact ih
      · rename_i hnew
        rw [List.nodup_append]
        refine ⟨ih, by simp, ?_⟩
        rintro x hx y hy rfl
        rw [List.mem_singleton.1 hy] at hx
        exact hnew (.inr hx)

/-! ## Servers -/

/-- The servers that an included file lists, in the order of its lines. -/
def listed (h : Host) (t : Tree) (path : String) : List String :=
  match PathNotation.resolve h path with
  | .ok path =>
    (((Disk.fileAt h t path).splitOn 10).map Utf8.lossyChars).filterMap (Line.valueOf? "Server")
  | .error _ => []

/-- The servers that a line adds to the section it stands in. -/
def added (h : Host) (t : Tree) (raw : List Char) : List String :=
  (match Line.valueOf? "Server" raw, Line.valueOf? "Include" raw with
  | some server, _ => [server]
  | none, some path => listed h t path
  | none, none => []).filter (· ≠ "")

/-- The tree that the lines leave behind them. -/
def treeAfter (h : Host) (w : World) (lines : List (List Char)) : Tree :=
  ((lines.foldlM (Draft.feed h) {}).run w).2.tree

/-- The servers of a section: what the lines add that it is the last one opened before. -/
def serversIn (h : Host) (w : World) (lines : List (List Char)) (name : String) : List String :=
  lines.zipIdx.flatMap fun (line, i) =>
    if lastHeading? (lines.take i) = some name then added h (treeAfter h w (lines.take i)) line
    else []

theorem serversIn_concat :
    serversIn h w (lines ++ [line]) name =
      serversIn h w lines name ++
        if lastHeading? lines = some name then added h (treeAfter h w lines) line else [] := by
  have hlines : ∀ p ∈ lines.zipIdx, (lines ++ [line]).take p.2 = lines.take p.2 := by
    intro p hp
    obtain ⟨-, hi, -⟩ := List.mem_zipIdx hp
    rw [List.take_append_of_le_length (by omega)]
  unfold serversIn
  rw [List.zipIdx_append, List.flatMap_append]
  congr 1
  · exact List.flatMap_congr fun p hp => by simp only [hlines p hp]
  · simp

/-- A section that was not opened has no servers. -/
theorem serversIn_eq_nil (hname : name ∉ lines.filterMap Line.heading?) :
    serversIn h w lines name = [] := by
  unfold serversIn
  rw [List.flatMap_eq_nil_iff]
  rintro ⟨line, i⟩ -
  apply if_neg
  intro hlast
  have hmem := List.mem_of_getLast? hlast
  exact hname ((List.take_sublist i lines).filterMap _ |>.subset hmem)

/-- A header adds no server. -/
theorem added_of_heading (hline : Line.heading? raw = some name) : added h t raw = [] := by
  simp [added, Line.valueOf?, hline]

/-! ## Reading -/

theorem splitAll_eq_splitOn {α : Type} [DecidableEq α] (x : α) (xs : List α) :
    splitAll x xs = xs.splitOn x := by
  induction xs with
  | nil => rfl
  | cons y ys ih =>
    rw [splitAll, ih, List.splitOn_cons_eq_if_modifyHead]
    by_cases hy : y = x
    · simp [hy]
    · simp only [hy, if_false, beq_iff_eq]
      cases hpieces : ys.splitOn x with
      | nil => exact absurd hpieces (List.splitOnP_ne_nil _ _)
      | cons piece pieces => rfl

theorem serverOf?_eq (raw : List Char) : serverOf? raw = Line.valueOf? "Server" raw := by
  unfold serverOf?
  split
  · rename_i value hline
    exact (Line.ofText?_eq_directive.1 hline).symm
  · rename_i hline
    cases hv : Line.valueOf? "Server" raw with
    | none => rfl
    | some value => exact absurd (Line.ofText?_eq_directive.2 hv) (hline value)

/-- An included file lists what its content at that time does. -/
theorem includedServers_result (path : String) :
    ((includedServers h path).run w).1 = listed h w.tree path := by
  unfold includedServers listed
  cases PathNotation.resolve h path with
  | error e => rfl
  | ok path =>
    dsimp only
    rw [← Disk.openRead_readable path, World.run_bind]
    rcases hopened : w.attempt (Disk.openRead h path) with ⟨e | source, w'⟩
    · rw [show (Disk.openRead h path).run.run w = _ from hopened]
      rfl
    · rw [show (Disk.openRead h path).run.run w = _ from hopened]
      dsimp only
      rw [World.run_bind]
      rw [show (get : Run World).run w' = (w', w') from rfl]
      dsimp only
      cases hread : Disk.contentOf w'.tree source with
      | error e =>
        simp only [Disk.readable, hread]
        rfl
      | ok content =>
        simp only [Disk.readable, hread, ← splitAll_eq_splitOn, ← funext serverOf?_eq]
        rfl

/-- What directives belong to behind a header. -/
def Active.of : Option String → Active
  | none => .nothing
  | some name =>
    if name = optionsName then .options
    else if name = "" then .nothing
    else .repository name

theorem Active.of_eq_repository {heading : Option String} :
    Active.of heading = .repository name ↔ heading = some name ∧ ¬ IsReserved name := by
  cases heading with
  | none => simp [Active.of]
  | some other =>
    unfold Active.of IsReserved
    simp only [Option.some.injEq]
    split
    · simp_all
    · split
      · simp_all
      · constructor
        · rintro ⟨⟩
          simp_all
        · rintro ⟨rfl, -⟩
          rfl

namespace Draft

/-- Servers added to the repositories with the given name. -/
def gain (d : Draft) (name : String) (servers : List String) : Draft :=
  { d with repositories := d.repositories.map fun r =>
      if r.name = name then { r with servers := r.servers ++ servers } else r }

theorem gain_nil : d.gain name [] = d := by
  have hsame (r : Repository) :
      (if r.name = name then { r with servers := r.servers ++ [] } else r) = r := by simp
  simp only [gain, hsame, List.map_id']

theorem gain_gain :
    (d.gain name servers).gain name servers' = d.gain name (servers ++ servers') := by
  simp only [gain, List.map_map]
  congr 2
  funext r
  by_cases hr : r.name = name <;> simp [hr]

theorem pushServer_result :
    ((d.pushServer name server).run w).1 = d.gain name ([server].filter (· ≠ "")) := by
  unfold pushServer
  by_cases hs : server = ""
  · rw [if_pos hs]
    simp only [hs, ne_eq, decide_not, List.filter_cons, decide_true, Bool.not_true,
      Bool.false_eq_true, if_false, List.filter_nil, gain_nil]
    rfl
  · rw [if_neg hs]
    simp only [ne_eq, decide_not, List.filter_cons, hs, decide_false, Bool.not_false, if_true,
      List.filter_nil]
    rfl

theorem pushServers_result (servers : List String) :
    ((servers.foldlM (fun d s => pushServer d name s) d).run w).1 =
      d.gain name (servers.filter (· ≠ "")) := by
  induction servers generalizing d w with
  | nil => exact gain_nil.symm
  | cons server servers ih =>
    rw [List.foldlM_cons, StateT.run_bind]
    refine (ih (w := _)).trans ?_
    rw [pushServer_result, gain_gain, ← List.filter_append]
    rfl

theorem feed_header (hline : Line.heading? raw = some name) :
    ((feed h d raw).run w).1 = ⟨.of (some name),
      if IsReserved name ∨ name ∈ d.repositories.map (·.name) then d.repositories
      else d.repositories ++ [⟨name, []⟩]⟩ := by
  unfold feed
  rw [Line.ofText?_eq_header.2 hline]
  have hnames : (d.repositories.any fun r => decide (r.name = name)) =
      decide (name ∈ d.repositories.map (·.name)) := by
    simp [List.any_eq, eq_comm]
  dsimp only
  unfold openSection Active.of IsReserved
  rw [hnames]
  by_cases hoptions : name = optionsName
  · simp only [hoptions, if_true, true_or]
    rfl
  · by_cases hempty : name = ""
    · simp only [hempty, if_true, or_true, true_or]
      rfl
    · by_cases hold : name ∈ d.repositories.map (·.name)
      · simp only [hoptions, hempty, hold, decide_true, if_true, if_false, or_true]
        rfl
      · simp only [hoptions, hempty, hold, decide_false, if_false, or_false]
        rfl

theorem feed_body (hline : Line.heading? raw = none) :
    ((feed h d raw).run w).1 =
      match d.active with
      | .repository name => d.gain name (added h w.tree raw)
      | _ => d := by
  -- A line without a directive adds nothing, whatever is active.
  have hnothing (hvalue : ∀ key value, Line.ofText? raw ≠ some (.directive key value)) :
      d = match d.active with
        | .repository name => d.gain name (added h w.tree raw)
        | _ => d := by
    cases d.active with
    | options | nothing => rfl
    | repository name => simp [added, Line.valueOf?_eq_none hvalue, gain_nil]
  unfold feed
  cases hread : Line.ofText? raw with
  | none => exact hnothing (by simp [hread])
  | some line =>
    cases line with
    | header name => cases hline.symm.trans (Line.ofText?_eq_header.1 hread)
    | other text => exact hnothing (by simp [hread])
    | directive key value =>
      have hvalue := Line.valueOf?_of_directive hread
      dsimp only
      unfold directive
      cases hactive : d.active with
      | options | nothing => rfl
      | repository name =>
        dsimp only
        split
        · rw [pushServer_result]
          simp [added, hvalue]
        · rw [StateT.run_bind]
          refine (pushServers_result _).trans ?_
          rw [includedServers_result]
          simp [added, hvalue]
        · rename_i hserver hinclude
          simp only [added, hvalue, Ne.symm hserver, Ne.symm hinclude, if_false, List.filter_nil,
            gain_nil]
          rfl

/-- The draft that lines make, told by the lines alone. -/
def ofLines (h : Host) (w : World) (lines : List (List Char)) : Draft where
  active := .of (lastHeading? lines)
  repositories := (sectionNames lines).map fun name => ⟨name, serversIn h w lines name⟩

theorem ofLines_names : (ofLines h w lines).repositories.map (·.name) = sectionNames lines := by
  rw [ofLines, List.map_map]
  exact List.map_id _

/-- A header makes its section the active one, and adds it if it is new. -/
theorem ofLines_concat_header (hline : Line.heading? line = some name) :
    ofLines h w (lines ++ [line]) = ⟨.of (some name),
      if IsReserved name ∨ name ∈ (ofLines h w lines).repositories.map (·.name)
      then (ofLines h w lines).repositories
      else (ofLines h w lines).repositories ++ [⟨name, []⟩]⟩ := by
  have hservers (name : String) :
      serversIn h w (lines ++ [line]) name = serversIn h w lines name := by
    rw [serversIn_concat, added_of_heading hline]
    split <;> exact List.append_nil _
  rw [ofLines_names]
  simp only [ofLines, lastHeading?_concat, hline, Option.some_or, sectionNames_concat, hservers]
  congr 1
  split
  · rfl
  · rename_i hnew
    -- The section is new, so nothing was added to it so far.
    rw [List.map_append, List.map_singleton, serversIn_eq_nil]
    intro hname
    exact hnew (.inr (mem_sectionNames.2 ⟨hname, fun hreserved => hnew (.inl hreserved)⟩))

/-- Any other line adds its servers to the active section, if that holds a repository. -/
theorem ofLines_concat_body (hline : Line.heading? line = none) :
    ofLines h w (lines ++ [line]) =
      match (ofLines h w lines).active with
      | .repository name => (ofLines h w lines).gain name (added h (treeAfter h w lines) line)
      | _ => ofLines h w lines := by
  simp only [ofLines, lastHeading?_concat, hline, Option.none_or, sectionNames_concat,
    serversIn_concat]
  have hkept (hactive : ∀ name, Active.of (lastHeading? lines) ≠ .repository name) :
      ∀ name ∈ sectionNames lines, lastHeading? lines ≠ some name := by
    intro name hname hlast
    exact hactive name (Active.of_eq_repository.2 ⟨hlast, (mem_sectionNames.1 hname).2⟩)
  cases hactive : Active.of (lastHeading? lines) with
  | nothing | options =>
    congr 1
    refine List.map_congr_left fun name hname => ?_
    rw [if_neg (hkept (by simp [hactive]) name hname), List.append_nil]
  | repository active =>
    obtain ⟨hlast, -⟩ := Active.of_eq_repository.1 hactive
    simp only [gain, List.map_map, hlast, Option.some.injEq]
    congr 1
    refine List.map_congr_left fun name _ => ?_
    by_cases hname : name = active
    · simp [hname]
    · simp [hname, Ne.symm hname]

/-- Whatever the lines are, the reader makes of them what they say. -/
theorem foldlM_feed (lines : List (List Char)) :
    ((lines.foldlM (feed h) {}).run w).1 = ofLines h w lines := by
  induction lines using List.reverseRecOn with
  | nil => rfl
  | append_singleton lines line ih =>
    rw [List.foldlM_append, World.run_bind, ih]
    change ((feed h _ line).run _).1 = _
    cases hline : Line.heading? line with
    | some name => rw [feed_header hline, ofLines_concat_header hline]
    | none =>
      rw [feed_body hline, ofLines_concat_body hline]
      rfl

/-! ## Quiet file systems -/

theorem pushServer_untouched : w.Untouched ((pushServer d name server).run w).2 := by
  unfold pushServer
  split
  · exact World.untouched_note
  · exact .refl w

theorem pushServers_untouched (servers : List String) :
    w.Untouched ((servers.foldlM (fun d s => pushServer d name s) d).run w).2 := by
  induction servers generalizing d w with
  | nil => exact .refl w
  | cons server servers ih =>
    rw [List.foldlM_cons, World.run_bind]
    exact pushServer_untouched.trans ih

theorem includedServers_untouched (hquiet : w.tree.IsQuiet) (path : String) :
    w.Untouched ((includedServers h path).run w).2 := by
  unfold includedServers
  cases PathNotation.resolve h path with
  | error e => exact World.untouched_note
  | ok path =>
    obtain ⟨-, -, hopened⟩ := Disk.openRead_looks (h := h) (w := w) path
    dsimp only
    rw [World.run_bind, show ((Disk.openRead h path).run.run w).2 = w from hopened hquiet]
    cases ((Disk.openRead h path).run.run w).1 with
    | error e => exact World.untouched_note
    | ok source =>
      dsimp only
      rw [World.run_bind, show (get : Run World).run w = (w, w) from rfl]
      dsimp only
      cases Disk.contentOf w.tree source with
      | ok content => exact World.untouched_note
      | error e => exact World.untouched_note.trans World.untouched_note

theorem feed_untouched (hquiet : w.tree.IsQuiet) : w.Untouched ((feed h d raw).run w).2 := by
  unfold feed
  cases Line.ofText? raw with
  | none => exact .refl w
  | some line =>
    cases line with
    | header name =>
      dsimp only
      unfold openSection
      repeat' split
      all_goals first
        | exact .refl w
        | exact World.untouched_note
    | other text => exact World.untouched_note
    | directive key value =>
      dsimp only
      unfold directive
      cases d.active with
      | options | nothing => exact World.untouched_note
      | repository name =>
        dsimp only
        split
        · exact pushServer_untouched
        · rw [World.run_bind]
          exact (includedServers_untouched hquiet _).trans (pushServers_untouched _)
        · exact World.untouched_note

end Draft

/-- Where no other process replaces files, reading leaves everything as it is. -/
theorem foldlM_feed_untouched (hquiet : w.tree.IsQuiet) (lines : List (List Char)) :
    w.Untouched ((lines.foldlM (Draft.feed h) {}).run w).2 := by
  induction lines using List.reverseRecOn with
  | nil => exact .refl w
  | append_singleton lines line ih =>
    rw [List.foldlM_append, World.run_bind]
    exact ih.trans (Draft.feed_untouched (by rwa [ih.tree]))

theorem treeAfter_of_quiet (hquiet : w.tree.IsQuiet) (lines : List (List Char)) :
    treeAfter h w lines = w.tree :=
  (foldlM_feed_untouched hquiet lines).tree

/-- Reading a mirror list implements its grammar, for every text. There is one repository for each
section that is neither the one of general options nor nameless, in the order in which these are
first opened, and no name comes twice. Its servers are those that the lines of its section add, in
the order of the lines; what an included file adds is read from the tree as it is then, which is
the tree at the beginning unless another process replaces files. -/
theorem ofText_sections (h : Host) (w : World) (text : String) :
    let lines := text.toList.splitOn '\n'
    let repositories := ((ofText h text).run w).1
    repositories.map (·.name) = sectionNames lines ∧
      (repositories.map (·.name)).Nodup ∧
      (∀ r ∈ repositories, r.servers = serversIn h w lines r.name) ∧
      (w.tree.IsQuiet → ∀ lines', treeAfter h w lines' = w.tree) := by
  intro lines repositories
  have hread : repositories = (Draft.ofLines h w lines).repositories := by
    rw [← Draft.foldlM_feed]
    simp only [repositories, lines, ofText, linesOfText, readLines, splitAll_eq_splitOn]
    rfl
  rw [hread, Draft.ofLines_names]
  refine ⟨rfl, nodup_sectionNames lines, fun r hr => ?_, treeAfter_of_quiet⟩
  obtain ⟨name, -, rfl⟩ := List.mem_map.1 hr
  rfl

end MirrorList

end FileListCache
