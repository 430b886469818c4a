/-
  FileListCache.Proofs.Printing

  Mirror lists that are written and read again. `printed` writes each repository as a header and
  one line for each server. What a mirror list can state at all is `IsWellFormed`: names that head
  a section of their own, and servers that a line can hold. Two facts make printing and reading
  inverse: a well-formed list is read from its text as it was (`foldlM_sectionLines`), and whatever
  is read from any text is well-formed, since a value comes from one line, in front of its comment
  and without the blanks around it (`fitsLine_of_valueOf?`).
-/

import FileListCache.Proofs.Characters
import FileListCache.Proofs.Sections

namespace FileListCache.MirrorList

/-! ## Lines of a text -/

/-- The text of some lines. -/
def textOf (lines : List (List Char)) : String := String.ofList (['\n'].intercalate lines)

variable {h : Host} {w : World} {t : Tree} {d : Draft} {raw : List Char}
  {lines : List (List Char)} {name key value server : String} {servers : List String}
  {r : Repository} {repositories : List Repository}

theorem notMem_of_mem_splitOn {α : Type} [BEq α] [LawfulBEq α] {a : α} {xs piece : List α}
    (hpiece : piece ∈ xs.splitOn a) : a ∉ piece := by
  induction xs generalizing piece with
  | nil =>
    rw [List.splitOn_nil, List.mem_singleton] at hpiece
    simp [hpiece]
  | cons x xs ih =>
    rw [List.splitOn_cons_eq_if_modifyHead] at hpiece
    split at hpiece
    · rcases List.mem_cons.1 hpiece with rfl | hpiece
      · simp
      · exact ih hpiece
    · rename_i hx
      cases hpieces : xs.splitOn a with
      | nil => exact absurd hpieces (List.splitOn_ne_nil a xs)
      | cons first rest =>
        rw [hpieces] at hpiece ih
        rcases List.mem_cons.1 hpiece with rfl | hpiece
        · have hfirst := ih List.mem_cons_self
          simp only [List.mem_cons, not_or]
          exact ⟨fun hax => hx (by simp [hax]), hfirst⟩
        · exact ih (List.mem_cons_of_mem _ hpiece)

/-- A text is read line by line. Without lines there is one that is blank. -/
theorem ofText_textOf (hlines : ∀ line ∈ lines, '\n' ∉ line) :
    ((ofText h (textOf lines)).run w).1 = ((readLines h lines).run w).1 := by
  unfold ofText linesOfText textOf
  rw [String.toList_ofList, splitAll_eq_splitOn]
  by_cases hnone : lines = []
  · subst hnone
    rfl
  · rw [List.splitOn_intercalate _ hlines hnone]

/-- What is read is what the lines of the text say. -/
theorem ofText_result (h : Host) (w : World) (text : String) :
    ((ofText h text).run w).1 = (Draft.ofLines h w (text.toList.splitOn '\n')).repositories := by
  rw [← Draft.foldlM_feed, ofText, linesOfText, splitAll_eq_splitOn]
  rfl

/-! ## What a line can hold -/

/-- A line can hold the text, and no part of it is taken for a comment. -/
def FitsLine (s : String) : Prop := '\n' ∉ s.toList ∧ '#' ∉ s.toList

/-- The repositories are those that some mirror list states. -/
structure IsWellFormed (repositories : List Repository) : Prop where
  nodup : (repositories.map (·.name)).Nodup
  name : ∀ r ∈ repositories, ¬ IsReserved r.name ∧ FitsLine r.name
  server : ∀ r ∈ repositories, ∀ server ∈ r.servers,
    server ≠ "" ∧ Text.trimmed server = server ∧ FitsLine server

namespace Line

theorem mem_content {c : Char} (hc : c ∈ content raw) : c ∈ raw ∧ c ≠ '#' := by
  have htaken : c ∈ raw.takeWhile (· ≠ '#') := Text.mem_of_mem_trim hc
  exact ⟨(List.takeWhile_sublist _).subset htaken,
    by simpa using List.mem_takeWhile_imp htaken⟩

/-- A line without a comment and without blanks at its ends is all content. -/
theorem content_eq_self (hcomment : '#' ∉ raw) (htrim : Text.trim raw = raw) :
    content raw = raw := by
  rw [content, List.takeWhile_eq_self_iff.2, htrim]
  intro c hc
  have hne : c ≠ '#' := by
    rintro rfl
    exact hcomment hc
  simpa using hne

/-- Names in headers come from one line, in front of its comment. -/
theorem fitsLine_of_heading? (hraw : '\n' ∉ raw) (hname : heading? raw = some name) :
    FitsLine name := by
  unfold heading? at hname
  dsimp only at hname
  split at hname
  · cases hname
    have hmem {c : Char} (hc : c ∈ (content raw).tail.dropLast) : c ∈ raw ∧ c ≠ '#' :=
      mem_content (List.mem_of_mem_tail (List.mem_of_mem_dropLast hc))
    unfold FitsLine
    rw [String.toList_ofList]
    exact ⟨fun hc => hraw (hmem hc).1, fun hc => (hmem hc).2 rfl⟩
  · cases hname

/-- So do values, and no blank stands at their ends. -/
theorem fitsLine_of_valueOf? (hraw : '\n' ∉ raw) (hvalue : valueOf? key raw = some value) :
    Text.trimmed value = value ∧ FitsLine value := by
  unfold valueOf? at hvalue
  dsimp only at hvalue
  split at hvalue
  · cases hvalue
    have hmem {c : Char} (hc : c ∈ Text.trim ((content raw).dropWhile (· ≠ '=')).tail) :
        c ∈ raw ∧ c ≠ '#' :=
      mem_content ((List.dropWhile_suffix _).subset
        (List.mem_of_mem_tail (Text.mem_of_mem_trim hc)))
    unfold FitsLine Text.trimmed
    rw [String.toList_ofList, Text.trim_trim]
    exact ⟨rfl, fun hc => hraw (hmem hc).1, fun hc => (hmem hc).2 rfl⟩
  · cases hvalue

end Line

/-! ## Writing -/

/-- The line that opens a section. -/
def headerLine (name : String) : List Char := ("[" ++ name ++ "]").toList

/-- The line that adds a server. -/
def serverLine (server : String) : List Char := ("Server = " ++ server).toList

/-- The lines that state a repository. -/
def sectionLines (r : Repository) : List (List Char) :=
  headerLine r.name :: r.servers.map serverLine

/-- Repositories as the text of a mirror list. Every line is ended, so a blank one comes last. -/
def printed (repositories : List Repository) : String :=
  textOf (repositories.flatMap sectionLines ++ [[]])

theorem headerLine_eq (name : String) : headerLine name = '[' :: (name.toList ++ [']']) := by
  simp [headerLine]

/-- The first equals sign of the line is the one behind the key. -/
theorem serverLine_eq (server : String) :
    serverLine server = "Server ".toList ++ '=' :: ' ' :: server.toList := by
  simp [serverLine]

theorem heading?_headerLine (hname : FitsLine name) :
    Line.heading? (headerLine name) = some name := by
  have hcontent : Line.content (headerLine name) = headerLine name := by
    apply Line.content_eq_self
    · simpa [headerLine] using hname.2
    · rw [Text.trim_eq_self, headerLine_eq]
      refine ⟨fun c hc => ?_, fun c hc => ?_⟩
      · cases hc
        rfl
      · rw [← List.cons_append, List.getLast?_concat] at hc
        cases hc
        rfl
  unfold Line.heading?
  rw [hcontent, headerLine_eq]
  dsimp only
  rw [← List.cons_append, List.getLast?_concat, if_pos ⟨rfl, rfl⟩, List.cons_append,
    List.tail_cons, List.dropLast_concat, String.ofList_toList]

section Servers

variable (hne : server ≠ "") (htrim : Text.trimmed server = server) (hfits : FitsLine server)
include hne htrim hfits

theorem content_serverLine : Line.content (serverLine server) = serverLine server := by
  have htrim' : Text.trim server.toList = server.toList := by
    rw [← String.ofList_inj, String.ofList_toList]
    exact htrim
  apply Line.content_eq_self
  · simpa [serverLine] using hfits.2
  · refine Text.trim_eq_self.2 ⟨fun c hc => ?_, fun c hc => ?_⟩
    · simp only [serverLine_eq, String.reduceToList, List.cons_append, List.head?_cons,
        Option.some.injEq] at hc
      rw [← hc]
      rfl
    · have hlast : server.toList ≠ [] := by simpa using hne
      rw [serverLine, String.toList_append, List.getLast?_append_of_ne_nil _ hlast] at hc
      exact (Text.trim_eq_self.1 htrim').2 c hc

/-- A server is read from its line as it was. -/
theorem valueOf?_serverLine :
    Line.heading? (serverLine server) = none ∧
      Line.valueOf? "Server" (serverLine server) = some server := by
  have hcontent := content_serverLine hne htrim hfits
  have hheading : Line.heading? (serverLine server) = none := by
    unfold Line.heading?
    rw [hcontent, serverLine_eq]
    simp
  have hkey : (serverLine server).takeWhile (· ≠ '=') = "Server ".toList := by
    simp [serverLine_eq]
  have hbehind : ((serverLine server).dropWhile (· ≠ '=')).tail = ' ' :: server.toList := by
    simp [serverLine_eq]
  have hequals : '=' ∈ serverLine server := by simp [serverLine_eq]
  have hserver : Text.trim "Server ".toList = "Server".toList := by decide +kernel
  refine ⟨hheading, ?_⟩
  unfold Line.valueOf?
  dsimp only
  rw [hcontent, hkey, hbehind, Text.trim_cons_of_isBlank rfl,
    if_pos ⟨hheading, hequals, hserver⟩]
  exact congrArg some htrim

theorem added_serverLine : added h t (serverLine server) = [server] := by
  unfold added
  rw [(valueOf?_serverLine hne htrim hfits).2]
  simp [hne]

end Servers

/-! ## Reading what was written -/

/-- The lines of servers add these to the active repository. -/
theorem foldlM_serverLines (hactive : d.active = .repository name)
    (hservers : ∀ server ∈ servers, server ≠ "" ∧ Text.trimmed server = server ∧ FitsLine server) :
    (((servers.map serverLine).foldlM (Draft.feed h) d).run w).1 = d.gain name servers := by
  induction servers generalizing d w with
  | nil => exact Draft.gain_nil.symm
  | cons server servers ih =>
    obtain ⟨hne, htrim, hfits⟩ := hservers server List.mem_cons_self
    have hline := (valueOf?_serverLine hne htrim hfits).1
    rw [List.map_cons, List.foldlM_cons, World.run_bind, Draft.feed_body hline, hactive,
      added_serverLine hne htrim hfits]
    dsimp only
    rw [ih (d := d.gain name [server]) hactive fun s hs => hservers s (List.mem_cons_of_mem _ hs),
      Draft.gain_gain, List.singleton_append]

/-- The lines of a repository that is new add it behind the others. -/
theorem foldlM_sectionLines (hnew : r.name ∉ d.repositories.map (·.name))
    (hname : ¬ IsReserved r.name ∧ FitsLine r.name)
    (hservers : ∀ server ∈ r.servers,
      server ≠ "" ∧ Text.trimmed server = server ∧ FitsLine server) :
    (((sectionLines r).foldlM (Draft.feed h) d).run w).1 =
      ⟨.repository r.name, d.repositories ++ [r]⟩ := by
  have hactive : Active.of (some r.name) = .repository r.name :=
    Active.of_eq_repository.2 ⟨rfl, hname.1⟩
  rw [sectionLines, List.foldlM_cons, World.run_bind,
    Draft.feed_header (heading?_headerLine hname.2), if_neg (not_or.2 ⟨hname.1, hnew⟩), hactive,
    foldlM_serverLines rfl hservers]
  -- Only the repository that was just opened has the name.
  have hothers : d.repositories.map (fun other =>
      if other.name = r.name then { other with servers := other.servers ++ r.servers } else other) =
      d.repositories := by
    refine (List.map_congr_left fun other hother => ?_).trans (List.map_id' _)
    rw [if_neg]
    intro hsame
    exact hnew (hsame ▸ List.mem_map_of_mem hother)
  rw [Draft.gain, List.map_append, hothers]
  simp

/-- The lines of all of them make just them. -/
theorem foldlM_printed (hr : IsWellFormed repositories) :
    ∃ active, (((repositories.flatMap sectionLines).foldlM (Draft.feed h) {}).run w).1 =
      ⟨active, repositories⟩ := by
  induction repositories using List.reverseRecOn with
  | nil => exact ⟨.nothing, rfl⟩
  | append_singleton done r ih =>
    have hdone : IsWellFormed done :=
      { nodup := (List.nodup_append.1 (List.map_append ▸ hr.nodup)).1
        name := fun other hother => hr.name other (List.mem_append_left _ hother)
        server := fun other hother => hr.server other (List.mem_append_left _ hother) }
    have hmem : r ∈ done ++ [r] := List.mem_append_right _ (List.mem_singleton_self r)
    have hnew : r.name ∉ done.map (·.name) := by
      intro hold
      have hnodup := hr.nodup
      rw [List.map_append, List.nodup_append] at hnodup
      exact hnodup.2.2 _ hold r.name (by simp) rfl
    obtain ⟨active, hread⟩ := ih hdone
    refine ⟨.repository r.name, ?_⟩
    rw [List.flatMap_append, List.foldlM_append, World.run_bind, hread, List.flatMap_singleton,
      foldlM_sectionLines hnew (hr.name r hmem) (hr.server r hmem)]

theorem ofText_printed (hr : IsWellFormed repositories) :
    ((ofText h (printed repositories)).run w).1 = repositories := by
  have hlines : ∀ line ∈ repositories.flatMap sectionLines ++ [[]], '\n' ∉ line := by
    intro line hline
    rcases List.mem_append.1 hline with hline | hline
    · obtain ⟨r, hmem, hline⟩ := List.mem_flatMap.1 hline
      rcases List.mem_cons.1 hline with rfl | hline
      · simpa [headerLine] using (hr.name r hmem).2.1
      · obtain ⟨server, hserver, rfl⟩ := List.mem_map.1 hline
        simpa [serverLine] using (hr.server r hmem server hserver).2.2.1
    · rw [List.mem_singleton.1 hline]
      exact List.not_mem_nil
  obtain ⟨active, hread⟩ := foldlM_printed (h := h) (w := w) hr
  rw [printed, ofText_textOf hlines, readLines, World.run_bind, List.foldlM_append, World.run_bind,
    hread]
  rfl

/-! ## What is read -/

/-- The servers of an included file fit a line each. -/
theorem fitsLine_of_mem_listed {path : String} (hserver : server ∈ listed h t path) :
    Text.trimmed server = server ∧ FitsLine server := by
  unfold listed at hserver
  cases hpath : PathNotation.resolve h path with
  | error e =>
    rw [hpath] at hserver
    cases hserver
  | ok p =>
    rw [hpath] at hserver
    obtain ⟨line, hline, hvalue⟩ := List.mem_filterMap.1 hserver
    obtain ⟨bytes, hbytes, rfl⟩ := List.mem_map.1 hline
    exact Line.fitsLine_of_valueOf?
      (Utf8.lineEnd_notMem_lossyChars (notMem_of_mem_splitOn hbytes)) hvalue

/-- Whatever a line adds could have been written on a line of its own. -/
theorem fitsLine_of_mem_added (hraw : '\n' ∉ raw) (hserver : server ∈ added h t raw) :
    server ≠ "" ∧ Text.trimmed server = server ∧ FitsLine server := by
  unfold added at hserver
  obtain ⟨hserver, hne⟩ := List.mem_filter.1 hserver
  refine ⟨by simpa using hne, ?_⟩
  split at hserver
  · rename_i hvalue
    rw [List.mem_singleton.1 hserver]
    exact Line.fitsLine_of_valueOf? hraw hvalue
  · exact fitsLine_of_mem_listed hserver
  · cases hserver

theorem isWellFormed_ofText (h : Host) (w : World) (text : String) :
    IsWellFormed ((ofText h text).run w).1 := by
  rw [ofText_result]
  have hlines : ∀ line ∈ text.toList.splitOn '\n', '\n' ∉ line := fun _ => notMem_of_mem_splitOn
  refine ⟨?_, fun r hr => ?_, fun r hr server hserver => ?_⟩
  · rw [Draft.ofLines_names]
    exact nodup_sectionNames _
  · obtain ⟨name, hname, rfl⟩ := List.mem_map.1 hr
    obtain ⟨hheading, hreserved⟩ := mem_sectionNames.1 hname
    obtain ⟨line, hline, hheading⟩ := List.mem_filterMap.1 hheading
    exact ⟨hreserved, Line.fitsLine_of_heading? (hlines line hline) hheading⟩
  · obtain ⟨name, -, rfl⟩ := List.mem_map.1 hr
    obtain ⟨⟨line, i⟩, hline, hserver⟩ := List.mem_flatMap.1 hserver
    dsimp only at hserver
    split at hserver
    · exact fitsLine_of_mem_added (hlines line (List.fst_mem_of_mem_zipIdx hline)) hserver
    · cases hserver

/-! ## Both ways -/

/-- Printing and reading are inverse. A well-formed list of repositories is read from its text
just as it was, whatever the host and its files are. What is read from any text, with any files
included, is well-formed; so when it is printed and read again, by whatever reader, it stays what
it is. -/
theorem printed_inverse (h : Host) (w : World) :
    (∀ repositories, IsWellFormed repositories →
      ((ofText h (printed repositories)).run w).1 = repositories) ∧
    ∀ text, IsWellFormed ((ofText h text).run w).1 ∧ ∀ h' w',
      ((ofText h' (printed ((ofText h text).run w).1)).run w').1 = ((ofText h text).run w).1 :=
  ⟨fun _ hr => ofText_printed hr, fun text =>
    ⟨isWellFormed_ofText h w text, fun _ _ => ofText_printed (isWellFormed_ofText h w text)⟩⟩

/-- Repositories whose names and servers look like other lines. -/
def lookalikes : List Repository :=
  [⟨" a]b[=", ["Server = x", "[options]", "é\rz"]⟩, ⟨"c\r", []⟩]

theorem isWellFormed_lookalikes : IsWellFormed lookalikes where
  nodup := by decide
  name := by
    unfold lookalikes IsReserved FitsLine
    decide +kernel
  server := by
    unfold lookalikes FitsLine
    decide +kernel

theorem printed_inverse_lookalikes :
    IsWellFormed lookalikes ∧ ((ofText {} (printed lookalikes)).run {}).1 = lookalikes :=
  ⟨isWellFormed_lookalikes, (printed_inverse {} {}).1 lookalikes isWellFormed_lookalikes⟩

end FileListCache.MirrorList
