/-
  FileListCache.Proofs.Splicing

  An included file is spliced in. A directive that includes a file can be replaced by one line for
  each server that the file lists, and one that stands under no repository can be left out.

  Both are facts about a point in the middle of a text: the draft and the tree that a reader has
  there are the same with and without the directive, and how it goes on from there depends on
  nothing else (`ByTree`). For servers written out the first is `foldlM_serverLines`. Nothing is
  asked about what the file holds, so it may well be the one that is being read.
-/

import FileListCache.Proofs.Coupling
import FileListCache.Proofs.Printing

namespace FileListCache

/-! ## What depends on the tree alone -/

section ByTree

variable {ε α β : Type}

/-- Whatever else was noted or done before, the computation comes to the same. -/
abbrev ByTree (x : Run α) : Prop := Coupled (fun t t' => t' = t) x x fun _ t t' => t' = t

theorem byTree_pure (a : α) : ByTree (pure a : Run α) := coupled_pure fun _ _ h => h

theorem byTree_take (s : Tree.Step) : ByTree (World.take s) :=
  coupled_take fun _ _ h => by rw [h]

theorem byTree_bind {x : Run β} {f : β → Run α} (hx : ByTree x) (hf : ∀ b, ByTree (f b)) :
    ByTree (x >>= f) :=
  coupled_bind hx hf

theorem byTree_note_bind {level : Level} {topic : Topic} {message : String} {f : Unit → Run α}
    (hf : ByTree (f ())) : ByTree (World.note level topic message >>= f) :=
  byTree_bind coupled_note fun _ => hf

/-- The tree may be looked at. -/
theorem byTree_get_bind {f : World → Run α} (htree : ∀ w w', w'.tree = w.tree → f w' = f w)
    (hf : ∀ w, ByTree (f w)) : ByTree (get >>= f) := by
  intro w w' hw
  have hget (u : World) : (get >>= f : Run α).run u = (f u).run u := rfl
  rw [hget, hget, htree w w' hw]
  exact hf w w w' hw

theorem byTree_foldlM {f : β → α → Run β} (hf : ∀ b a, ByTree (f b a)) (l : List α) (b : β) :
    ByTree (l.foldlM f b) := by
  induction l generalizing b with
  | nil => exact byTree_pure b
  | cons a l ih =>
    rw [List.foldlM_cons]
    exact byTree_bind (hf b a) ih

theorem Disk.openRead_byTree (h : Host) (p : String) : ByTree (openRead h p).run := by
  refine coupled_get_bind fun w w' hw => ?_
  rw [hw]
  refine coupled_imp (P := fun t t' => t' = t) ?_ (fun _ _ h => h.1) fun _ _ _ h => h
  refine coupled_except_bind rfl (fun l _ => ?_) fun _ _ _ _ h => h
  cases w.tree.find? l with
  | none => exact coupled_throw fun _ _ h => h
  | some node =>
    cases node with
    | contested content opens fate =>
      by_cases hopens : 1 < opens
      · simp only [hopens, if_true]
        exact coupled_tell_bind (byTree_take _) fun _ => coupled_return fun _ _ h => h
      · simp only [hopens, if_false]
        cases fate <;>
          exact coupled_tell_bind (byTree_take _) fun _ => coupled_return fun _ _ h => h
    | file | directory | link | fullDevice => exact coupled_return fun _ _ h => h

end ByTree

namespace MirrorList

variable {h : Host} {w w' : World} {t : Tree} {d : Draft} {raw line : List Char}
  {lines before before' after : List (List Char)} {name key value server path : String}
  {servers : List String}

/-! ## Reading on -/

theorem includedServers_byTree (value : String) : ByTree (includedServers h value) := by
  unfold includedServers
  cases PathNotation.resolve h value with
  | error e => exact byTree_note_bind (byTree_pure _)
  | ok path =>
    refine byTree_bind (Disk.openRead_byTree h path) fun r => ?_
    cases r with
    | error e => exact byTree_note_bind (byTree_pure _)
    | ok source =>
      refine byTree_get_bind (fun w w' hw => by rw [hw]) fun w => ?_
      cases Disk.contentOf w.tree source with
      | error e =>
        exact byTree_note_bind (byTree_bind (byTree_pure _) fun _ =>
          byTree_note_bind (byTree_pure _))
      | ok content =>
        exact byTree_bind (byTree_pure _) fun _ => byTree_note_bind (byTree_pure _)

namespace Draft

theorem pushServer_byTree (d : Draft) (name server : String) :
    ByTree (d.pushServer name server) := by
  unfold pushServer
  split
  · exact byTree_note_bind (byTree_pure _)
  · exact byTree_pure _

theorem openSection_byTree (d : Draft) (name : String) : ByTree (d.openSection name) := by
  unfold openSection
  split
  · exact byTree_pure _
  split
  · exact byTree_note_bind (byTree_pure _)
  split
  · exact byTree_note_bind (byTree_pure _)
  · exact byTree_pure _

theorem directive_byTree (d : Draft) (key value : String) :
    ByTree (d.directive h key value) := by
  unfold directive
  cases d.active with
  | options | nothing => exact byTree_note_bind (byTree_pure _)
  | repository name =>
    dsimp only
    split
    · exact pushServer_byTree d name value
    · exact byTree_bind (includedServers_byTree value) fun servers =>
        byTree_foldlM (fun d server => pushServer_byTree d name server) servers d
    · exact byTree_note_bind (byTree_pure _)

theorem feed_byTree (d : Draft) (raw : List Char) : ByTree (feed h d raw) := by
  unfold feed
  cases Line.ofText? raw with
  | none => exact byTree_pure d
  | some line =>
    cases line with
    | header name => exact openSection_byTree d name
    | directive key value => exact directive_byTree d key value
    | other text => exact byTree_note_bind (byTree_pure _)

end Draft

/-- What is read behind some lines depends on the draft and the tree that they leave, and on
nothing else. -/
theorem readLines_append_congr
    (hdraft : ((before'.foldlM (Draft.feed h) {}).run w).1 =
      ((before.foldlM (Draft.feed h) {}).run w).1)
    (htree : treeAfter h w before' = treeAfter h w before) :
    ((readLines h (before' ++ after)).run w).1 = ((readLines h (before ++ after)).run w).1 := by
  obtain ⟨hsame, -, -⟩ :=
    byTree_foldlM Draft.feed_byTree after ((before.foldlM (Draft.feed h) {}).run w).1 _ _ htree
  rw [readLines, readLines, World.run_bind, World.run_bind, List.foldlM_append,
    List.foldlM_append, World.run_bind, World.run_bind, hdraft]
  exact congrArg Draft.repositories hsame

/-! ## Lines that leave the tree -/

/-- Only a line that includes a file lets another process go ahead, and only where a repository is
active. -/
theorem Draft.feed_tree_of
    (hline : Line.valueOf? "Include" raw = none ∨ ∀ name, d.active ≠ .repository name) :
    ((feed h d raw).run w).2.tree = w.tree := by
  unfold feed
  cases hread : Line.ofText? raw with
  | none => rfl
  | some line =>
    cases line with
    | header name =>
      dsimp only
      unfold openSection
      repeat' split
      all_goals rfl
    | other text => rfl
    | directive key value =>
      dsimp only
      unfold directive
      cases hactive : d.active with
      | options | nothing => rfl
      | repository name =>
        dsimp only
        split
        · exact pushServer_untouched.tree
        · rcases hline with hline | hline
          · cases hline.symm.trans (Line.ofText?_eq_directive.1 hread)
          · exact absurd hactive (hline name)
        · rfl

theorem treeAfter_concat : treeAfter h w (lines ++ [line]) =
    ((Draft.feed h (Draft.ofLines h w lines) line).run
      ((lines.foldlM (Draft.feed h) {}).run w).2).2.tree := by
  rw [treeAfter, List.foldlM_append, World.run_bind, Draft.foldlM_feed]
  rfl

/-- Servers that are written out are read without a file. -/
theorem treeAfter_serverLines
    (hservers : ∀ server ∈ servers, server ≠ "" ∧ Text.trimmed server = server ∧ FitsLine server) :
    treeAfter h w (lines ++ servers.map serverLine) = treeAfter h w lines := by
  induction servers generalizing lines with
  | nil => rw [List.map_nil, List.append_nil]
  | cons server servers ih =>
    obtain ⟨hne, htrim, hfits⟩ := hservers server List.mem_cons_self
    have hdirective := Line.ofText?_eq_directive.2 (valueOf?_serverLine hne htrim hfits).2
    rw [List.map_cons, List.append_cons, ih fun s hs => hservers s (List.mem_cons_of_mem _ hs),
      treeAfter_concat, Draft.feed_tree_of (.inl (Line.valueOf?_of_directive hdirective _))]
    rfl

/-! ## Splicing -/

/-- What lines like these are followed by belongs to a repository. -/
def IsActive (before : List (List Char)) : Prop :=
  ∃ name, lastHeading? before = some name ∧ ¬ IsReserved name

/-- A file that cannot be read lists nothing. -/
theorem listed_eq_nil (hunread : ∀ p, PathNotation.resolve h path = .ok p →
    ∃ e, Disk.reading h t p = .error e) : listed h t path = [] := by
  unfold listed
  cases hpath : PathNotation.resolve h path with
  | error e => rfl
  | ok p =>
    obtain ⟨e, hread⟩ := hunread p hpath
    dsimp only
    rw [Disk.fileAt_eq, hread]
    rfl

/-- A line that gives a value to a key is no header. -/
theorem Line.heading?_of_valueOf? (hline : Line.valueOf? key line = some value) :
    Line.heading? line = none := by
  unfold Line.valueOf? at hline
  dsimp only at hline
  split at hline
  · rename_i hkey
    exact hkey.1
  · cases hline

section Include

variable (hline : Line.valueOf? "Include" line = some path)
include hline

/-- Servers in place of the directive that includes them leave the same draft and tree. -/
theorem readLines_splice (hactive : IsActive before)
    (htree : treeAfter h w (before ++ [line]) = treeAfter h w before) :
    ((readLines h (before ++ ((listed h (treeAfter h w before) path).filter (· ≠ "")).map serverLine
        ++ after)).run w).1 = ((readLines h (before ++ [line] ++ after)).run w).1 := by
  obtain ⟨name, hlast, hreserved⟩ := hactive
  have hname : (Draft.ofLines h w before).active = .repository name :=
    Active.of_eq_repository.2 ⟨hlast, hreserved⟩
  have hadded : added h (treeAfter h w before) line =
      (listed h (treeAfter h w before) path).filter (· ≠ "") := by
    simp [added, Line.valueOf?_of_directive (Line.ofText?_eq_directive.2 hline)]
  have hservers : ∀ server ∈ (listed h (treeAfter h w before) path).filter (· ≠ ""),
      server ≠ "" ∧ Text.trimmed server = server ∧ FitsLine server := by
    intro server hserver
    obtain ⟨hserver, hne⟩ := List.mem_filter.1 hserver
    exact ⟨by simpa using hne, fitsLine_of_mem_listed hserver⟩
  refine readLines_append_congr ?_ ((treeAfter_serverLines hservers).trans htree.symm)
  rw [Draft.foldlM_feed (before ++ [line]),
    Draft.ofLines_concat_body (Line.heading?_of_valueOf? hline), hname, hadded,
    List.foldlM_append, World.run_bind, Draft.foldlM_feed, foldlM_serverLines hname hservers]

/-- Where no repository is active, the directive does nothing. -/
theorem readLines_delete (hinactive : ¬ IsActive before) :
    ((readLines h (before ++ after)).run w).1 =
      ((readLines h (before ++ [line] ++ after)).run w).1 := by
  have hnone (name : String) : (Draft.ofLines h w before).active ≠ .repository name :=
    fun hname => hinactive ⟨name, Active.of_eq_repository.1 hname⟩
  refine readLines_append_congr ?_ ?_
  · rw [Draft.foldlM_feed, Draft.foldlM_feed,
      Draft.ofLines_concat_body (Line.heading?_of_valueOf? hline)]
    cases hactive : (Draft.ofLines h w before).active with
    | repository name => exact absurd hactive (hnone name)
    | options | nothing => rfl
  · rw [treeAfter_concat, Draft.feed_tree_of (.inr hnone)]
    rfl

end Include

/-- A mirror list that includes the file it stands in. -/
def recursiveList : String := "[core]\nServer = x\nInclude = /a\nServer = z"

/-- The file, all of whose characters take one byte. -/
def recursiveBytes : Bytes := recursiveList.toList.map fun c => UInt8.ofNat c.toNat

theorem listed_recursive : listed {} (Transcode.oneFile recursiveBytes).tree "/a" = ["x", "z"] := by
  have hpath : PathNotation.resolve {} "/a" = .ok "/a" := by decide +kernel
  have hlines : ((recursiveBytes.splitOn 10).map Utf8.lossyChars).filterMap
      (Line.valueOf? "Server") = ["x", "z"] := by decide +kernel
  simp only [listed, hpath, Disk.fileAt, Transcode.look_oneFile, hlines]

end MirrorList

end FileListCache
