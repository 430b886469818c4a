/-
  FileListCache.Proofs.Confinement

  Runs keep to their own files. Whatever the repositories are called, whatever stood at the places
  of their files and whatever servers do, every change of a run is in its reach
  (`Sync.run_confined`): it is at or below an entry that the path of one of the files names, or it
  fills what a link leads to that stands beside a list.

  Both exceptions to "directly in the cache directory" are real (`Sync.run_unconfined`): a name with
  a slash leads out of the directory, and a file that is made through a link is made elsewhere.
-/

import FileListCache.MirrorList.Reader
import FileListCache.Proofs.Reach
import FileListCache.Proofs.Stories
import Mathlib.Tactic.FinCases

namespace FileListCache

open Disk (locate look)
open Transcode (notedArchive brokenArchive)
open World (Same Takes Via Works)

variable {h : Host} {w : World}

/-! ## Requests that leave no trace -/

/-- Opening a document leaves no trace where no other process is about to replace a file. -/
theorem Fetcher.openUrl_same {f : Fetcher} (hquiet : w.tree.IsQuiet) (u : Url) :
    Ends w (f.openUrl h u) fun _ w' => Same w w' := by
  by_cases hu : u.scheme = "file"
  · unfold openUrl
    rw [if_pos hu]
    cases u.filePath? with
    | none => exact ends_throw (.refl w)
    | some path =>
      apply ends_adapt_bind (Disk.openRead_ends fun l content opens fate _ =>
        hquiet l content opens fate)
      · intro source w₁ hr
        exact ends_get_bind (ends_pure hr.1)
      · exact fun e w₁ hr => hr.1
  · obtain ⟨r, hr⟩ := f.isBlind_openUrl (h := h) hu
    exact ends_imp (hr w) fun _ _ hr => hr.2

namespace Sync

variable {g : Download.Goal} {repos : List Repository} {repo : Repository} {f : Fetcher}
  {w₀ : World} {a : Role} {place : Option Location}

/-- What is written between making a file and moving it leaves both in order. -/
theorem ends_of_treads {ε α : Type} {x : Attempt ε α} {J : Except ε α → Prop}
    (hx : Treads (Tree.Step.Adds place) x J) (hw : Within h g repos w₀ w)
    (hmade : IsMade h g repos w₀.tree repo a w.tree)
    (hplace : ∀ l, place = some l → InReach h g repos w₀.tree l) :
    Ends w x fun r w' => Within h g repos w₀ w' ∧ IsMade h g repos w₀.tree repo a w'.tree ∧ J r :=
  ends_imp (hx w) fun _ _ hr => ⟨hw.adds hplace hr.1, hmade.adds hplace hr.1, hr.2⟩

section Parts

variable (hrepo : repo ∈ repos) (hw : Within h g repos w₀ w)
include hrepo hw

/-! ## Transfers -/

/-- What arrives is in the part, which is fit to take the place of the list then. -/
theorem receive_within (hf : f.IsPassive) (u : Url) (filename : String) :
    Ends w (f.receive h u filename (Role.part.path g.cache repo.name)) fun r w' =>
      Within h g repos w₀ w' ∧ ∀ n, r = .ok n → IsMade h g repos w₀.tree repo .part w'.tree := by
  unfold Fetcher.receive
  apply ends_bind (Fetcher.openUrl_same hw.confined.quiet u)
  · intro opened w₁ hsame
    obtain ⟨incoming, total⟩ := opened
    have hw₁ := hw.of_same hsame
    apply ends_adapt_bind (create_within hrepo hw₁ (a := .part) (by decide))
    · intro sink w₂ hr
      obtain ⟨hw₂, hok⟩ := hr
      obtain ⟨hmade₂, hplace⟩ := hok sink rfl
      apply ends_tell_bind
      have hworks : Works (Tree.Step.Adds sink.place) w₂
          ((f.onProgress ⟨filename, 0, total⟩).run w₂).2 := (hf _ _).works
      generalize ((f.onProgress ⟨filename, 0, total⟩).run w₂).2 = w₃ at hworks
      have hw₃ := hw₂.adds hplace hworks
      have hmade₃ := hmade₂.adds hplace hworks
      apply ends_get_bind
      apply ends_bind (ends_of_treads (Fetcher.foldlM_takeChunk_treads hf _ ({ sink }, 0) rfl) hw₃
        hmade₃ hplace)
      · intro state w₄ hr
        obtain ⟨wr, size⟩ := state
        obtain ⟨hw₄, hmade₄, hstate⟩ := hr
        exact ends_imp (ends_of_treads (Fetcher.closing_treads (hstate _ rfl)) hw₄ hmade₄ hplace)
          fun r w₅ hr => ⟨hr.1, fun _ _ => hr.2.1⟩
      · exact fun e w₄ hr => ⟨hr.1, by rintro _ ⟨⟩⟩
    · exact fun e w₂ hr => ⟨hr.1, by rintro _ ⟨⟩⟩
  · exact fun e w₁ hsame => ⟨hw.of_same hsame, by rintro _ ⟨⟩⟩

/-- What arrived of a document that is not complete is removed. -/
theorem tryReceive_within (hf : f.IsPassive) (u : Url) (filename : String) :
    Ends w (tryCatch (f.receive h u filename (Role.part.path g.cache repo.name)) fun e => do
      if let .error removal ← (Files.remove h (Role.part.path g.cache repo.name)).run then
        World.note .debug .fetch removal.message
      throw e) fun r w' =>
        Within h g repos w₀ w' ∧ ∀ n, r = .ok n → IsMade h g repos w₀.tree repo .part w'.tree := by
  apply ends_catch (receive_within hrepo hw hf u filename)
  · exact fun n w₁ hr => hr
  · intro e w₁ hr
    apply Files.ends_noted
    refine ends_imp (remove_within hrepo hr.1 .part) fun _ w₂ hw₂ w₃ hsame₃ => ?_
    exact ends_throw ⟨hw₂.of_same hsame₃.toSame, by rintro _ ⟨⟩⟩

theorem fetch_within (hf : f.IsPassive) (hcache : f.cache = g.cache) (url : String) :
    Ends w (f.fetch h url repo.fileName) fun r w' => Within h g repos w₀ w' ∧
      ∀ path, r = .ok path → path = g.path repo := by
  unfold Fetcher.fetch
  cases Url.ofText url with
  | error e => exact ends_throw ⟨hw, by rintro _ ⟨⟩⟩
  | ok u =>
    dsimp only
    rw [Role.path_output, Role.path_part, hcache]
    apply ends_note_bind
    intro w₁ hsame₁
    apply ends_bind (tryReceive_within hrepo (hw.of_same hsame₁.toSame) hf u repo.fileName)
    · intro size w₂ hr
      obtain ⟨hw₂, hmade⟩ := hr
      apply ends_note_bind
      intro w₃ hsame₃
      have hmade₃ : IsMade h g repos w₀.tree repo .part w₃.tree := by
        rw [hsame₃.tree]
        exact hmade size rfl
      apply ends_adapt_bind (rename_within hrepo (hw₂.of_same hsame₃.toSame) (by decide) hmade₃)
      · intro _ w₄ hw₄
        refine ends_pure ⟨hw₄, ?_⟩
        rintro _ ⟨⟩
        rfl
      · exact fun e w₄ hw₄ => ⟨hw₄, by rintro _ ⟨⟩⟩
    · exact fun e w₂ hr => ⟨hr.1, by rintro _ ⟨⟩⟩

/-! ## Rewriting -/

theorem copyArchive_within :
    Ends w (Transcode.copyArchive h (Role.list.path g.cache repo.name)
      (Role.copy.path g.cache repo.name)) fun r w' => Within h g repos w₀ w' ∧
        ∀ report, r = .ok report → IsMade h g repos w₀.tree repo .copy w'.tree := by
  unfold Transcode.copyArchive
  apply ends_bind (Archive.openAt_ends fun l content opens fate _ =>
    hw.confined.quiet l content opens fate)
  · intro opened w₁ hr
    have hw₁ := hw.of_same hr.1
    apply ends_adapt_bind (create_within hrepo hw₁ (a := .copy) (by decide))
    · intro sink w₂ hr
      obtain ⟨hw₂, hok⟩ := hr
      obtain ⟨hmade₂, hplace⟩ := hok sink rfl
      apply ends_get_bind
      apply ends_outcome_bind
      have hstart : (Disk.Writer.mk sink []).sink.place = sink.place := rfl
      refine ends_imp (ends_of_treads (Transcode.copyStream_treads hstart _ _) hw₂ hmade₂ hplace)
        fun r w₃ hr => ?_
      obtain ⟨hw₃, hmade₃, hleaves⟩ := hr
      rcases r with (⟨e, wr⟩ | e) | report
      · -- The copy is given up, but it is ended before.
        apply ends_discard_bind
        apply ends_outcome_bind
        refine ends_imp (ends_of_treads (Transcode.finish_treads hleaves) hw₃ hmade₃ hplace) ?_
        exact fun _ w₄ hr => ends_throw ⟨hr.1, by rintro _ ⟨⟩⟩
      · exact ends_throw ⟨hw₃, by rintro _ ⟨⟩⟩
      · exact ends_pure ⟨hw₃, fun _ _ => hmade₃⟩
    · exact fun e w₂ hr => ⟨hr.1, by rintro _ ⟨⟩⟩
  · exact fun e w₁ hr => ⟨hw.of_same hr.1, by rintro _ ⟨⟩⟩

/-- A copy that fails is removed with whatever else is in its place. -/
theorem tryCopy_within :
    Ends w (tryCatch (Transcode.copyArchive h (Role.list.path g.cache repo.name)
        (Role.copy.path g.cache repo.name)) fun e => do
      if let .error removal ← (Files.remove h (Role.copy.path g.cache repo.name)).run then
        World.note .warn .transcode removal.message
      throw e) fun r w' => Within h g repos w₀ w' ∧
        ∀ report, r = .ok report → IsMade h g repos w₀.tree repo .copy w'.tree := by
  apply ends_catch (copyArchive_within hrepo hw)
  · exact fun report w₁ hr => hr
  · intro e w₁ hr
    apply Files.ends_noted
    refine ends_imp (remove_within hrepo hr.1 .copy) fun _ w₂ hw₂ w₃ hsame₃ => ?_
    exact ends_throw ⟨hw₂.of_same hsame₃.toSame, by rintro _ ⟨⟩⟩

theorem inPlace_within :
    Ends w (Transcode.inPlace h (g.path repo)) fun _ w' => Within h g repos w₀ w' := by
  unfold Transcode.inPlace
  dsimp only
  rw [Role.path_copy]
  apply ends_bind (tryCopy_within hrepo hw)
  · intro report w₁ hr
    obtain ⟨hw₁, hmade⟩ := hr
    apply ends_adapt_bind (rename_within hrepo hw₁ (by decide) (hmade report rfl))
    · intro _ w₂ hw₂
      exact ends_note_bind fun w₃ hsame₃ => ends_pure (hw₂.of_same hsame₃.toSame)
    · exact fun e w₂ hw₂ => hw₂
  · exact fun e w₁ hr => hr.1

theorem entriesOf_within :
    Ends w (entriesOf h (g.path repo)) fun _ w' => Within h g repos w₀ w' := by
  unfold entriesOf
  apply ends_outcome_bind
  refine ends_imp (inPlace_within hrepo hw) fun r w₁ hw₁ => ?_
  cases r with
  | ok report => exact ends_pure hw₁
  | error e =>
    cases e with
    | rename source target entries reason =>
      exact ends_note_bind fun w₂ hsame₂ => ends_pure (hw₁.of_same hsame₂.toSame)
    | unopened | empty | read | write | badFile => exact ends_throw hw₁

end Parts

/-! ## Repositories -/

theorem fromServers_within (hrepo : repo ∈ repos) (hf : f.IsPassive) (hcache : f.cache = g.cache)
    (servers : List String) (w : World) (hw : Within h g repos w₀ w) :
    Settles w () (Download.fromServers h (f.toFetch h) g repo servers).run fun r _ w' =>
      Within h g repos w₀ w' ∧ ∀ path, r = .ok path → path = g.path repo := by
  induction servers generalizing w with
  | nil => exact settles_pure ⟨hw, by rintro _ ⟨⟩⟩
  | cons server servers ih =>
    unfold Download.fromServers
    dsimp only
    apply Files.settles_noted
    refine ends_imp (remove_within hrepo hw .list) fun _ w₁ hw₁ w₂ hsame₂ => ?_
    apply settles_note_bind
    intro w₃ hsame₃
    apply settles_run_lift_bind
    refine settles_run_attempt (ends_imp (fetch_within hrepo
      ((hw₁.of_same hsame₂.toSame).of_same hsame₃.toSame) hf hcache _) fun r w₄ hr => ?_)
    obtain ⟨hw₄, hpath⟩ := hr
    cases r with
    | ok path =>
      refine settles_run_tell_bind (settles_pure ⟨?_, ?_⟩)
      · exact hw₄.of_after_nil ⟨(List.append_nil _).symm, rfl⟩
      · rintro _ ⟨⟩
        exact hpath path rfl
    | error e =>
      apply settles_note_bind
      intro w₅ hsame₅
      apply settles_note_bind
      intro w₆ hsame₆
      apply settles_run_tell_bind
      refine ih _ (((hw₄.of_same hsame₅.toSame).of_same hsame₆.toSame).of_after_nil ?_)
      exact ⟨(List.append_nil _).symm, rfl⟩

theorem repository_within (hrepo : repo ∈ repos) (hf : f.IsPassive) (hcache : f.cache = g.cache)
    (hw : Within h g repos w₀ w) :
    Settles w () (repository h (f.toFetch h) g repo).run fun _ _ w' => Within h g repos w₀ w' := by
  unfold repository Download.run
  apply settles_run_bind
  apply settles_run_tell_bind
  have hw₁ : Within h g repos w₀ ((World.emit (.downloading repo.name)).run w).2 :=
    hw.of_after_nil ⟨(List.append_nil _).symm, rfl⟩
  generalize ((World.emit (.downloading repo.name)).run w).2 = w₁ at hw₁
  by_cases hservers : repo.servers = []
  · rw [if_pos (by simp [hservers])]
    exact settles_pure hw₁
  · rw [if_neg (by simpa using hservers)]
    refine settles_imp (fromServers_within hrepo hf hcache repo.servers w₁ hw₁) fun r _ w₂ hr => ?_
    obtain ⟨hw₂, hpath⟩ := hr
    cases r with
    | error e => exact hw₂
    | ok path =>
      obtain rfl := hpath path rfl
      apply settles_run_tell_bind
      refine settles_run_attempt (entriesOf_within hrepo ?_)
      exact hw₂.of_after_nil ⟨(List.append_nil _).symm, rfl⟩

/-! ## Runs -/

/-- The entry that the path of a repository's file names. Unless the name of the repository has a
slash, it stands in the cache directory itself. -/
structure IsEntry (h : Host) (g : Download.Goal) (t : Tree) (repo : Repository) (a : Role)
    (own : Location) : Prop where
  named : locate h t false (a.path g.cache repo.name) = .ok own
  inside : '/' ∉ repo.name.toList → ∃ c, locate h t true g.cache = .ok c ∧
    t.find? c = some .directory ∧ own = a.place c repo.name

theorem isEntry_of_locate {t : Tree} {own : Location} (hcache : look h t g.cache = .ok .directory)
    (hown : locate h t false (a.path g.cache repo.name) = .ok own) : IsEntry h g t repo a own := by
  refine ⟨hown, fun hslash => ?_⟩
  obtain ⟨c, hc, hdir⟩ := Disk.look_eq_ok.1 hcache
  exact ⟨c, hc, hdir, (Role.aims hc hdir hslash a).eq_of_locate hown⟩

/-- A run keeps to its own files. At every moment, what has been made, changed or removed is at or
below an entry that the path of a file of some repository names; or it is what a link leads to
that stood beside the list of a repository, and is a file. -/
theorem run_confined (h : Host) (client : Http.Client) (interactive : Bool) (g : Download.Goal)
    (repos : List Repository) (w : World) (hroot : w.tree.IsRooted) (hquiet : w.tree.IsQuiet) :
    ∃ r w' steps, w.attempt (run h client interactive g repos) = (r, w') ∧
      w'.steps = w.steps ++ steps ∧ w'.tree = w.tree.applyAll steps ∧
      ∀ k l, (w.tree.applyAll (steps.take k)).find? l ≠ w.tree.find? l →
        (∃ repo ∈ repos, ∃ a own, IsEntry h g w.tree repo a own ∧ own <+: l) ∨
        ∃ repo ∈ repos, ∃ a own target, a ≠ Role.list ∧ IsEntry h g w.tree repo a own ∧
          w.tree.find? own = some (.link target) ∧
          locate h w.tree true (a.path g.cache repo.name) = .ok l ∧
          ∃ bytes, (w.tree.applyAll (steps.take k)).find? l = some (.file bytes) := by
  have hrun : Settles w () (runWith h ((fetcher client g interactive).toFetch h) g repos).run
      fun _ _ w' => World.After w [] w' ∨
        look h w.tree g.cache = .ok .directory ∧ Within h g repos w w' := by
    cases hcheck : Files.ensureWritable h w.tree g.cache with
    | error e =>
      refine settles_imp (runWith_refused () hcheck) fun _ _ w' hr => .inl ?_
      rw [hr.2.2]
      exact (Same.refl w).after
    | ok u =>
      have hstart : Within h g repos w w :=
        ⟨.of_after_nil (Same.refl w).after (confined_self hquiet), hroot⟩
      refine runWith_admitted hcheck (settles_all (fun rest _ _ w' => rest ⊆ repos ∧
        Within h g repos w w') ⟨fun _ hrepo => hrepo, hstart⟩ ?_ ?_)
      · intro repo rest r _ w₁ hI
        obtain ⟨hrest, hw₁⟩ := hI
        refine settles_imp (repository_within (hrest List.mem_cons_self)
          (fetcher_isPassive client g interactive) rfl hw₁) fun o _ w₂ hw₂ w' hemits => ?_
        refine ⟨fun _ hmem => hrest (List.mem_cons_of_mem _ hmem), hw₂.of_after_nil ⟨?_, ?_⟩⟩
        · rw [hemits.steps, List.append_nil]
        · exact hemits.tree
      · intro r _ w₁ w' hI htree hsteps _ _
        obtain ⟨c, hc, hdir, -⟩ := Files.ensureWritable_eq_ok.1 hcheck
        refine .inr ⟨Disk.look_eq_ok.2 ⟨c, hc, hdir⟩, hI.2.of_after_nil ⟨?_, htree⟩⟩
        rw [hsteps, List.append_nil]
  rcases hrun with ⟨hsteps, htree⟩ | ⟨hcache, ⟨⟨steps, ⟨hsteps, htree⟩, hk⟩, -⟩⟩
  · refine ⟨_, _, [], rfl, hsteps, htree, fun k l hl => ?_⟩
    rw [List.take_nil] at hl
    exact absurd rfl hl
  · refine ⟨_, _, steps, rfl, hsteps, htree, fun k l hl => ?_⟩
    rcases (hk k).frame l with he | ⟨repo, hrepo, a, own, hown, hbelow⟩ |
      ⟨⟨repo, hrepo, a, ha, own, target, hown, hlink, hleads⟩, hfile⟩
    · exact absurd he hl
    · exact .inl ⟨repo, hrepo, a, own, isEntry_of_locate hcache hown, hbelow⟩
    · exact .inr ⟨repo, hrepo, a, own, target, ha, isEntry_of_locate hcache hown, hlink, hleads,
        hfile⟩

theorem oldCache_isQuiet : oldCache.tree.IsQuiet := by
  intro l content opens fate hl
  by_cases hnil : l = []
  · rw [hnil, Tree.find?_nil] at hl
    cases hl
  · simp only [oldCache, Tree.find?_cons hnil, Tree.find?_empty hnil] at hl
    split at hl
    · cases hl
    · split at hl <;> cases hl

theorem IsEntry.eq_of_oldCache {own : Location} (hslash : '/' ∉ repo.name.toList)
    (hentry : IsEntry h coreGoal oldCache.tree repo a own) : own = a.place ["cache"] repo.name := by
  obtain ⟨c, hc, -, hown⟩ := hentry.inside hslash
  cases locate_oldCache.symm.trans hc
  exact hown

/-- In a cache with an old list and nothing but files, all that changes is at or below the places
of the repositories, also where a transfer breaks off and a list cannot be read. -/
theorem run_confined_old : ∃ r w' steps,
    oldCache.attempt
      (run (flakyMirrors notedArchive brokenArchive) {} false coreGoal [retried, multilib]) =
        (r, w') ∧
    w'.steps = steps ∧ ∀ k l,
      (oldCache.tree.applyAll (steps.take k)).find? l ≠ oldCache.tree.find? l →
      IsOwn ["cache"] [retried, multilib] l := by
  obtain ⟨r, w', steps, hrun, hsteps, -, hk⟩ := run_confined
    (flakyMirrors notedArchive brokenArchive) {} false coreGoal [retried, multilib] oldCache
    oldCache_isRooted oldCache_isQuiet
  have hnames : ∀ repo ∈ [retried, multilib], repo.name ∈ ["core", "multilib", "lost"] := by decide
  have hslash : ∀ repo ∈ [retried, multilib], '/' ∉ repo.name.toList := by decide
  refine ⟨r, w', steps, hrun, hsteps, fun k l hl => ?_⟩
  rcases hk k l hl with ⟨repo, hrepo, a, own, hentry, hbelow⟩ |
    ⟨repo, hrepo, a, own, target, -, hentry, hlink, -⟩
  · exact ⟨repo, hrepo, a, hentry.eq_of_oldCache (hslash repo hrepo) ▸ hbelow⟩
  · rw [hentry.eq_of_oldCache (hslash repo hrepo)] at hlink
    exact absurd hlink ((oldCache_isLeaf (hnames repo hrepo) a).isDeadEnd.2 target)

/-! ## Names and links that lead out of the cache -/

/-- What a path names and is no directory is removed in one step. -/
theorem remove_takes {p name : String} {ns : List String} {l : Location} {node : Node}
    (hn : Path.EndsIn p ns name) (hl : locate h w.tree false p = .ok l)
    (hnode : w.tree.find? l = some node) (hne : node ≠ .directory)
    (hunlocked : h.locked l.dropLast = none) :
    Ends w (Files.remove h p) fun _ w' => w'.tree = w.tree.apply (.remove l) := by
  rw [ends_iff (Files.attempt_remove hn w), Files.clearingOf_of_ok hl, Disk.clearing,
    Disk.doomed_of_ne hnode hne, Disk.unlinking,
    Disk.released_of_unlocked (by simpa using hunlocked)]
  rfl

theorem flush_empty (sink : Disk.Sink) :
    Ends w (Disk.Writer.flush { sink }) fun _ w' => w' = w := by
  obtain ⟨place, room⟩ := sink
  cases place <;> cases room <;> rfl

/-- Nothing can be read of a document that is a directory. What stood in the part is gone by the
time that this is found. -/
theorem receive_directory {f : Fetcher} {u : Url} {path part filename : String} {d l : Location}
    {bytes : Bytes} (hf : f.IsPassive) (hu : u.scheme = "file") (hpath : u.filePath? = some path)
    (hd : locate h w.tree true path = .ok d) (hdir : w.tree.find? d = some .directory)
    (hslash : Path.endsInSlash part = false) (hl : locate h w.tree true part = .ok l)
    (hfile : w.tree.find? l = some (.file bytes)) (hunlocked : h.locked l.dropLast = none) :
    Ends w (f.receive h u filename part) fun r w' =>
      (∃ e, r = .error e) ∧ w'.tree = w.tree.apply (.put l (.file [])) := by
  have hopened : Ends w (f.openUrl h u) fun r w' => w' = w ∧
      ∃ total, r = .ok (.file (.place d), total) := by
    unfold Fetcher.openUrl
    rw [if_pos hu, hpath]
    refine ends_adapt_bind (R := fun r w' => w' = w ∧ r = .ok (.place d)) ?_ ?_
      (by rintro e w₁ ⟨-, ⟨⟩⟩)
    · unfold Disk.openRead
      apply ends_get_bind
      refine ends_except_bind (fun l' hl' => ?_) fun e he => nomatch he.symm.trans hd
      cases hd.symm.trans hl'
      rw [hdir]
      exact ends_pure ⟨rfl, rfl⟩
    · rintro source w₁ ⟨rfl, ⟨⟩⟩
      exact ends_get_bind (ends_pure ⟨rfl, _, rfl⟩)
  have hmade : Ends w (Disk.create h part) fun r w' =>
      (∃ sink, r = .ok sink) ∧ w'.tree = w.tree.apply (.put l (.file [])) := by
    unfold Disk.create
    apply ends_get_bind
    refine ends_except_bind (fun l' hl' => ?_) fun e he => nomatch he.symm.trans hl
    cases hl.symm.trans hl'
    rw [hslash, hfile]
    exact Disk.ends_askFile_bind (Disk.makeable_of_unlocked hunlocked)
      (ends_tell_bind (ends_pure ⟨⟨_, rfl⟩, rfl⟩))
  have hne : l ≠ [] := by
    rintro rfl
    rw [Tree.find?_nil] at hfile
    cases hfile
  unfold Fetcher.receive
  refine ends_bind hopened ?_ (by rintro e w₁ ⟨-, _, ⟨⟩⟩)
  rintro _ w ⟨rfl, total, ⟨⟩⟩
  refine ends_adapt_bind hmade ?_ (by rintro e w₁ ⟨⟨_, ⟨⟩⟩, -⟩)
  rintro sink w₂ ⟨-, htree⟩
  apply ends_tell_bind
  have hprogress := (hf ⟨filename, 0, total⟩ w₂).tree
  apply ends_get_bind
  generalize ((f.onProgress ⟨filename, 0, total⟩).run w₂).2 = w₃ at hprogress
  have hcontent : Incoming.content w₃.tree (.file (.place d)) =
      ⟨[], some (.system .isDirectory)⟩ := by
    have hdir₃ : w₃.tree.find? d = some .directory := by
      rw [hprogress, htree, Tree.find?_put hne, if_neg ?_]
      · exact hdir
      · rintro rfl
        cases hdir.symm.trans hfile
    simp only [Incoming.content, Disk.contentOf, hdir₃]
  rw [hcontent]
  dsimp only
  rw [h.arrival.pieces_nil]
  -- No chunk comes, so nothing waits to be written either.
  change Ends w₃ (do
    discard (liftM (Disk.Writer.flush { sink }).run)
    throw (DownloadError.io (.system .isDirectory))) _
  apply ends_discard_bind
  apply ends_outcome_bind
  refine ends_imp (flush_empty sink) fun _ w₄ hw₄ => ?_
  rw [hw₄]
  exact ends_throw ⟨⟨_, rfl⟩, hprogress.trans htree⟩

/-- When the only server of a repository fails, its list was removed before, and what the transfer
did stays. -/
theorem repository_refused {repo : Repository} {f : Fetcher} {server : String} {t₀ t₁ t₂ : Tree}
    (hservers : repo.servers = [server])
    (hremove : ∀ w : World, w.tree = t₀ →
      Ends w (Files.remove h (g.path repo)) fun _ w' => w'.tree = t₁)
    (hfetch : ∀ w : World, w.tree = t₁ → Ends w (f.fetch h (g.url repo server) repo.fileName)
      fun r w' => (∃ e, r = .error e) ∧ w'.tree = t₂) (hw : w.tree = t₀) :
    Settles w () (repository h (f.toFetch h) g repo).run fun _ _ w' => w'.tree = t₂ := by
  unfold repository Download.run
  apply settles_run_bind
  apply settles_run_tell_bind
  have hw₁ : ((World.emit (.downloading repo.name)).run w).2.tree = t₀ := hw
  generalize ((World.emit (.downloading repo.name)).run w).2 = w₁ at hw₁
  rw [if_neg (by simp [hservers]), hservers]
  unfold Download.fromServers
  apply Files.settles_noted
  refine ends_imp (hremove w₁ hw₁) fun _ w₂ hw₂ w₃ hsame₃ => ?_
  apply settles_note_bind
  intro w₄ hsame₄
  apply settles_run_lift_bind
  refine settles_run_attempt (ends_imp (hfetch w₄ ?_) fun r w₅ hr => ?_)
  · rw [hsame₄.tree, hsame₃.tree, hw₂]
  · obtain ⟨⟨e, rfl⟩, hw₅⟩ := hr
    apply settles_note_bind
    intro w₆ hsame₆
    apply settles_note_bind
    intro w₇ hsame₇
    apply settles_run_tell_bind
    unfold Download.fromServers
    change w₇.tree = t₂
    rw [hsame₇.tree, hsame₆.tree, hw₅]

/-- A cache beside a file with the given content and a mirror, which has a directory where the
list should be; and some more entries. -/
def strewn (outside : Bytes) (entries : List (Location × Node)) : Tree :=
  ⟨[(["cache"], .directory), (["outside"], .file outside), (["mirror"], .directory),
    (["mirror", "core.files"], .directory)] ++ entries⟩

def extra : Repository := { name := "../extra", servers := ["nowhere"] }

def localCore : Repository := { name := "core", servers := ["file:///mirror"] }

def extraList : Location × Node := (["extra.files"], .file [0])

def coreList : Location × Node := (["cache", "core.files"], .file [0])

def corePart : Location × Node := (["cache", "core.files.part"], .link "../outside")

/-- A link and two lists, one of them outside of the cache. -/
def strewnCache : World := { tree := strewn [0] [extraList, coreList, corePart] }

/-- The list of a repository with a slash in its name is removed outside of the cache. -/
theorem repository_extra (hw : w.tree = strewn [0] [extraList, coreList, corePart]) :
    Settles w () (repository {} ((fetcher {} coreGoal false).toFetch {}) coreGoal extra).run
      fun _ _ w' => w'.tree = strewn [0] [coreList, corePart] := by
  have hremove (w : World) (hw : w.tree = strewn [0] [extraList, coreList, corePart]) :
      Ends w (Files.remove {} (coreGoal.path extra)) fun _ w' =>
        w'.tree = strewn [0] [coreList, corePart] := by
    have hn : Path.EndsIn (coreGoal.path extra) ["", "cache", ".."] "extra.files" := by decide
    have hlocate : locate {} w.tree false (coreGoal.path extra) = .ok ["extra.files"] := by
      refine Disk.locate_of_walk ["", "cache", "..", "extra.files"] (by decide) (by decide)
        (by decide) ?_
      rw [hw, Tree.walk_stay rfl (.inl rfl),
        Tree.walk_on rfl (by decide) (by decide) (by rintro _ ⟨⟩), Tree.walk_up rfl,
        Tree.walk_on rfl (by decide) (by decide) (by rintro _ ⟨⟩), Tree.walk_nil]
      rfl
    refine ends_imp (remove_takes hn hlocate (by rw [hw]; rfl) (by decide) rfl) fun _ w' htree => ?_
    rw [htree, hw]
    rfl
  refine repository_refused rfl hremove (fun w hw => ?_) hw
  -- The only address is none.
  have hurl : Url.ofText (coreGoal.url extra "nowhere") = .error .relative := by
    decide +kernel
  unfold Fetcher.fetch
  rw [hurl]
  exact ends_throw ⟨⟨_, rfl⟩, hw⟩

/-- What cannot be received of the second repository's document empties the file that the link
beside its list leads to. -/
theorem fetch_localCore (hw : w.tree = strewn [0] [corePart]) :
    Ends w ((fetcher {} coreGoal false).fetch {} (coreGoal.url localCore "file:///mirror")
      localCore.fileName) fun r w' => (∃ e, r = .error e) ∧ w'.tree = strewn [] [] := by
  have hurl : Url.ofText (coreGoal.url localCore "file:///mirror") =
      .ok { scheme := "file", path := "/mirror/core.files" } := by decide +kernel
  have hpath : Url.filePath? { scheme := "file", path := "/mirror/core.files" } =
      some "/mirror/core.files" := by decide
  have hmirror : locate {} (strewn [0] [corePart]) true "/mirror/core.files" =
      .ok ["mirror", "core.files"] :=
    Disk.locate_of_names (by decide) (by decide) (by decide) (by decide) (by decide)
      (by rintro _ ⟨⟩)
  have hpart : locate {} (strewn [0] [corePart]) true
      (Role.part.path coreGoal.cache localCore.name) = .ok ["outside"] := by
    refine Disk.locate_of_walk ["", "cache", "core.files.part"] (by decide) (by decide)
      (by decide) ?_
    have htarget : Path.pieces "../outside" = ["..", "outside"] := by decide
    rw [Tree.walk_stay rfl (.inl rfl),
      Tree.walk_on rfl (by decide) (by decide) (by rintro _ ⟨⟩),
      Tree.walk_link rfl (by decide) (by decide) rfl]
    simp only [Tree.mostLinks]
    rw [if_neg (by decide), if_neg (by decide), htarget, List.append_nil, Tree.walk_up rfl,
      Tree.walk_on rfl (by decide) (by decide) (by rintro _ ⟨⟩), Tree.walk_nil]
    rfl
  have hlink : locate {} (strewn [] [corePart]) false
      (Role.part.path coreGoal.cache localCore.name) = .ok ["cache", "core.files.part"] := by
    refine Disk.locate_of_walk ["", "cache", "core.files.part"] (by decide) (by decide)
      (by decide) ?_
    rw [Tree.walk_stay rfl (.inl rfl),
      Tree.walk_on rfl (by decide) (by decide) (by rintro _ ⟨⟩),
      Tree.walk_link rfl (by decide) (by decide) rfl]
    rfl
  unfold Fetcher.fetch
  rw [hurl]
  dsimp only
  rw [Role.path_part]
  apply ends_note_bind
  intro w₁ hsame₁
  have hw₁ : w₁.tree = strewn [0] [corePart] := hsame₁.tree.trans hw
  have hreceived : Ends w₁ ((fetcher {} coreGoal false).receive {}
      { scheme := "file", path := "/mirror/core.files" } localCore.fileName
      (Role.part.path coreGoal.cache localCore.name)) fun r w' =>
        (∃ e, r = .error e) ∧ w'.tree = strewn [] [corePart] := by
    refine ends_imp (receive_directory (fetcher_isPassive {} coreGoal false) rfl hpath
      (hw₁ ▸ hmirror) (by rw [hw₁]; rfl) (by decide) (hw₁ ▸ hpart) (by rw [hw₁]; rfl) rfl)
      fun r w₂ hr => ⟨hr.1, ?_⟩
    rw [hr.2, hw₁]
    rfl
  refine ends_bind (R := fun r w' => (∃ e, r = .error e) ∧ w'.tree = strewn [] []) ?_
    (by rintro _ _ ⟨⟨_, ⟨⟩⟩, -⟩) fun e _ hr => ⟨⟨e, rfl⟩, hr.2⟩
  refine ends_catch hreceived (by rintro _ _ ⟨⟨_, ⟨⟩⟩, -⟩) fun e w₂ hr => ?_
  obtain ⟨-, hw₂⟩ := hr
  apply Files.ends_noted
  rw [← hw₂] at hlink
  have hn : Path.EndsIn (Role.part.path coreGoal.cache localCore.name) ["", "cache"]
      "core.files.part" := by decide
  refine ends_imp (remove_takes hn hlink (by rw [hw₂]; rfl) (by decide) rfl)
    fun _ w₃ htree w₄ hsame₄ => ?_
  refine ends_throw ⟨⟨e, rfl⟩, ?_⟩
  rw [hsame₄.tree, htree, hw₂]
  rfl

theorem repository_localCore (hw : w.tree = strewn [0] [coreList, corePart]) :
    Settles w () (repository {} ((fetcher {} coreGoal false).toFetch {}) coreGoal localCore).run
      fun _ _ w' => w'.tree = strewn [] [] := by
  have hremove (w : World) (hw : w.tree = strewn [0] [coreList, corePart]) :
      Ends w (Files.remove {} (coreGoal.path localCore)) fun _ w' =>
        w'.tree = strewn [0] [corePart] := by
    have hn : Path.EndsIn (coreGoal.path localCore) ["", "cache"] "core.files" := by decide
    have hlocate : locate {} w.tree false (coreGoal.path localCore) =
        .ok ["cache", "core.files"] := by
      rw [hw]
      exact Disk.locate_of_names (by decide) (by decide) (by decide) (by decide) (by decide)
        (by rintro _ ⟨⟩)
    refine ends_imp (remove_takes hn hlocate (by rw [hw]; rfl) (by decide) rfl) fun _ w' htree => ?_
    rw [htree, hw]
    rfl
  exact repository_refused rfl hremove (fun w hw => fetch_localCore hw) hw

/-- Neither a slash in a name nor a link beside a list keeps a run in the cache directory: the
list of the first repository is removed outside of it, and a file that is no list is emptied. -/
theorem run_unconfined :
    ((MirrorList.ofText {} "[../extra]\nServer = nowhere\n[core]\nServer = file:///mirror\n").run
      {}).1 = [extra, localCore] ∧
    locate {} strewnCache.tree true coreGoal.cache = .ok ["cache"] ∧
    (∀ l ∈ [["extra.files"], ["outside"]],
      strewnCache.tree.find? l = some (.file [0]) ∧ ¬ IsOwn ["cache"] [extra, localCore] l) ∧
    Ends strewnCache (run {} {} false coreGoal [extra, localCore]) fun _ w' =>
      w'.tree.find? ["extra.files"] = none ∧ w'.tree.find? ["outside"] = some (.file []) := by
  have hcache : locate {} strewnCache.tree true coreGoal.cache = .ok ["cache"] :=
    Disk.locate_of_names (by decide) (by decide) (by decide) (by decide) (by decide)
      (by rintro _ ⟨⟩)
  have hcheck : Files.ensureWritable {} strewnCache.tree coreGoal.cache = .ok () :=
    Files.ensureWritable_eq_ok.2 ⟨_, hcache, rfl, rfl⟩
  refine ⟨by decide +kernel, hcache, fun l hl => ⟨by fin_cases hl <;> rfl, ?_⟩, ?_⟩
  · -- What belongs to the run is below the cache directory.
    have houtside : ¬ ["cache"] <+: l := by
      fin_cases hl <;> decide
    rintro ⟨repo, -, a, hbelow⟩
    exact houtside ((List.prefix_append _ _).trans hbelow)
  · have hrun : Settles strewnCache ()
        (runWith {} ((fetcher {} coreGoal false).toFetch {}) coreGoal [extra, localCore]).run
        fun _ _ w' => w'.tree = strewn [] [] := by
      refine runWith_admitted hcheck (settles_all (fun rest _ _ w =>
        (rest = [extra, localCore] ∧ w.tree = strewn [0] [extraList, coreList, corePart]) ∨
        (rest = [localCore] ∧ w.tree = strewn [0] [coreList, corePart]) ∨
        rest = [] ∧ w.tree = strewn [] []) (.inl ⟨rfl, rfl⟩) ?_ ?_)
      · rintro repo rest r _ w (⟨hrest, hw⟩ | ⟨hrest, hw⟩ | ⟨hrest, -⟩)
        · cases hrest
          refine settles_imp (repository_extra hw) fun o _ w₂ hw₂ w' hemits => ?_
          exact .inr (.inl ⟨rfl, hemits.tree.trans hw₂⟩)
        · cases hrest
          refine settles_imp (repository_localCore hw) fun o _ w₂ hw₂ w' hemits => ?_
          exact .inr (.inr ⟨rfl, hemits.tree.trans hw₂⟩)
        · cases hrest
      · rintro r _ w₁ w' (⟨⟨⟩, -⟩ | ⟨⟨⟩, -⟩ | ⟨-, hw₁⟩) htree - - -
        exact htree.trans hw₁
    have htree : (strewnCache.attempt (run {} {} false coreGoal [extra, localCore])).2.tree =
        strewn [] [] := hrun
    rw [Ends, htree]
    exact ⟨rfl, rfl⟩

end Sync

end FileListCache
