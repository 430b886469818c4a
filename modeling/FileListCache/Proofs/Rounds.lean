/-
  FileListCache.Proofs.Rounds

  What the sync of one repository comes to: its list is downloaded and then rewritten in its
  place. As with downloads, every tree on the way is a snapshot; on a calm disk the outcome is
  decided by what the servers send (`Sync.Outcome`).
-/

import FileListCache.Sync
import FileListCache.Proofs.Downloads
import FileListCache.Proofs.Replacement

namespace FileListCache.Sync

open Archive (Accepts Member)
open Disk (locate)
open FileListCache.Tree (Step)
open Transcode (Abandoned Beside Complete)
open World (Works Same Takes Via)

variable {h : Host} {t₀ t : Tree} {g : Download.Goal} {c : Location} {repos : List Repository}
  {repo : Repository} {respond : String → List Http.Request → Option Http.Body}
  {sent : String → Bytes → Prop} {f : Fetcher} {w₀ w w' : World} {server : String} {bytes : Bytes}

/-! ## Rewriting a list -/

/-- Where the file that has arrived can be named, its copy can be named too. -/
theorem Setting.locate_copy (hs : Setting h t₀ g c repos) (hrepo : repo ∈ repos)
    (hpart : locate h t₀ false (Role.part.path g.cache repo.name) =
      .ok (Role.part.place c repo.name)) :
    locate h t₀ false (Role.copy.path g.cache repo.name) = .ok (Role.copy.place c repo.name) := by
  rw [hs.locate_iff hrepo] at hpart ⊢
  obtain ⟨hzero, hpath, hname⟩ := hpart
  have hne : repo.name ++ ".files" ≠ "" := (Role.isName repo.name .list).1
  have hpartPath : Role.part.path g.cache repo.name =
      Path.join g.cache (repo.name ++ ".files") ++ ".part" := by
    rw [Path.join_append hne, String.append_assoc]
    rfl
  have hcopyPath : Role.copy.path g.cache repo.name =
      Path.join g.cache (repo.name ++ ".files") ++ "~" := by
    rw [Path.join_append hne, String.append_assoc]
    rfl
  -- The one suffix is longer than the other.
  have hsizes : Utf8.size ".part" = 5 ∧ Utf8.size "~" = 1 ∧ Utf8.size ".files.part" = 11 ∧
      Utf8.size ".files~" = 7 := by decide
  simp only [Disk.Sayable, hpartPath, hcopyPath, Role.suffix, Utf8.size_append] at *
  refine ⟨?_, by omega, by omega⟩
  simpa using hzero

theorem Setting.beside (hs : Setting h t₀ g c repos) (hrepo : repo ∈ repos)
    (hk : Snapshot t₀ g c repos sent t)
    (hlist : t.find? (Role.list.place c repo.name) = some (.file bytes)) :
    Beside h t (g.path repo) (Transcode.copyPath (g.path repo)) (Role.list.place c repo.name)
      (Role.copy.place c repo.name) where
  source := (hs.aims hrepo .list).fades hk.fades
  copy := by
    rw [Role.path_copy]
    exact (hs.aims hrepo .copy).fades hk.fades
  apart := Role.apart (.inr (by decide))
  plainSource := fun _ => .inr (.inr ⟨bytes, hlist⟩)
  plainCopy := fun _ => (hk.leaf repo hrepo .copy (by decide)).isPlain

/-- A list and what is beside it after the list was rewritten, or could not be. -/
inductive Rewritten (c : Location) (repo : Repository) (bytes : Bytes) (t : Tree) :
    Except SyncError Nat → Prop
  | complete {ms : List Member} (haccepts : Accepts bytes ms)
      (hlist : t.find? (Role.list.place c repo.name) = some (.file (Archive.bytesOf ms)))
      (hbeside : ∀ a, a ≠ Role.list → t.find? (a.place c repo.name) = none) :
      Rewritten c repo bytes t (.ok (Transcode.Report.ofMembers ms).entries)
  | spoiled {e : ArchiveError} (hnot : ∀ ms, ¬ Accepts bytes ms)
      (hlist : t.find? (Role.list.place c repo.name) = some (.file bytes))
      (hbeside : ∀ a, a ≠ Role.list → t.find? (a.place c repo.name) = none) :
      Rewritten c repo bytes t (.error (.archive e))

section Rewriting

variable (hs : Setting h t₀ g c repos) (hrepo : repo ∈ repos)
  (hk : Snapshot t₀ g c repos sent w.tree)
  (hlist : w.tree.find? (Role.list.place c repo.name) = some (.file bytes))
include hs hrepo hk hlist

/-- A complete copy takes the place of the list. -/
theorem via_of_complete {ms : List Member} {w₁ : World} {p q : String}
    (hsent : IsSent g sent repo bytes)
    (hcomplete : Complete h w p q (Role.list.place c repo.name) (Role.copy.place c repo.name) ms
      w₁)
    (hmoved : Takes (.move (Role.copy.place c repo.name) (Role.list.place c repo.name)) w₁ w') :
    Accepts bytes ms ∧ Via (Snapshot t₀ g c repos sent) w w' := by
  have haccepts : Accepts bytes ms := by
    obtain ⟨contents, hcontents, haccepts⟩ := hcomplete.ready.accepted
    rw [hlist] at hcontents
    cases hcontents
    exact haccepts
  refine ⟨haccepts, ?_⟩
  -- Until the move readers see what was downloaded, after it the complete rewriting.
  have hvia := via_of_fills hrepo hk (by decide) hcomplete.works
  have hk' := hvia.last.move hs.distinct hrepo (by decide) hcomplete.copy
    (.inr (.inr ⟨bytes, hsent, .inr ⟨ms, haccepts, rfl⟩⟩))
  rw [← hmoved.tree] at hk'
  exact hvia.trans (hmoved.via hvia.last hk')

/-- Nothing is left of a copy that was given up, and the list is as it was. -/
theorem via_of_abandoned (hpart : w.tree.find? (Role.part.place c repo.name) = none)
    (habandoned : Abandoned h w (g.path repo) (Transcode.copyPath (g.path repo))
      (Role.list.place c repo.name) (Role.copy.place c repo.name) w') :
    Via (Snapshot t₀ g c repos sent) w w' ∧ World.Tells repo.name [] [] w w' ∧
      (IsCalm h t₀ c repos respond → Delivers h t₀ g c respond repo server bytes →
        ∀ e, Rewritten c repo bytes w'.tree (.error (.archive e))) := by
  obtain ⟨w₁, hfills, hclears⟩ := habandoned.works
  have hvia := via_of_fills hrepo hk (by decide) hfills
  refine ⟨hvia.trans (via_of_clears hrepo hvia.last hclears), hfills.tells.trans hclears.tells,
    fun hc hdelivers e => ?_⟩
  have halike := hk.alike hs hc
  have hcopy : locate h w.tree false (Transcode.copyPath (g.path repo)) =
      .ok (Role.copy.place c repo.name) := by
    rw [Role.path_copy]
    exact (hs.aims hrepo .copy).alike halike (hs.locate_copy hrepo hdelivers.clear.part)
  -- The work was all at the place of the copy.
  have hfind {a : Role} (ha : a ≠ .copy) :
      w'.tree.find? (a.place c repo.name) = w.tree.find? (a.place c repo.name) := by
    have hapart : Tree.Apart (Role.copy.place c repo.name) (a.place c repo.name) :=
      Role.apart (.inr ha.symm)
    rw [hclears.find?_of_clears place_ne_nil hapart.1,
      hfills.find?_of_fills place_ne_nil hapart.symm.ne]
  refine .spoiled (fun ms haccepts => ?_) ?_ fun a ha => ?_
  · -- An archive that the reader accepts would have been copied: all else is in order.
    have hnoDirectory := (hk.leaf repo hrepo .copy (by decide)).isDeadEnd.1
    refine habandoned.reason (hc.steady.room _) ms
      ⟨?_, ⟨hcopy, hnoDirectory, Disk.makeable_of_unlocked (hc.steady.unlocked _)⟩, bytes, hlist,
        haccepts⟩
    exact (hs.aims hrepo .list).alike halike hdelivers.clear.output
  · rw [hfind (by decide), hlist]
  · cases a with
    | list => exact absurd rfl ha
    | part => rw [hfind (by decide), hpart]
    | copy => exact habandoned.cleared hcopy (Disk.removable_of_isSteady hc.steady)

variable (respond) in
/-- Rewriting the list changes nothing for readers until the copy is complete. If the list can be
read to its end it is rewritten, and else it stays. -/
theorem entriesOf_ends (hserver : server ∈ repo.servers) (hsent : sent (g.url repo server) bytes)
    (hpart : w.tree.find? (Role.part.place c repo.name) = none) :
    Ends w (entriesOf h (g.path repo)) fun r w' =>
      Via (Snapshot t₀ g c repos sent) w w' ∧ World.Tells repo.name [] [] w w' ∧
      (IsCalm h t₀ c repos respond → Delivers h t₀ g c respond repo server bytes →
        Rewritten c repo bytes w'.tree r) := by
  unfold entriesOf
  apply ends_outcome_bind
  refine ends_imp (Transcode.inPlace_ends (hs.beside hrepo hk hlist)) ?_
  intro r w₁ hr
  obtain ⟨hok, hrename, hother⟩ := hr
  cases r with
  | ok report =>
    obtain ⟨ms, w₂, rfl, hcomplete, -, hmoved⟩ := hok report rfl
    obtain ⟨haccepts, hvia⟩ :=
      via_of_complete hs hrepo hk hlist ⟨server, hserver, hsent⟩ hcomplete hmoved
    refine ends_pure ⟨hvia, hcomplete.works.tells.trans hmoved.tells, fun _ _ => ?_⟩
    have hapart : Tree.Apart (Role.copy.place c repo.name) (Role.list.place c repo.name) :=
      Role.apart (.inr (by decide))
    -- The list is the copy now, the copy is gone from its place, and the part was not touched.
    refine .complete haccepts ?_ fun a ha => ?_
    · rw [hmoved.tree, Tree.find?_move_target hapart, hcomplete.copy]
    · rw [hmoved.tree]
      cases a with
      | list => exact absurd rfl ha
      | copy => exact Tree.find?_move_source hapart List.prefix_rfl
      | part =>
        have hpart₁ : Tree.Apart (Role.part.place c repo.name) (Role.copy.place c repo.name) :=
          Role.apart (.inr (by decide))
        have hpart₂ : Tree.Apart (Role.part.place c repo.name) (Role.list.place c repo.name) :=
          Role.apart (.inr (by decide))
        rw [Tree.find?_move_other hapart hpart₁.2 hpart₂.2,
          hcomplete.works.find?_of_fills place_ne_nil hpart₁.ne, hpart]
  | error e =>
    cases e with
    | rename source target entries reason =>
      -- The complete copy stays beside the list; on a calm disk this does not happen.
      obtain ⟨-, -, hmoves, ms, -, hcomplete⟩ := hrename _ _ _ _ rfl
      apply ends_note_bind
      intro w₂ hsame
      have hworks := hcomplete.works.trans hsame.works
      refine ends_pure ⟨via_of_fills hrepo hk (by decide) hworks, hworks.tells, fun hc _ => ?_⟩
      exact absurd (hc.steady.moves _ _) hmoves
    | unopened | empty | read | write | badFile =>
      -- Every other failure means that no complete copy was made.
      obtain ⟨hvia, htells, hrewritten⟩ :=
        via_of_abandoned hs hrepo hk hlist hpart (hother _ rfl id)
      exact ends_throw ⟨hvia, htells, fun hc hdelivers => hrewritten hc hdelivers _⟩

end Rewriting

/-! ## Single repositories -/

/-- What the sync of a repository comes to on a calm disk, with the addresses that were tried and
the tree at its end: the repository has no servers, none of them delivers, or the list of the first
that does is rewritten. -/
inductive Outcome (h : Host) (t₀ : Tree) (g : Download.Goal) (c : Location)
    (respond : String → List Http.Request → Option Http.Body) (repo : Repository) (t : Tree) :
    List String → Except SyncError Nat → Prop
  | noServers (hservers : repo.servers = []) :
      Outcome h t₀ g c respond repo t [] (.error (.noServers repo.name))
  | allFailed (hservers : repo.servers ≠ [])
      (hfails : ∀ s ∈ repo.servers, ∀ b, ¬ Delivers h t₀ g c respond repo s b)
      (hvacant : locate h t₀ false (g.path repo) = .ok (Role.list.place c repo.name) →
        t.find? (Role.list.place c repo.name) = none) :
      Outcome h t₀ g c respond repo t (repo.servers.map (g.url repo))
        (.error (.allMirrorsFailed repo.name repo.servers.length))
  | delivered (before : List String) {after : List String} {server : String} {bytes : Bytes}
      {r : Except SyncError Nat} (hservers : repo.servers = before ++ server :: after)
      (hdelivers : Delivers h t₀ g c respond repo server bytes)
      (hbefore : ∀ s ∈ before, ∀ b, ¬ Delivers h t₀ g c respond repo s b)
      (hrewritten : Rewritten c repo bytes t r) :
      Outcome h t₀ g c respond repo t ((before ++ [server]).map (g.url repo)) r

/-- The sync of one repository. -/
theorem repository_ends {σ : Type} (hs : Setting h w₀.tree g c repos) (hrepo : repo ∈ repos)
    (hf : f.IsPassive) (hasks : f.AsksNothing) (hcache : f.cache = g.cache)
    (hans : ∀ server ∈ repo.servers,
      f.Answers h (AgreesOff c repos w₀.tree) (g.url repo server) (respond (g.url repo server)))
    (w : World) (s : σ) (hway : Way w₀ g c repos respond w) :
    Settles w s (repository h (f.toFetch h) g repo).run fun r _ w' =>
      Way w₀ g c repos respond w' ∧ ∃ urls, World.Tells repo.name urls [] w w' ∧
        (IsCalm h w₀.tree c repos respond → Outcome h w₀.tree g c respond repo w'.tree urls r) := by
  unfold repository
  apply settles_run_bind
  refine settles_imp (download_ends hs hrepo hf hasks hcache hans w s hway) ?_
  intro r s₁ w₁ hr
  obtain ⟨hway₁, hr⟩ := hr
  by_cases hservers : repo.servers = []
  · rw [if_pos hservers] at hr
    obtain ⟨rfl, htells⟩ := hr
    exact ⟨hway₁, [], htells, fun _ => .noServers hservers⟩
  rw [if_neg hservers] at hr
  cases hr with
  | failed htells hvacant hfails =>
    refine ⟨hway₁, _, htells, fun hc => .allFailed hservers (hfails hc) ?_⟩
    exact hvacant hc fun hnil => absurd hnil hservers
  | delivered before hbefore hsent hlist hpart htells hcalm =>
    apply settles_run_tell_bind
    have hway₂ := hway₁.emit (.transcoding repo.name)
    have htells₂ := htells.trans (tells_emit w₁ (.transcoding repo.name))
    have hserver := hbefore ▸ List.mem_append_right before List.mem_cons_self
    refine settles_run_attempt (ends_imp (ends_and
      (entriesOf_ends respond hs hrepo hway₂.snapshot hlist hserver hsent hpart)
      (utters_entriesOf (P := fun _ => False) _ _)) ?_)
    intro r w₃ hr
    obtain ⟨⟨hvia₃, htells₃, hrewritten⟩, hsilent⟩ := hr
    refine ⟨hway₂.further hsilent.asked hvia₃, _, htells₂.trans htells₃, fun hc => ?_⟩
    obtain ⟨hdelivers, hfails⟩ := hcalm hc
    have houtcome := Outcome.delivered before hbefore hdelivers hfails (hrewritten hc hdelivers)
    simpa [Event.attempt?] using houtcome

end FileListCache.Sync
