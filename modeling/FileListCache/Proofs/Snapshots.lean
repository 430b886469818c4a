/-
  FileListCache.Proofs.Snapshots

  What the cache looks like at any moment of a run. `Sync.Snapshot` is the invariant of a whole
  run; of its conjuncts only `entry` speaks to readers, the others make it inductive:

    * `fades`, `frame` — the run has touched nothing but its own files, and opened no new ways.
    * `leaf`, `bare` — beside the file lists stand at most files, nothing below them.
    * `entry`, `below` — each file list is whole, and nothing has appeared below it.

  Every kind of step that a run takes preserves it: filling or clearing a file beside a list,
  clearing a list, and moving a complete file over a list.

  What a list may be depends on what servers have sent so far, so a snapshot is taken in view of
  that (`sent`), and stays one as more is sent (`Snapshot.mono`). `Sync.Way` says of a whole run up
  to some moment that every tree on it was a snapshot.
-/

import FileListCache.Proofs.Names
import FileListCache.Proofs.Rewriting
import Mathlib.Data.List.Nodup

namespace FileListCache.Sync

open Archive (Member)
open FileListCache.Tree (Step)
open World (Via)

variable {h : Host} {w₀ w w' : World} {t₀ t : Tree} {g : Download.Goal} {c l : Location}
  {repos : List Repository} {repo : Repository}
  {respond : String → List Http.Request → Option Http.Body} {sent sent' : String → Bytes → Prop}
  {a : Role} {s : Step}

/-- The cache that a run starts with: a directory that its path leads to, in which at most files
stand beside the lists, and repositories that can be told apart by names without a slash. -/
structure Setting (h : Host) (t : Tree) (g : Download.Goal) (c : Location)
    (repos : List Repository) : Prop where
  cache : Disk.locate h t true g.cache = .ok c
  directory : t.find? c = some .directory
  distinct : (repos.map (·.name)).Nodup
  noSlash : ∀ repo ∈ repos, '/' ∉ repo.name.toList
  leaf : ∀ repo ∈ repos, ∀ a, a ≠ Role.list → t.IsLeaf (a.place c repo.name)
  bare : ∀ repo ∈ repos, ∀ a, a ≠ Role.list → t.IsBare (a.place c repo.name)

/-- The place is that of a file of a repository, or below it. -/
def IsOwn (c : Location) (repos : List Repository) (l : Location) : Prop :=
  ∃ repo ∈ repos, ∃ a : Role, a.place c repo.name <+: l

/-- The trees differ in the files of the repositories at most. -/
def AgreesOff (c : Location) (repos : List Repository) (t₀ t : Tree) : Prop :=
  ∀ l, ¬ IsOwn c repos l → t.find? l = t₀.find? l

/-- At some time between the two worlds the bytes were the whole answer from the address, where
`respond` says what comes from which address after which requests. -/
def Sent (respond : String → List Http.Request → Option Http.Body) (w w' : World) (url : String)
    (bytes : Bytes) : Prop :=
  ∃ before, w.requests <+: before ∧ before <+: w'.requests ∧
    respond url before = some ⟨bytes, none⟩

/-- The bytes are what a server of the repository sent, where `sent` says what was sent as a whole
from which address. -/
def IsSent (g : Download.Goal) (sent : String → Bytes → Prop) (repo : Repository) (bytes : Bytes) :
    Prop :=
  ∃ server ∈ repo.servers, sent (g.url repo server) bytes

/-- What a file list may be for readers: nothing, what it was before, what a server sent as a
whole, or the complete rewriting of that. -/
def IsWhole (g : Download.Goal) (sent : String → Bytes → Prop) (repo : Repository)
    (before entry : Option Node) : Prop :=
  entry = none ∨ entry = before ∨ ∃ bytes, IsSent g sent repo bytes ∧
    (entry = some (.file bytes) ∨ ∃ ms, Archive.Accepts bytes ms ∧
      entry = some (.file (Archive.bytesOf ms)))

/-- The cache at a moment of a run that started with the tree `t₀`. -/
structure Snapshot (t₀ : Tree) (g : Download.Goal) (c : Location) (repos : List Repository)
    (sent : String → Bytes → Prop) (t : Tree) : Prop where
  fades : t₀.Fades t
  frame : AgreesOff c repos t₀ t
  leaf : ∀ repo ∈ repos, ∀ a, a ≠ Role.list → t.IsLeaf (a.place c repo.name)
  bare : ∀ repo ∈ repos, ∀ a, a ≠ Role.list → t.IsBare (a.place c repo.name)
  entry : ∀ repo ∈ repos, IsWhole g sent repo (t₀.find? (Role.list.place c repo.name))
    (t.find? (Role.list.place c repo.name))
  below : ∀ repo ∈ repos, ∀ r, r ≠ [] → t.find? (Role.list.place c repo.name ++ r) = none ∨
    t.find? (Role.list.place c repo.name ++ r) = t₀.find? (Role.list.place c repo.name ++ r)

/-- The run that started in the world `w₀` has come to the world `w`. Every tree on the way was a
snapshot in view of what was sent until now, and what was asked on the way was added to what had
been asked before. -/
structure Way (w₀ : World) (g : Download.Goal) (c : Location) (repos : List Repository)
    (respond : String → List Http.Request → Option Http.Body) (w : World) : Prop where
  asked : w₀.requests <+: w.requests
  via : Via (Snapshot w₀.tree g c repos (Sent respond w₀ w)) w₀ w

theorem Setting.snapshot (hs : Setting h t g c repos) : Snapshot t g c repos sent t where
  fades := .refl t
  frame := fun _ _ => rfl
  leaf := hs.leaf
  bare := hs.bare
  entry := fun _ _ => .inr (.inl rfl)
  below := fun _ _ _ _ => .inr rfl

/-! ## Names and places -/

theorem place_ne_nil : a.place c repo.name ≠ [] := by
  simp [Role.place]

theorem place_append_ne {r : Location} (hr : r ≠ []) {b : Role} {name name' : String} :
    a.place c name ++ r ≠ b.place c name' := by
  intro he
  have hlen := congrArg List.length he
  have hpos := List.length_pos_iff.2 hr
  simp only [Role.place, List.length_append, List.length_cons, List.length_nil] at hlen
  omega

theorem list_ne_place {name name' : String} (ha : a ≠ Role.list) :
    Role.list.place c name ≠ a.place c name' :=
  (Role.apart (.inr ha.symm)).ne

/-! ## Steps -/

namespace Snapshot

/-- A file beside a list is made or grows. -/
theorem fills (hk : Snapshot t₀ g c repos sent t) (hrepo : repo ∈ repos) (ha : a ≠ Role.list)
    (hs : s.Fills (a.place c repo.name)) : Snapshot t₀ g c repos sent (t.apply s) := by
  have hfind {l : Location} (hl : l ≠ a.place c repo.name) : (t.apply s).find? l = t.find? l :=
    hs.find?_eq place_ne_nil hl
  constructor
  · exact hk.fades.trans (hs.fades place_ne_nil)
  · intro l hl
    have hne : l ≠ a.place c repo.name := by
      intro he
      exact hl ⟨repo, hrepo, a, he ▸ List.prefix_rfl⟩
    rw [hfind hne, hk.frame l hl]
  · intro repo' hrepo' b hb
    have hleaf := hk.leaf repo' hrepo' b hb
    by_cases hne : b.place c repo'.name = a.place c repo.name
    · -- The file itself: it is a file now, or still not there.
      rw [hne] at hleaf ⊢
      cases s with
      | put p node =>
        obtain ⟨rfl, rfl⟩ := hs
        refine .inr ⟨[], ?_⟩
        rw [Tree.find?_put place_ne_nil, if_pos rfl]
      | extend p bytes =>
        obtain rfl : p = a.place c repo.name := hs
        rw [Tree.IsLeaf, Tree.find?_extend, if_pos rfl]
        rcases hleaf with hnone | ⟨done, hfile⟩
        · exact .inl (by rw [hnone]; rfl)
        · exact .inr ⟨done ++ bytes, by rw [hfile]; rfl⟩
      | remove p => exact hs.elim
      | move source target => exact hs.elim
    · rw [Tree.IsLeaf, hfind hne]
      exact hleaf
  · intro repo' hrepo' b hb r hr
    rw [hfind (place_append_ne hr), hk.bare repo' hrepo' b hb r hr]
  · intro repo' hrepo'
    rw [hfind (list_ne_place ha)]
    exact hk.entry repo' hrepo'
  · intro repo' hrepo' r hr
    rw [hfind (place_append_ne hr)]
    exact hk.below repo' hrepo' r hr

/-- It is enough that the lists are whole, if everything else is as it was or gone. -/
theorem of_gone (hk : Snapshot t₀ g c repos sent t) {t' : Tree} (hfades : t.Fades t')
    (hframe : ∀ l, ¬ IsOwn c repos l → t'.find? l = t.find? l)
    (hfind : ∀ l, (∀ name, l ≠ Role.list.place c name) →
      t'.find? l = t.find? l ∨ t'.find? l = none)
    (hentry : ∀ repo ∈ repos, IsWhole g sent repo (t₀.find? (Role.list.place c repo.name))
      (t'.find? (Role.list.place c repo.name))) : Snapshot t₀ g c repos sent t' := by
  refine ⟨hk.fades.trans hfades, fun l hl => (hframe l hl).trans (hk.frame l hl), ?_, ?_, hentry,
    ?_⟩
  · intro repo hrepo a ha
    rcases hfind (a.place c repo.name) fun _ => (list_ne_place ha).symm with he | he
    · rw [Tree.IsLeaf, he]
      exact hk.leaf repo hrepo a ha
    · exact .inl he
  · intro repo hrepo a ha r hr
    rcases hfind (a.place c repo.name ++ r) fun _ => place_append_ne hr with he | he
    · rw [he, hk.bare repo hrepo a ha r hr]
    · exact he
  · intro repo hrepo r hr
    rcases hfind (Role.list.place c repo.name ++ r) fun _ => place_append_ne hr with he | he
    · rw [he]
      exact hk.below repo hrepo r hr
    · exact .inl he

/-- A file is removed, or something below it. -/
theorem clears (hk : Snapshot t₀ g c repos sent t) (hrepo : repo ∈ repos)
    (hs : s.Clears (a.place c repo.name)) : Snapshot t₀ g c repos sent (t.apply s) := by
  -- Every place is as it was or empty now.
  have hfind (l : Location) : (t.apply s).find? l = t.find? l ∨ (t.apply s).find? l = none := by
    obtain ⟨p, hp, -, rfl⟩ := hs.exists_remove place_ne_nil
    rw [Tree.find?_remove hp]
    by_cases hl : l = p
    · exact .inr (if_pos hl)
    · exact .inl (if_neg hl)
  refine hk.of_gone (hs.fades place_ne_nil) (fun l hl => ?_) (fun l _ => hfind l)
    fun repo' hrepo' => ?_
  · exact hs.find?_eq place_ne_nil fun hpre => hl ⟨repo, hrepo, a, hpre⟩
  · rcases hfind (Role.list.place c repo'.name) with he | he
    · rw [he]
      exact hk.entry repo' hrepo'
    · exact .inl he

/-- A complete file takes the place of the list. -/
theorem move (hk : Snapshot t₀ g c repos sent t)
    (hdistinct : (repos.map (·.name)).Nodup) (hrepo : repo ∈ repos) (ha : a ≠ Role.list)
    {bytes : Bytes} (hfile : t.find? (a.place c repo.name) = some (.file bytes))
    (hwhole : IsWhole g sent repo (t₀.find? (Role.list.place c repo.name))
      (some (.file bytes))) :
    Snapshot t₀ g c repos sent
      (t.apply (.move (a.place c repo.name) (Role.list.place c repo.name))) := by
  have hbare := hk.bare repo hrepo a ha
  have hapart : Tree.Apart (a.place c repo.name) (Role.list.place c repo.name) :=
    Role.apart (.inr ha)
  -- Everywhere but at the list, things are as they were or gone.
  have hfind {l : Location} (hl : l ≠ Role.list.place c repo.name) :
      (t.apply (.move (a.place c repo.name) (Role.list.place c repo.name))).find? l = t.find? l ∨
        (t.apply (.move (a.place c repo.name) (Role.list.place c repo.name))).find? l = none := by
    rw [Tree.find?_move hapart hbare, if_neg hl]
    by_cases hpre : a.place c repo.name <+: l
    · exact .inr (if_pos hpre)
    · exact .inl (if_neg hpre)
  have hlist : (t.apply (.move (a.place c repo.name) (Role.list.place c repo.name))).find?
      (Role.list.place c repo.name) = some (.file bytes) := by
    rw [Tree.find?_move_target hapart, hfile]
  refine hk.of_gone (fun l => ?_) (fun l hl => ?_) (fun l hl => hfind (hl repo.name))
    fun repo' hrepo' => ?_
  · by_cases hl : l = Role.list.place c repo.name
    · rw [hl]
      exact .inr (Tree.isDeadEnd_of_file hlist)
    · rcases hfind hl with he | he
      · exact .inl he
      · exact .inr (Tree.isDeadEnd_of_none he)
  · have hsource : ¬ a.place c repo.name <+: l := fun hpre => hl ⟨repo, hrepo, a, hpre⟩
    have htarget : ¬ Role.list.place c repo.name <+: l := fun hpre =>
      hl ⟨repo, hrepo, Role.list, hpre⟩
    exact Tree.find?_move_other hapart hsource htarget
  · -- A list in the same place is that of the same repository.
    by_cases hl : Role.list.place c repo'.name = Role.list.place c repo.name
    · have hname : repo'.name = repo.name := by
        have hnames := List.append_cancel_left hl
        exact (Role.append_inj (List.cons.inj hnames).1).1
      obtain rfl := List.inj_on_of_nodup_map hdistinct hrepo' hrepo hname
      rw [hlist]
      exact hwhole
    · rcases hfind hl with he | he
      · rw [he]
        exact hk.entry repo' hrepo'
      · exact .inl he

end Snapshot

/-! ## The way of a run -/

theorem Sent.mono {url : String} {bytes : Bytes} (hsent : Sent respond w₀ w url bytes)
    (hasked : w.requests <+: w'.requests) : Sent respond w₀ w' url bytes := by
  obtain ⟨before, hfrom, hto, hanswer⟩ := hsent
  exact ⟨before, hfrom, hto.trans hasked, hanswer⟩

theorem IsWhole.mono {before entry : Option Node} (hw : IsWhole g sent repo before entry)
    (hsent : ∀ url bytes, sent url bytes → sent' url bytes) :
    IsWhole g sent' repo before entry := by
  rcases hw with hnone | hbefore | ⟨bytes, ⟨server, hserver, hserves⟩, hentry⟩
  · exact .inl hnone
  · exact .inr (.inl hbefore)
  · exact .inr (.inr ⟨bytes, ⟨server, hserver, hsent _ _ hserves⟩, hentry⟩)

/-- A snapshot stays one when more is sent. -/
theorem Snapshot.mono (hk : Snapshot t₀ g c repos sent t)
    (hsent : ∀ url bytes, sent url bytes → sent' url bytes) : Snapshot t₀ g c repos sent' t where
  fades := hk.fades
  frame := hk.frame
  leaf := hk.leaf
  bare := hk.bare
  entry := fun repo hrepo => (hk.entry repo hrepo).mono hsent
  below := hk.below

theorem Setting.way (hs : Setting h w.tree g c repos) : Way w g c repos respond w :=
  ⟨List.prefix_rfl, .of_after_nil (World.Same.refl w).after hs.snapshot⟩

namespace Way

variable (hw : Way w₀ g c repos respond w)
include hw

theorem snapshot : Snapshot w₀.tree g c repos (Sent respond w₀ w) w.tree := hw.via.last

/-- What comes from an address now is sent on the way. -/
theorem sends {url : String} {bytes : Bytes}
    (hanswer : respond url w.requests = some ⟨bytes, none⟩) : Sent respond w₀ w url bytes :=
  ⟨w.requests, hw.asked, List.prefix_rfl, hanswer⟩

/-- The run goes on by snapshots in view of what was sent until now. -/
theorem further (hasked : w.requests <+: w'.requests)
    (hvia : Via (Snapshot w₀.tree g c repos (Sent respond w₀ w)) w w') :
    Way w₀ g c repos respond w' := by
  refine ⟨hw.asked.trans hasked, (hw.via.trans hvia).imp fun t ht => ht.mono ?_⟩
  exact fun _ _ hsent => hsent.mono hasked

/-- It goes on in a world in which neither the disk nor the servers were asked for anything. -/
theorem of_after_nil (hafter : World.After w [] w') (hasked : w'.requests = w.requests) :
    Way w₀ g c repos respond w' :=
  hw.further (hasked ▸ List.prefix_rfl) (.of_after_nil hafter hw.snapshot)

/-- Those who watch are told of something. -/
theorem emit (e : Event) : Way w₀ g c repos respond ((World.emit e).run w).2 :=
  hw.of_after_nil ⟨(List.append_nil _).symm, rfl⟩ rfl

end Way

end FileListCache.Sync
