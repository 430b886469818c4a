/-
  FileListCache.Proofs.Reach

  How far the requests of a run reach. A run removes and renames what the paths of its files name,
  the last link not followed, and it fills what they lead to, that link followed. What both are is
  decided by the first tree: `Sync.InReach` says it, for repositories of any name and for whatever
  stands at the places. The invariant of a run is `Sync.Confined`:

    * `frame` — nothing but what is named has changed, and what a link leads to, which is a file.
    * `strays` — paths that a run's own links have led elsewhere end in its reach.
    * `quiet` — no other process is about to replace a file.
-/

import FileListCache.Proofs.Footprints
import FileListCache.Proofs.Names
import FileListCache.Proofs.Replacement
import FileListCache.Proofs.Straying

namespace FileListCache

open Disk (locate LooksIn)
open FileListCache.Tree (Step Strays)
open World (Same Takes Via Works)

/-! ## Paths of files, whatever the repository is called -/

namespace Role

variable {a b : Role} {cache name : String} {h : Host} {t : Tree} {l l' : Location}

theorem isAbsolute_append_suffix (p : String) (a : Role) :
    Path.isAbsolute (p ++ a.suffix) = Path.isAbsolute p := by
  by_cases hp : p.toList = []
  · rw [String.toList_eq_nil_iff.1 hp]
    cases a <;> decide
  · simp [Path.isAbsolute, List.head?_append_of_ne_nil _ hp]

/-- The paths of the three files differ in their ends only. -/
theorem exists_path (cache name : String) :
    ∃ p : String, ∀ a : Role, a.path cache name = p ++ a.suffix := by
  unfold path Path.join
  simp only [isAbsolute_append_suffix]
  by_cases h1 : (Path.isAbsolute name || cache.toList.isEmpty) = true
  · exact ⟨name, fun a => by rw [if_pos h1]⟩
  by_cases h2 : cache.toList.getLast? = some '/'
  · exact ⟨cache ++ name, fun a => by rw [if_neg h1, if_pos h2, String.append_assoc]⟩
  · refine ⟨cache ++ "/" ++ name, fun a => ?_⟩
    rw [if_neg h1, if_neg h2, String.append_assoc, String.append_assoc, String.append_assoc]

/-- The three files are looked for side by side, at the end of the same names. -/
theorem exists_endsIn (cache name : String) : ∃ ns stem, ∀ a : Role,
    Path.EndsIn (a.path cache name) ns (stem ++ a.suffix) := by
  obtain ⟨p, hp⟩ := exists_path cache name
  obtain ⟨ns, stem, -, happ⟩ := Path.exists_pieces_append p
  refine ⟨ns, stem, fun a => ⟨?_, isName stem a⟩⟩
  rw [hp a, happ]
  cases a <;> decide

theorem start_path (h : Host) (cache name : String) (a b : Role) :
    Disk.start h (a.path cache name) = Disk.start h (b.path cache name) := by
  obtain ⟨p, hp⟩ := exists_path cache name
  simp only [Disk.start, hp, isAbsolute_append_suffix]

/-- Where they are found is one directory. -/
theorem exists_place (hl : locate h t false (a.path cache name) = .ok l)
    (hl' : locate h t false (b.path cache name) = .ok l') :
    ∃ d stem, t.find? d = some .directory ∧ l = a.place d stem ∧ l' = b.place d stem := by
  obtain ⟨ns, stem, hn⟩ := exists_endsIn cache name
  obtain ⟨-, d, hd, rfl⟩ := (Disk.locate_endsIn (hn a)).1 hl
  obtain ⟨-, d', hd', rfl⟩ := (Disk.locate_endsIn (hn b)).1 hl'
  have hd'' : LooksIn h t (a.path cache name) ns d' := by
    rwa [LooksIn, start_path h cache name a b]
  rw [hd.unique hd'']
  exact ⟨d, stem, hd.2, rfl, rfl⟩

end Role

/-! ## Paths in trees that strayed -/

namespace Disk

variable {X : Location → Prop} {h : Host} {t t' : Tree} {p name : String} {ns : List String}
  {l l' : Location}

/-- An entry that a path names is the one it named before. -/
theorem locate_of_strays (hs : Strays X t t') (hn : Path.EndsIn p ns name)
    (hl : locate h t' false p = .ok l) : locate h t false p = .ok l := by
  obtain ⟨hsay, d, ⟨hwalk, hdir⟩, rfl⟩ := (locate_endsIn hn).1 hl
  exact (locate_endsIn hn).2 ⟨hsay, d, ⟨hs.walk_directory hwalk hdir, hs.directories d hdir⟩, rfl⟩

/-- What a path leads to, the last link followed, it led to before, or it is in `X`. -/
theorem locate_true_of_strays (hs : Strays X t t') (hl : locate h t' true p = .ok l) :
    locate h t true p = .ok l ∨ X l := by
  obtain ⟨h0, h1, h2, hwalk⟩ := locate_eq_ok.1 hl
  rcases hs.walks _ _ _ _ hwalk with hwalk | ⟨hX, -⟩
  · exact .inl (locate_eq_ok.2 ⟨h0, h1, h2, hwalk⟩)
  · exact .inr hX

/-- What a path that ends in a link leads to is found along the target of the link. -/
theorem exists_walk_of_link {target : String} (hn : Path.EndsIn p ns name)
    (hl : locate h t false p = .ok l) (hlink : t.find? l = some (.link target))
    (hl' : locate h t true p = .ok l') :
    ∃ links, t.walk true links (Tree.linkStart l.dropLast target) (Path.pieces target) =
      .ok l' := by
  obtain ⟨⟨-, -, hlen⟩, d, hd, rfl⟩ := (locate_endsIn hn).1 hl
  obtain ⟨-, -, -, hfull⟩ := locate_eq_ok.1 hl'
  obtain ⟨left, hconcat⟩ :=
    Tree.walk_concat_eq_ok t true Tree.mostLinks (start h p) ns name
  rw [hn.1, hconcat] at hfull
  -- The path comes to the link and then goes the way of its target.
  obtain ⟨d', hd', hlast⟩ := hfull
  rw [hd.1] at hd'
  cases hd'
  rw [Tree.walk_link hd.2 hn.2 hlen hlink] at hlast
  rw [List.dropLast_concat]
  cases left with
  | zero => simp at hlast
  | succ left => exact ⟨left, by simpa [Tree.linkStart] using hlast⟩

/-- Where a path leads to no directory, it names none. -/
theorem ne_directory_of_locate (hl : locate h t false p = .ok l)
    (hl' : locate h t true p = .ok l') (hdir : t.find? l' ≠ some .directory) :
    t.find? l ≠ some .directory := by
  intro hd
  rw [locate_true_of_false hl (by simp [hd])] at hl'
  cases hl'
  exact hdir hd

/-- The entry that a path names is harmless if it leads to a place in `X` and no directory. -/
theorem isHarmless_of_locate (hn : Path.EndsIn p ns name) (hl : locate h t false p = .ok l)
    (hl' : locate h t true p = .ok l') (hX : X l') (hdir : t.find? l' ≠ some .directory) :
    t.IsHarmless X l := by
  refine ⟨ne_directory_of_locate hl hl' hdir, fun target hlink links l'' hwalk => ?_⟩
  obtain ⟨left, hlast⟩ := exists_walk_of_link hn hl hlink hl'
  rw [Tree.walk_unique hlast hwalk]
  exact ⟨hX, hdir⟩

end Disk

/-! ## Rooted trees -/

namespace Disk

variable {h : Host} {t : Tree} {w : World} {p : String} {l : Location} {follow : Bool}

/-- What a path leads to stands in a directory, or would. -/
theorem parent_of_locate (ht : t.IsRooted) (hl : locate h t follow p = .ok l) :
    t.find? l.dropLast = some .directory := by
  obtain ⟨-, -, -, hwalk⟩ := locate_eq_ok.1 hl
  obtain ⟨ns, name, hp, -⟩ := Path.exists_pieces_append p
  obtain ⟨n, rest, hcons⟩ := List.exists_cons_of_ne_nil
    (show Path.pieces p ≠ [] by simp [hp])
  rw [hcons] at hwalk
  exact ht.parent_of_walk (ht.parent (Tree.directory_of_walk_cons hwalk)) hwalk

end Disk

theorem Tree.IsQuiet.of_forall {t t' : Tree} (ht : t.IsQuiet)
    (h : ∀ l, t'.find? l = none ∨ (∃ bytes, t'.find? l = some (.file bytes)) ∨
      ∃ l', t'.find? l = t.find? l') : t'.IsQuiet := by
  intro l content opens fate hl
  rcases h l with hnone | ⟨bytes, hfile⟩ | ⟨l', he⟩
  · rw [hnone] at hl
    cases hl
  · rw [hfile] at hl
    cases hl
  · exact ht l' content opens fate (he ▸ hl)

namespace Sync

/-! ## Reach -/

section Reach

variable (h : Host) (g : Download.Goal) (repos : List Repository) (t : Tree)

/-- The place is that of an entry that the path of a file of some repository names, or below. -/
def IsNamed (l : Location) : Prop :=
  ∃ repo ∈ repos, ∃ (a : Role) (own : Location),
    locate h t false (a.path g.cache repo.name) = .ok own ∧ own <+: l

/-- The place is where a link leads that stands beside the list of some repository. -/
def IsLinked (l : Location) : Prop :=
  ∃ repo ∈ repos, ∃ a : Role, a ≠ .list ∧ ∃ own target,
    locate h t false (a.path g.cache repo.name) = .ok own ∧ t.find? own = some (.link target) ∧
    locate h t true (a.path g.cache repo.name) = .ok l

/-- The places in reach of a run. -/
def InReach (l : Location) : Prop := IsNamed h g repos t l ∨ IsLinked h g repos t l

end Reach

/-- A tree on the way of a run that started with the tree `t₀`. -/
structure Confined (h : Host) (g : Download.Goal) (repos : List Repository) (t₀ t : Tree) :
    Prop where
  frame : ∀ l, t.find? l = t₀.find? l ∨ IsNamed h g repos t₀ l ∨
    IsLinked h g repos t₀ l ∧ ∃ bytes, t.find? l = some (.file bytes)
  strays : Strays (InReach h g repos t₀) t₀ t
  quiet : t.IsQuiet

/-- What stands at the path of the file may take the place of the list. -/
def IsMade (h : Host) (g : Download.Goal) (repos : List Repository) (t₀ : Tree)
    (repo : Repository) (a : Role) (t : Tree) : Prop :=
  ∀ own, locate h t₀ false (a.path g.cache repo.name) = .ok own →
    t.IsHarmless (InReach h g repos t₀) own

variable {h : Host} {g : Download.Goal} {repos : List Repository} {repo : Repository}
  {t₀ t t' : Tree} {a : Role} {l own target : Location} {place : Option Location} {s : Step}
  {bytes : Bytes} {w₀ w w' : World}

theorem inReach_of_locate (hrepo : repo ∈ repos) (ha : a ≠ .list)
    (hl : locate h t true (a.path g.cache repo.name) = .ok l) : InReach h g repos t l := by
  obtain ⟨own, hown, he⟩ := Disk.locate_false_of_true hl
  rcases he with rfl | ⟨target, hlink⟩
  · exact .inl ⟨repo, hrepo, a, own, hown, List.prefix_rfl⟩
  · exact .inr ⟨repo, hrepo, a, ha, own, target, hown, hlink, hl⟩

theorem confined_self (hquiet : t.IsQuiet) : Confined h g repos t t :=
  ⟨fun _ => .inl rfl, .refl _ t, hquiet⟩

namespace Confined

variable (hk : Confined h g repos t₀ t)
include hk

/-! ## Steps of a run -/

/-- An empty file is made in reach. -/
theorem put (hl : InReach h g repos t₀ l) (hne : l ≠ []) :
    Confined h g repos t₀ (t.apply (.put l (.file []))) := by
  have hfind (l' : Location) : (t.apply (.put l (.file []))).find? l' =
      if l' = l then some (.file []) else t.find? l' := Tree.find?_put hne
  refine ⟨fun l' => ?_, hk.strays.trans (Tree.strays_put hl hne), hk.quiet.of_forall fun l' => ?_⟩
  · rw [hfind]
    by_cases hl' : l' = l
    · rw [if_pos hl', hl']
      exact .inr (hl.imp_right fun hlinked => ⟨hlinked, [], rfl⟩)
    · rw [if_neg hl']
      exact hk.frame l'
  · rw [hfind]
    by_cases hl' : l' = l
    · rw [if_pos hl']
      exact .inr (.inl ⟨[], rfl⟩)
    · rw [if_neg hl']
      exact .inr (.inr ⟨l', rfl⟩)

/-- Bytes are added to a file in reach. -/
theorem adds (hplace : ∀ l, place = some l → InReach h g repos t₀ l) (hs : s.Adds place) :
    Confined h g repos t₀ (t.apply s) := by
  obtain ⟨p, bytes, hp, rfl⟩ := hs.exists_extend
  have hreach := hplace p hp
  refine ⟨fun l => ?_, hk.strays.trans (Tree.strays_extend hreach), hk.quiet.of_forall fun l => ?_⟩
  · rcases Tree.find?_extend_cases t p bytes l with he | ⟨rfl, content, -, hfile⟩
    · rw [he]
      exact hk.frame l
    · exact .inr (hreach.imp_right fun hlinked => ⟨hlinked, _, hfile⟩)
  · rcases Tree.find?_extend_cases t p bytes l with he | ⟨-, content, -, hfile⟩
    · exact .inr (.inr ⟨l, he⟩)
    · exact .inr (.inl ⟨_, hfile⟩)

/-- What is named is removed, or something below it. -/
theorem clears (hrepo : repo ∈ repos)
    (hown : locate h t₀ false (a.path g.cache repo.name) = .ok own) (hne : own ≠ [])
    (hs : s.Clears own) : Confined h g repos t₀ (t.apply s) := by
  have hnamed (l : Location) (hl : own <+: l) : IsNamed h g repos t₀ l :=
    ⟨repo, hrepo, a, own, hown, hl⟩
  refine ⟨fun l => ?_, hk.strays.trans (Tree.strays_clears (fun l hl => .inl (hnamed l hl)) hne hs),
    hk.quiet.of_forall fun l => ?_⟩
  · by_cases hl : own <+: l
    · exact .inr (.inl (hnamed l hl))
    · rw [hs.find?_eq hne hl]
      exact hk.frame l
  · obtain ⟨p, hp, -, rfl⟩ := hs.exists_remove hne
    rw [Tree.find?_remove hp]
    split
    · exact .inl rfl
    · exact .inr (.inr ⟨l, rfl⟩)

/-- What was made beside a list takes its place. -/
theorem move {d : Location} {stem : String} (hrepo : repo ∈ repos) (ha : a ≠ .list)
    (hsource : locate h t₀ false (a.path g.cache repo.name) = .ok (a.place d stem))
    (htarget : locate h t₀ false (Role.list.path g.cache repo.name) =
      .ok (Role.list.place d stem))
    (hbare : t.IsBare (a.place d stem))
    (hmade : t.IsHarmless (InReach h g repos t₀) (a.place d stem)) :
    Confined h g repos t₀ (t.apply (.move (a.place d stem) (Role.list.place d stem))) := by
  have hapart : Tree.Apart (a.place d stem) (Role.list.place d stem) := Role.apart (.inr ha)
  have hnamed (l : Location) (hl : a.place d stem <+: l) : IsNamed h g repos t₀ l :=
    ⟨repo, hrepo, a, _, hsource, hl⟩
  have hlist : IsNamed h g repos t₀ (Role.list.place d stem) :=
    ⟨repo, hrepo, .list, _, htarget, List.prefix_rfl⟩
  have hfind (l : Location) := Tree.find?_move (l := l) hapart hbare
  refine ⟨fun l => ?_, hk.strays.trans (Tree.strays_move hapart hbare
    (fun l hl => .inl (hnamed l hl)) (.inl hlist) hmade), hk.quiet.of_forall fun l => ?_⟩
  · rw [hfind]
    by_cases hl : l = Role.list.place d stem
    · exact .inr (.inl (hl ▸ hlist))
    by_cases hs : a.place d stem <+: l
    · exact .inr (.inl (hnamed l hs))
    · rw [if_neg hl, if_neg hs]
      exact hk.frame l
  · rw [hfind]
    split
    · exact .inr (.inr ⟨_, rfl⟩)
    · split
      · exact .inl rfl
      · exact .inr (.inr ⟨l, rfl⟩)

end Confined

/-! ## Between two requests -/

/-- The run that started in the world `w₀` has kept to its reach all the way to the world `w`. -/
structure Within (h : Host) (g : Download.Goal) (repos : List Repository) (w₀ w : World) :
    Prop where
  way : Via (Confined h g repos w₀.tree) w₀ w
  rooted : w.tree.IsRooted

namespace Within

variable (hw : Within h g repos w₀ w)
include hw

theorem confined : Confined h g repos w₀.tree w.tree := hw.way.last

theorem of_after_nil (hafter : World.After w [] w') : Within h g repos w₀ w' := by
  refine ⟨hw.way.trans (.of_after_nil hafter hw.confined), ?_⟩
  rw [hafter.2]
  exact hw.rooted

theorem of_same (hsame : Same w w') : Within h g repos w₀ w' := hw.of_after_nil hsame.after

theorem takes (htakes : Takes s w w') (hk : Confined h g repos w₀.tree (w.tree.apply s))
    (hrooted : (w.tree.apply s).IsRooted) : Within h g repos w₀ w' := by
  rw [← htakes.tree] at hk hrooted
  exact ⟨hw.way.trans (htakes.via hw.confined hk), hrooted⟩

/-- Writing to what is in reach. -/
theorem adds (hplace : ∀ l, place = some l → InReach h g repos w₀.tree l)
    (hworks : Works (Step.Adds place) w w') : Within h g repos w₀ w' := by
  refine ⟨hw.way.trans (hworks.via (fun _ _ hk hs => hk.adds hplace hs) hw.confined),
    hworks.induct (P := Tree.IsRooted) (fun t s ht hs => ?_) hw.rooted⟩
  obtain ⟨p, bytes, -, rfl⟩ := hs.exists_extend
  exact ht.extend

end Within

/-- What is made stays fit to take the place of the list while it is written to. -/
theorem IsMade.adds (hmade : IsMade h g repos w₀.tree repo a w.tree)
    (hplace : ∀ l, place = some l → InReach h g repos w₀.tree l)
    (hworks : Works (Step.Adds place) w w') : IsMade h g repos w₀.tree repo a w'.tree := by
  refine fun own hown => hworks.induct (P := fun t => t.IsHarmless _ own) (fun t s ht hs => ?_)
    (hmade own hown)
  obtain ⟨p, bytes, hp, rfl⟩ := hs.exists_extend
  refine (Tree.strays_extend (hplace p hp)).isHarmless ht ?_
  rcases Tree.find?_extend_cases t p bytes own with he | ⟨-, content, -, hfile⟩
  · exact .inl he
  · exact .inr (Tree.isDeadEnd_of_file hfile)

/-! ## Requests -/

section Requests

variable (hrepo : repo ∈ repos) (hw : Within h g repos w₀ w)
include hw

/-- An entry that a path names on the way is the one it named at first. -/
theorem Within.locate (a : Role) (hl : locate h w.tree false (a.path g.cache repo.name) = .ok l) :
    locate h w₀.tree false (a.path g.cache repo.name) = .ok l := by
  obtain ⟨ns, stem, hn⟩ := Role.exists_endsIn g.cache repo.name
  exact Disk.locate_of_strays hw.confined.strays (hn a) hl

/-- What a path leads to on the way is in reach. -/
theorem Within.inReach (hrepo : repo ∈ repos) (ha : a ≠ .list)
    (hl : Disk.locate h w.tree true (a.path g.cache repo.name) = .ok l) :
    InReach h g repos w₀.tree l := by
  rcases Disk.locate_true_of_strays hw.confined.strays hl with hl | hX
  · exact inReach_of_locate hrepo ha hl
  · exact hX

include hrepo

/-- A file is made in reach, and it may take the place of the list. -/
theorem create_within (ha : a ≠ .list) :
    Ends w (Disk.create h (a.path g.cache repo.name)) fun r w' => Within h g repos w₀ w' ∧
      ∀ sink, r = .ok sink → IsMade h g repos w₀.tree repo a w'.tree ∧
        ∀ l, sink.place = some l → InReach h g repos w₀.tree l := by
  obtain ⟨ns, stem, hn⟩ := Role.exists_endsIn g.cache repo.name
  unfold Disk.create
  apply ends_get_bind
  apply ends_except_bind
  · intro place hplace
    rw [(hn a).endsInSlash]
    simp only [Bool.false_eq_true, if_false]
    have hreach : InReach h g repos w₀.tree place := hw.inReach hrepo ha hplace
    have hmade (hdir : w.tree.find? place ≠ some .directory) :
        IsMade h g repos w₀.tree repo a w.tree := by
      intro own hown
      obtain ⟨own', hown', -⟩ := Disk.locate_false_of_true hplace
      cases hown.symm.trans (hw.locate a hown')
      exact Disk.isHarmless_of_locate (hn a) hown' hplace hreach hdir
    -- In every other case an empty file is put there.
    have hput (hdir : w.tree.find? place ≠ some .directory) :
        Ends w (do
          World.take (.put place (.file []))
          return { place := some place, room := h.room place } : Attempt IoError Disk.Sink)
          fun r w' => Within h g repos w₀ w' ∧ ∀ sink, r = .ok sink →
            IsMade h g repos w₀.tree repo a w'.tree ∧
            ∀ l, sink.place = some l → InReach h g repos w₀.tree l := by
      have hne : place ≠ [] := by
        rintro rfl
        exact hdir (Tree.find?_nil _)
      have hparent := Disk.parent_of_locate hw.rooted hplace
      apply ends_tell_bind
      refine ends_pure ⟨hw.takes World.takes_take (hw.confined.put hreach hne)
        (hw.rooted.put hne hparent hdir), ?_⟩
      rintro _ ⟨⟩
      refine ⟨fun own hown => ?_, by rintro _ ⟨⟩; exact hreach⟩
      rw [World.takes_take.tree]
      refine (Tree.strays_put hreach hne).isHarmless (hmade hdir own hown) ?_
      rw [Tree.IsDeadEnd, Tree.find?_put hne]
      by_cases ho : own = place
      · exact .inr (by simp [ho])
      · exact .inl (if_neg ho)
    refine ends_except_bind (fun _ _ => ?_) fun e _ => ⟨hw, by rintro _ ⟨⟩⟩
    rcases hnode : w.tree.find? place with - | (content | - | target | - | ⟨content, opens, fate⟩)
    · exact hput (by simp [hnode])
    · exact hput (by simp [hnode])
    · exact ends_throw ⟨hw, by rintro _ ⟨⟩⟩
    · exact hput (by simp [hnode])
    · refine ends_pure ⟨hw, ?_⟩
      rintro _ ⟨⟩
      exact ⟨hmade (by simp [hnode]), by rintro _ ⟨⟩⟩
    · exact hput (by simp [hnode])
  · exact fun e _ => ⟨hw, by rintro _ ⟨⟩⟩

/-- What was made beside the list takes its place, if nothing is against it. -/
theorem rename_within (ha : a ≠ .list) (hmade : IsMade h g repos w₀.tree repo a w.tree) :
    Ends w (Disk.rename h (a.path g.cache repo.name) (Role.list.path g.cache repo.name))
      fun _ w' => Within h g repos w₀ w' := by
  unfold Disk.rename
  apply ends_get_bind
  apply ends_except_bind
  · intro source hsource
    apply ends_except_bind
    · intro target htarget
      obtain ⟨d, stem, hdir, rfl, rfl⟩ := Role.exists_place hsource htarget
      have hharmless := hmade _ (hw.locate a hsource)
      have hmove : w.tree.find? (Role.list.place d stem) ≠ some .directory →
          Ends w (Disk.move h (a.place d stem) (Role.list.place d stem))
            fun _ w' => Within h g repos w₀ w' := by
        intro hlist
        unfold Disk.move
        split
        · exact ends_throw hw
        · have hbare := hw.rooted.isBare hharmless.noDirectory
          refine ends_tell (hw.takes World.takes_take (hw.confined.move hrepo ha
            (hw.locate a hsource) (hw.locate .list htarget) hbare hharmless)
            (hw.rooted.move (Role.apart (.inr ha)) hbare ?_ hlist))
          rw [Role.place, List.dropLast_concat]
          exact hdir
      refine ends_except_bind (fun _ _ => ?_) fun e _ => hw
      split
      · exact ends_throw hw
      · rename_i node hnode
        refine ends_except_bind (fun _ _ => ?_) fun e _ => hw
        split
        · exact absurd hnode hharmless.noDirectory
        · split
          · exact ends_throw hw
          · rename_i hlist
            split
            · exact ends_throw hw
            · split
              · exact ends_pure hw
              · exact hmove (by simpa [Tree.isDirectory] using hlist)
    · exact fun e _ => hw
  · exact fun e _ => hw

/-- What a path names is removed with all below it, and nothing else. -/
theorem remove_within (a : Role) :
    Ends w (Files.remove h (a.path g.cache repo.name)) fun _ w' => Within h g repos w₀ w' := by
  obtain ⟨ns, stem, hn⟩ := Role.exists_endsIn g.cache repo.name
  rw [ends_iff (Files.attempt_remove (hn a) w)]
  rcases hown : Disk.locate h w.tree false (a.path g.cache repo.name) with e | own
  · rw [Files.clearingOf_of_error hown, World.taking_nil]
    exact hw
  · have hne : own ≠ [] := by
      obtain ⟨-, d, -, rfl⟩ := (Disk.locate_endsIn (hn a)).1 hown
      simp
    refine ⟨hw.way.trans ((Files.clearingOf_works hown).via (fun _ _ hk hs => ?_) hw.confined),
      ?_⟩
    · exact hk.clears hrepo (hw.locate a hown) hne hs
    · rw [Files.clearingOf_of_ok hown]
      exact Disk.clearing_isRooted hw.rooted hne

end Requests

end Sync

end FileListCache
