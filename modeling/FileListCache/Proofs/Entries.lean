/-
  FileListCache.Proofs.Entries

  What opening, renaming and removing come to. Each either does what it says at the one place that
  its path aims at, or leaves the tree as it was; the conditions for the one and the other are part
  of the statements, so that nothing is left to luck.

  Of a removal one equation says it all (`Files.attempt_remove`): where the path leads decides how
  it ends, and what stands there decides which steps it takes.
-/

import FileListCache.Files
import FileListCache.Proofs.Writing
import Mathlib.Data.List.TakeWhile

namespace FileListCache

open FileListCache.Tree (Step)
open World (Works Same Takes Untouched)

/-- The disk has room, no directory is locked and the system renames whatever it is asked to. -/
structure Host.IsSteady (h : Host) : Prop where
  room : ∀ l, h.room l = none
  unlocked : ∀ l, h.locked l = none
  refusal : ∀ l l', h.refusal l l' = none

/-- The system lets an entry go from one place to another. -/
structure Host.Moves (h : Host) (l l' : Location) : Prop where
  source : h.locked l.dropLast = none
  target : h.locked l'.dropLast = none
  refusal : h.refusal l l' = none

theorem Host.isSteady_default : ({} : Host).IsSteady := ⟨fun _ => rfl, fun _ => rfl, fun _ _ => rfl⟩

theorem Host.IsSteady.moves {h : Host} (hh : h.IsSteady) (l l' : Location) : h.Moves l l' :=
  ⟨hh.unlocked _, hh.unlocked _, hh.refusal l l'⟩

namespace Disk

variable {h : Host} {w : World} {t : Tree} {p q name : String} {ns : List String}
  {l l' : Location} {node : Node}

/-! ## Looking -/

theorem treeLocate_of_locate {follow : Bool} (hl : locate h t follow p = .ok l) :
    t.locate h.place follow p = .ok l := by
  unfold locate at hl
  cases hc : checkName p with
  | error e =>
    rw [hc] at hl
    cases hl
  | ok u =>
    rw [hc] at hl
    cases ht : t.locate h.place follow p with
    | error e => simp [bind, Except.bind, Except.mapError, ht] at hl
    | ok l' => simpa [bind, Except.bind, Except.mapError, ht] using hl

/-- Looking is finding the place and then what stands there. -/
theorem look_eq :
    look h t p = (locate h t true p).bind fun l =>
      (t.find? l).elim (.error (.system .missing)) .ok := by
  unfold look locate Tree.look
  cases checkName p with
  | error e => rfl
  | ok u =>
    cases hl : t.locate h.place true p with
    | error e => simp [bind, Except.bind, Except.mapError]
    | ok l => cases hn : t.find? l <;> simp [bind, Except.bind, Except.mapError, hn] <;> rfl

theorem look_eq_ok :
    look h t p = .ok node ↔ ∃ l, locate h t true p = .ok l ∧ t.find? l = some node := by
  rw [look_eq]
  cases locate h t true p with
  | error e => simp [Except.bind]
  | ok l => cases hn : t.find? l <;> simp [Except.bind, hn]

/-- A path that leads to a place where nothing stands. -/
theorem look_eq_missing (hl : locate h t true p = .ok l) (hnone : t.find? l = none) :
    look h t p = .error (.system .missing) := by
  rw [look_eq, hl, Except.bind, hnone]
  rfl

theorem isDirectory_iff :
    isDirectory h t p = true ↔ look h t p = .ok .directory := by
  unfold isDirectory
  split <;> simp_all

/-- Files may be made in what is there and not locked. -/
theorem access_eq_ok {u : Unit} : access h t p = .ok u ↔
    ∃ l, locate h t true p = .ok l ∧ t.find? l ≠ none ∧ h.locked l = none := by
  unfold access
  rcases hl : locate h t true p with e | l
  · cases e <;> simp
  · by_cases hnone : t.find? l = none
    · simp [hnone]
    · cases hk : h.locked l <;> simp [hnone, hk]

/-! ## Opening -/

/-- No file that another process is about to replace is what the path leads to. -/
def Undisturbed (h : Host) (t : Tree) (p : String) : Prop :=
  ∀ l content opens fate, locate h t true p = .ok l →
    t.find? l ≠ some (.contested content opens fate)

/-- A file that no one else is about to replace is opened without a trace, if there is one. -/
theorem openRead_ends (hu : Undisturbed h w.tree p) :
    Ends w (openRead h p) fun r w' => Same w w' ∧
      (∀ s, r = .ok s → ∃ l, locate h w.tree true p = .ok l ∧ w.tree.find? l ≠ none ∧
        s = .place l) ∧
      (∀ e, r = .error e → ∀ l, locate h w.tree true p = .ok l → w.tree.find? l = none) := by
  unfold openRead
  apply ends_get_bind
  apply ends_except_bind
  · intro l hl
    cases hnode : w.tree.find? l with
    | none =>
      refine ends_throw ⟨.refl w, by rintro _ ⟨⟩, ?_⟩
      intro _ he l' hl'
      cases he
      cases hl.symm.trans hl'
      exact hnode
    | some node =>
      cases node with
      | contested content opens fate => exact absurd hnode (hu l content opens fate hl)
      | file | directory | link | fullDevice =>
        refine ends_pure ⟨.refl w, ?_, by rintro _ ⟨⟩⟩
        intro _ he
        cases he
        exact ⟨l, hl, by simp [hnode], rfl⟩
  · intro e he
    refine ⟨.refl w, by rintro _ ⟨⟩, fun _ _ l hl => ?_⟩
    rw [hl] at he
    cases he

/-! ## Renaming -/

theorem askMove_eq_ok {u : Unit} (hne : l ≠ l') :
    askMove h l l' = .ok u ↔ h.locked l.dropLast = none ∧ h.locked l'.dropLast = none := by
  rw [askMove, if_neg hne]
  cases hl : h.locked l.dropLast with
  | none =>
    rw [askEntry_of_unlocked hl, ← askEntry_eq_ok (u := u), and_iff_right rfl]
    rfl
  | some k =>
    rw [askEntry_of_locked hl]
    exact ⟨nofun, nofun⟩

/-- A file takes the place of anything but a directory, if the system lets it. -/
theorem rename_ends {content : Bytes} (hp : Aims h w.tree p l) (hq : Aims h w.tree q l')
    (hne : l ≠ l') (hfile : w.tree.find? l = some (.file content)) :
    Ends w (rename h p q) fun r w' =>
      (r = .ok () → locate h w.tree false p = .ok l ∧ locate h w.tree false q = .ok l' ∧
        w.tree.find? l' ≠ some .directory ∧ h.Moves l l' ∧ Takes (.move l l') w w') ∧
      (∀ e, r = .error e → Same w w' ∧
        (locate h w.tree false p = .ok l → locate h w.tree false q = .ok l' →
          w.tree.find? l' ≠ some .directory → ¬ h.Moves l l')) := by
  unfold rename
  apply ends_get_bind
  apply ends_except_bind
  · intro s hs
    obtain rfl := hp.eq_of_locate hs
    apply ends_except_bind
    · intro d hd
      obtain rfl := hq.eq_of_locate hd
      simp only [hfile]
      refine ends_except_bind (fun _ _ => ends_except_bind (fun _ hask => ?_) fun e he => ?_)
        fun e he => ?_
      · obtain ⟨hsource, htarget⟩ := (askMove_eq_ok hne).1 hask
        -- A file is moved, so only a directory at the target is in its way.
        by_cases hdir : w.tree.find? d = some .directory
        · rw [if_pos (by simp [Tree.isDirectory, hdir])]
          exact ends_throw ⟨by rintro ⟨⟩, fun _ _ => ⟨.refl w, fun _ _ hn => absurd hdir hn⟩⟩
        · rw [if_neg (by simp [Tree.isDirectory, hdir]), hq.endsInSlash, if_neg Bool.false_ne_true,
            if_neg hne]
          unfold move
          cases hr : h.refusal s d with
          | none =>
            exact ends_tell ⟨fun _ => ⟨hs, hd, hdir, ⟨hsource, htarget, hr⟩, World.takes_take⟩,
              by rintro _ ⟨⟩⟩
          | some e =>
            refine ends_throw ⟨by rintro ⟨⟩, fun _ _ => ⟨.refl w, fun _ _ _ hmoves => ?_⟩⟩
            cases hr.symm.trans hmoves.refusal
      · refine ⟨by rintro ⟨⟩, fun _ _ => ⟨.refl w, fun _ _ _ hmoves => ?_⟩⟩
        rw [(askMove_eq_ok (u := ()) hne).2 ⟨hmoves.source, hmoves.target⟩] at he
        cases he
      · refine ⟨by rintro ⟨⟩, fun _ _ => ⟨.refl w, fun _ _ _ hmoves => ?_⟩⟩
        cases (askVolume_of_unlocked hmoves.source).symm.trans he
    · intro e he
      refine ⟨by rintro ⟨⟩, fun _ _ => ⟨.refl w, fun _ hd _ => ?_⟩⟩
      rw [hd] at he
      cases he
  · intro e he
    refine ⟨by rintro ⟨⟩, fun _ _ => ⟨.refl w, fun hs _ _ => ?_⟩⟩
    rw [hs] at he
    cases he

/-! ## What has to go -/

theorem append_lt {r : Location} (l : Location) (hr : r ≠ []) : l < l ++ r := by
  obtain ⟨name, rest, rfl⟩ := List.exists_cons_of_ne_nil hr
  have happend : l ++ [] < l ++ (name :: rest) := List.append_left_lt (List.nil_lt_cons name rest)
  rwa [List.append_nil] at happend

/-- What is below a place starts with it. -/
theorem isPrefix_of_mem_below {c : Location} (hc : c ∈ below t l) : l <+: c := by
  simp only [below, List.mem_mergeSort, List.mem_filter, Bool.and_eq_true] at hc
  exact List.isPrefixOf_iff_prefix.1 hc.2.1

/-- What is below a place is all that stands there. -/
theorem mem_below_of_ne_none {r : Location} (hr : r ≠ []) (hentry : t.find? (l ++ r) ≠ none) :
    l ++ r ∈ below t l := by
  rw [Tree.find?_of_ne_nil (by simp [hr])] at hentry
  have hmem : ∃ e ∈ t.entries, e.1 = l ++ r := by
    simpa [List.find?_eq_none] using hentry
  obtain ⟨e, he, hplace⟩ := hmem
  simp only [below, List.mem_mergeSort, List.mem_filter, List.mem_map]
  exact ⟨⟨e, he, hplace⟩, by simp [hr]⟩

/-- What is below goes from the last name to the first. -/
theorem below_pairwise (t : Tree) (l : Location) : (below t l).Pairwise fun c d => ¬ c < d := by
  refine (List.pairwise_mergeSort (fun a b c hab hbc => ?_) (fun a b => ?_) _).imp of_decide_eq_true
  · have hba := List.not_lt.1 (of_decide_eq_true hab)
    have hcb := List.not_lt.1 (of_decide_eq_true hbc)
    exact decide_eq_true (List.not_lt.2 (List.le_trans hcb hba))
  · rcases List.le_total a b with hab | hba
    · rw [decide_eq_true (List.not_lt.2 hab), Bool.or_true]
    · rw [decide_eq_true (List.not_lt.2 hba), Bool.true_or]

/-- The entries that go where what stands at a place is removed, a directory after all below it. -/
def doomed (t : Tree) (l : Location) : List Location :=
  match t.find? l with
  | none => []
  | some .directory => below t l ++ [l]
  | some _ => [l]

theorem doomed_of_none (hnone : t.find? l = none) : doomed t l = [] := by
  rw [doomed, hnone]

theorem doomed_of_directory (hdir : t.find? l = some .directory) :
    doomed t l = below t l ++ [l] := by
  rw [doomed, hdir]

theorem doomed_of_ne (hnode : t.find? l = some node) (hdir : node ≠ .directory) :
    doomed t l = [l] := by
  cases node with
  | directory => exact absurd rfl hdir
  | file | link | fullDevice | contested => rw [doomed, hnode]

/-- Nothing else goes with what stands at a place than what is below it. -/
theorem isPrefix_of_mem_doomed {c : Location} (hc : c ∈ doomed t l) : l <+: c := by
  rcases hnode : t.find? l with _ | node
  · rw [doomed_of_none hnode] at hc
    cases hc
  by_cases hdir : node = .directory
  · rw [doomed_of_directory (hdir ▸ hnode)] at hc
    rcases List.mem_append.1 hc with hc | hc
    · exact isPrefix_of_mem_below hc
    · rw [List.mem_singleton.1 hc]
  · rw [doomed_of_ne hnode hdir] at hc
    rw [List.mem_singleton.1 hc]

/-- What stands at a place goes last. -/
theorem exists_doomed (hnode : t.find? l = some node) :
    ∃ cs, doomed t l = cs ++ [l] ∧ l ∉ cs := by
  by_cases hdir : node = .directory
  · refine ⟨_, doomed_of_directory (hdir ▸ hnode), fun hmem => ?_⟩
    simp [below] at hmem
  · exact ⟨[], doomed_of_ne hnode hdir, nofun⟩

/-- The system lets go of what stands at a place and of all that goes with it. -/
def Removable (h : Host) (t : Tree) (l : Location) : Prop :=
  ∀ c ∈ doomed t l, h.locked c.dropLast = none

/-- Where nothing stands nothing has to go. -/
theorem removable_of_none (hnone : t.find? l = none) : Removable h t l := by
  rw [Removable, doomed_of_none hnone]
  exact nofun

/-- A file goes if its directory is not locked. -/
theorem removable_of_ne (hdir : t.find? l ≠ some .directory) (hl : h.locked l.dropLast = none) :
    Removable h t l := by
  rcases hnode : t.find? l with _ | node
  · exact removable_of_none hnode
  · rw [Removable, doomed_of_ne hnode fun he => hdir (he ▸ hnode)]
    simpa using hl

theorem unlocked_of_removable (hmake : Makeable h t l) (hr : Removable h t l) :
    h.locked l.dropLast = none := by
  rcases hnode : t.find? l with _ | node
  · exact hmake.unlocked hnode
  · obtain ⟨cs, hcs, -⟩ := exists_doomed hnode
    exact hr l (by simp [hcs])

/-- What is made where nothing stands in the way can be removed if what was there can. -/
theorem CanCreate.removable (hc : CanCreate h w.tree p l) (hl : l ≠ [])
    (hplain : w.tree.IsPlain l) (hr : Removable h w.tree l) {w' : World}
    (hworks : Works (Step.Fills l) w w') : Removable h w'.tree l := by
  have hdead := (hworks.fades_of_fills hl).isDeadEnd (hplain.isDeadEnd hc.noDirectory)
  exact removable_of_ne hdead.1 (unlocked_of_removable hc.makeable hr)

theorem removable_of_isSteady (hh : h.IsSteady) : Removable h t l := fun _ _ => hh.unlocked _

/-- Of some entries that are to go one after the other those that do, up to the first that the
system keeps. -/
def released (h : Host) (cs : List Location) : List Location :=
  cs.takeWhile fun c => h.locked c.dropLast = none

theorem isPrefix_released (h : Host) (cs : List Location) : released h cs <+: cs :=
  List.takeWhile_prefix _

theorem released_of_unlocked {cs : List Location} (hcs : ∀ c ∈ cs, h.locked c.dropLast = none) :
    released h cs = cs :=
  List.takeWhile_eq_self_iff.2 fun c hc => decide_eq_true (hcs c hc)

theorem released_cons_of_unlocked {c : Location} (hc : h.locked c.dropLast = none)
    (cs : List Location) : released h (c :: cs) = c :: released h cs :=
  List.takeWhile_cons_of_pos (decide_eq_true hc)

theorem released_cons_of_locked {c : Location} (hc : h.locked c.dropLast ≠ none)
    (cs : List Location) : released h (c :: cs) = [] :=
  List.takeWhile_cons_of_neg (by simpa using hc)

/-- Entries go only if nothing keeps them. -/
theorem unlocked_of_released {c : Location} {cs : List Location} (hc : c ∈ released h cs) :
    h.locked c.dropLast = none := by
  simpa using List.mem_takeWhile_imp hc

/-- The steps that remove some entries. -/
def unlinking (h : Host) (cs : List Location) : List Step := (released h cs).map .remove

/-- The steps that remove what stands at a place. -/
def clearing (h : Host) (t : Tree) (l : Location) : List Step := unlinking h (doomed t l)

theorem clearing_of_none (hnone : t.find? l = none) : clearing h t l = [] := by
  rw [clearing, doomed_of_none hnone]
  rfl

theorem mem_doomed_of_released {c : Location} (hc : c ∈ released h (doomed t l)) :
    c ∈ doomed t l :=
  (isPrefix_released h _).subset hc

/-- They remove nothing else. -/
theorem clears_of_mem_clearing {s : Step} (hs : s ∈ clearing h t l) : s.Clears l := by
  obtain ⟨c, hc, rfl⟩ := List.mem_map.1 hs
  exact isPrefix_of_mem_doomed (mem_doomed_of_released hc)

/-- What is left is what was there without the entries that went. -/
theorem find?_clearing (hl : l ≠ []) (l' : Location) :
    (t.applyAll (clearing h t l)).find? l' =
      if l' ∈ released h (doomed t l) then none else t.find? l' := by
  refine Tree.find?_applyAll_remove _ ?_ t l'
  rintro _ hc rfl
  exact hl (List.prefix_nil.1 (isPrefix_of_mem_doomed (mem_doomed_of_released hc)))

/-- Nothing else changes, however far the removal comes. -/
theorem find?_clearing_of_not_isPrefix (hl : l ≠ []) {l' : Location} (hl' : ¬ l <+: l') :
    (t.applyAll (clearing h t l)).find? l' = t.find? l' := by
  have hnot : l' ∉ released h (doomed t l) := fun hmem =>
    hl' (isPrefix_of_mem_doomed (mem_doomed_of_released hmem))
  rw [find?_clearing hl, if_neg hnot]

/-- Where nothing is kept they take away just what stood there. -/
theorem clearing_without (hl : l ≠ []) (hremovable : Removable h t l) :
    t.Without l (t.applyAll (clearing h t l)) := by
  have hfind := find?_clearing (h := h) (t := t) hl
  rw [released_of_unlocked hremovable] at hfind
  have hgone (l' : Location) (hl' : l' ∈ doomed t l) :
      (t.applyAll (clearing h t l)).find? l' = none := by
    rw [hfind, if_pos hl']
  refine ⟨?_, fun hdir l' hl' => ?_, fun hdir l' hl' => ?_,
    fun l' hl' => find?_clearing_of_not_isPrefix hl hl'⟩
  · rcases hnode : t.find? l with _ | node
    · rw [hfind, hnode, ite_self]
    · obtain ⟨cs, hcs, -⟩ := exists_doomed hnode
      exact hgone l (by simp [hcs])
  · -- What stands below is among what is removed, and elsewhere there was nothing before.
    obtain ⟨r, rfl⟩ := hl'
    by_cases hentry : t.find? (l ++ r) = none
    · rw [hfind, hentry, ite_self]
    · refine hgone _ ?_
      rw [doomed_of_directory hdir]
      by_cases hr : r = []
      · simp [hr]
      · exact List.mem_append_left _ (mem_below_of_ne_none hr hentry)
  · rw [hfind, if_neg ?_]
    rcases hnode : t.find? l with _ | node
    · simp [doomed_of_none hnode]
    · rw [doomed_of_ne hnode fun he => hdir (he ▸ hnode)]
      simpa using hl'

/-- What the system does not let go of as a whole stays at its place. -/
theorem find?_clearing_of_kept (hl : l ≠ []) (hkept : ¬ Removable h t l) :
    (t.applyAll (clearing h t l)).find? l = t.find? l := by
  rcases hnode : t.find? l with _ | node
  · exact absurd (removable_of_none hnode) hkept
  rw [find?_clearing hl, if_neg fun hmem => hkept ?_, hnode]
  -- It would go last, so nothing was kept if it went.
  obtain ⟨cs, hcs, hlast⟩ := exists_doomed hnode
  intro c hc
  rw [hcs] at hmem hc
  have hall : released h (cs ++ [l]) = cs ++ [l] := by
    obtain ⟨rest, hrest⟩ := isPrefix_released h (cs ++ [l])
    rcases List.eq_nil_or_concat' rest with rfl | ⟨rest', c', rfl⟩
    · rw [List.append_nil] at hrest
      exact hrest
    · rw [← List.append_assoc] at hrest
      obtain ⟨hinit, -⟩ := List.append_inj' hrest rfl
      exact absurd (hinit ▸ List.mem_append_left _ hmem) hlast
  exact unlocked_of_released (hall.symm ▸ hc)

/-- A directory goes after all that is below it. -/
theorem doomed_pairwise (t : Tree) (l : Location) : (doomed t l).Pairwise fun c d => ¬ c < d := by
  rcases hnode : t.find? l with _ | node
  · rw [doomed_of_none hnode]
    exact .nil
  by_cases hdir : node = .directory
  · rw [doomed_of_directory (hdir ▸ hnode)]
    refine List.pairwise_append.2 ⟨below_pairwise t l, List.pairwise_singleton _ _, ?_⟩
    intro c hc d hd
    obtain ⟨r, rfl⟩ := isPrefix_of_mem_below hc
    obtain rfl := List.mem_singleton.1 hd
    have happend : ¬ d ++ r < d ++ [] := List.not_lt.2 (List.append_left_le (List.nil_le r))
    rwa [List.append_nil] at happend
  · rw [doomed_of_ne hnode hdir]
    exact List.pairwise_singleton _ _

/-- What is in a directory that goes goes before it. -/
theorem mem_doomed_of_mem {c : Location} {name : String} (hc : c ∈ doomed t l)
    (hdir : t.find? c = some .directory) (hentry : t.find? (c ++ [name]) ≠ none) :
    c ++ [name] ∈ doomed t l := by
  have htop : t.find? l = some .directory := by
    rcases hnode : t.find? l with _ | node
    · rw [doomed_of_none hnode] at hc
      cases hc
    by_cases hd : node = .directory
    · rw [hd]
    · rw [doomed_of_ne hnode hd] at hc
      rw [← hnode, ← List.mem_singleton.1 hc, hdir]
  obtain ⟨r, rfl⟩ := isPrefix_of_mem_doomed hc
  rw [doomed_of_directory htop, List.append_assoc]
  rw [List.append_assoc] at hentry
  exact List.mem_append_left _ (mem_below_of_ne_none (by simp) hentry)

/-- However far a removal comes, all that is left stands in a directory. -/
theorem clearing_isRooted (ht : t.IsRooted) (hl : l ≠ []) :
    (t.applyAll (clearing h t l)).IsRooted := by
  intro d name hentry
  rw [find?_clearing hl] at hentry ⊢
  have hleft : d ++ [name] ∉ released h (doomed t l) := fun hmem => hentry (if_pos hmem)
  rw [if_neg hleft] at hentry
  have hdir := ht d name hentry
  -- A directory that went would have been preceded by what it holds.
  rw [if_neg fun hmem => ?_, hdir]
  have hentry' := mem_doomed_of_mem (mem_doomed_of_released hmem) hdir hentry
  have hsorted := doomed_pairwise t l
  obtain ⟨kept, hkept⟩ := isPrefix_released h (doomed t l)
  rw [← hkept] at hsorted hentry'
  have hkept' : d ++ [name] ∈ kept := (List.mem_append.1 hentry').resolve_left hleft
  exact (List.pairwise_append.1 hsorted).2.2 _ hmem _ hkept' (append_lt d (by simp))

/-! ## Removing -/

theorem withoutSlashes_eq (hp : Path.endsInSlash p = false) : withoutSlashes p = p := by
  unfold withoutSlashes
  have hlast : p.toList.getLast? ≠ some '/' := by simpa [Path.endsInSlash] using hp
  rcases hr : p.toList.reverse with _ | ⟨c, cs⟩
  · have hp : p.toList = [] := List.reverse_eq_nil_iff.1 hr
    simp [String.toList_eq_nil_iff.1 hp]
  · have hc : c ≠ '/' := by
      rintro rfl
      exact hlast (by rw [List.getLast?_eq_head?_reverse, hr]; rfl)
    rw [List.dropWhile_cons_of_neg (by simpa using hc), ← hr, List.reverse_reverse,
      String.ofList_toList]

/-- An entry is removed unless it is kept. -/
theorem unlink_taking (l : Location) (w : World) :
    Ends w (unlink h l) fun r w' => r = askEntry h l ∧ w' = w.taking (unlinking h [l]) := by
  unfold unlink
  refine ends_except_bind (fun u hu => ?_) fun e he => ?_
  · rw [unlinking, released_of_unlocked (by simpa using askEntry_eq_ok.1 hu), hu]
    exact ends_tell ⟨rfl, rfl⟩
  · have hlocked : h.locked l.dropLast ≠ none := fun hl =>
      nomatch he.symm.trans (askEntry_of_unlocked hl)
    rw [he, unlinking, released_cons_of_locked hlocked]
    exact ⟨rfl, (World.taking_nil w).symm⟩

/-- Of some entries each is removed unless one before it is kept. -/
theorem forM_unlink_taking (cs : List Location) (w : World) :
    Ends w (cs.forM (unlink h)) fun r w' =>
      r = cs.forM (askEntry h) ∧ w' = w.taking (unlinking h cs) := by
  induction cs generalizing w with
  | nil => exact ends_pure ⟨rfl, (World.taking_nil w).symm⟩
  | cons c cs ih =>
    change Ends w (unlink h c >>= fun _ : Unit => cs.forM (unlink h)) fun r w' =>
      r = (askEntry h c >>= fun _ : Unit => cs.forM (askEntry h)) ∧ _
    refine ends_bind (unlink_taking c w) (fun u w₁ hr => ?_) fun e w₁ hr => ?_
    · obtain ⟨hask, rfl⟩ := hr
      have hc := askEntry_eq_ok.1 hask.symm
      refine ends_imp (ih _) fun r w' hr => ?_
      obtain ⟨rfl, rfl⟩ := hr
      rw [← hask, World.taking_taking]
      refine ⟨rfl, ?_⟩
      simp only [unlinking, released_cons_of_unlocked hc, List.map_cons]
      rfl
    · obtain ⟨hask, rfl⟩ := hr
      have hc : h.locked c.dropLast ≠ none := fun hl =>
        nomatch hask.trans (askEntry_of_unlocked hl)
      simp only [← hask, unlinking, released_cons_of_locked hc]
      exact ⟨rfl, trivial⟩

theorem forM_unlink_single : [l].forM (unlink h) = unlink h l := bind_pure_unit

theorem forM_unlink_concat (cs : List Location) :
    (cs ++ [l]).forM (unlink h) = cs.forM (unlink h) >>= fun _ => unlink h l := by
  rw [List.forM_eq_forM, List.forM_append, ← List.forM_eq_forM, forM_unlink_single]

theorem forM_askEntry_eq_ok {cs : List Location} {u : Unit} :
    cs.forM (askEntry h) = .ok u ↔ ∀ c ∈ cs, h.locked c.dropLast = none := by
  induction cs with
  | nil => exact ⟨fun _ => nofun, fun _ => rfl⟩
  | cons c cs ih =>
    change (askEntry h c >>= fun _ : Unit => cs.forM (askEntry h)) = .ok u ↔ _
    rw [List.forall_mem_cons]
    constructor
    · intro hok
      obtain ⟨_, hc, hcs⟩ := exists_of_bind_ok hok
      exact ⟨askEntry_eq_ok.1 hc, ih.1 hcs⟩
    · intro hcs
      exact bind_of_ok (askEntry_of_unlocked hcs.1) (ih.2 hcs.2)

/-- The reason for which an entry is kept is never that it is missing. -/
theorem forM_askEntry_error {cs : List Location} {e : IoError}
    (he : cs.forM (askEntry h) = .error e) : ∃ c ∈ cs, ∃ k, h.locked c.dropLast = some k ∧
      e = .system k.error := by
  induction cs with
  | nil => cases he
  | cons c cs ih =>
    change (askEntry h c >>= fun _ : Unit => cs.forM (askEntry h)) = .error e at he
    cases hk : h.locked c.dropLast with
    | some k =>
      rw [askEntry_of_locked hk] at he
      exact ⟨c, List.mem_cons_self, k, hk, (Except.error.inj he).symm⟩
    | none =>
      rw [askEntry_of_unlocked hk] at he
      obtain ⟨c', hc', hkept⟩ := ih he
      exact ⟨c', List.mem_cons_of_mem _ hc', hkept⟩

/-- What trying to remove what stands at a place comes to. -/
def tried (h : Host) (t : Tree) (l : Location) : Except IoError Unit :=
  if t.find? l = none then (askVolume h l).bind fun _ => .error (.system .missing)
  else (doomed t l).forM (askEntry h)

theorem tried_of_some (hnode : t.find? l = some node) :
    tried h t l = (doomed t l).forM (askEntry h) := by
  rw [tried, if_neg (by simp [hnode])]

/-- What stands at the end of the path and is no directory is removed. -/
theorem removeFile_taking (hslash : Path.endsInSlash p = false)
    (hl : locate h w.tree false p = .ok l) (hdir : w.tree.find? l ≠ some .directory) :
    Ends w (removeFile h p) fun r w' =>
      r = tried h w.tree l ∧ w' = w.taking (clearing h w.tree l) := by
  unfold removeFile
  apply ends_get_bind
  refine ends_except_bind (fun place hplace => ?_) fun e he => nomatch he.symm.trans hl
  cases hl.symm.trans hplace
  rcases hnode : w.tree.find? l with _ | node
  · rw [tried, if_pos hnode, clearing_of_none hnode, World.taking_nil]
    refine ends_except_bind (fun _ hask => ?_) fun e he => ⟨by rw [he]; rfl, rfl⟩
    rw [hask]
    exact ends_throw ⟨rfl, rfl⟩
  have hdir : node ≠ .directory := fun he => hdir (he ▸ hnode)
  rw [tried_of_some hnode, clearing, doomed_of_ne hnode hdir, hslash]
  have hunlink := forM_unlink_taking (h := h) [l] w
  rw [forM_unlink_single] at hunlink
  refine ends_except_bind (fun _ _ => ?_) fun e he => ?_
  · simp only [hdir, Bool.false_eq_true, if_false]
    exact hunlink
  · -- What cannot be written at all cannot be removed either.
    have hask : askEntry h l = .error e ∧ h.locked l.dropLast ≠ none := by
      unfold askVolume at he
      split at he
      · rename_i hreadOnly
        exact ⟨(askEntry_of_locked hreadOnly).trans he, by simp [hreadOnly]⟩
      · cases he
    rw [unlinking, released_cons_of_locked hask.2]
    have hforM : [l].forM (askEntry h) = askEntry h l := bind_pure_unit
    exact ⟨(hforM.trans hask.1).symm, (World.taking_nil w).symm⟩

theorem removeDirectory_taking (hn : Path.EndsIn p ns name)
    (hl : locate h w.tree false p = .ok l) (hnode : w.tree.find? l = some node) :
    Ends w (removeDirectory h p) fun r w' =>
      r = tried h w.tree l ∧ w' = w.taking (clearing h w.tree l) := by
  unfold removeDirectory
  apply ends_get_bind
  refine ends_except_bind (fun place hplace => ?_) fun e he => nomatch he.symm.trans hl
  cases hl.symm.trans hplace
  rw [hnode, clearing, tried_of_some hnode]
  by_cases hdir : node = .directory
  · subst hdir
    -- The path ends in a name, so none of the three refusals is met.
    have hlast : ((Path.pieces p).filter (· ≠ "")).getLast? = some name := by
      simp [hn.1, hn.2.1]
    have hsame : (w.tree.locate h.place false (withoutSlashes p)).toOption = some l := by
      rw [withoutSlashes_eq hn.endsInSlash, treeLocate_of_locate hl]
      rfl
    have hunlink := forM_unlink_taking (h := h) (below w.tree l ++ [l]) w
    rw [forM_unlink_concat] at hunlink
    simp only [hlast, hsame, Option.some_inj, hn.2.2.1, hn.2.2.2, if_false, ne_eq,
      not_true_eq_false]
    rw [doomed_of_directory hnode]
    exact hunlink
  · have hunlink := forM_unlink_taking (h := h) [l] w
    rw [forM_unlink_single] at hunlink
    rw [doomed_of_ne hnode hdir]
    cases node with
    | directory => exact absurd rfl hdir
    | file | link | fullDevice | contested => exact hunlink

/-- A path that leads nowhere leads to no directory either. -/
theorem isDirectory_of_error {e : IoError} (he : locate h t false p = .error e) :
    isDirectory h t p = false := by
  rw [Bool.eq_false_iff, ne_eq, isDirectory_iff, look_eq_ok]
  intro hr
  obtain ⟨l', hl', -⟩ := hr
  obtain ⟨l, hl, -⟩ := locate_false_of_true hl'
  cases he.symm.trans hl

/-- Where nothing stands there is neither a directory nor a link to one. -/
theorem isDirectory_of_none (hl : locate h t false p = .ok l) (hnone : t.find? l = none) :
    isDirectory h t p = false := by
  rw [Bool.eq_false_iff, ne_eq, isDirectory_iff, look_eq_ok]
  intro hr
  obtain ⟨l', hl', hdir⟩ := hr
  obtain ⟨l'', hl'', he⟩ := locate_false_of_true hl'
  cases hl.symm.trans hl''
  rcases he with rfl | ⟨target, hlink⟩
  · cases hnone.symm.trans hdir
  · cases hnone.symm.trans hlink

/-- Nothing is done where a path leads nowhere, or to a place where nothing stands. -/
theorem removeFile_refused {e : IoError} (he : locate h w.tree false p = .error e) :
    Ends w (removeFile h p) fun r w' => r = .error e ∧ w' = w := by
  unfold removeFile
  apply ends_get_bind
  refine ends_except_bind (fun l hl => nomatch he.symm.trans hl) fun e' he' => ?_
  cases he.symm.trans he'
  exact ⟨rfl, rfl⟩

end Disk

namespace Files

open Disk

variable {h : Host} {w : World} {t : Tree} {p name : String} {ns : List String} {l : Location}

/-! ## Checking -/

/-- A directory that is not locked passes the check, and nothing else does. -/
theorem ensureWritable_eq_ok {u : Unit} : ensureWritable h t p = .ok u ↔
    ∃ l, locate h t true p = .ok l ∧ t.find? l = some .directory ∧ h.locked l = none := by
  have haccess : (access h t p).mapError (FileError.notWritable p) = .ok u ↔
      access h t p = .ok u := ⟨eq_ok_of_mapError, mapError_of_ok⟩
  unfold ensureWritable
  rcases hlook : look h t p with e | node
  · -- What cannot be found is no directory that may be written to either.
    rw [haccess, access_eq_ok]
    refine exists_congr fun l => and_congr_right fun hl => ?_
    rw [look_eq, hl, Except.bind] at hlook
    cases hnode : t.find? l with
    | none => simp
    | some node =>
      rw [hnode] at hlook
      cases hlook
  · obtain ⟨l, hl, hnode⟩ := look_eq_ok.1 hlook
    cases node with
    | directory =>
      rw [haccess, access_eq_ok]
      simp [hl, hnode]
    | file | link | fullDevice | contested => simp [hl, hnode]

theorem ensureWritable_of_locked {k : Lock} (hl : locate h t true p = .ok l)
    (hdir : t.find? l = some .directory) (hk : h.locked l = some k) :
    ensureWritable h t p = .error (.notWritable p k.error) := by
  have hlook : look h t p = .ok .directory := look_eq_ok.2 ⟨l, hl, hdir⟩
  rw [ensureWritable, hlook, access, hl]
  simp only [hdir, hk, reduceCtorEq, if_false]
  rfl

/-! ## Outcomes of removals -/

/-- What is reported of a removal that was tried. That nothing was there is no failure. -/
def reported (h : Host) (t : Tree) (p : String) : Except IoError Unit → Except FileError Unit
  | .ok _ => .ok ()
  | .error e =>
    if e.isMissing then .ok ()
    else if isDirectory h t p then .error (.directory p "remove" e)
    else .error (.file p "remove" e)

/-- What removing what a path names comes to. -/
def removal (h : Host) (t : Tree) (p : String) : Except FileError Unit :=
  reported h t p ((locate h t false p).bind (tried h t))

/-- The system lets go of what a path names. -/
def IsRemovable (h : Host) (t : Tree) (p : String) : Prop :=
  ∀ l, locate h t false p = .ok l → Removable h t l

theorem isRemovable_of_ok (hl : locate h t false p = .ok l) :
    IsRemovable h t p ↔ Removable h t l := by
  refine ⟨fun hp => hp l hl, fun hp l' hl' => ?_⟩
  cases hl.symm.trans hl'
  exact hp

/-- A removal is reported to succeed also where nothing is there, unless nothing can be written
where it would be. -/
theorem removal_of_removable (hl : locate h t false p = .ok l) (hp : Removable h t l)
    (hvolume : t.find? l = none → h.locked l.dropLast ≠ some .readOnly) :
    removal h t p = .ok () := by
  rw [removal, hl, Except.bind]
  rcases hnode : t.find? l with _ | node
  · rw [tried, if_pos hnode, askVolume, if_neg (hvolume hnode)]
    rfl
  · rw [tried_of_some hnode, (forM_askEntry_eq_ok (u := ())).2 hp]
    rfl

theorem removal_of_error {e : IoError} (he : locate h t false p = .error e) :
    removal h t p = if e.isMissing then .ok () else .error (.file p "remove" e) := by
  rw [removal, he, Except.bind, reported, isDirectory_of_error he]
  rfl

/-- What was removed without a failure is what the system lets go of. -/
theorem isRemovable_of_removal {u : Unit} (hr : removal h t p = .ok u) : IsRemovable h t p := by
  intro l hl
  rcases hnode : t.find? l with _ | node
  · exact removable_of_none hnode
  rw [removal, hl, Except.bind, tried_of_some hnode] at hr
  rcases hask : (doomed t l).forM (askEntry h) with e | u
  · obtain ⟨c, -, k, -, rfl⟩ := forM_askEntry_error hask
    have hmissing : (IoError.system k.error).isMissing = false := by cases k <;> rfl
    rw [hask, reported, if_neg (by rw [hmissing]; exact Bool.false_ne_true)] at hr
    split at hr <;> cases hr
  · exact forM_askEntry_eq_ok.1 hask

/-- What was tried is reported. -/
theorem remove_of_tried {r₀ : Except IoError Unit} {ss : List Step}
    (hx : Ends w (if isDirectory h w.tree p then removeDirectory h p else removeFile h p)
      fun r w' => r = r₀ ∧ w' = w.taking ss) :
    Ends w (remove h p) fun r w' => r = reported h w.tree p r₀ ∧ w' = w.taking ss := by
  unfold remove
  apply ends_get_bind
  apply ends_outcome_bind
  refine ends_imp hx fun r w' hr => ?_
  obtain ⟨rfl, rfl⟩ := hr
  rcases r with e | u
  · unfold reported
    dsimp only
    split
    · exact ends_pure ⟨rfl, rfl⟩
    · split
      · exact ends_throw ⟨rfl, rfl⟩
      · exact ends_throw ⟨rfl, rfl⟩
  · exact ends_pure ⟨rfl, rfl⟩

/-- The steps that remove what a path names. -/
def clearingOf (h : Host) (t : Tree) (p : String) : List Step :=
  match locate h t false p with
  | .ok l => clearing h t l
  | .error _ => []

theorem clearingOf_of_ok (hl : locate h t false p = .ok l) :
    clearingOf h t p = clearing h t l := by
  rw [clearingOf, hl]

theorem clearingOf_of_error {e : IoError} (he : locate h t false p = .error e) :
    clearingOf h t p = [] := by
  rw [clearingOf, he]

/-- Where there is a place for what the path names, and the system lets go of it, they take away
just what stands there. -/
theorem clearingOf_without (hn : Path.EndsIn p ns name) (hl : locate h t false p = .ok l)
    (hp : IsRemovable h t p) : t.Without l (t.applyAll (clearingOf h t p)) := by
  obtain ⟨-, d, -, rfl⟩ := (locate_endsIn hn).1 hl
  rw [clearingOf_of_ok hl]
  exact clearing_without (by simp) (hp _ hl)

theorem clearingOf_works (hl : locate h w.tree false p = .ok l) :
    Works (Step.Clears l) w (w.taking (clearingOf h w.tree p)) := by
  rw [clearingOf_of_ok hl]
  exact World.works_taking fun _ => clears_of_mem_clearing

/-- What a removal comes to, and the steps it takes. -/
theorem attempt_remove (hn : Path.EndsIn p ns name) (w : World) :
    w.attempt (remove h p) = (removal h w.tree p, w.taking (clearingOf h w.tree p)) := by
  have hends : Ends w (remove h p) fun r w' => r = removal h w.tree p ∧
      w' = w.taking (clearingOf h w.tree p) := by
    rcases hl : locate h w.tree false p with e | l
    · rw [clearingOf_of_error hl, removal, hl]
      apply remove_of_tried
      rw [isDirectory_of_error hl, World.taking_nil]
      exact removeFile_refused hl
    rw [clearingOf_of_ok hl, removal, hl]
    apply remove_of_tried
    split
    · rename_i hdirectory
      rcases hnode : w.tree.find? l with _ | node
      · exact absurd hdirectory (by rw [isDirectory_of_none hl hnode]; exact Bool.false_ne_true)
      · exact removeDirectory_taking hn hl hnode
    · rename_i hfollow
      refine removeFile_taking hn.endsInSlash hl fun hdir => hfollow ?_
      -- The path leads to no directory, so there is none at its end.
      exact isDirectory_iff.2 (look_eq_ok.2 ⟨l, locate_true_of_false hl (by simp [hdir]), hdir⟩)
  exact Prod.ext hends.1 hends.2

/-- What a path leads to is removed with all below it if the system lets go of it, and nothing
else. -/
theorem remove_ends (hp : Aims h w.tree p l) :
    Ends w (remove h p) fun _ w' => Works (Step.Clears l) w w' ∧
      (locate h w.tree false p = .ok l → Removable h w.tree l → w'.tree.find? l = none) ∧
      (locate h w.tree false p ≠ .ok l → Same w w') := by
  obtain ⟨ns, name, hn⟩ := hp.ends
  rw [ends_iff (attempt_remove hn w)]
  rcases hplace : locate h w.tree false p with e | place
  · rw [clearingOf_of_error hplace, World.taking_nil]
    exact ⟨.refl w, nofun, fun _ => .refl w⟩
  · obtain rfl := hp.eq_of_locate hplace
    refine ⟨clearingOf_works hplace, fun _ hremovable => ?_, fun hne => absurd rfl hne⟩
    exact (clearingOf_without hn hplace ((isRemovable_of_ok hplace).2 hremovable)).gone

/-! ## Removals that may fail -/

section Noted

variable {ε α σ : Type} {level : Level} {topic : Topic} {x : Attempt FileError Unit}

/-- Of a removal only a failure is told, and nothing else comes of it. -/
theorem ends_noted {rest : Attempt ε α} {Q : Except ε α → World → Prop}
    (h : Ends w x fun _ w' => ∀ w'', Untouched w' w'' → Ends w'' rest Q) :
    Ends w (do
      if let .error e ← x.run then
        World.note level topic e.message
      rest : Attempt ε α) Q := by
  apply ends_outcome_bind
  refine ends_imp h ?_
  intro r w' hr
  cases r with
  | ok u => exact hr w' (.refl w')
  | error e => exact ends_note_bind hr

theorem settles_noted {s : σ} {rest : ExceptT ε (StateT σ Run) α}
    {Q : Except ε α → σ → World → Prop}
    (h : Ends w x fun _ w' => ∀ w'', Untouched w' w'' → Settles w'' s rest.run Q) :
    Settles w s (do
      if let .error e ← x.run then
        World.note level topic e.message
      rest : ExceptT ε (StateT σ Run) α).run Q := by
  apply settles_run_outcome_bind
  refine ends_imp h ?_
  intro r w' hr
  cases r with
  | ok u => exact hr w' (.refl w')
  | error e => exact settles_note_bind hr

end Noted

end Files

end FileListCache
