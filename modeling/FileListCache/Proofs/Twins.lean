/-
  FileListCache.Proofs.Twins

  Two caches in which one repository is synced side by side. In both at most files stand at the
  three places of the repository (`Sync.Workplace`), and of some of the three it is known that the
  same stands there (`Sync.Twins`). That is enough for a request of the program to end the same
  in both, as long as it looks into no place but those: making or removing a file asks only
  whether a directory is in the way, and afterwards one more place is known.
-/

import FileListCache.Proofs.Coupling
import FileListCache.Proofs.Snapshots
import Mathlib.Data.Set.Insert

namespace FileListCache

open FileListCache.Tree (Step)

/-! ## Where paths lead that are not in use -/

namespace Disk

variable {h : Host} {w : World} {t : Tree} {p name : String} {ns : List String} {d l : Location}
  {follow : Bool} {dest : Except IoError Location}

/-- Where a path leads that looks for its name in the directory `d`, or why it leads nowhere. It
is a matter of lengths and letters only. -/
def destination (p name : String) (d : Location) : Except IoError Location := do
  checkName p
  if Tree.longestPath < Utf8.size p ∨ Tree.longestName < Utf8.size name then
    throw (.system .nameTooLong)
  return d ++ [name]

theorem destination_eq_ok :
    destination p name d = .ok l ↔ Sayable p name ∧ l = d ++ [name] := by
  unfold destination checkName Sayable
  by_cases hzero : p.toList.contains (Char.ofNat 0) = true
  · simp only [hzero, if_true, Bool.true_eq_false, false_and, iff_false]
    rintro ⟨⟩
  simp only [Bool.not_eq_true] at hzero
  by_cases hlong : Tree.longestPath < Utf8.size p ∨ Tree.longestName < Utf8.size name
  · simp only [hzero, Bool.false_eq_true, if_false, if_pos hlong, true_and]
    constructor
    · rintro ⟨⟩
    · intro hr
      obtain ⟨⟨hpath, hname⟩, -⟩ := hr
      omega
  · simp only [hzero, Bool.false_eq_true, if_false, if_neg hlong, true_and]
    constructor
    · rintro ⟨⟩
      exact ⟨by omega, rfl⟩
    · intro hr
      rw [hr.2]
      rfl

/-- Where no link stands at the end of a path, it leads to its destination in any tree in which
the names before the last lead to the directory. -/
theorem locate_eq_destination (hn : Path.EndsIn p ns name) (hd : LooksIn h t p ns d)
    (hlink : ∀ target, t.find? (d ++ [name]) ≠ some (.link target)) :
    locate h t follow p = destination p name d := by
  have hwalk : t.walk follow Tree.mostLinks (start h p) (Path.pieces p) =
      if Tree.longestName < Utf8.size name then .error .nameTooLong else .ok (d ++ [name]) := by
    have happ : ∃ left, t.walk follow Tree.mostLinks (start h p) (ns ++ [name]) =
        (t.walk true Tree.mostLinks (start h p) ns).bind fun d => t.walk follow left d [name] :=
      Tree.walk_append (List.cons_ne_nil name [])
    obtain ⟨left, happ⟩ := happ
    rw [hn.1, happ, hd.1, Except.bind]
    by_cases hlen : Tree.longestName < Utf8.size name
    · rw [if_pos hlen, Tree.walk_long hd.2 hn.2 hlen]
    · rw [if_neg hlen, Tree.walk_on hd.2 hn.2 (Nat.not_lt.1 hlen) hlink, Tree.walk_nil]
  unfold locate destination Tree.locate
  cases checkName p with
  | error e => rfl
  | ok u =>
    rw [if_neg hn.ne_empty]
    by_cases hpath : Tree.longestPath < Utf8.size p
    · rw [if_pos hpath, if_pos (.inl hpath)]
      rfl
    · rw [if_neg hpath]
      unfold start at hwalk
      rw [hwalk]
      by_cases hlen : Tree.longestName < Utf8.size name
      · rw [if_pos hlen, if_pos (.inr hlen)]
        rfl
      · rw [if_neg hlen, if_neg (by simp [hpath, hlen])]
        rfl

end Disk

/-! ## Removing what is no directory -/

/-- What removing nothing or a file is reported to come to, wherever its path leads. -/
def Files.leafRemoval (p : String) : Except IoError Location → Except FileError Unit
  | .ok _ => .ok ()
  | .error e => if e.isMissing then .ok () else .error (.file p "remove" e)

/-- Nothing or a file is removed wherever its path can be said, if its directory is not locked. -/
theorem Files.remove_leaf_ends {h : Host} {w : World} {p name : String} {ns : List String}
    {dest : Except IoError Location} (hn : Path.EndsIn p ns name)
    (hlead : Disk.locate h w.tree false p = dest)
    (hleaf : ∀ l, dest = .ok l → w.tree.IsLeaf l ∧ h.locked l.dropLast = none) :
    Ends w (Files.remove h p) fun r w' =>
      r = leafRemoval p dest ∧ w'.events = w.events ∧ w'.requests = w.requests ∧
      (∀ l, dest = .ok l → w'.tree.find? l = none) ∧
      ∀ l, dest ≠ .ok l → w'.tree.find? l = w.tree.find? l := by
  subst hlead
  rw [ends_iff (attempt_remove hn w)]
  have hremovable : IsRemovable h w.tree p := fun l hl =>
    Disk.removable_of_ne (hleaf l hl).1.isDeadEnd.1 (hleaf l hl).2
  refine ⟨?_, rfl, rfl, fun l hl => (clearingOf_without hn hl hremovable).gone, fun l hl => ?_⟩
  · rcases hplace : Disk.locate h w.tree false p with e | place
    · exact removal_of_error hplace
    · exact removal_of_removable hplace (hremovable place hplace) fun _ => by
        simp [(hleaf place hplace).2]
  · rcases hplace : Disk.locate h w.tree false p with e | place
    · rw [clearingOf_of_error hplace, World.taking_nil]
    · refine (clearingOf_without hn hplace hremovable).alone
        (hleaf place hplace).1.isDeadEnd.1 l ?_
      rintro rfl
      exact hl hplace

/-- Of a removal only a failure is told. -/
theorem coupled_noted {ε α : Type} {level : Level} {topic : Topic} {x : Attempt FileError Unit}
    {rest : Attempt ε α} {P M : Tree → Tree → Prop} {Q : Except ε α → Tree → Tree → Prop}
    (hx : InStep P x fun _ => M) (hrest : InStep M rest Q) :
    InStep P (do
      if let .error e ← x.run then
        World.note level topic e.message
      rest : Attempt ε α) Q := by
  refine coupled_outcome_bind hx fun r => ?_
  cases r with
  | ok u => exact hrest
  | error e => exact coupled_note_bind hrest

theorem together_noted {ε α : Type} {level : Level} {topic : Topic} {x : Attempt FileError Unit}
    {rest : ExceptT ε (StateT Unit Run) α} {P M : Tree → Tree → Prop}
    {Q : Except ε α → Tree → Tree → Prop} (hx : InStep P x fun _ => M)
    (hrest : Together M rest.run Q) :
    Together P (do
      if let .error e ← x.run then
        World.note level topic e.message
      rest : ExceptT ε (StateT Unit Run) α).run Q := by
  refine together_run_tell_bind hx fun r => ?_
  cases r with
  | ok u => exact hrest
  | error e => exact together_run_tell_bind coupled_note fun _ => hrest

namespace Role

variable {cache name : String} {c l : Location} {a : Role}

/-- Where the path of a repository's file leads while no link stands there. -/
def target (cache : String) (c : Location) (name : String) (a : Role) : Except IoError Location :=
  Disk.destination (a.path cache name) (name ++ a.suffix) c

/-- The system can be asked for the file. -/
def IsSayable (cache name : String) (a : Role) : Prop :=
  Disk.Sayable (a.path cache name) (name ++ a.suffix)

theorem target_eq_ok :
    a.target cache c name = .ok l ↔ a.IsSayable cache name ∧ l = a.place c name :=
  Disk.destination_eq_ok

end Role

namespace Sync

variable {h : Host} {t₀ t₀' t t' : Tree} {g : Download.Goal} {c l : Location} {repo : Repository}
  {a b : Role} {K K' : Set Role} {s : Step}

/-! ## The cache of one repository -/

/-- The cache while one repository is synced that at first was `t₀`: a directory that is not locked,
at most files stand at the places of the repository, and all else is as it was. -/
structure Workplace (h : Host) (g : Download.Goal) (c : Location) (repo : Repository)
    (t₀ t : Tree) : Prop where
  cache : Disk.locate h t true g.cache = .ok c
  directory : t.find? c = some .directory
  unlocked : h.locked c = none
  leaf : ∀ a : Role, t.IsLeaf (a.place c repo.name)
  bare : ∀ a : Role, t.IsBare (a.place c repo.name)
  frame : AgreesOff c [repo] t₀ t

theorem isOwn_place (a : Role) : IsOwn c [repo] (a.place c repo.name) :=
  ⟨repo, List.mem_singleton_self repo, a, List.prefix_rfl⟩

namespace Workplace

variable (hk : Workplace h g c repo t₀ t)
include hk

/-- Any change will do that leaves at most files at the three places and nothing elsewhere. -/
theorem congr (hfind : ∀ l, (∀ a : Role, l ≠ a.place c repo.name) → t'.find? l = t.find? l)
    (hleaf : ∀ a : Role, t'.IsLeaf (a.place c repo.name)) : Workplace h g c repo t₀ t' := by
  have halike : t.Alike t' := by
    constructor <;> intro l <;> by_cases hl : ∃ a : Role, l = a.place c repo.name
    · obtain ⟨a, rfl⟩ := hl
      exact .inr (hleaf a).isDeadEnd
    · exact .inl (hfind l (not_exists.1 hl))
    · obtain ⟨a, rfl⟩ := hl
      exact .inr (hk.leaf a).isDeadEnd
    · exact .inl (hfind l (not_exists.1 hl)).symm
  obtain ⟨hcache, hdirectory⟩ := Disk.locate_directory halike hk.cache hk.directory
  refine ⟨hcache, hdirectory, hk.unlocked, hleaf, fun a r hr => ?_, fun l hl => ?_⟩
  · rw [hfind _ fun _ => place_append_ne hr, hk.bare a r hr]
  · rw [hfind l fun a he => hl (he ▸ isOwn_place a), hk.frame l hl]

/-- The same where only one of the places may have changed. -/
theorem congr_at (hfind : ∀ l, l ≠ a.place c repo.name → t'.find? l = t.find? l)
    (hleaf : t'.IsLeaf (a.place c repo.name)) : Workplace h g c repo t₀ t' := by
  refine hk.congr (fun l hl => hfind l (hl a)) fun b => ?_
  by_cases hb : b = a
  · exact hb ▸ hleaf
  · rw [Tree.IsLeaf, hfind _ (Role.apart (.inr hb)).ne]
    exact hk.leaf b

theorem put : Workplace h g c repo t₀ (t.apply (.put (a.place c repo.name) (.file []))) := by
  refine hk.congr_at (a := a) (fun l hl => ?_) (.inr ⟨[], ?_⟩)
  · rw [Tree.find?_put place_ne_nil, if_neg hl]
  · rw [Tree.find?_put place_ne_nil, if_pos rfl]

theorem extend {bytes : Bytes} :
    Workplace h g c repo t₀ (t.apply (.extend (a.place c repo.name) bytes)) := by
  refine hk.congr_at (a := a) (fun l hl => ?_) ?_
  · rw [Tree.find?_extend, if_neg hl]
  · rw [Tree.IsLeaf, Tree.find?_extend, if_pos rfl]
    rcases hk.leaf a with hnone | ⟨done, hfile⟩
    · exact .inl (by rw [hnone]; rfl)
    · exact .inr ⟨done ++ bytes, by rw [hfile]; rfl⟩

/-- What a move leaves at the places of the repository and elsewhere. -/
theorem find?_move (hab : a ≠ b) (l : Location) :
    (t.apply (.move (a.place c repo.name) (b.place c repo.name))).find? l =
      if l = b.place c repo.name then t.find? (a.place c repo.name)
      else if l = a.place c repo.name then none else t.find? l := by
  rw [Tree.find?_move (Role.apart (.inr hab)) (hk.bare a)]
  by_cases hl : l = b.place c repo.name
  · rw [if_pos hl, if_pos hl]
  rw [if_neg hl, if_neg hl]
  by_cases hla : l = a.place c repo.name
  · rw [if_pos hla, if_pos (hla ▸ List.prefix_rfl)]
  rw [if_neg hla]
  -- Nothing stood below the file that has gone.
  by_cases hbelow : a.place c repo.name <+: l
  · rw [if_pos hbelow]
    obtain ⟨r, rfl⟩ := hbelow
    refine (hk.bare a r ?_).symm
    rintro rfl
    exact hla (List.append_nil _)
  · rw [if_neg hbelow]

theorem move (hab : a ≠ b) : Workplace h g c repo t₀
    (t.apply (.move (a.place c repo.name) (b.place c repo.name))) := by
  refine hk.congr (fun l hl => ?_) fun b' => ?_
  · rw [hk.find?_move hab, if_neg (hl b), if_neg (hl a)]
  · rw [Tree.IsLeaf, hk.find?_move hab]
    split
    · exact hk.leaf a
    · split
      · exact .inl rfl
      · exact hk.leaf b'

/-- The path of a file of the repository leads to its destination. -/
theorem locate_eq (hslash : '/' ∉ repo.name.toList) (a : Role) (follow : Bool) :
    Disk.locate h t follow (a.path g.cache repo.name) = a.target g.cache c repo.name :=
  Disk.locate_eq_destination (Role.endsIn (Disk.cache_ne_empty hk.cache) hslash a)
    (Disk.looksIn_join hk.cache hk.directory (Role.slash_notMem hslash a)) (hk.leaf a).isDeadEnd.2

theorem endsInSlash (hslash : '/' ∉ repo.name.toList) (a : Role) :
    Path.endsInSlash (a.path g.cache repo.name) = false :=
  (Role.endsIn (Disk.cache_ne_empty hk.cache) hslash a).endsInSlash

omit hk in
theorem dropLast_place : (a.place c repo.name).dropLast = c := by
  simp [Role.place]

/-- The system lets all of its files be made, removed and moved. -/
theorem askFile_place (a : Role) : Disk.askFile h t (a.place c repo.name) = .ok () := by
  refine Disk.makeable_of_unlocked ?_
  rw [dropLast_place]
  exact hk.unlocked

theorem askVolume_place (a : Role) : Disk.askVolume h (a.place c repo.name) = .ok () := by
  refine Disk.askVolume_of_unlocked ?_
  rw [dropLast_place]
  exact hk.unlocked

theorem askMove_place (hab : a ≠ b) :
    Disk.askMove h (a.place c repo.name) (b.place c repo.name) = .ok () := by
  rw [Disk.askMove_eq_ok (Role.apart (.inr hab)).ne, dropLast_place, dropLast_place]
  exact ⟨hk.unlocked, hk.unlocked⟩

end Workplace

/-! ## Two caches -/

/-- Two caches, which at first were `t₀` and `t₀'`, while a repository is synced in both. Of the
files in `K` it is known that both have the same. -/
structure Twins (h : Host) (g : Download.Goal) (c : Location) (repo : Repository)
    (t₀ t₀' : Tree) (K : Set Role) (t t' : Tree) : Prop where
  left : Workplace h g c repo t₀ t
  right : Workplace h g c repo t₀' t'
  known : ∀ a ∈ K, t'.find? (a.place c repo.name) = t.find? (a.place c repo.name)

/-- A file can be said to be known that no one can ask for. -/
def Known (g : Download.Goal) (repo : Repository) (a : Role) (K : Set Role) : Set Role :=
  {b | b ∈ K ∨ b = a ∧ a.IsSayable g.cache repo.name}

/-- What holds of the two after an attempt that makes the file known unless it fails. -/
def Gained (h : Host) (g : Download.Goal) (c : Location) (repo : Repository) (t₀ t₀' : Tree)
    (K : Set Role) (a : Role) {ε α : Type} : Except ε α → Tree → Tree → Prop
  | .ok _ => Twins h g c repo t₀ t₀' (insert a K)
  | .error _ => Twins h g c repo t₀ t₀' K

namespace Twins

theorem mono (hk : Twins h g c repo t₀ t₀' K' t t') (hK : K ⊆ K') :
    Twins h g c repo t₀ t₀' K t t' :=
  ⟨hk.left, hk.right, fun a ha => hk.known a (hK ha)⟩

variable (hk : Twins h g c repo t₀ t₀' K t t')
include hk

theorem put : Twins h g c repo t₀ t₀' (insert a K)
    (t.apply (.put (a.place c repo.name) (.file [])))
    (t'.apply (.put (a.place c repo.name) (.file []))) := by
  refine ⟨hk.left.put, hk.right.put, fun b hb => ?_⟩
  rw [Tree.find?_put place_ne_nil, Tree.find?_put place_ne_nil]
  by_cases hba : b = a
  · rw [hba, if_pos rfl, if_pos rfl]
  · rw [if_neg (Role.apart (.inr hba)).ne, if_neg (Role.apart (.inr hba)).ne]
    exact hk.known b (hb.resolve_left hba)

theorem extend (bytes : Bytes) : Twins h g c repo t₀ t₀' K
    (t.apply (.extend (a.place c repo.name) bytes))
    (t'.apply (.extend (a.place c repo.name) bytes)) := by
  refine ⟨hk.left.extend, hk.right.extend, fun b hb => ?_⟩
  rw [Tree.find?_extend, Tree.find?_extend, hk.known b hb]

theorem move (hab : a ≠ b) (ha : a ∈ K) : Twins h g c repo t₀ t₀' (insert b K)
    (t.apply (.move (a.place c repo.name) (b.place c repo.name)))
    (t'.apply (.move (a.place c repo.name) (b.place c repo.name))) := by
  refine ⟨hk.left.move hab, hk.right.move hab, fun b' hb' => ?_⟩
  rw [hk.left.find?_move hab, hk.right.find?_move hab]
  by_cases hbb : b' = b
  · rw [hbb, if_pos rfl, if_pos rfl, hk.known a ha]
  · rw [if_neg (Role.apart (.inr hbb)).ne, if_neg (Role.apart (.inr hbb)).ne,
      hk.known b' (hb'.resolve_left hbb)]

end Twins

/-! ## Requests -/

section Requests

variable (hslash : '/' ∉ repo.name.toList)
include hslash

/-- A removal asks for nothing, and afterwards it is known that nothing is there. -/
theorem remove_coupled (a : Role) : InStep (Twins h g c repo t₀ t₀' K)
    (Files.remove h (a.path g.cache repo.name))
    fun _ => Twins h g c repo t₀ t₀' (Known g repo a K) := by
  have hends {t₀ : Tree} {w : World} (hw : Workplace h g c repo t₀ w.tree) :=
    Files.remove_leaf_ends (Role.endsIn (Disk.cache_ne_empty hw.cache) hslash a)
      (hw.locate_eq hslash a false) fun l hl => by
        obtain ⟨-, rfl⟩ := Role.target_eq_ok.1 hl
        exact ⟨hw.leaf a, by rw [Workplace.dropLast_place, hw.unlocked]⟩
  -- What is at the place afterwards, and what is elsewhere.
  have hplace {t₀ t v : Tree} (hw : Workplace h g c repo t₀ t)
      (hgone : ∀ l, a.target g.cache c repo.name = .ok l → v.find? l = none)
      (hother : ∀ l, a.target g.cache c repo.name ≠ .ok l → v.find? l = t.find? l) :
      Workplace h g c repo t₀ v := by
    refine hw.congr_at (a := a) (fun l hl => hother l fun he => hl ?_) ?_
    · exact (Role.target_eq_ok.1 he).2
    · by_cases hsay : a.IsSayable g.cache repo.name
      · exact .inl (hgone _ (Role.target_eq_ok.2 ⟨hsay, rfl⟩))
      · rw [Tree.IsLeaf, hother _ fun he => hsay (Role.target_eq_ok.1 he).1]
        exact hw.leaf a
  refine coupled_of_ends fun w w' hw => ends_imp (hends hw.left) fun r v hr => ?_
  refine ends_imp (hends hw.right) fun r' v' hr' => ?_
  obtain ⟨rfl, he, hq, hgone, hother⟩ := hr
  obtain ⟨rfl, he', hq', hgone', hother'⟩ := hr'
  refine ⟨rfl, .of_eq he he' hq hq', hplace hw.left hgone hother, hplace hw.right hgone' hother',
    fun b hb => ?_⟩
  by_cases hl : a.target g.cache c repo.name = .ok (b.place c repo.name)
  · rw [hgone _ hl, hgone' _ hl]
  · rw [hother _ hl, hother' _ hl]
    refine hw.known b (hb.resolve_right fun hr => hl ?_)
    obtain ⟨rfl, hsay⟩ := hr
    exact Role.target_eq_ok.2 ⟨hsay, rfl⟩

/-- A file that is known is opened in both or in neither. -/
theorem openRead_coupled (ha : a ∈ K) : InStep (Twins h g c repo t₀ t₀' K)
    (Disk.openRead h (a.path g.cache repo.name))
    fun r t t' => Twins h g c repo t₀ t₀' K t t' ∧
      ∀ s, r = .ok s → s = .place (a.place c repo.name) := by
  unfold Disk.openRead
  apply coupled_get_bind
  intro w w' hw
  dsimp only
  rw [hw.left.locate_eq hslash, hw.right.locate_eq hslash]
  refine coupled_except_bind rfl (fun l hl => ?_) fun _ _ _ _ ht => ⟨ht.1, by rintro _ ⟨⟩⟩
  obtain ⟨-, rfl⟩ := Role.target_eq_ok.1 hl
  rw [hw.known a ha]
  rcases hw.left.leaf a with hnone | ⟨bytes, hfile⟩
  · rw [hnone]
    exact coupled_throw fun _ _ ht => ⟨ht.1, by rintro _ ⟨⟩⟩
  · rw [hfile]
    refine coupled_return fun _ _ ht => ⟨ht.1, ?_⟩
    rintro _ ⟨⟩
    rfl

omit hslash in
/-- What a known file holds is read the same in both. -/
theorem Twins.contentOf_eq (hk : Twins h g c repo t₀ t₀' K t t')
    (ha : a ∈ K) :
    Disk.contentOf t' (.place (a.place c repo.name)) =
      Disk.contentOf t (.place (a.place c repo.name)) := by
  simp only [Disk.contentOf, hk.known a ha]

/-- A file is made in both or in neither, and what is in it is known then. -/
theorem create_coupled (a : Role) : InStep (Twins h g c repo t₀ t₀' K)
    (Disk.create h (a.path g.cache repo.name))
    fun
      | .ok sink => fun t t' => sink.place = some (a.place c repo.name) ∧
          Twins h g c repo t₀ t₀' (insert a K) t t'
      | .error _ => Twins h g c repo t₀ t₀' K := by
  unfold Disk.create
  apply coupled_get_bind
  intro w w' hw
  dsimp only
  rw [hw.left.locate_eq hslash, hw.right.locate_eq hslash]
  refine coupled_except_bind rfl (fun l hl => ?_) fun _ _ _ _ ht => ht.1
  obtain ⟨-, rfl⟩ := Role.target_eq_ok.1 hl
  rw [hw.left.endsInSlash hslash, hw.left.askFile_place, hw.right.askFile_place]
  simp only [Bool.false_eq_true, if_false]
  refine coupled_except_bind rfl (fun _ _ => ?_) nofun
  have hmake : InStep (fun t t' => Twins h g c repo t₀ t₀' K t t' ∧ t = w.tree ∧ t' = w'.tree)
      (do
        World.take (.put (a.place c repo.name) (.file []))
        return ⟨some (a.place c repo.name), h.room (a.place c repo.name)⟩ :
        Attempt IoError Disk.Sink)
      fun
        | .ok sink => fun t t' => sink.place = some (a.place c repo.name) ∧
            Twins h g c repo t₀ t₀' (insert a K) t t'
        | .error _ => Twins h g c repo t₀ t₀' K := by
    refine coupled_tell_bind (M := fun _ => Twins h g c repo t₀ t₀' (insert a K))
      (coupled_take fun _ _ ht => ht.1.put) fun _ => ?_
    exact coupled_return fun _ _ ht => ⟨rfl, ht⟩
  -- Nothing or a file stands in each of the two trees, which makes no difference.
  rcases hw.left.leaf a with hn | ⟨_, hn⟩ <;> rcases hw.right.leaf a with hn' | ⟨_, hn'⟩ <;>
    rw [hn, hn'] <;> exact hmake

/-- A known file takes the place of another in both or in neither. -/
theorem rename_coupled (hab : a ≠ b) (ha : a ∈ K) : InStep (Twins h g c repo t₀ t₀' K)
    (Disk.rename h (a.path g.cache repo.name) (b.path g.cache repo.name))
    (Gained h g c repo t₀ t₀' K b) := by
  unfold Disk.rename
  apply coupled_get_bind
  intro w w' hw
  dsimp only
  simp only [hw.left.locate_eq hslash, hw.right.locate_eq hslash]
  refine coupled_except_bind rfl (fun l hl => ?_) fun _ _ _ _ ht => ht.1
  obtain ⟨-, rfl⟩ := Role.target_eq_ok.1 hl
  refine coupled_except_bind rfl (fun l' hl' => ?_) fun _ _ _ _ ht => ht.1
  obtain ⟨-, rfl⟩ := Role.target_eq_ok.1 hl'
  have hdir {t₀ t : Tree} (hk : Workplace h g c repo t₀ t) :
      t.isDirectory (b.place c repo.name) = false := by
    simpa [Tree.isDirectory] using (hk.leaf b).isDeadEnd.1
  rw [hw.known a ha, hw.left.askVolume_place]
  refine coupled_except_bind rfl (fun _ _ => ?_) nofun
  rcases hw.left.leaf a with hnone | ⟨bytes, hfile⟩
  · rw [hnone]
    exact coupled_throw fun _ _ ht => ht.1
  · have hne : a.place c repo.name ≠ b.place c repo.name := (Role.apart (.inr hab)).ne
    rw [hfile]
    dsimp only
    rw [hw.left.askMove_place hab]
    refine coupled_except_bind rfl (fun _ _ => ?_) nofun
    simp only [hdir hw.left, hdir hw.right, hw.left.endsInSlash hslash, Bool.false_eq_true,
      if_false, if_neg hne]
    unfold Disk.move
    cases h.refusal (a.place c repo.name) (b.place c repo.name) with
    | none => exact coupled_tell (coupled_take fun _ _ ht => ht.1.move hab ha)
    | some e => exact coupled_throw fun _ _ ht => ht.1

end Requests

/-! ## Writing -/

/-- Bytes are added to a file in both. -/
theorem write_coupled {sink : Disk.Sink} (hsink : sink.place = some (a.place c repo.name))
    (bytes : Bytes) : InStep (Twins h g c repo t₀ t₀' K) (Disk.write sink bytes)
    fun
      | .ok sink' => fun t t' => sink'.place = some (a.place c repo.name) ∧
          Twins h g c repo t₀ t₀' K t t'
      | .error _ => Twins h g c repo t₀ t₀' K := by
  have hgrow (bytes : Bytes) : Coupled (Twins h g c repo t₀ t₀' K) (sink.grow bytes)
      (sink.grow bytes) fun _ => Twins h g c repo t₀ t₀' K := by
    unfold Disk.Sink.grow
    rw [hsink]
    dsimp only
    split
    · exact coupled_pure fun _ _ ht => ht
    · exact coupled_take fun _ _ ht => ht.extend bytes
  unfold Disk.write
  split
  · exact coupled_tell_bind (hgrow bytes) fun _ => coupled_return fun _ _ ht => ⟨hsink, ht⟩
  · split
    · exact coupled_tell_bind (hgrow bytes) fun _ => coupled_return fun _ _ ht => ⟨hsink, ht⟩
    · exact coupled_tell_bind (hgrow _) fun _ => coupled_throw fun _ _ ht => ht

/-- What holds of the two trees after a writer was used, and of the writer if it did not fail. -/
def Written (h : Host) (g : Download.Goal) (c : Location) (repo : Repository) (t₀ t₀' : Tree)
    (K : Set Role) (a : Role) {ε : Type} : Except ε Disk.Writer → Tree → Tree → Prop
  | .ok wr => fun t t' => wr.sink.place = some (a.place c repo.name) ∧
      Twins h g c repo t₀ t₀' K t t'
  | .error _ => Twins h g c repo t₀ t₀' K

theorem flush_coupled {wr : Disk.Writer} (hwr : wr.sink.place = some (a.place c repo.name)) :
    InStep (Twins h g c repo t₀ t₀' K) wr.flush
      (Written h g c repo t₀ t₀' K a) := by
  unfold Disk.Writer.flush
  refine coupled_run_bind (write_coupled hwr _) (fun sink => ?_) fun _ _ _ ht => ht
  exact coupled_return fun _ _ ht => ht

theorem push_coupled {wr : Disk.Writer} (hwr : wr.sink.place = some (a.place c repo.name))
    (bytes : Bytes) : InStep (Twins h g c repo t₀ t₀' K) (wr.push bytes)
      (Written h g c repo t₀ t₀' K a) := by
  rw [Disk.Writer.push_eq]
  have hready : InStep (Twins h g c repo t₀ t₀' K)
      (if Disk.Writer.capacity < wr.waiting.length + bytes.length then wr.flush else pure wr)
      (Written h g c repo t₀ t₀' K a) := by
    split
    · exact flush_coupled hwr
    · exact coupled_return fun _ _ ht => ⟨hwr, ht⟩
  refine coupled_run_bind hready (fun wr' => coupled_and fun hwr' => ?_) fun _ _ _ ht => ht
  split
  · refine coupled_run_bind (write_coupled hwr' bytes) (fun sink => ?_) fun _ _ _ ht => ht
    exact coupled_return fun _ _ ht => ht
  · exact coupled_return fun _ _ ht => ⟨hwr', ht⟩

end Sync

end FileListCache
