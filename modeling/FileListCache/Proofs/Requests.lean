/-
  FileListCache.Proofs.Requests

  What the requests of a transfer come to in a rooted tree, whatever links stand in the way. A
  document that is opened is read as it was then, also while another file grows. A file that is
  made is what its path leads to, and never a link (`Disk.create_makes`). One that is renamed is
  found at its new name, or was made behind a link that takes the name instead; then no other
  content is found there (`Disk.rename_stores`).
-/

import FileListCache.Proofs.Reach
import FileListCache.Proofs.Sections

namespace FileListCache

variable {h : Host} {w : World} {t t' : Tree} {p q : String} {l : Location} {bytes : Bytes}

namespace Tree

variable {links : Nat} {here : Location} {names : List String}

/-- In a rooted tree a walk that follows every link does not end at one. -/
theorem IsRooted.ne_link_of_walk (ht : t.IsRooted)
    (hhere : ∀ target, t.find? here ≠ some (.link target))
    (hw : t.walk true links here names = .ok l) (target : String) :
    t.find? l ≠ some (.link target) := by
  fun_induction t.walk true links here names with
  | case1 =>
    cases hw
    exact hhere target
  | case2 => cases hw
  | case3 links here n rest hdir hn ih => exact ih hhere hw
  | case4 links here rest hdir hn ih => exact ih (fun _ => by simp [ht.parent hdir]) hw
  | case5 => cases hw
  | case6 _ _ _ _ _ _ _ _ _ _ _ hend => simp at hend
  | case7 => cases hw
  | case8 here n rest hdir hstay hup hlen place target' hl hend links ih =>
    -- Where the target of a link starts there is a directory.
    refine ih (fun _ => ?_) hw
    split <;> simp [hdir]
  | case9 links here n rest hdir hstay hup hlen place hl ih => exact ih hl hw
  | case10 => cases hw

end Tree

namespace Disk

theorem ne_link_of_locate (ht : t.IsRooted) (hl : locate h t true p = .ok l) (target : String) :
    t.find? l ≠ some (.link target) := by
  obtain ⟨-, -, -, hwalk⟩ := locate_eq_ok.1 hl
  obtain ⟨ns, name, hp, -⟩ := Path.exists_pieces_append p
  obtain ⟨n, rest, hcons⟩ := List.exists_cons_of_ne_nil (show Path.pieces p ≠ [] by simp [hp])
  rw [hcons] at hwalk
  exact ht.ne_link_of_walk (fun _ => by simp [Tree.directory_of_walk_cons hwalk]) hwalk target

/-! ## Opening -/

/-- What another process does to a file while it is opened leaves every entry in its directory. -/
theorem openRead_rooted (ht : w.tree.IsRooted) :
    Ends w (openRead h p) fun _ w' => w'.tree.IsRooted := by
  unfold openRead
  apply ends_get_bind
  apply ends_except_bind
  · intro l hl
    cases hnode : w.tree.find? l with
    | none => exact ends_throw ht
    | some node =>
      cases node with
      | contested content opens fate =>
        have hne : l ≠ [] := by
          rintro rfl
          simp at hnode
        have hdir : w.tree.find? l ≠ some .directory := by simp [hnode]
        have hput (node : Node) : (w.tree.apply (.put l node)).IsRooted :=
          ht.put hne (parent_of_locate ht hl) hdir
        dsimp only
        split
        · exact ends_tell_bind (ends_pure (hput _))
        · cases fate with
          | gone => exact ends_tell_bind (ends_pure (ht.remove hne (ht.isBare hdir)))
          | directory => exact ends_tell_bind (ends_pure (hput _))
      | file | directory | link | fullDevice => exact ends_pure ht
  · exact fun e _ => ht

/-- A document that is not lost at once is where its path leads. -/
theorem openRead_place :
    Gives w (openRead h p) fun source _ =>
      ∀ l, source = .place l → locate h w.tree true p = .ok l := by
  unfold openRead
  apply ends_get_bind
  apply gives_except_bind
  intro l hl
  cases hnode : w.tree.find? l with
  | none => exact gives_throw
  | some node =>
    cases node with
    | contested content opens fate =>
      dsimp only
      split
      · exact ends_tell_bind (gives_pure (by rintro _ ⟨⟩))
      · cases fate with
        | gone => exact ends_tell_bind (gives_pure (by rintro _ ⟨⟩))
        | directory => exact ends_tell_bind (gives_pure (by rintro _ ⟨⟩))
    | file | directory | link | fullDevice =>
      refine gives_pure ?_
      rintro _ ⟨⟩
      exact hl

theorem openRead_file (hl : locate h w.tree true p = .ok l)
    (hfile : w.tree.find? l = some (.file bytes)) :
    Ends w (openRead h p) fun r w' => r = .ok (.place l) ∧ w' = w := by
  unfold openRead
  apply ends_get_bind
  apply ends_except_bind
  · intro l' hl'
    cases hl.symm.trans hl'
    rw [hfile]
    exact ends_pure ⟨rfl, rfl⟩
  · intro e he
    cases hl.symm.trans he

/-- A document is read as it was when it was opened, as long as nothing changes where its path
leads. -/
theorem openRead_lasting (hread : reading h w.tree p = .ok bytes) :
    Gives w (openRead h p) fun source w' => ∀ t,
      (∀ l, locate h w.tree true p = .ok l → t.find? l = w'.tree.find? l) →
        contentOf t source = .ok bytes := by
  obtain ⟨node, hlook, hnode⟩ := reading_eq_ok.1 hread
  have hopened : Ends w (openRead h p) fun r w' => _ :=
    ends_and (openRead_looks p) openRead_place
  refine gives_of_ends hopened fun source w' hr t ht => ?_
  obtain ⟨⟨-, hok, -⟩, hplace⟩ := hr
  obtain ⟨source', hsource, hcontent⟩ := hok node hlook
  cases hsource
  rw [hnode] at hcontent
  rw [← hcontent]
  cases source with
  | detached content => rfl
  | place l =>
    unfold contentOf
    dsimp only
    rw [ht l (hplace _ rfl l rfl)]

/-! ## Making a file -/

/-- A file was made for the path at the place, if it has one: an empty one, where the path leads. -/
structure Made (h : Host) (p : String) (t t' : Tree) (place : Option Location) : Prop where
  rooted : t'.IsRooted
  file : ∀ l, place = some l → locate h t' true p = .ok l ∧ t'.find? l = some (.file [])
  others : ∀ l, place ≠ some l → t'.find? l = t.find? l

theorem create_makes (ht : w.tree.IsRooted) :
    Gives w (create h p) fun sink w' => Made h p w.tree w'.tree sink.place := by
  unfold create
  apply ends_get_bind
  apply gives_except_bind
  intro l hl
  by_cases hslash : Path.endsInSlash p = true
  · rw [if_pos hslash]
    exact gives_throw
  rw [if_neg hslash]
  -- Neither a directory nor a link is replaced, so every path goes on leading where it led.
  have hput (hdir : w.tree.find? l ≠ some .directory) : Gives w (do
      World.take (.put l (.file []))
      return { place := some l, room := h.room l } : Attempt IoError Sink)
      fun sink w' => Made h p w.tree w'.tree sink.place := by
    have hne : l ≠ [] := by
      rintro rfl
      exact hdir (Tree.find?_nil _)
    have hfind (l' : Location) : (w.tree.apply (.put l (.file []))).find? l' =
        if l' = l then some (.file []) else w.tree.find? l' := Tree.find?_put hne
    have halike : w.tree.Alike (w.tree.apply (.put l (.file []))) :=
      Tree.Step.Fills.alike hne ⟨rfl, rfl⟩ ⟨hdir, ne_link_of_locate ht hl⟩
    refine ends_tell_bind (gives_pure ?_)
    rw [World.takes_take.tree]
    refine ⟨ht.put hne (parent_of_locate ht hl) hdir, fun l' hl' => ?_, fun l' hl' => ?_⟩
    · cases hl'
      exact ⟨(locate_alike halike).2 hl, by rw [hfind, if_pos rfl]⟩
    · rw [hfind, if_neg fun he => hl' (by rw [he])]
  refine gives_except_bind fun _ _ => ?_
  cases hnode : w.tree.find? l with
  | none => exact hput (by simp [hnode])
  | some node =>
    cases node with
    | directory => exact gives_throw
    | fullDevice => exact gives_pure ⟨ht, by rintro _ ⟨⟩, fun _ _ => rfl⟩
    | file | link | contested => exact hput (by simp [hnode])

/-! ## Renaming -/

variable {d lp lo : Location} {ns : List String} {name : String}

/-- A path and its sibling with a longer name, if both name an entry, name two in one directory. -/
theorem siblings_of_locate (ht : t.IsRooted) (hlp : locate h t false (q ++ ".part") = .ok lp)
    (hlo : locate h t false q = .ok lo) (hdir : t.find? lo ≠ some .directory) :
    ∃ ns name d, Path.EndsIn q ns name ∧ Path.EndsIn (q ++ ".part") ns (name ++ ".part") ∧
      lp = d ++ [name ++ ".part"] ∧ lo = d ++ [name] := by
  obtain ⟨ns, name, hn⟩ := exists_endsIn ht hlo hdir
  have hn' : Path.EndsIn (q ++ ".part") ns (name ++ ".part") :=
    hn.append (by decide) (Path.isName_of_getLast? (c := 't') (by simp) (by decide))
  obtain ⟨-, d, hd, rfl⟩ := (locate_endsIn hn').1 hlp
  obtain ⟨-, d', hd', rfl⟩ := (locate_endsIn hn).1 hlo
  rw [LooksIn, start_append hn.ne_empty] at hd
  obtain rfl : d' = d := LooksIn.unique hd hd'
  exact ⟨ns, name, d', hn, hn', rfl, rfl⟩

/-- No path leads from the new name of a file, or of a link to it, to another file. -/
theorem look_move (ht : t.IsRooted) (hn : Path.EndsIn q ns name)
    (hn' : Path.EndsIn (q ++ ".part") ns (name ++ ".part"))
    (hapart : Tree.Apart (d ++ [name ++ ".part"]) (d ++ [name]))
    (hlp : locate h t false (q ++ ".part") = .ok (d ++ [name ++ ".part"]))
    (hlo : locate h t false q = .ok (d ++ [name]))
    (hl : locate h t true (q ++ ".part") = .ok l) (hfile : t.find? l = some (.file bytes))
    {bytes' : Bytes} (hlook : look h (t.apply (.move (d ++ [name ++ ".part"]) (d ++ [name]))) q =
      .ok (.file bytes')) :
    bytes' = bytes := by
  have hbare := ht.isBare (ne_directory_of_locate hlp hl (by simp [hfile]))
  have hfind (x : Location) := Tree.find?_move (l := x) hapart hbare
  -- Only links to the file can come to lead elsewhere.
  have hharmless : t.IsHarmless (fun x => x = l ∨ x = d ++ [name] ∨ d ++ [name ++ ".part"] <+: x)
      (d ++ [name ++ ".part"]) :=
    isHarmless_of_locate hn' hlp hl (.inl rfl) (by simp [hfile])
  have hstrays := Tree.strays_move hapart hbare (fun _ hx => .inr (.inr hx)) (.inr (.inl rfl))
    hharmless
  obtain ⟨x, hx, hnode⟩ := look_eq_ok.1 hlook
  obtain ⟨own, hown, hbehind⟩ := locate_false_of_true hx
  cases (locate_of_strays hstrays hn hown).symm.trans hlo
  by_cases hnew : x = d ++ [name]
  · rw [hfind, if_pos hnew] at hnode
    cases hl.symm.trans (locate_true_of_false hlp (by simp [hnode]))
    cases hfile.symm.trans hnode
    rfl
  · rcases hbehind with he | ⟨target, hlink⟩
    · exact absurd he.symm hnew
    obtain ⟨links, hwalk⟩ := exists_walk_of_link hn hown hlink hx
    rw [hfind, if_pos rfl] at hlink
    have hleads := hstrays.leadsInto (hharmless.link target hlink)
    rw [List.dropLast_concat] at hleads hwalk
    rw [hfind, if_neg hnew] at hnode
    split at hnode
    · cases hnode
    · rename_i hold
      obtain ⟨rfl | hX | hX, -⟩ := hleads links x hwalk
      · cases hfile.symm.trans hnode
        rfl
      · exact absurd hX hnew
      · exact absurd hX hold

/-- A file that is renamed by taking the ending off its name is found at the new name. Where the
old name is that of a link and the file is behind it, the link gets the new name, and leads to
the file or nowhere. -/
theorem rename_stores (ht : w.tree.IsRooted) (hl : locate h w.tree true (q ++ ".part") = .ok l)
    (hfile : w.tree.find? l = some (.file bytes)) :
    Gives w (rename h (q ++ ".part") q) fun _ w' =>
      (locate h w.tree false (q ++ ".part") = .ok l →
        ∃ lo, locate h w.tree false q = .ok lo ∧ w'.tree.find? lo = some (.file bytes)) ∧
      ∀ bytes', look h w'.tree q = .ok (.file bytes') → bytes' = bytes := by
  unfold rename
  apply ends_get_bind
  apply gives_except_bind
  intro lp hlp
  apply gives_except_bind
  intro lo hlo
  refine gives_except_bind fun _ _ => ?_
  -- What has the old name is the file itself or a link to it.
  have hsource := ne_directory_of_locate hlp hl (by simp [hfile])
  by_cases hdir : w.tree.find? lo = some .directory
  · split
    · exact gives_throw
    · rename_i node hnode
      refine gives_except_bind fun _ _ => ?_
      split
      · exact absurd hnode hsource
      · rw [if_pos (by simp [Tree.isDirectory, hdir])]
        exact gives_throw
  obtain ⟨ns, name, d, hn, hn', rfl, rfl⟩ := siblings_of_locate ht hlp hlo hdir
  have hapart : Tree.Apart (d ++ [name ++ ".part"]) (d ++ [name]) := by
    apply Tree.apart_concat
    intro he
    simpa using congrArg String.toList he
  have hmove : Gives w (move h (d ++ [name ++ ".part"]) (d ++ [name])) fun _ w' =>
      (locate h w.tree false (q ++ ".part") = .ok l →
        ∃ lo, locate h w.tree false q = .ok lo ∧ w'.tree.find? lo = some (.file bytes)) ∧
      ∀ bytes', look h w'.tree q = .ok (.file bytes') → bytes' = bytes := by
    unfold move
    split
    · exact gives_throw
    refine ends_tell fun _ _ => ?_
    beta_reduce
    rw [World.takes_take.tree]
    refine ⟨fun hl' => ⟨_, hlo, ?_⟩, fun bytes' => look_move ht hn hn' hapart hlp hlo hl hfile⟩
    cases hlp.symm.trans hl'
    rw [Tree.find?_move hapart (ht.isBare hsource), if_pos rfl, hfile]
  split
  · exact gives_throw
  · rename_i node hnode
    refine gives_except_bind fun _ _ => ?_
    split
    · exact absurd hnode hsource
    · split
      · exact gives_throw
      · split
        · exact gives_throw
        · rw [if_neg hapart.ne]
          exact hmove

end Disk

end FileListCache
