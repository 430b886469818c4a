/-
  FileListCache.Proofs.Removal

  What a removal removes (`Files.Removed`). Where there is a place for what a path names, just what
  stands there goes, a directory with all below it, and a link without what it leads to. If the
  system keeps some of it, what the path names stays, and nothing else than what is below it may
  have gone. Where a path cannot be followed nothing is done, and it is a failure unless something
  on the way is missing.

  A path can lead nowhere for other reasons too. Below a file there can be nothing, and removing it
  fails all the same (`Files.remove_refuses_absent`).
-/

import FileListCache.Proofs.Vacancy

namespace FileListCache

open Disk (IsVacant locate look)

variable {h : Host} {t : Tree} {w : World} {p q name : String} {ns : List String}
  {l : Location} {node : Node}

/-! ## Paths that lead nowhere -/

/-- No name leads on from what is no directory. -/
theorem Tree.walk_blocked {follow : Bool} {links : Nat} {rest : List String}
    (hnode : t.find? l = some node) (hdir : node ≠ .directory) :
    t.walk follow links l (name :: rest) = .error .notDirectory := by
  rw [walk, hnode]
  cases node with
  | directory => exact absurd rfl hdir
  | file | link | fullDevice | contested => rfl

/-- The reasons for which names lead nowhere. -/
theorem Tree.walk_error {follow : Bool} {links : Nat} {names : List String} {e : OsError}
    (he : t.walk follow links l names = .error e) :
    e ∈ [OsError.missing, .notDirectory, .nameTooLong, .tooManyLinks] := by
  -- The walk fails here for one of the four reasons, or goes on and fails later.
  fun_induction t.walk follow links l names with
  | case1 => cases he
  | case2 => simp [← Except.error.inj he]
  | case3 _ _ _ _ _ _ ih => exact ih he
  | case4 _ _ _ _ _ ih => exact ih he
  | case5 => simp [← Except.error.inj he]
  | case6 => cases he
  | case7 => simp [← Except.error.inj he]
  | case8 _ _ _ _ _ _ _ _ _ _ _ _ ih => exact ih he
  | case9 _ _ _ _ _ _ _ _ _ _ ih => exact ih he
  | case10 => simp [← Except.error.inj he]

namespace Disk

/-- A path that the system can be asked for. -/
def Askable (p : String) : Prop :=
  p.toList.contains (Char.ofNat 0) = false ∧ p ≠ "" ∧ Utf8.size p ≤ Tree.longestPath

instance (p : String) : Decidable (Askable p) := inferInstanceAs (Decidable (_ ∧ _))

/-- A path that the system can be asked for leads where its names lead. -/
theorem locate_of_askable {follow : Bool} (hp : Askable p) :
    locate h t follow p =
      (t.walk follow Tree.mostLinks (start h p) (Path.pieces p)).mapError .system := by
  obtain ⟨hzero, hne, hlen⟩ := hp
  unfold locate checkName Tree.locate start
  rw [if_neg (by rw [hzero]; exact Bool.false_ne_true), if_neg hne, if_neg (Nat.not_lt.2 hlen)]
  rfl

/-- The reasons for which a path leads nowhere. -/
theorem locate_error {follow : Bool} {e : IoError} (he : locate h t follow p = .error e) :
    e ∈ [.zeroInName, IoError.system .missing, .system .notDirectory, .system .nameTooLong,
      .system .tooManyLinks] := by
  by_cases hask : Askable p
  · rw [locate_of_askable hask] at he
    rcases hw : t.walk follow Tree.mostLinks (start h p) (Path.pieces p) with e' | l
    · rw [hw] at he
      cases he
      simpa using Tree.walk_error hw
    · rw [hw] at he
      cases he
  · -- The system is not asked for a path with a zero, and refuses an empty or a long one.
    unfold locate checkName Tree.locate at he
    by_cases hzero : p.toList.contains (Char.ofNat 0) = true
    · rw [if_pos hzero] at he
      cases he
      exact List.mem_cons_self
    rw [if_neg hzero] at he
    by_cases hne : p = ""
    · rw [if_pos hne] at he
      cases he
      simp
    rw [if_neg hne, if_pos (not_le.1 fun hlen => hask ⟨by simpa using hzero, hne, hlen⟩)] at he
    cases he
    simp

/-- A parent of an askable path is one. -/
theorem Askable.parent {rest : String} (hask : Askable (q ++ "/" ++ rest)) (hq : q ≠ "") :
    Askable q := by
  obtain ⟨hzero, -, hlen⟩ := hask
  rw [Utf8.size_append, Utf8.size_append] at hlen
  refine ⟨?_, hq, by omega⟩
  rw [Bool.eq_false_iff] at hzero ⊢
  intro hmem
  refine hzero ?_
  rw [List.contains_iff_mem] at hmem ⊢
  simp [hmem]

/-- Below what is not there is nothing. -/
theorem locate_of_missing {rest : String} (hask : Askable (q ++ "/" ++ rest)) (hq : q ≠ "")
    (hmissing : look h t q = .error (.system .missing)) :
    locate h t false (q ++ "/" ++ rest) = .error (.system .missing) := by
  have hstart : start h (q ++ "/" ++ rest) = start h q := by
    rw [String.append_assoc, start_append hq]
  have hrest : Path.pieces rest ≠ [] := by
    obtain ⟨ns, name, hpieces, -⟩ := Path.exists_pieces_append rest
    simp [hpieces]
  have happ : ∃ left, t.walk false Tree.mostLinks (start h q)
      (Path.pieces q ++ Path.pieces rest) =
        (t.walk true Tree.mostLinks (start h q) (Path.pieces q)).bind fun d =>
          t.walk false left d (Path.pieces rest) := Tree.walk_append hrest
  obtain ⟨left, happ⟩ := happ
  rw [look_eq, locate_of_askable (hask.parent hq)] at hmissing
  rw [locate_of_askable hask, hstart, Path.pieces_append_slash, happ]
  rcases hw : t.walk true Tree.mostLinks (start h q) (Path.pieces q) with e | d
  · rw [hw] at hmissing
    have he : e = .missing := by simpa [Except.mapError, Except.bind] using hmissing
    rw [he]
    rfl
  · rw [hw] at hmissing
    -- The names in front lead to a place where nothing stands, and no name leads on from it.
    have hnone : t.find? d = none := by
      rcases hd : t.find? d with _ | node
      · rfl
      · simp [Except.mapError, Except.bind, hd] at hmissing
    obtain ⟨n, names, hcons⟩ := List.exists_cons_of_ne_nil hrest
    rw [Except.bind, hcons, Tree.walk, hnone]
    rfl

end Disk

namespace Files

/-! ## What a removal comes to -/

/-- What comes of removing what the path `p` names in the tree `t`. -/
structure Removed (h : Host) (p : String) (t : Tree) (r : Except FileError Unit) (t' : Tree) :
    Prop where
  /-- After a success nothing is left at the path. -/
  vacant : r = .ok () → IsVacant h t' p
  /-- Where there is a place for what the path names, what stands elsewhere than there or below
  stays, also if the removal fails on the way. -/
  framed : ∀ l, locate h t false p = .ok l → ∀ l', ¬ l <+: l' → t'.find? l' = t.find? l'
  /-- Just what stands there is removed, unless the system keeps some of it. -/
  removed : ∀ l, locate h t false p = .ok l → Disk.Removable h t l → t.Without l t'
  /-- That is a success, and so it is if nothing stands there, unless nothing could be written. -/
  done : ∀ l, locate h t false p = .ok l → Disk.Removable h t l →
    (t.find? l = none → h.locked l.dropLast ≠ some .readOnly) → r = .ok ()
  unwritable : ∀ l, locate h t false p = .ok l → t.find? l = none →
    h.locked l.dropLast = some .readOnly →
      r = .error (.file p "remove" (.system .readOnly)) ∧ t' = t
  /-- What is kept is a failure for the reason that the system gives, and what the path names
  stays. -/
  kept : ∀ l, locate h t false p = .ok l → ¬ Disk.Removable h t l →
    (∃ k : Lock, r = .error (.file p "remove" (.system k.error)) ∨
      r = .error (.directory p "remove" (.system k.error))) ∧ t'.find? l = t.find? l
  /-- What a link leads to stays with all that is in it, but for the link itself. -/
  linked : ∀ l target d, locate h t false p = .ok l → t.find? l = some (.link target) →
    locate h t true p = .ok d →
    t.find? d = some .directory ∨ (∃ bytes, t.find? d = some (.file bytes)) →
    d ≠ l ∧ ∀ l', d <+: l' → l' ≠ l → t'.find? l' = t.find? l'
  /-- Where a parent does not exist nothing is to be done. -/
  orphaned : ∀ q rest, p = q ++ "/" ++ rest → q ≠ "" → Disk.Askable p →
    look h t q = .error (.system .missing) → r = .ok () ∧ t' = t
  absent : locate h t false p = .error (.system .missing) → r = .ok () ∧ t' = t
  /-- Any other reason for which a path leads nowhere is a failure. -/
  refused : ∀ e, locate h t false p = .error e → e ≠ .system .missing →
    r = .error (.file p "remove" e) ∧ t' = t ∧
    e ∈ [.zeroInName, IoError.system .notDirectory, .system .nameTooLong, .system .tooManyLinks]

/-- What the system keeps is reported with its reason. -/
theorem removal_of_kept (hl : locate h t false p = .ok l) (hkept : ¬ Disk.Removable h t l) :
    ∃ k : Lock, removal h t p = .error (.file p "remove" (.system k.error)) ∨
      removal h t p = .error (.directory p "remove" (.system k.error)) := by
  rcases hnode : t.find? l with _ | node
  · exact absurd (Disk.removable_of_none hnode) hkept
  rw [removal, hl, Except.bind, Disk.tried_of_some hnode]
  rcases hask : (Disk.doomed t l).forM (Disk.askEntry h) with e | u
  · obtain ⟨-, -, k, -, rfl⟩ := Disk.forM_askEntry_error hask
    have hmissing : (IoError.system k.error).isMissing = false := by cases k <;> rfl
    refine ⟨k, ?_⟩
    rw [reported, hmissing, if_neg Bool.false_ne_true]
    split
    · exact .inr rfl
    · exact .inl rfl
  · exact absurd (Disk.forM_askEntry_eq_ok.1 hask) hkept

/-- Of a tree only what a path names is removed, and nothing else is done. It is an error if the
system keeps some of it, or if the path cannot be followed, unless it is for the reason that
something on the way is missing. -/
theorem remove_exact (hn : Path.EndsIn p ns name) (w : World) :
    Ends w (remove h p) fun r w' => Removed h p w.tree r w'.tree ∧ ∃ ss, w' = w.taking ss := by
  have hvacates := (ends_iff (attempt_remove hn w)).1 (remove_vacates (h := h) hn)
  rw [ends_iff (attempt_remove hn w)]
  refine ⟨?_, _, rfl⟩
  have hnowhere {e : IoError} (he : locate h w.tree false p = .error e) :
      (w.taking (clearingOf h w.tree p)).tree = w.tree := by
    rw [clearingOf_of_error he, World.taking_nil]
  have habsent (he : locate h w.tree false p = .error (.system .missing)) :
      removal h w.tree p = .ok () ∧ (w.taking (clearingOf h w.tree p)).tree = w.tree :=
    ⟨by rw [removal_of_error he]; rfl, hnowhere he⟩
  have hplace {l : Location} (hl : locate h w.tree false p = .ok l) : l ≠ [] ∧
      (w.taking (clearingOf h w.tree p)).tree = w.tree.applyAll (Disk.clearing h w.tree l) := by
    obtain ⟨-, d, -, rfl⟩ := (Disk.locate_endsIn hn).1 hl
    exact ⟨by simp, by rw [clearingOf_of_ok hl]; rfl⟩
  refine ⟨fun hr => hvacates (isRemovable_of_removal hr), ?_, ?_, ?_, ?_, ?_, ?_, ?_, habsent, ?_⟩
  · intro l hl l' hl'
    rw [(hplace hl).2]
    exact Disk.find?_clearing_of_not_isPrefix (hplace hl).1 hl'
  · exact fun l hl hremovable => clearingOf_without hn hl ((isRemovable_of_ok hl).2 hremovable)
  · exact fun l hl hremovable => removal_of_removable hl hremovable
  · intro l hl hnone hlocked
    rw [(hplace hl).2, Disk.clearing_of_none hnone, Tree.applyAll_nil, removal, hl, Except.bind,
      Disk.tried, if_pos hnone, Disk.askVolume, if_pos hlocked]
    refine ⟨?_, rfl⟩
    change (if Disk.isDirectory h w.tree p then _ else _) = _
    rw [Disk.isDirectory_of_none hl hnone, if_neg Bool.false_ne_true]
  · intro l hl hkept
    rw [(hplace hl).2]
    exact ⟨removal_of_kept hl hkept, Disk.find?_clearing_of_kept (hplace hl).1 hkept⟩
  · intro l target d hl hlink hd hnode
    have hne : d ≠ l := by
      rintro rfl
      rw [hlink] at hnode
      rcases hnode with hdir | ⟨bytes, hfile⟩
      · cases hdir
      · cases hfile
    refine ⟨hne, fun l' _ hl' => ?_⟩
    -- At most the link goes.
    have hlast : l' ∉ Disk.doomed w.tree l := by
      rw [Disk.doomed_of_ne hlink (by simp)]
      simpa using hl'
    rw [(hplace hl).2, Disk.find?_clearing (hplace hl).1,
      if_neg fun hmem => hlast (Disk.mem_doomed_of_released hmem)]
  · rintro q rest rfl hq hask hmissing
    exact habsent (Disk.locate_of_missing hask hq hmissing)
  · intro e he hne
    refine ⟨?_, hnowhere he, ?_⟩
    · rw [removal_of_error he, if_neg (by simpa [IoError.isMissing] using hne)]
    · simpa [hne] using Disk.locate_error he

/-- A directory with a file and a link to the directory itself. -/
def selfLinked : World where
  tree := ⟨[(["d"], .directory), (["d", "a"], .file [1]), (["d", "self"], .link "../d")]⟩

/-- A link in the directory that it leads to goes by itself. -/
theorem remove_exact_selfLinked : Path.EndsIn "/d/self" ["", "d"] "self" ∧
    look {} selfLinked.tree "/d/self" = .ok .directory ∧
    Ends selfLinked (remove {} "/d/self") fun r w' => r = .ok () ∧
      w'.tree.find? ["d", "self"] = none ∧ w'.tree.find? ["d"] = some .directory ∧
      w'.tree.find? ["d", "a"] = some (.file [1]) := by
  have hn : Path.EndsIn "/d/self" ["", "d"] "self" := by decide
  have hlooks : Disk.LooksIn {} selfLinked.tree "/d/self" ["", "d"] ["d"] := by
    refine ⟨?_, rfl⟩
    rw [show Disk.start {} "/d/self" = [] by decide, Tree.walk_stay rfl (.inl rfl),
      Tree.walk_on rfl (by decide) (by decide) (by rintro _ ⟨⟩), Tree.walk_nil]
    rfl
  have hl : locate {} selfLinked.tree false "/d/self" = .ok ["d", "self"] :=
    (Disk.locate_endsIn hn).2 ⟨by decide, ["d"], hlooks, rfl⟩
  have hd : locate {} selfLinked.tree true "/d/self" = .ok ["d"] := by
    refine Disk.locate_of_walk ["", "d", "self"] (by decide) (by decide) (by decide) ?_
    have htarget : Path.pieces "../d" = ["..", "d"] := by decide
    rw [Tree.walk_stay rfl (.inl rfl),
      Tree.walk_on rfl (by decide) (by decide) (by rintro _ ⟨⟩),
      Tree.walk_link rfl (by decide) (by decide) rfl]
    simp only [Tree.mostLinks]
    rw [if_neg (by decide), if_neg (by decide), htarget, List.append_nil, Tree.walk_up rfl,
      Tree.walk_on rfl (by decide) (by decide) (by rintro _ ⟨⟩), Tree.walk_nil]
    rfl
  refine ⟨hn, Disk.look_eq_ok.2 ⟨["d"], hd, rfl⟩,
    ends_imp (remove_exact hn selfLinked) fun r w' hr => ?_⟩
  obtain ⟨hremoved, -⟩ := hr
  have hremovable : Disk.Removable {} selfLinked.tree ["d", "self"] :=
    Disk.removable_of_isSteady Host.isSteady_default
  have hwithout := hremoved.removed _ hl hremovable
  have hr := hremoved.done _ hl hremovable (by rintro ⟨⟩)
  obtain ⟨-, hkept⟩ := hremoved.linked _ _ _ hl rfl hd (.inl rfl)
  exact ⟨hr, hwithout.gone, hkept _ List.prefix_rfl (by decide), hkept _ (by decide) (by decide)⟩

/-- A file that a path goes through as if it were a directory. -/
def lonelyFile : World where
  tree := ⟨[(["f"], .file [1])]⟩

/-- Removing what is not there does not always succeed: below a file there can be nothing, and
that the file is no directory counts as a failure. -/
theorem remove_refuses_absent : ¬ ∀ (h : Host) (w : World) (p : String) (ns : List String)
    (name : String), Path.EndsIn p ns name → (∀ follow l, locate h w.tree follow p ≠ .ok l) →
    Ends w (remove h p) fun r _ => r = .ok () := by
  intro hclaim
  have hn : Path.EndsIn "/f/x" ["", "f"] "x" := by decide
  have hask : Disk.Askable "/f/x" := by decide
  have hl (follow : Bool) :
      locate {} lonelyFile.tree follow "/f/x" = .error (.system .notDirectory) := by
    have hpieces : Path.pieces "/f/x" = ["", "f", "x"] := by decide
    have hfile : lonelyFile.tree.find? ["f"] = some (.file [1]) := rfl
    rw [Disk.locate_of_askable hask, show Disk.start {} "/f/x" = [] by decide, hpieces,
      Tree.walk_stay rfl (.inl rfl), Tree.walk_on rfl (by decide) (by decide) (by rintro _ ⟨⟩),
      List.nil_append, Tree.walk_blocked hfile (by decide)]
    rfl
  have hok := hclaim {} lonelyFile "/f/x" _ _ hn fun follow l hplace =>
    nomatch (hl follow).symm.trans hplace
  rw [ends_iff (attempt_remove hn lonelyFile), removal_of_error (hl false)] at hok
  cases hok

end Files

end FileListCache
