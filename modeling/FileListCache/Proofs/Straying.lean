/-
  FileListCache.Proofs.Straying

  Where paths can come to lead while entries change. A link that is moved to another name makes
  paths lead where they did not lead before, so the places a run can reach are not those of the
  first tree alone. `Tree.Strays X t t'` bounds them: a path that leads somewhere else in `t'` than
  in `t` ends at a place in `X`, and no directory stands there, so that it leads on to nothing.

    * Filling, clearing and moving entries in `X` makes paths stray at most to `X`, as long as no
      directory is moved, and no link but to a place in `X` (`Tree.IsHarmless`).
    * Paths that stray go on to be bounded: `Strays` is transitive.
-/

import FileListCache.Proofs.Paths

namespace FileListCache.Tree

variable {X : Location → Prop} {t t' t'' : Tree} {follow : Bool} {links links' : Nat}
  {here d l l' p source target : Location} {names : List String} {bytes : Bytes}

/-! ## Walks with more links -/

/-- A walk that comes to an end does so with one more link left. -/
theorem walk_succ (hw : t.walk follow links here names = .ok l) :
    t.walk follow (links + 1) here names = .ok l := by
  fun_induction t.walk follow links here names with
  | case1 => rwa [walk_nil]
  | case2 => cases hw
  | case3 links here n rest hdir hn ih =>
    rw [walk_stay hdir hn]
    exact ih hw
  | case4 links here rest hdir hn ih =>
    rw [walk_up hdir]
    exact ih hw
  | case5 => cases hw
  | case6 links here n rest hdir hstay hup hlen place target hl hend =>
    obtain ⟨h1, h2⟩ := not_or.1 hstay
    rw [walk_link hdir ⟨h1, h2, hup⟩ (Nat.not_lt.1 hlen) hl, if_pos hend]
    exact hw
  | case7 => cases hw
  | case8 here n rest hdir hstay hup hlen place target hl hend links ih =>
    obtain ⟨h1, h2⟩ := not_or.1 hstay
    rw [walk_link hdir ⟨h1, h2, hup⟩ (Nat.not_lt.1 hlen) hl, if_neg hend]
    exact ih hw
  | case9 links here n rest hdir hstay hup hlen place hl ih =>
    obtain ⟨h1, h2⟩ := not_or.1 hstay
    rw [walk_on hdir ⟨h1, h2, hup⟩ (Nat.not_lt.1 hlen) hl]
    exact ih hw
  | case10 => cases hw

theorem walk_add (hw : t.walk follow links here names = .ok l) (more : Nat) :
    t.walk follow (links + more) here names = .ok l := by
  induction more with
  | zero => exact hw
  | succ more ih => exact walk_succ ih

/-- Where names lead does not depend on how many links may be followed. -/
theorem walk_unique (hw : t.walk follow links here names = .ok l)
    (hw' : t.walk follow links' here names = .ok l') : l' = l := by
  have hmore := walk_add hw links'
  have hmore' := walk_add hw' links
  rw [Nat.add_comm] at hmore'
  exact Except.ok.inj (hmore'.symm.trans hmore)

theorem IsRooted.parent (ht : t.IsRooted) (hd : t.find? d = some .directory) :
    t.find? d.dropLast = some .directory := by
  rcases List.eq_nil_or_concat' d with rfl | ⟨up, name, rfl⟩
  · exact find?_nil t
  · rw [List.dropLast_concat]
    exact ht up name (by simp [hd])

/-- In a rooted tree a path leads into a directory, whether or not an entry is there. -/
theorem IsRooted.parent_of_walk (ht : t.IsRooted) (hhere : t.find? here.dropLast = some .directory)
    (hw : t.walk follow links here names = .ok l) : t.find? l.dropLast = some .directory := by
  -- Each place on the way has a directory above it, be it come to by a name, by `..` or by a link.
  fun_induction t.walk follow links here names with
  | case1 =>
    cases hw
    exact hhere
  | case2 => cases hw
  | case3 links here n rest hdir hn ih => exact ih hhere hw
  | case4 links here rest hdir hn ih => exact ih (ht.parent hhere) hw
  | case5 => cases hw
  | case6 links here n rest hdir hstay hup hlen place =>
    rw [← show place = l from Except.ok.inj hw, List.dropLast_concat]
    exact hdir
  | case7 => cases hw
  | case8 here n rest hdir hstay hup hlen place target hl hend links ih =>
    refine ih ?_ hw
    split
    · exact find?_nil t
    · exact hhere
  | case9 links here n rest hdir hstay hup hlen place hl ih =>
    refine ih ?_ hw
    rwa [List.dropLast_concat]
  | case10 => cases hw

/-! ## Paths that stray -/

/-- Where a link's target is looked for, for a link in the directory `d`. -/
def linkStart (d : Location) (target : String) : Location :=
  if Path.isAbsolute target then [] else d

/-- A link in the directory `d` leads to a place in `X` that is no directory, or nowhere. -/
def LeadsInto (X : Location → Prop) (t : Tree) (d : Location) (target : String) : Prop :=
  ∀ links l, t.walk true links (linkStart d target) (Path.pieces target) = .ok l →
    X l ∧ t.find? l ≠ some .directory

/-- No name leads on from where the link leads. -/
theorem LeadsInto.of_walk_append {target : String} (h : t.LeadsInto X d target)
    (hw : t.walk true links (linkStart d target) (Path.pieces target ++ names) = .ok l) :
    X l ∧ t.find? l ≠ some .directory := by
  by_cases hnames : names = []
  · rw [hnames, List.append_nil] at hw
    exact h links l hw
  · have happ : ∃ left, t.walk true links (linkStart d target) (Path.pieces target ++ names) =
        (t.walk true links (linkStart d target) (Path.pieces target)).bind fun d' =>
          t.walk true left d' names := walk_append hnames
    obtain ⟨left, happ⟩ := happ
    rw [happ] at hw
    obtain ⟨name, rest, rfl⟩ := List.exists_cons_of_ne_nil hnames
    cases htarget : t.walk true links (linkStart d target) (Path.pieces target) with
    | error e =>
      rw [htarget] at hw
      cases hw
    | ok d' =>
      rw [htarget] at hw
      exact absurd (directory_of_walk_cons hw) (h links d' htarget).2

/-- What stands here may get another name in its directory: no directory, and no link but one that
leads into `X`. -/
structure IsHarmless (X : Location → Prop) (t : Tree) (l : Location) : Prop where
  noDirectory : t.find? l ≠ some .directory
  link : ∀ target, t.find? l = some (.link target) → t.LeadsInto X l.dropLast target

/-- Paths that lead elsewhere in the second tree than in the first lead to places in `X`, and no
directory stands there. No directory is new. -/
structure Strays (X : Location → Prop) (t t' : Tree) : Prop where
  walks : ∀ links here names l, t'.walk true links here names = .ok l →
    t.walk true links here names = .ok l ∨ X l ∧ t'.find? l ≠ some .directory
  directories : ∀ l, t'.find? l = some .directory → t.find? l = some .directory

namespace Strays

theorem refl (X : Location → Prop) (t : Tree) : Strays X t t :=
  ⟨fun _ _ _ _ hw => .inl hw, fun _ hl => hl⟩

theorem trans (h : Strays X t t') (h' : Strays X t' t'') : Strays X t t'' := by
  refine ⟨fun links here names l hw => ?_, fun l hl => h.directories l (h'.directories l hl)⟩
  rcases h'.walks links here names l hw with hw | hstray
  · rcases h.walks links here names l hw with hw | ⟨hX, hdir⟩
    · exact .inl hw
    · exact .inr ⟨hX, fun hl => hdir (h'.directories l hl)⟩
  · exact .inr hstray

/-- A directory that a path leads to is where it led before. -/
theorem walk_directory (h : Strays X t t') (hw : t'.walk true links here names = .ok l)
    (hl : t'.find? l = some .directory) : t.walk true links here names = .ok l := by
  rcases h.walks links here names l hw with hw | ⟨-, hdir⟩
  · exact hw
  · exact absurd hl hdir

/-- A link that led into `X` goes on leading there. -/
theorem leadsInto {link : String} (h : Strays X t t') (hl : t.LeadsInto X d link) :
    t'.LeadsInto X d link := by
  intro links l hw
  rcases h.walks links _ _ l hw with hw | hstray
  · obtain ⟨hX, hdir⟩ := hl links l hw
    exact ⟨hX, fun hl => hdir (h.directories l hl)⟩
  · exact hstray

/-- What is harmless stays so as long as the entry stays or becomes a dead end. -/
theorem isHarmless (h : Strays X t t') (hl : t.IsHarmless X l)
    (hkept : t'.find? l = t.find? l ∨ t'.IsDeadEnd l) : t'.IsHarmless X l := by
  rcases hkept with he | hdead
  · refine ⟨he ▸ hl.noDirectory, fun target hlink => ?_⟩
    exact h.leadsInto (hl.link target (he ▸ hlink))
  · exact ⟨hdead.1, fun target hlink => absurd hlink (hdead.2 target)⟩

end Strays

/-- What a change leaves at a place for paths not to stray: the entry as it was, a dead end in `X`,
or a link that led into `X` before. -/
def StaysOr (X : Location → Prop) (t t' : Tree) (d : Location) (name : String) : Prop :=
  t'.find? (d ++ [name]) = t.find? (d ++ [name]) ∨
    X (d ++ [name]) ∧ t'.IsDeadEnd (d ++ [name]) ∨
    ∃ target, t'.find? (d ++ [name]) = some (.link target) ∧ t.LeadsInto X d target

theorem strays_of_forall (h : ∀ d name, StaysOr X t t' d name) : Strays X t t' := by
  have hdirectories (l : Location) (hl : t'.find? l = some .directory) :
      t.find? l = some .directory := by
    rcases List.eq_nil_or_concat' l with rfl | ⟨d, name, rfl⟩
    · exact find?_nil t
    · rcases h d name with he | ⟨-, hdead⟩ | ⟨target, hlink, -⟩
      · exact he ▸ hl
      · exact absurd hl hdead.1
      · rw [hlink] at hl
        cases hl
  refine ⟨fun links here names l hw => ?_, hdirectories⟩
  fun_induction t'.walk true links here names with
  | case1 =>
    left
    rwa [walk_nil]
  | case2 => cases hw
  | case3 links here name rest hdir hname ih =>
    rw [walk_stay (hdirectories _ hdir) hname]
    exact ih hw
  | case4 links here rest hdir hname ih =>
    rw [walk_up (hdirectories _ hdir)]
    exact ih hw
  | case5 => cases hw
  | case6 _ _ _ _ _ _ _ _ _ _ _ h => simp at h
  | case7 => cases hw
  | case8 here name rest hdir hstay hup hlen place target hlink _ links ih =>
    obtain ⟨h1, h2⟩ := not_or.1 hstay
    rcases h here name with he | ⟨-, hdead⟩ | ⟨target', hlink', hleads⟩
    · rw [walk_link (hdirectories _ hdir) ⟨h1, h2, hup⟩ (Nat.not_lt.1 hlen) (he ▸ hlink)]
      simpa using ih hw
    · exact absurd hlink (hdead.2 target)
    · obtain rfl : target = target' := by
        rw [hlink] at hlink'
        cases hlink'
        rfl
      have ih : t.walk true links (linkStart here target) (Path.pieces target ++ rest) = .ok l ∨
          X l ∧ t'.find? l ≠ some .directory := by simpa [linkStart] using ih hw
      rcases ih with hw | hstray
      · obtain ⟨hX, hdir'⟩ := hleads.of_walk_append hw
        exact .inr ⟨hX, fun hl => hdir' (hdirectories l hl)⟩
      · exact .inr hstray
  | case9 links here name rest hdir hstay hup hlen place hlink ih =>
    obtain ⟨h1, h2⟩ := not_or.1 hstay
    rcases h here name with he | ⟨hX, hdead⟩ | ⟨target, hlink', -⟩
    · rw [walk_on (hdirectories _ hdir) ⟨h1, h2, hup⟩ (Nat.not_lt.1 hlen)
        fun target h => hlink target (he.trans h)]
      exact ih hw
    · obtain rfl := hdead.eq_of_walk hw
      exact .inr ⟨hX, hdead.1⟩
    · exact absurd hlink' (hlink target)
  | case10 => cases hw

/-! ## Steps -/

/-- The entries of one kind stay what they are when bytes are added. -/
theorem find?_extend_cases (t : Tree) (p : Location) (bytes : Bytes) (l : Location) :
    (t.apply (.extend p bytes)).find? l = t.find? l ∨
      l = p ∧ ∃ content, t.find? l = some (.file content) ∧
        (t.apply (.extend p bytes)).find? l = some (.file (content ++ bytes)) := by
  rw [find?_extend]
  by_cases hl : l = p
  · rw [if_pos hl]
    rcases hn : t.find? l with - | (content | - | - | - | -)
    · exact .inl rfl
    · exact .inr ⟨hl, content, rfl, rfl⟩
    all_goals exact .inl rfl
  · rw [if_neg hl]
    exact .inl rfl

theorem strays_extend (hp : X p) : Strays X t (t.apply (.extend p bytes)) := by
  refine strays_of_forall fun d name => ?_
  rcases find?_extend_cases t p bytes (d ++ [name]) with he | ⟨hl, content, -, hfile⟩
  · exact .inl he
  · exact .inr (.inl ⟨hl ▸ hp, isDeadEnd_of_file hfile⟩)

theorem strays_put (hp : X p) (hne : p ≠ []) : Strays X t (t.apply (.put p (.file bytes))) := by
  refine strays_of_forall fun d name => ?_
  have hfind : (t.apply (.put p (.file bytes))).find? (d ++ [name]) =
      if d ++ [name] = p then some (.file bytes) else t.find? (d ++ [name]) := find?_put hne
  by_cases hl : d ++ [name] = p
  · rw [if_pos hl] at hfind
    exact .inr (.inl ⟨hl ▸ hp, isDeadEnd_of_file hfind⟩)
  · rw [if_neg hl] at hfind
    exact .inl hfind

theorem strays_clears {s : Step} (hX : ∀ l', l <+: l' → X l') (hl : l ≠ []) (hs : s.Clears l) :
    Strays X t (t.apply s) := by
  refine strays_of_forall fun d name => ?_
  rcases hs.fades hl (t := t) (d ++ [name]) with he | hdead
  · exact .inl he
  · by_cases hp : l <+: d ++ [name]
    · exact .inr (.inl ⟨hX _ hp, hdead⟩)
    · exact .inl (hs.find?_eq hl hp)

/-- A harmless entry takes another name in its directory. -/
theorem strays_move {name name' : String} (ha : Apart (d ++ [name]) (d ++ [name']))
    (hbare : t.IsBare (d ++ [name])) (hsource : ∀ l, d ++ [name] <+: l → X l)
    (htarget : X (d ++ [name'])) (hharmless : t.IsHarmless X (d ++ [name])) :
    Strays X t (t.apply (.move (d ++ [name]) (d ++ [name']))) := by
  refine strays_of_forall fun d' n => ?_
  have hfind : (t.apply (.move (d ++ [name]) (d ++ [name']))).find? (d' ++ [n]) =
      if d' ++ [n] = d ++ [name'] then t.find? (d ++ [name])
      else if d ++ [name] <+: d' ++ [n] then none else t.find? (d' ++ [n]) :=
    find?_move ha hbare
  by_cases hl : d' ++ [n] = d ++ [name']
  · rw [if_pos hl] at hfind
    obtain ⟨rfl, -⟩ := List.append_inj' hl rfl
    by_cases hlink : ∃ link, t.find? (d' ++ [name]) = some (.link link)
    · obtain ⟨link, hlink⟩ := hlink
      have hleads := hharmless.link link hlink
      rw [List.dropLast_concat] at hleads
      exact .inr (.inr ⟨link, hfind.trans hlink, hleads⟩)
    · refine .inr (.inl ⟨hl ▸ htarget, ?_⟩)
      rw [IsDeadEnd, hfind]
      exact ⟨hharmless.noDirectory, not_exists.1 hlink⟩
  · rw [if_neg hl] at hfind
    by_cases hs : d ++ [name] <+: d' ++ [n]
    · rw [if_pos hs] at hfind
      exact .inr (.inl ⟨hsource _ hs, isDeadEnd_of_none hfind⟩)
    · rw [if_neg hs] at hfind
      exact .inl hfind

/-! ## Trees that stay rooted -/

namespace IsRooted

variable (ht : t.IsRooted)
include ht

theorem put {node : Node} (hne : p ≠ []) (hparent : t.find? p.dropLast = some .directory)
    (hp : t.find? p ≠ some .directory) : (t.apply (.put p node)).IsRooted := by
  intro l name hentry
  rw [find?_put hne] at hentry ⊢
  have hdir : t.find? l = some .directory := by
    by_cases hl : l ++ [name] = p
    · rw [← hl, List.dropLast_concat] at hparent
      exact hparent
    · rw [if_neg hl] at hentry
      exact ht l name hentry
  have hlp : l ≠ p := by
    rintro rfl
    exact hp hdir
  rw [if_neg hlp, hdir]

theorem extend : (t.apply (.extend p bytes)).IsRooted := by
  have hnone (l : Location) :
      (t.apply (.extend p bytes)).find? l ≠ none → t.find? l ≠ none := by
    rcases find?_extend_cases t p bytes l with he | ⟨-, content, hfile, -⟩
    · rw [he]
      exact id
    · simp [hfile]
  intro l name hentry
  have hdir := ht l name (hnone _ hentry)
  rcases find?_extend_cases t p bytes l with he | ⟨-, content, hfile, -⟩
  · rw [he, hdir]
  · rw [hfile] at hdir
    cases hdir

theorem without (hw : t.Without l t') : t'.IsRooted := by
  have hgone (l' : Location) (hl' : l <+: l') : t'.find? l' = none := by
    by_cases hdir : t.find? l = some .directory
    · exact hw.below hdir l' hl'
    · obtain ⟨r, rfl⟩ := hl'
      by_cases hr : r = []
      · rw [hr, List.append_nil, hw.gone]
      · rw [hw.alone hdir _ (by simp [hr]), ht.isBare hdir r hr]
  intro d name hentry
  have hother : ¬ l <+: d ++ [name] := fun hl => hentry (hgone _ hl)
  have hdir : t.find? d = some .directory := ht d name (by rwa [← hw.kept _ hother])
  rw [hw.kept d fun hl => hother (hl.trans (List.prefix_append d [name])), hdir]

theorem remove (hne : l ≠ []) (hbare : t.IsBare l) : (t.apply (.remove l)).IsRooted :=
  ht.without (without_remove hne fun _ => hbare)

theorem move (ha : Apart source target) (hbare : t.IsBare source)
    (hparent : t.find? target.dropLast = some .directory)
    (htarget : t.find? target ≠ some .directory) : (t.apply (.move source target)).IsRooted := by
  intro l name hentry
  rw [find?_move ha hbare] at hentry
  have hdir : t.find? l = some .directory ∧ ¬ source <+: l := by
    by_cases hl : l ++ [name] = target
    · refine ⟨?_, fun hs => ha.1 (hl ▸ hs.trans (List.prefix_append l [name]))⟩
      rw [← hl, List.dropLast_concat] at hparent
      exact hparent
    · rw [if_neg hl] at hentry
      by_cases hs : source <+: l ++ [name]
      · rw [if_pos hs] at hentry
        exact absurd rfl hentry
      · rw [if_neg hs] at hentry
        exact ⟨ht l name hentry, fun h => hs (h.trans (List.prefix_append l [name]))⟩
  have hlt : l ≠ target := by
    rintro rfl
    exact htarget hdir.1
  rw [find?_move ha hbare, if_neg hlt, if_neg hdir.2, hdir.1]

end IsRooted

end FileListCache.Tree
