/-
  FileListCache.Proofs.Paths

  Where paths lead. The last name of a path is looked for in one directory, which the names before
  it lead to; in a tree that has faded the names before it lead to the same directory or to none.
  So a path aims at one place for good: `Disk.Aims h t p l` says that in every tree that `t` fades
  to the path `p` leads to `l` or nowhere, and that it goes on leading to `l` as long as nothing
  changes that paths lead through.
-/

import FileListCache.Disk
import FileListCache.Proofs.Places

namespace FileListCache

/-! ## Pieces of paths -/

/-- Elements without a separator, added to a list, lengthen its last piece. -/
theorem exists_splitOn_append {α : Type} [BEq α] [LawfulBEq α] (a : α) (xs : List α) :
    ∃ ps q, xs.splitOn a = ps ++ [q] ∧
      ∀ ys, a ∉ ys → (xs ++ ys).splitOn a = ps ++ [q ++ ys] := by
  induction xs with
  | nil => exact ⟨[], [], rfl, fun ys hys => List.splitOn_eq_singleton hys⟩
  | cons x xs ih =>
    obtain ⟨ps, q, hxs, happ⟩ := ih
    -- A separator in front opens one more piece; anything else lengthens the first.
    by_cases hx : x == a
    · refine ⟨[] :: ps, q, ?_, fun ys hys => ?_⟩
      · rw [List.splitOn_cons_eq_if_modifyHead, if_pos hx, hxs, List.cons_append]
      · rw [List.cons_append, List.splitOn_cons_eq_if_modifyHead, if_pos hx, happ ys hys,
          List.cons_append]
    · cases ps with
      | nil =>
        refine ⟨[], x :: q, ?_, fun ys hys => ?_⟩
        · rw [List.splitOn_cons_eq_if_modifyHead, if_neg hx, hxs]
          rfl
        · rw [List.cons_append, List.splitOn_cons_eq_if_modifyHead, if_neg hx, happ ys hys]
          rfl
      | cons p ps =>
        refine ⟨(x :: p) :: ps, q, ?_, fun ys hys => ?_⟩
        · rw [List.splitOn_cons_eq_if_modifyHead, if_neg hx, hxs]
          rfl
        · rw [List.cons_append, List.splitOn_cons_eq_if_modifyHead, if_neg hx, happ ys hys]
          rfl

namespace Path

/-- A name as entries have it: not empty and neither of the two names of directories. -/
def IsName (name : String) : Prop := name ≠ "" ∧ name ≠ "." ∧ name ≠ ".."

instance (name : String) : Decidable (IsName name) := inferInstanceAs (Decidable (_ ∧ _))

/-- What ends in another character than a dot is a name. -/
theorem isName_of_getLast? {name : String} {c : Char} (hlast : name.toList.getLast? = some c)
    (hc : c ≠ '.') : IsName name := by
  refine ⟨?_, ?_, ?_⟩ <;> rintro rfl
  · cases hlast
  · exact hc (Option.some.inj hlast).symm
  · exact hc (Option.some.inj hlast).symm

/-- The path looks for an entry with the given name, at the end of the names `ns`. -/
def EndsIn (p : String) (ns : List String) (name : String) : Prop :=
  pieces p = ns ++ [name] ∧ IsName name

instance (p : String) (ns : List String) (name : String) : Decidable (EndsIn p ns name) :=
  inferInstanceAs (Decidable (_ ∧ _))

/-- Text without a slash lengthens the last piece of a path. -/
theorem exists_pieces_append (p : String) :
    ∃ ns name, pieces p = ns ++ [name] ∧
      ∀ s : String, '/' ∉ s.toList → pieces (p ++ s) = ns ++ [name ++ s] := by
  obtain ⟨ps, q, hp, happ⟩ := exists_splitOn_append '/' p.toList
  refine ⟨ps.map String.ofList, String.ofList q, by simp [pieces, hp], fun s hs => ?_⟩
  simp [pieces, happ s.toList hs]

theorem EndsIn.ne_empty {p name : String} {ns : List String} (h : EndsIn p ns name) : p ≠ "" := by
  rintro rfl
  have h1 : [""] = ns ++ [name] := h.1
  cases ns with
  | nil => exact h.2.1 (by simpa using h1.symm)
  | cons n ns => simp at h1

/-- A path that ends in a name does not end in a slash. -/
theorem EndsIn.endsInSlash {p name : String} {ns : List String} (h : EndsIn p ns name) :
    endsInSlash p = false := by
  by_contra hs
  have hs : p.toList.getLast? = some '/' := by simpa [Path.endsInSlash] using hs
  obtain ⟨cs, hcs⟩ := List.getLast?_eq_some_iff.1 hs
  have hp := h.1
  rw [pieces, hcs, List.splitOn_append_cons_self] at hp
  have := congrArg List.getLast? hp
  simp only [List.splitOn_nil, List.map_append, List.map_cons, List.map_nil,
    List.getLast?_concat, Option.some_inj] at this
  exact h.2.1 this.symm

/-- A sibling: the path with text added that makes another name. -/
theorem EndsIn.append {p name s : String} {ns : List String} (h : EndsIn p ns name)
    (hs : '/' ∉ s.toList) (hn : IsName (name ++ s)) : EndsIn (p ++ s) ns (name ++ s) := by
  obtain ⟨ns', name', hp, happ⟩ := exists_pieces_append p
  obtain ⟨rfl, he⟩ := List.append_inj' (h.1.symm.trans hp) rfl
  obtain rfl : name = name' := by simpa using he
  exact ⟨happ s hs, hn⟩

end Path

/-! ## Walking -/

namespace Tree

variable {t t' : Tree} {follow : Bool} {links : Nat} {here d l : Location} {name : String}
  {names rest : List String}

@[simp] theorem walk_nil : t.walk follow links here [] = .ok here := by
  rw [walk]

/-- The names that stand for the directory itself. -/
theorem walk_stay (hdir : t.find? here = some .directory) (hname : name = "" ∨ name = ".") :
    t.walk follow links here (name :: rest) = t.walk follow links here rest := by
  rw [walk, hdir]
  simp [hname]

theorem walk_up (hdir : t.find? here = some .directory) :
    t.walk follow links here (".." :: rest) = t.walk follow links here.dropLast rest := by
  rw [walk, hdir]
  simp

theorem walk_long (hdir : t.find? here = some .directory) (hname : Path.IsName name)
    (hlen : longestName < Utf8.size name) :
    t.walk follow links here (name :: rest) = .error .nameTooLong := by
  obtain ⟨h1, h2, h3⟩ := hname
  rw [walk, hdir]
  simp [h1, h2, h3, hlen]

/-- A name leads on to its entry unless that is a link. -/
theorem walk_on (hdir : t.find? here = some .directory) (hname : Path.IsName name)
    (hlen : Utf8.size name ≤ longestName)
    (hlink : ∀ target, t.find? (here ++ [name]) ≠ some (.link target)) :
    t.walk follow links here (name :: rest) = t.walk follow links (here ++ [name]) rest := by
  obtain ⟨h1, h2, h3⟩ := hname
  rw [walk, hdir]
  simp only [h1, h2, h3, or_self, if_false, Nat.not_lt.2 hlen]

/-- Where names go through directories and no link is in the way, they lead straight down. -/
theorem walk_names (names : List String)
    (hnames : ∀ name ∈ names, Path.IsName name ∧ Utf8.size name ≤ longestName)
    (hdirs : ∀ k < names.length, t.find? (here ++ names.take k) = some .directory)
    (hlast : ∀ target, t.find? (here ++ names) ≠ some (.link target)) :
    t.walk follow links here names = .ok (here ++ names) := by
  induction names generalizing here with
  | nil => rw [walk_nil, List.append_nil]
  | cons name names ih =>
    have hdir : t.find? here = some .directory := by
      simpa using hdirs 0 (Nat.succ_pos _)
    have hlink (target : String) : t.find? (here ++ [name]) ≠ some (.link target) := by
      cases names with
      | nil => exact hlast target
      | cons next names =>
        have hnext : t.find? (here ++ [name]) = some .directory := by
          simpa using hdirs 1 (by simp)
        rw [hnext]
        rintro ⟨⟩
    obtain ⟨hname, hlen⟩ := hnames name List.mem_cons_self
    rw [walk_on hdir hname hlen hlink, ih (fun _ h => hnames _ (List.mem_cons_of_mem _ h)) ?_ ?_,
      List.append_assoc, List.singleton_append]
    · intro k hk
      simpa using hdirs (k + 1) (Nat.succ_lt_succ hk)
    · simpa using hlast

/-- A link stands for the names of its target, as often as links are followed. -/
theorem walk_link {target : String} (hdir : t.find? here = some .directory)
    (hname : Path.IsName name) (hlen : Utf8.size name ≤ longestName)
    (hlink : t.find? (here ++ [name]) = some (.link target)) :
    t.walk follow links here (name :: rest) =
      if rest.isEmpty && !follow then .ok (here ++ [name])
      else
        match links with
        | 0 => .error .tooManyLinks
        | links + 1 =>
          t.walk follow links (if Path.isAbsolute target then [] else here)
            (Path.pieces target ++ rest) := by
  obtain ⟨h1, h2, h3⟩ := hname
  rw [walk.eq_def, hdir]
  cases links <;> simp only [h1, h2, h3, or_self, if_false, Nat.not_lt.2 hlen, hlink]

/-- A path that comes to a dead end ends there. -/
theorem IsDeadEnd.eq_of_walk (h : t.IsDeadEnd here) (hw : t.walk follow links here names = .ok d) :
    d = here := by
  cases names with
  | nil =>
    rw [walk_nil] at hw
    cases hw
    rfl
  | cons name rest =>
    rw [walk] at hw
    split at hw
    · cases hw
    · exact absurd ‹_› h.1
    · cases hw

/-- A directory that a path leads to in a faded tree is where it led before. -/
theorem Fades.walk_eq (hf : t.Fades t') (hw : t'.walk true links here names = .ok d)
    (hd : t'.find? d = some .directory) : t.walk true links here names = .ok d := by
  -- Step by step: each name is looked for in a directory, which was one before the tree faded.
  fun_induction t'.walk true links here names with
  | case1 => rwa [walk_nil]
  | case2 => cases hw
  | case3 links here name rest hdir hname ih =>
    rw [walk_stay (hf.find?_directory hdir) hname]
    exact ih hw
  | case4 links here rest hdir hname ih =>
    rw [walk_up (hf.find?_directory hdir)]
    exact ih hw
  | case5 => cases hw
  | case6 _ _ _ _ _ _ _ _ _ _ _ h => simp at h
  | case7 => cases hw
  | case8 here name rest hdir hstay hup hlen place target hlink _ links ih =>
    obtain ⟨h1, h2⟩ := not_or.1 hstay
    rw [walk_link (hf.find?_directory hdir) ⟨h1, h2, hup⟩ (Nat.not_lt.1 hlen)
      (hf.find?_link hlink)]
    simpa using ih hw
  | case9 links here name rest hdir hstay hup hlen place hlink ih =>
    obtain ⟨h1, h2⟩ := not_or.1 hstay
    rcases hf place with he | hdead
    · rw [walk_on (hf.find?_directory hdir) ⟨h1, h2, hup⟩ (Nat.not_lt.1 hlen)
        fun target h => hlink target (he.trans h)]
      exact ih hw
    · -- A path that came to a dead end here would not have led to a directory.
      exact absurd hd (hdead.eq_of_walk hw ▸ hdead.1)
  | case10 => cases hw

/-- While nothing changes that paths lead through, they lead where they led. -/
theorem Alike.walk_eq (ha : t.Alike t') (hw : t'.walk follow links here names = .ok l) :
    t.walk follow links here names = .ok l := by
  fun_induction t'.walk follow links here names with
  | case1 => rwa [walk_nil]
  | case2 => cases hw
  | case3 links here name rest hdir hname ih =>
    rw [walk_stay (ha.1.find?_directory hdir) hname]
    exact ih hw
  | case4 links here rest hdir hname ih =>
    rw [walk_up (ha.1.find?_directory hdir)]
    exact ih hw
  | case5 => cases hw
  | case6 links here name rest hdir hstay hup hlen place target hlink hend =>
    obtain ⟨h1, h2⟩ := not_or.1 hstay
    rw [walk_link (ha.1.find?_directory hdir) ⟨h1, h2, hup⟩ (Nat.not_lt.1 hlen)
      (ha.1.find?_link hlink), if_pos hend]
    exact hw
  | case7 => cases hw
  | case8 here name rest hdir hstay hup hlen place target hlink hend links ih =>
    obtain ⟨h1, h2⟩ := not_or.1 hstay
    rw [walk_link (ha.1.find?_directory hdir) ⟨h1, h2, hup⟩ (Nat.not_lt.1 hlen)
      (ha.1.find?_link hlink), if_neg hend]
    exact ih hw
  | case9 links here name rest hdir hstay hup hlen place hlink ih =>
    obtain ⟨h1, h2⟩ := not_or.1 hstay
    rw [walk_on (ha.1.find?_directory hdir) ⟨h1, h2, hup⟩ (Nat.not_lt.1 hlen)
      fun target h => hlink target (ha.2.find?_link h)]
    exact ih hw
  | case10 => cases hw

/-- Names in front are walked first, whatever links they take. -/
theorem walk_append (hrest : rest ≠ []) :
    ∃ left, t.walk follow links here (names ++ rest) =
      (t.walk true links here names).bind fun d => t.walk follow left d rest := by
  -- How many links are left for the rest is known only when the names in front are walked.
  fun_induction t.walk true links here names with
  | case1 links here => exact ⟨links, rfl⟩
  | case2 links here n ns hnone =>
    refine ⟨links, ?_⟩
    rw [List.cons_append, walk, hnone]
    rfl
  | case3 links here n ns hdir hn ih =>
    rw [List.cons_append, walk_stay hdir hn]
    exact ih
  | case4 links here ns hdir hn ih =>
    rw [List.cons_append, walk_up hdir]
    exact ih
  | case5 links here n ns hdir hstay hup hlen =>
    obtain ⟨h1, h2⟩ := not_or.1 hstay
    rw [List.cons_append, walk_long hdir ⟨h1, h2, hup⟩ hlen]
    exact ⟨links, rfl⟩
  | case6 _ _ _ _ _ _ _ _ _ _ _ h => simp at h
  | case7 here n ns hdir hstay hup hlen place target hlink =>
    obtain ⟨h1, h2⟩ := not_or.1 hstay
    rw [List.cons_append, walk_link hdir ⟨h1, h2, hup⟩ (Nat.not_lt.1 hlen) hlink]
    exact ⟨0, by simp [hrest, Except.bind]⟩
  | case8 here n ns hdir hstay hup hlen place target hlink _ links ih =>
    obtain ⟨h1, h2⟩ := not_or.1 hstay
    obtain ⟨left, ih⟩ := ih
    refine ⟨left, ?_⟩
    rw [List.cons_append, walk_link hdir ⟨h1, h2, hup⟩ (Nat.not_lt.1 hlen) hlink]
    simpa [hrest] using ih
  | case9 links here n ns hdir hstay hup hlen place hlink ih =>
    obtain ⟨h1, h2⟩ := not_or.1 hstay
    rw [List.cons_append, walk_on hdir ⟨h1, h2, hup⟩ (Nat.not_lt.1 hlen) hlink]
    exact ih
  | case10 links here n ns node hne hnode =>
    refine ⟨links, ?_⟩
    rw [List.cons_append, walk, hnode]
    cases node <;> first | rfl | exact (hne rfl).elim

/-- The last name is looked for where the names before it lead. -/
theorem walk_concat_eq_ok (t : Tree) (follow : Bool) (links : Nat) (here : Location)
    (names : List String) (name : String) :
    ∃ left, ∀ l, t.walk follow links here (names ++ [name]) = .ok l ↔
      ∃ d, t.walk true links here names = .ok d ∧ t.walk follow left d [name] = .ok l := by
  have happ : ∃ left, t.walk follow links here (names ++ [name]) =
      (t.walk true links here names).bind fun d => t.walk follow left d [name] :=
    walk_append (List.cons_ne_nil name [])
  obtain ⟨left, happ⟩ := happ
  refine ⟨left, fun l => ?_⟩
  rw [happ]
  cases t.walk true links here names with
  | error e => simp [Except.bind]
  | ok d => simp [Except.bind]

/-- Every name is looked for in a directory. -/
theorem directory_of_walk_cons (hw : t.walk follow links here (name :: rest) = .ok l) :
    t.find? here = some .directory := by
  rw [walk] at hw
  split at hw
  · cases hw
  · assumption
  · cases hw

/-- A last name without following: its place in the directory, whatever stands there. -/
theorem walk_last (hname : Path.IsName name) :
    t.walk false links here [name] = .ok l ↔
      t.find? here = some .directory ∧ Utf8.size name ≤ longestName ∧ l = here ++ [name] := by
  constructor
  · intro hw
    have hdir := directory_of_walk_cons hw
    by_cases hlen : longestName < Utf8.size name
    · rw [walk_long hdir hname hlen] at hw
      cases hw
    refine ⟨hdir, Nat.not_lt.1 hlen, ?_⟩
    by_cases hlink : ∃ target, t.find? (here ++ [name]) = some (.link target)
    · obtain ⟨target, hlink⟩ := hlink
      rw [walk_link hdir hname (Nat.not_lt.1 hlen) hlink] at hw
      cases hw
      rfl
    · rw [walk_on hdir hname (Nat.not_lt.1 hlen) (not_exists.1 hlink), walk_nil] at hw
      cases hw
      rfl
  · intro hr
    obtain ⟨hdir, hlen, rfl⟩ := hr
    by_cases hlink : ∃ target, t.find? (here ++ [name]) = some (.link target)
    · obtain ⟨target, hlink⟩ := hlink
      rw [walk_link hdir hname hlen hlink]
      rfl
    · rw [walk_on hdir hname hlen (not_exists.1 hlink), walk_nil]

/-- Following a link at the end makes no difference where there is none. -/
theorem walk_true_of_walk_false (hw : t.walk false links here names = .ok l)
    (hlink : ∀ target, t.find? l ≠ some (.link target)) :
    t.walk true links here names = .ok l := by
  fun_induction t.walk false links here names with
  | case1 => rwa [walk_nil]
  | case2 => cases hw
  | case3 links here n rest hdir hn ih =>
    rw [walk_stay hdir hn]
    exact ih hw
  | case4 links here rest hdir hn ih =>
    rw [walk_up hdir]
    exact ih hw
  | case5 => cases hw
  | case6 links here n rest _ _ _ _ place target hl =>
    -- Only here would following make a difference.
    have hp : place = l := Except.ok.inj hw
    exact absurd (hp ▸ hl) (hlink target)
  | case7 => cases hw
  | case8 here n rest hdir hstay hup hlen place target hl hend links ih =>
    obtain ⟨h1, h2⟩ := not_or.1 hstay
    rw [walk_link hdir ⟨h1, h2, hup⟩ (Nat.not_lt.1 hlen) hl]
    simpa using ih hw
  | case9 links here n rest hdir hstay hup hlen place hl ih =>
    obtain ⟨h1, h2⟩ := not_or.1 hstay
    rw [walk_on hdir ⟨h1, h2, hup⟩ (Nat.not_lt.1 hlen) hl]
    exact ih hw
  | case10 => cases hw

/-- What is found with links followed is found without, but for a link at the end. -/
theorem walk_false_of_walk_true (hw : t.walk true links here names = .ok l) :
    ∃ l', t.walk false links here names = .ok l' ∧
      (l' = l ∨ ∃ target, t.find? l' = some (.link target)) := by
  fun_induction t.walk true links here names with
  | case1 =>
    cases hw
    exact ⟨l, walk_nil, .inl rfl⟩
  | case2 => cases hw
  | case3 links here n rest hdir hn ih =>
    rw [walk_stay hdir hn]
    exact ih hw
  | case4 links here rest hdir hn ih =>
    rw [walk_up hdir]
    exact ih hw
  | case5 => cases hw
  | case6 _ _ _ _ _ _ _ _ _ _ _ h => simp at h
  | case7 => cases hw
  | case8 here n rest hdir hstay hup hlen place target hl _ links ih =>
    obtain ⟨h1, h2⟩ := not_or.1 hstay
    rw [walk_link hdir ⟨h1, h2, hup⟩ (Nat.not_lt.1 hlen) hl]
    -- The link is followed in both walks unless it is at the end.
    cases rest with
    | nil => exact ⟨place, rfl, .inr ⟨target, hl⟩⟩
    | cons n' rest => simpa using ih hw
  | case9 links here n rest hdir hstay hup hlen place hl ih =>
    obtain ⟨h1, h2⟩ := not_or.1 hstay
    rw [walk_on hdir ⟨h1, h2, hup⟩ (Nat.not_lt.1 hlen) hl]
    exact ih hw
  | case10 => cases hw

end Tree

/-! ## Aims -/

namespace Disk

variable {h : Host} {t t' : Tree} {p name : String} {ns : List String} {d l l' : Location}

/-- Where paths start from. -/
def start (h : Host) (p : String) : Location := if Path.isAbsolute p then [] else h.place

theorem start_append (hp : p ≠ "") (s : String) : start h (p ++ s) = start h p := by
  have hp : p.toList ≠ [] := fun hnil => hp (String.toList_eq_nil_iff.1 hnil)
  simp [start, Path.isAbsolute, List.head?_append_of_ne_nil _ hp]

theorem locate_eq_ok {follow : Bool} :
    locate h t follow p = .ok l ↔
      p.toList.contains (Char.ofNat 0) = false ∧ p ≠ "" ∧ Utf8.size p ≤ Tree.longestPath ∧
        t.walk follow Tree.mostLinks (start h p) (Path.pieces p) = .ok l := by
  unfold locate checkName Tree.locate start
  -- The checks are made in this order, and the first that fails decides.
  by_cases h0 : p.toList.contains (Char.ofNat 0) = true
  · simp only [h0, if_true]
    constructor
    · rintro h
      cases h
    · intro hr
      obtain ⟨h, -⟩ := hr
      cases h
  simp only [h0, Bool.false_eq_true, if_false]
  by_cases h1 : p = ""
  · simp only [h1, if_true]
    constructor
    · rintro h
      cases h
    · intro hr
      obtain ⟨-, h, -⟩ := hr
      exact absurd rfl h
  by_cases h2 : Tree.longestPath < Utf8.size p
  · simp only [h1, h2, if_true, if_false]
    constructor
    · rintro h
      cases h
    · intro hr
      obtain ⟨-, -, h, -⟩ := hr
      exact absurd h2 (Nat.not_lt.2 h)
  simp only [h1, h2, if_false, not_false_eq_true, Nat.not_lt.1 h2, true_and, ne_eq]
  generalize t.walk follow Tree.mostLinks _ (Path.pieces p) = r
  cases r with
  | error e => exact ⟨fun h => (nomatch h), fun h => (nomatch h)⟩
  | ok l' =>
    constructor
    · intro h
      cases h
      rfl
    · intro h
      cases h
      rfl

/-- A path from the root leads where its names lead from there. -/
theorem locate_of_walk {follow : Bool} (names : List String) (hnames : Path.pieces p = names)
    (hstart : Path.isAbsolute p = true)
    (hsay : p.toList.contains (Char.ofNat 0) = false ∧ Utf8.size p ≤ Tree.longestPath)
    (hwalk : t.walk follow Tree.mostLinks [] names = .ok l) : locate h t follow p = .ok l := by
  refine locate_eq_ok.2 ⟨hsay.1, ?_, hsay.2, ?_⟩
  · rintro rfl
    cases hstart
  · rw [start, if_pos hstart, hnames, hwalk]

theorem locate_root (h : Host) (t : Tree) (follow : Bool) : locate h t follow "/" = .ok [] := by
  have hroot := Tree.find?_nil t
  refine locate_of_walk ["", ""] (by decide) (by decide) (by decide) ?_
  rw [Tree.walk_stay hroot (.inl rfl), Tree.walk_stay hroot (.inl rfl), Tree.walk_nil]

theorem locate_of_names {follow : Bool} (hnames : Path.pieces p = "" :: l)
    (hstart : Path.isAbsolute p = true)
    (hsay : p.toList.contains (Char.ofNat 0) = false ∧ Utf8.size p ≤ Tree.longestPath)
    (hplain : ∀ name ∈ l, Path.IsName name ∧ Utf8.size name ≤ Tree.longestName)
    (hdirs : ∀ k < l.length, t.find? (l.take k) = some .directory)
    (hlast : ∀ target, t.find? l ≠ some (.link target)) : locate h t follow p = .ok l := by
  refine locate_of_walk _ hnames hstart hsay ?_
  rw [Tree.walk_stay (Tree.find?_nil t) (.inl rfl), Tree.walk_names l hplain hdirs hlast,
    List.nil_append]

/-- The names `ns` lead the path to a directory, in which it looks for what follows them. -/
def LooksIn (h : Host) (t : Tree) (p : String) (ns : List String) (d : Location) : Prop :=
  t.walk true Tree.mostLinks (start h p) ns = .ok d ∧ t.find? d = some .directory

theorem LooksIn.unique {d' : Location} (hd : LooksIn h t p ns d) (hd' : LooksIn h t p ns d') :
    d' = d := by
  have := hd'.1.symm.trans hd.1
  cases this
  rfl

theorem LooksIn.of_fades (hf : t.Fades t') (hd : LooksIn h t' p ns d) : LooksIn h t p ns d :=
  ⟨hf.walk_eq hd.1 hd.2, hf.find?_directory hd.2⟩

/-- A path and its last name that the system can be asked for. -/
def Sayable (p name : String) : Prop :=
  p.toList.contains (Char.ofNat 0) = false ∧ Utf8.size p ≤ Tree.longestPath ∧
    Utf8.size name ≤ Tree.longestName

instance (p name : String) : Decidable (Sayable p name) := inferInstanceAs (Decidable (_ ∧ _))

/-- A path that ends in a name leads to the place of that name in one directory. -/
theorem locate_endsIn (hn : Path.EndsIn p ns name) :
    locate h t false p = .ok l ↔ Sayable p name ∧ ∃ d, LooksIn h t p ns d ∧ l = d ++ [name] := by
  obtain ⟨left, hwalk⟩ := Tree.walk_concat_eq_ok t false Tree.mostLinks (start h p) ns name
  rw [locate_eq_ok, hn.1, hwalk]
  constructor
  · intro hr
    obtain ⟨h0, -, hlen, d, hns, hw⟩ := hr
    obtain ⟨hd, hname, rfl⟩ := (Tree.walk_last hn.2).1 hw
    exact ⟨⟨h0, hlen, hname⟩, d, ⟨hns, hd⟩, rfl⟩
  · intro hr
    obtain ⟨⟨h0, hlen, hname⟩, d, ⟨hns, hd⟩, rfl⟩ := hr
    exact ⟨h0, hn.ne_empty, hlen, d, hns, (Tree.walk_last hn.2).2 ⟨hd, hname, rfl⟩⟩

theorem locate_true_of_false (hl : locate h t false p = .ok l)
    (hlink : ∀ target, t.find? l ≠ some (.link target)) : locate h t true p = .ok l := by
  rw [locate_eq_ok] at hl ⊢
  obtain ⟨h0, h1, h2, hw⟩ := hl
  exact ⟨h0, h1, h2, Tree.walk_true_of_walk_false hw hlink⟩

theorem locate_false_of_true (hl : locate h t true p = .ok l) :
    ∃ l', locate h t false p = .ok l' ∧ (l' = l ∨ ∃ target, t.find? l' = some (.link target)) := by
  rw [locate_eq_ok] at hl
  obtain ⟨h0, h1, h2, hw⟩ := hl
  obtain ⟨l', hw', hl'⟩ := Tree.walk_false_of_walk_true hw
  exact ⟨l', locate_eq_ok.2 ⟨h0, h1, h2, hw'⟩, hl'⟩

/-- A path that leads to a directory goes on leading there. -/
theorem locate_directory (ht : t.Alike t') (hl : locate h t true p = .ok d)
    (hd : t.find? d = some .directory) :
    locate h t' true p = .ok d ∧ t'.find? d = some .directory := by
  obtain ⟨h0, h1, h2, hw⟩ := locate_eq_ok.1 hl
  exact ⟨locate_eq_ok.2 ⟨h0, h1, h2, ht.2.walk_eq hw hd⟩, ht.2.find?_directory hd⟩

theorem locate_alike {follow : Bool} (ht : t.Alike t') :
    locate h t' follow p = .ok l ↔ locate h t follow p = .ok l := by
  rw [locate_eq_ok, locate_eq_ok]
  constructor
  · intro hr
    obtain ⟨h0, h1, h2, hw⟩ := hr
    exact ⟨h0, h1, h2, ht.walk_eq hw⟩
  · intro hr
    obtain ⟨h0, h1, h2, hw⟩ := hr
    exact ⟨h0, h1, h2, ht.symm.walk_eq hw⟩

/-- In every tree that `t` fades to, the path leads to `l` or nowhere. -/
structure Aims (h : Host) (t : Tree) (p : String) (l : Location) : Prop where
  ends : ∃ ns name, Path.EndsIn p ns name
  leads : ∀ t', t.Fades t' → ∀ l', locate h t' false p = .ok l' → l' = l

namespace Aims

theorem fades (ha : Aims h t p l) (hf : t.Fades t') : Aims h t' p l :=
  ⟨ha.ends, fun t'' hf' => ha.leads t'' (hf.trans hf')⟩

theorem endsInSlash (ha : Aims h t p l) : Path.endsInSlash p = false := by
  obtain ⟨ns, name, hn⟩ := ha.ends
  exact hn.endsInSlash

/-- Where the path leads it goes on leading while nothing changes that paths lead through. -/
theorem alike (ha : Aims h t p l) (ht : t.Alike t') (hl : locate h t false p = .ok l') :
    locate h t' false p = .ok l' := by
  obtain ⟨ns, name, hn⟩ := ha.ends
  obtain ⟨hs, d, hd, rfl⟩ := (locate_endsIn hn).1 hl
  exact (locate_endsIn hn).2 ⟨hs, d, hd.of_fades ht.2, rfl⟩

theorem eq_of_locate (ha : Aims h t p l) (hl : locate h t false p = .ok l') : l' = l :=
  ha.leads t (.refl t) l' hl

/-- The same with links followed, if the path does not lead to a link. -/
theorem locate_true (ha : Aims h t p l)
    (hlink : locate h t false p = .ok l → ∀ target, t.find? l ≠ some (.link target))
    (hl : locate h t true p = .ok l') : l' = l ∧ locate h t false p = .ok l := by
  obtain ⟨l'', hl'', he⟩ := locate_false_of_true hl
  obtain rfl := ha.eq_of_locate hl''
  rcases he with rfl | ⟨target, ht⟩
  · exact ⟨rfl, hl''⟩
  · exact absurd ht (hlink hl'' target)

end Aims

/-- In a rooted tree a path that leads to something other than a directory ends in its name. -/
theorem exists_endsIn (ht : t.IsRooted) (hl : locate h t false p = .ok l)
    (hdir : t.find? l ≠ some .directory) : ∃ ns name, Path.EndsIn p ns name := by
  obtain ⟨ns, name, hp, -⟩ := Path.exists_pieces_append p
  obtain ⟨-, -, -, hw⟩ := locate_eq_ok.1 hl
  rw [hp] at hw
  obtain ⟨left, hwalk⟩ := Tree.walk_concat_eq_ok t false Tree.mostLinks (start h p) ns name
  obtain ⟨d, -, hw⟩ := (hwalk l).1 hw
  have hdd := Tree.directory_of_walk_cons hw
  -- The names that are none lead to a directory again.
  by_cases hstay : name = "" ∨ name = "."
  · rw [Tree.walk_stay hdd hstay, Tree.walk_nil] at hw
    cases hw
    exact absurd hdd hdir
  by_cases hup : name = ".."
  · rw [hup, Tree.walk_up hdd, Tree.walk_nil] at hw
    cases hw
    rcases List.eq_nil_or_concat' d with rfl | ⟨d', n, rfl⟩
    · exact absurd hdd hdir
    · rw [List.dropLast_concat] at hdir
      exact absurd (ht d' n (by simp [hdd])) hdir
  exact ⟨ns, name, hp, not_or.1 hstay |>.1, not_or.1 hstay |>.2, hup⟩

/-- A path that looks for its last name in no directory but `d`. -/
theorem aims_of_looksIn (hn : Path.EndsIn p ns name) (hd : ∀ d', LooksIn h t p ns d' → d' = d) :
    Aims h t p (d ++ [name]) := by
  refine ⟨⟨ns, name, hn⟩, fun t' hf l' hl => ?_⟩
  obtain ⟨-, d', hd', rfl⟩ := (locate_endsIn hn).1 hl
  rw [hd d' (hd'.of_fades hf)]

/-- A path and its sibling with a longer name aim at different places in one directory. -/
theorem exists_siblings (hn : Path.EndsIn p ns name) {s : String} (hs : '/' ∉ s.toList)
    (hns : Path.IsName (name ++ s)) (hne : s ≠ "") (h : Host) (t : Tree) :
    ∃ l l', Tree.Apart l l' ∧ Aims h t p l ∧ Aims h t (p ++ s) l' := by
  have hstart : start h (p ++ s) = start h p := start_append hn.ne_empty s
  have hne' : name ≠ name ++ s := fun he =>
    hne (String.toList_eq_nil_iff.1 (by simpa using congrArg String.toList he))
  by_cases hd : ∃ d, LooksIn h t p ns d
  · obtain ⟨d, hd⟩ := hd
    refine ⟨d ++ [name], d ++ [name ++ s], Tree.apart_concat hne',
      aims_of_looksIn hn fun d' => hd.unique,
      aims_of_looksIn (hn.append hs hns) fun d' hd' => hd.unique ?_⟩
    rwa [LooksIn, hstart] at hd'
  · -- Where the names before the last lead to no directory, any two places will do.
    refine ⟨[] ++ [name], [] ++ [name ++ s], Tree.apart_concat hne',
      aims_of_looksIn hn fun d' hd' => ?_,
      aims_of_looksIn (hn.append hs hns) fun d' hd' => ?_⟩
    · exact absurd ⟨d', hd'⟩ hd
    · rw [LooksIn, hstart] at hd'
      exact absurd ⟨d', hd'⟩ hd

end Disk

end FileListCache
