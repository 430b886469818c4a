/-
  FileListCache.Proofs.Names

  The files that a run makes in the cache: three for each repository, side by side in one
  directory. No two of them have the same name, whatever the repositories are called, as long as
  no two are called the same.
-/

import FileListCache.Download
import FileListCache.Transcode
import FileListCache.Proofs.Paths

namespace FileListCache

theorem Utf8.size_append (s s' : String) : Utf8.size (s ++ s') = Utf8.size s + Utf8.size s' :=
  String.utf8ByteSize_append

/-! ## Paths in a directory -/

namespace Path

variable {base name : String}

theorem pieces_append_slash (p q : String) : pieces (p ++ "/" ++ q) = pieces p ++ pieces q := by
  have hslash : (p ++ "/" ++ q).toList = p.toList ++ '/' :: q.toList := by simp
  rw [pieces, hslash, List.splitOn_append_cons_self, List.map_append]
  rfl

/-- The names that lead to a directory that a path is put into. -/
def directoryPieces (base : String) : List String :=
  if endsInSlash base then (pieces base).dropLast else pieces base

theorem join_of_relative (hbase : base ≠ "") (hname : '/' ∉ name.toList) :
    join base name = if endsInSlash base then base ++ name else base ++ "/" ++ name := by
  have habs : isAbsolute name = false := by
    rw [isAbsolute, decide_eq_false_iff_not]
    intro hhead
    exact hname (List.mem_of_mem_head? (by simp [hhead]))
  have hempty : base.toList.isEmpty = false := by
    rw [List.isEmpty_eq_false_iff]
    intro hnil
    exact hbase (String.toList_eq_nil_iff.1 hnil)
  simp [join, habs, hempty, endsInSlash]

/-- A directory's path that ends in a slash is that of the directory and the empty name. -/
theorem exists_eq_append_slash (hslash : endsInSlash base = true) :
    ∃ p, base = p ++ "/" ∧ pieces base = pieces p ++ [""] := by
  have hlast : base.toList.getLast? = some '/' := by simpa [endsInSlash] using hslash
  obtain ⟨cs, hcs⟩ := List.getLast?_eq_some_iff.1 hlast
  have hbase : base = String.ofList cs ++ "/" := by
    apply String.toList_injective
    simp [hcs]
  refine ⟨String.ofList cs, hbase, ?_⟩
  have hpieces := pieces_append_slash (String.ofList cs) ""
  rw [String.append_empty, ← hbase] at hpieces
  exact hpieces

theorem pieces_join (hbase : base ≠ "") (hname : '/' ∉ name.toList) :
    pieces (join base name) = directoryPieces base ++ [name] := by
  have hone : pieces name = [name] := by
    rw [pieces, List.splitOn_eq_singleton hname]
    simp
  rw [join_of_relative hbase hname, directoryPieces]
  by_cases hslash : endsInSlash base = true
  · obtain ⟨p, hp, hpieces⟩ := exists_eq_append_slash hslash
    rw [if_pos hslash, if_pos hslash, hpieces, List.dropLast_concat, hp, pieces_append_slash, hone]
  · rw [if_neg hslash, if_neg hslash, pieces_append_slash, hone]

/-- A longer name in the same directory. -/
theorem join_append (hname : name ≠ "") (s : String) :
    join base name ++ s = join base (name ++ s) := by
  have habs : isAbsolute (name ++ s) = isAbsolute name := by
    have hnil : name.toList ≠ [] := fun hnil => hname (String.toList_eq_nil_iff.1 hnil)
    simp [isAbsolute, List.head?_append_of_ne_nil _ hnil]
  unfold join
  rw [habs]
  by_cases h1 : (isAbsolute name || base.toList.isEmpty) = true
  · rw [if_pos h1, if_pos h1]
  · rw [if_neg h1, if_neg h1]
    by_cases h2 : base.toList.getLast? = some '/'
    · rw [if_pos h2, if_pos h2, String.append_assoc]
    · rw [if_neg h2, if_neg h2, String.append_assoc]

end Path

namespace Disk

variable {h : Host} {t : Tree} {cache name : String} {c : Location}

/-- A name in a directory is looked for in that directory. -/
theorem looksIn_join (hc : locate h t true cache = .ok c) (hdir : t.find? c = some .directory)
    (hname : '/' ∉ name.toList) :
    LooksIn h t (Path.join cache name) (Path.directoryPieces cache) c := by
  obtain ⟨-, hne, -, hw⟩ := locate_eq_ok.1 hc
  have hstart : start h (Path.join cache name) = start h cache := by
    have hnil : cache.toList ≠ [] := fun hnil => hne (String.toList_eq_nil_iff.1 hnil)
    rw [Path.join_of_relative hne hname]
    split <;> simp [start, Path.isAbsolute, List.head?_append_of_ne_nil _ hnil]
  refine ⟨?_, hdir⟩
  rw [hstart, Path.directoryPieces]
  by_cases hslash : Path.endsInSlash cache = true
  · obtain ⟨p, -, hpieces⟩ := Path.exists_eq_append_slash hslash
    rw [if_pos hslash, hpieces, List.dropLast_concat]
    rw [hpieces] at hw
    obtain ⟨left, hwalk⟩ := Tree.walk_concat_eq_ok t true Tree.mostLinks (start h cache)
      (Path.pieces p) ""
    -- The empty name stays where the names before it lead.
    obtain ⟨d, hd, hw⟩ := (hwalk c).1 hw
    rw [Tree.walk_stay (Tree.directory_of_walk_cons hw) (.inl rfl), Tree.walk_nil] at hw
    rw [hd, hw]
  · rw [if_neg hslash]
    exact hw

theorem cache_ne_empty (hc : locate h t true cache = .ok c) : cache ≠ "" :=
  (locate_eq_ok.1 hc).2.1

/-- The path of a name in a directory aims at its place there. -/
theorem aims_join (hc : locate h t true cache = .ok c) (hdir : t.find? c = some .directory)
    (hname : Path.IsName name) (hslash : '/' ∉ name.toList) :
    Aims h t (Path.join cache name) (c ++ [name]) :=
  aims_of_looksIn ⟨Path.pieces_join (cache_ne_empty hc) hslash, hname⟩ fun _ hd =>
    (looksIn_join hc hdir hslash).unique hd

end Disk

/-! ## Files of a repository -/

/-- What a file in the cache is for: the list, what has arrived of it, or its rewriting. -/
inductive Role
  | list
  | part
  | copy
  deriving DecidableEq, Repr

namespace Role

variable {a b : Role} {name name' : String} {c : Location}

/-- What follows the name of the repository. -/
def suffix : Role → String
  | list => ".files"
  | part => ".files.part"
  | copy => ".files~"

/-- The place of a repository's file in the cache directory. -/
def place (c : Location) (name : String) (a : Role) : Location := c ++ [name ++ a.suffix]

/-- The path of a repository's file. -/
def path (cache name : String) (a : Role) : String := Path.join cache (name ++ a.suffix)

/-- The last character of a name tells what the file is for. -/
theorem append_inj (h : name ++ a.suffix = name' ++ b.suffix) : name = name' ∧ a = b := by
  have hlists : name.toList ++ a.suffix.toList = name'.toList ++ b.suffix.toList := by
    simpa using congrArg String.toList h
  -- The three suffixes end in different characters.
  have hrole : a = b := by
    have hlast := congrArg List.getLast? hlists
    cases a <;> cases b <;> first | rfl | simp [suffix] at hlast
  subst hrole
  exact ⟨String.toList_injective (List.append_cancel_right hlists), rfl⟩

theorem isName (name : String) (a : Role) : Path.IsName (name ++ a.suffix) := by
  cases a
  · exact Path.isName_of_getLast? (c := 's') (by simp [suffix]) (by decide)
  · exact Path.isName_of_getLast? (c := 't') (by simp [suffix]) (by decide)
  · exact Path.isName_of_getLast? (c := '~') (by simp [suffix]) (by decide)

theorem slash_notMem (hname : '/' ∉ name.toList) (a : Role) :
    '/' ∉ (name ++ a.suffix).toList := by
  cases a <;> simp [suffix, hname]

/-- Files of different repositories and different files of one do not meet. -/
theorem apart (h : name ≠ name' ∨ a ≠ b) :
    Tree.Apart (a.place c name) (b.place c name') := by
  apply Tree.apart_concat
  intro he
  obtain ⟨hname, hrole⟩ := append_inj he
  exact h.elim (fun hn => hn hname) fun hr => hr hrole

theorem endsIn {cache : String} (hcache : cache ≠ "") (hname : '/' ∉ name.toList) (a : Role) :
    Path.EndsIn (a.path cache name) (Path.directoryPieces cache) (name ++ a.suffix) :=
  ⟨Path.pieces_join hcache (slash_notMem hname a), isName name a⟩

variable {h : Host} {t : Tree} {cache : String}

/-- The path of a repository's file aims at its place. -/
theorem aims (hc : Disk.locate h t true cache = .ok c) (hdir : t.find? c = some .directory)
    (hname : '/' ∉ name.toList) (a : Role) :
    Disk.Aims h t (a.path cache name) (a.place c name) :=
  Disk.aims_join hc hdir (isName name a) (slash_notMem hname a)

/-! ## The paths of the program -/

theorem path_output (f : Fetcher) (repo : Repository) :
    f.outputPath repo.fileName = list.path f.cache repo.name := rfl

theorem path_part (f : Fetcher) (repo : Repository) :
    f.partPath repo.fileName = part.path f.cache repo.name := by
  rw [Fetcher.partPath, path, Repository.fileName, String.append_assoc]
  rfl

theorem path_copy (g : Download.Goal) (repo : Repository) :
    Transcode.copyPath (g.path repo) = copy.path g.cache repo.name := by
  have hne : repo.fileName ≠ "" := (isName repo.name list).1
  rw [Transcode.copyPath, Download.Goal.path, Path.join_append hne, path, Repository.fileName,
    String.append_assoc]
  rfl

end Role

end FileListCache
