/-
  FileListCache.Proofs.Templates

  What becomes of the placeholders in an address. They are replaced in two rounds, so text put in by
  the first could be taken for a placeholder, or for a part of one, by the second. It is not where
  the architecture holds no dollar sign and no `$arch` stands right behind the beginning of a
  `$repo`: then both placeholders are replaced as if at once (`UrlTemplate.expand_filled`).
-/

import FileListCache.Repository
import Mathlib.Data.List.Infix
import Mathlib.Tactic.Common

namespace FileListCache.UrlTemplate

variable {old new text more word rest : List Char} {c : Char}

/-! ## Replacing one placeholder -/

@[simp] theorem replace_nil : replace old new [] = [] := by
  rw [replace]

theorem replace_append (hold : old ≠ []) :
    replace old new (old ++ rest) = new ++ replace old new rest := by
  obtain ⟨c, tail, rfl⟩ := List.exists_cons_of_ne_nil hold
  rw [List.cons_append, replace, if_pos (by simp)]
  simp

theorem replace_cons (hold : ¬ old <+: c :: rest) :
    replace old new (c :: rest) = c :: replace old new rest := by
  rw [replace, if_neg (by simpa using hold)]

/-- Text without the character that a placeholder begins with is passed over. -/
theorem replace_append_of_notMem (hc : c ∉ more) :
    replace (c :: old) new (more ++ text) = more ++ replace (c :: old) new text := by
  induction more with
  | nil => rfl
  | cons b more ih =>
    obtain ⟨hb, hmore⟩ := not_or.1 (List.mem_cons.not.1 hc)
    have hstart : ¬ c :: old <+: b :: (more ++ text) := fun h => hb (List.cons_prefix_cons.1 h).1
    rw [List.cons_append, replace_cons hstart, ih hmore, List.cons_append]

/-- What a text begins with after a replacement it began with before, unless a placeholder stands
within that beginning. -/
theorem isPrefix_of_replace (hword : ∀ stub, stub <+: word → stub ≠ word → ¬ stub ++ old <+: rest)
    (h : word <+: replace old new rest) : word <+: rest := by
  induction word generalizing rest with
  | nil => exact List.nil_prefix
  | cons b word ih =>
    have hold : ¬ old <+: rest := hword [] List.nil_prefix (List.cons_ne_nil b word).symm
    cases rest with
    | nil => simp at h
    | cons c rest =>
      rw [replace_cons hold] at h
      obtain ⟨rfl, htail⟩ := List.cons_prefix_cons.1 h
      refine List.cons_prefix_cons.2 ⟨rfl, ih (fun stub hstub hne hp => ?_) htail⟩
      refine hword (b :: stub) (List.cons_prefix_cons.2 ⟨rfl, hstub⟩) (by simpa using hne) ?_
      exact List.cons_prefix_cons.2 ⟨rfl, hp⟩

/-! ## Replacing both at once -/

/-- The template with both placeholders replaced from the left; what was put in is not looked
at. -/
def filled (repository architecture : List Char) : List Char → List Char
  | [] => []
  | '$' :: 'a' :: 'r' :: 'c' :: 'h' :: rest =>
    architecture ++ filled repository architecture rest
  | '$' :: 'r' :: 'e' :: 'p' :: 'o' :: rest =>
    repository ++ filled repository architecture rest
  | c :: rest => c :: filled repository architecture rest

/-- No `$arch` stands right behind a text that begins a `$repo`. -/
def IsUnambiguous (template : List Char) : Prop :=
  ∀ stub ∈ ["$", "$r", "$re", "$rep"], ¬ (stub ++ "$arch").toList <:+: template

instance (template : List Char) : Decidable (IsUnambiguous template) :=
  inferInstanceAs (Decidable (∀ _ ∈ _, _))

/-- Every dollar sign begins a placeholder. -/
def IsCovered (template : List Char) : Prop :=
  ∀ tail ∈ template.tails, tail.head? = some '$' →
    "$arch".toList <+: tail ∨ "$repo".toList <+: tail

instance (template : List Char) : Decidable (IsCovered template) :=
  inferInstanceAs (Decidable (∀ _ ∈ _, _))

variable {repository architecture template : List Char}

theorem IsUnambiguous.of_suffix (h : IsUnambiguous template) (hrest : rest <:+ template) :
    IsUnambiguous rest := fun stub hstub hwithin => h stub hstub (hwithin.trans hrest.isInfix)

theorem IsCovered.of_suffix (h : IsCovered template) (hrest : rest <:+ template) :
    IsCovered rest := by
  intro tail htail
  exact h tail ((List.mem_tails _ _).2 (((List.mem_tails _ _).1 htail).trans hrest))

/-- The first round makes no `$repo` out of a dollar sign that did not begin one. -/
theorem isPrefix_repo_of_replace (h : IsUnambiguous ('$' :: rest))
    (hrepo : "repo".toList <+: replace "$arch".toList new rest) : "repo".toList <+: rest := by
  refine isPrefix_of_replace (fun stub hstub hne hp => ?_) hrepo
  have hcases : stub ∈ [[], ['r'], ['r', 'e'], ['r', 'e', 'p']] := by
    have hinits : stub ∈ "repo".toList.inits := (List.mem_inits _ _).2 hstub
    rw [show "repo".toList.inits =
      [[], ['r'], ['r', 'e'], ['r', 'e', 'p']] ++ ["repo".toList] by decide] at hinits
    exact (List.mem_append.1 hinits).resolve_right (by simpa using hne)
  have hwithin : ('$' :: stub) ++ "$arch".toList <:+: '$' :: rest :=
    (List.cons_prefix_cons.2 ⟨rfl, hp⟩).isInfix
  -- Each stub is one of the four beginnings behind which no `$arch` stands.
  simp only [List.mem_cons, List.not_mem_nil, or_false] at hcases
  rcases hcases with rfl | rfl | rfl | rfl
  · exact h "$" (by decide) hwithin
  · exact h "$r" (by decide) hwithin
  · exact h "$re" (by decide) hwithin
  · exact h "$rep" (by decide) hwithin

/-- Two rounds do what one does. -/
theorem replace_replace (h : IsUnambiguous template) (harch : '$' ∉ architecture) :
    replace "$repo".toList repository (replace "$arch".toList architecture template) =
      filled repository architecture template := by
  fun_induction filled repository architecture template with
  | case1 => simp
  | case2 rest ih =>
    have hrest : IsUnambiguous rest := h.of_suffix ⟨"$arch".toList, rfl⟩
    rw [show '$' :: 'a' :: 'r' :: 'c' :: 'h' :: rest = "$arch".toList ++ rest from rfl,
      replace_append (by decide), show "$repo".toList = '$' :: "repo".toList from rfl,
      replace_append_of_notMem harch]
    exact congrArg _ (ih hrest)
  | case3 rest ih =>
    have hrest : IsUnambiguous rest := h.of_suffix ⟨"$repo".toList, rfl⟩
    have hfirst : replace "$arch".toList architecture ("$repo".toList ++ rest) =
        "$repo".toList ++ replace "$arch".toList architecture rest := by
      have hpass : replace "$arch".toList architecture ("repo".toList ++ rest) =
          "repo".toList ++ replace "$arch".toList architecture rest :=
        replace_append_of_notMem (by decide)
      rw [show "$repo".toList = '$' :: "repo".toList from rfl, List.cons_append,
        replace_cons (by simp), hpass, List.cons_append]
    rw [show '$' :: 'r' :: 'e' :: 'p' :: 'o' :: rest = "$repo".toList ++ rest from rfl, hfirst,
      replace_append (by decide), ih hrest]
  | case4 c rest hnoArch hnoRepo ih =>
    have hrest := h.of_suffix (List.suffix_cons c rest)
    have harchStart : ¬ "$arch".toList <+: c :: rest := by
      rintro ⟨after, hafter⟩
      obtain ⟨rfl, rfl⟩ := List.cons_eq_cons.1 hafter
      exact hnoArch after rfl rfl
    have hrepoStart : ¬ "$repo".toList <+: c :: replace "$arch".toList architecture rest := by
      intro hstart
      obtain ⟨rfl, hword⟩ := List.cons_prefix_cons.1 hstart
      obtain ⟨after, rfl⟩ := isPrefix_repo_of_replace h hword
      exact hnoRepo after rfl rfl
    rw [replace_cons harchStart, replace_cons hrepoStart, ih hrest]

/-- No dollar sign is left where every one began a placeholder and none was put in. -/
theorem dollar_notMem_filled (h : IsCovered template) (harch : '$' ∉ architecture)
    (hrepo : '$' ∉ repository) : '$' ∉ filled repository architecture template := by
  fun_induction filled repository architecture template with
  | case1 => simp
  | case2 rest ih =>
    have hrest := ih (h.of_suffix ⟨"$arch".toList, rfl⟩)
    simp [harch, hrest]
  | case3 rest ih =>
    have hrest := ih (h.of_suffix ⟨"$repo".toList, rfl⟩)
    simp [hrepo, hrest]
  | case4 c rest hnoArch hnoRepo ih =>
    have hrest := ih (h.of_suffix (List.suffix_cons c rest))
    have hc : c ≠ '$' := by
      rintro rfl
      rcases h _ ((List.mem_tails _ _).2 List.suffix_rfl) rfl with ⟨after, he⟩ | ⟨after, he⟩
      · obtain ⟨-, rfl⟩ := List.cons_eq_cons.1 he
        exact hnoArch after rfl rfl
      · obtain ⟨-, rfl⟩ := List.cons_eq_cons.1 he
        exact hnoRepo after rfl rfl
    simp [hc.symm, hrest]

/-- An address is the template with both placeholders replaced at once, a slash, and the name of the
file. Where every dollar sign of the template begins a placeholder and none is put in, none is
left. -/
theorem expand_filled (template repository architecture suffix : String)
    (h : IsUnambiguous template.toList) (harch : '$' ∉ architecture.toList) :
    expand template repository architecture suffix =
        String.ofList (filled repository.toList architecture.toList template.toList) ++ "/" ++
          repository ++ suffix ∧
      (IsCovered template.toList → '$' ∉ repository.toList → '$' ∉ suffix.toList →
        '$' ∉ (expand template repository architecture suffix).toList) := by
  have hexpand : expand template repository architecture suffix =
      String.ofList (filled repository.toList architecture.toList template.toList) ++ "/" ++
        repository ++ suffix := by
    rw [expand, replace_replace h harch]
  refine ⟨hexpand, fun hcovered hrepo hsuffix => ?_⟩
  have hfilled := dollar_notMem_filled hcovered harch hrepo
  simp [hexpand, hfilled, hrepo, hsuffix]

/-- A repository named like a placeholder is not looked at again. -/
theorem expand_filled_lookalike :
    IsUnambiguous "/$repo/os/$arch".toList ∧ IsCovered "/$repo/os/$arch".toList ∧
    expand "/$repo/os/$arch" "$arch" "x86" ".files" = "/$arch/os/x86/$arch.files" ∧
    '$' ∉ (expand "/$repo/os/$arch" "core" "x86" ".files").toList := by
  have hunambiguous : IsUnambiguous "/$repo/os/$arch".toList := by decide
  have hcovered : IsCovered "/$repo/os/$arch".toList := by decide
  refine ⟨hunambiguous, hcovered, ?_, ?_⟩
  · rw [(expand_filled _ "$arch" "x86" ".files" hunambiguous (by decide)).1]
    decide
  · exact (expand_filled _ "core" "x86" ".files" hunambiguous (by decide)).2 hcovered (by decide)
      (by decide)

/-- Text that is put in behind the beginning of a placeholder can complete it. -/
example : expand "$r$arch" "core" "epo" ".files" = "core/core.files" := by cbv

end FileListCache.UrlTemplate
