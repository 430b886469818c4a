/-
  FileListCache.Proofs.Places

  What stands where after a step. Each kind of step has one equation for `Tree.find?`, from which
  two relations between trees follow that the rest of the theory works with:

    * `Tree.Fades t t'` — wherever the two differ, no path leads on in `t'`: what stood there is
      gone or is a plain entry now. All the program ever does to a tree makes it fade.
    * `Tree.Alike t t'` — the same both ways, so that paths lead to the same places.
-/

import FileListCache.Tree
import Mathlib.Data.List.Induction
import Mathlib.Data.List.Infix

namespace FileListCache.Tree

variable {t t' t'' : Tree} {l l' p source target : Location}

/-! ## Entries -/

@[simp] theorem find?_nil (t : Tree) : t.find? [] = some .directory := by
  simp [find?]

theorem find?_of_ne_nil (h : l ≠ []) :
    t.find? l = (t.entries.find? (·.1 = l)).map (·.2) := by
  simp [find?, h]

/-- Entries are found one by one, the first of a place being the one that stands there. -/
theorem find?_cons {e : Location × Node} {es : List (Location × Node)} (h : l ≠ []) :
    Tree.find? ⟨e :: es⟩ l = if e.1 = l then some e.2 else Tree.find? ⟨es⟩ l := by
  by_cases he : e.1 = l <;> simp [find?, h, he]

theorem find?_empty (h : l ≠ []) : Tree.find? ⟨[]⟩ l = none := by
  simp [find?, h]

/-! ## Steps -/

theorem find?_put {node : Node} (hp : p ≠ []) :
    (t.apply (.put p node)).find? l = if l = p then some node else t.find? l := by
  by_cases hl : l = []
  · subst hl
    simp [Ne.symm hp]
  -- The new entry takes the place of the first old one, so the induction is on the entries.
  obtain ⟨es⟩ := t
  simp only [apply]
  induction es with
  | nil =>
    simp only [putEntry, find?_cons hl, find?_empty hl]
    simp only [eq_comm]
  | cons e es ih =>
    simp only [putEntry]
    by_cases he : e.1 = p
    · simp only [he, if_true, find?_cons hl]
      by_cases h : l = p
      · simp [h]
      · simp [h, Ne.symm h]
    · rw [if_neg he, find?_cons hl, find?_cons hl, ih]
      by_cases h : e.1 = l
      · have hlp : l ≠ p := fun hlp => he (h.trans hlp)
        simp [h, hlp]
      · simp [h]

theorem find?_extend {bytes : Bytes} :
    (t.apply (.extend p bytes)).find? l =
      if l = p then (t.find? l).map (Node.extended bytes) else t.find? l := by
  by_cases hl : l = []
  · subst hl
    simp [Node.extended]
  obtain ⟨es⟩ := t
  simp only [apply]
  induction es with
  | nil => simp [find?_empty hl]
  | cons e es ih =>
    rw [List.map_cons, find?_cons hl, find?_cons hl, ih]
    -- The first entry may be the one that grows, and it may be the one that is looked for.
    by_cases he : e.1 = p <;> by_cases h : e.1 = l
    · simp [he, ← h]
    · simp [he, show p ≠ l from he ▸ h]
    · simp [h, show l ≠ p from fun hlp => he (h.trans hlp)]
    · simp [he, h]

theorem find?_remove (hp : p ≠ []) :
    (t.apply (.remove p)).find? l = if l = p then none else t.find? l := by
  by_cases hl : l = []
  · subst hl
    simp [Ne.symm hp]
  obtain ⟨es⟩ := t
  simp only [apply]
  induction es with
  | nil => simp [find?_empty hl]
  | cons e es ih =>
    rw [List.filter_cons, find?_cons hl]
    by_cases he : e.1 = p
    · simp only [he, ne_eq, not_true_eq_false, decide_false, Bool.false_eq_true, if_false, ih]
      by_cases h : l = p
      · simp [h]
      · simp [h, Ne.symm h]
    · simp only [ne_eq, he, not_false_eq_true, decide_true, if_true, find?_cons hl, ih]
      by_cases h : e.1 = l
      · simp [h, show l ≠ p from fun hlp => he (h.trans hlp)]
      · simp [h]

/-! ## Moves -/

/-- Where an entry stands after a move: below the target if it stood at or below the source. -/
theorem moved_of_isPrefix (h : source <+: l) :
    moved source target l = target ++ l.drop source.length := by
  simp [moved, h]

theorem moved_of_not_isPrefix (h : ¬ source <+: l) : moved source target l = l := by
  simp [moved, h]

/-- After a move there stands at `l` what stood at `l'`, if `l'` is the one place from which
entries come to `l`. -/
theorem find?_move_of_iff (hst : source ≠ target) (hl : l ≠ []) (hl' : l' ≠ [])
    (h : ∀ e ∈ t.entries, (e.1 ≠ target ∧ moved source target e.1 = l) ↔ e.1 = l') :
    (t.apply (.move source target)).find? l = t.find? l' := by
  obtain ⟨es⟩ := t
  simp only [apply, if_neg hst]
  induction es with
  | nil => rw [List.filter_nil, List.map_nil, find?_empty hl, find?_empty hl']
  | cons e es ih =>
    have ih := ih fun x hx => h x (List.mem_cons_of_mem _ hx)
    have he := h e List.mem_cons_self
    rw [List.filter_cons, find?_cons hl']
    -- An entry at the target is dropped, so it is not the one that comes to `l`.
    by_cases het : e.1 = target
    · have hne : e.1 ≠ l' := fun hel => (he.2 hel).1 het
      rw [if_neg hne, if_neg (by simp [het])]
      exact ih
    · simp only [ne_eq, het, not_false_eq_true, decide_true, if_true, List.map_cons,
        find?_cons hl, ih]
      simp only [ne_eq, het, not_false_eq_true, true_and] at he
      simp only [he]

/-- After a move nothing stands at a place that no entry comes to. -/
theorem find?_move_of_forall (hst : source ≠ target) (hl : l ≠ [])
    (h : ∀ e ∈ t.entries, e.1 ≠ target → moved source target e.1 ≠ l) :
    (t.apply (.move source target)).find? l = none := by
  obtain ⟨es⟩ := t
  simp only [apply, if_neg hst]
  rw [find?_of_ne_nil hl, Option.map_eq_none_iff, List.find?_eq_none]
  intro x hx
  obtain ⟨e, he, rfl⟩ := List.mem_map.1 hx
  simp only [List.mem_filter, ne_eq, decide_not, Bool.not_eq_eq_eq_not, Bool.not_true,
    decide_eq_false_iff_not] at he
  simpa using h e he.1 he.2

/-- Two places of which neither is the other or below it. -/
def Apart (l l' : Location) : Prop := ¬ l <+: l' ∧ ¬ l' <+: l

theorem Apart.symm (h : Apart l l') : Apart l' l := ⟨h.2, h.1⟩

theorem Apart.ne (h : Apart l l') : l ≠ l' := by
  rintro rfl
  exact h.1 List.prefix_rfl

theorem Apart.ne_nil (h : Apart l l') : l ≠ [] := by
  rintro rfl
  exact h.1 List.nil_prefix

/-- Nothing can stand at or below both of two places that are apart. -/
theorem Apart.not_isPrefix (h : Apart l l') (hp : l <+: p) : ¬ l' <+: p := fun hp' =>
  (List.prefix_or_prefix_of_prefix hp hp').elim h.1 h.2

/-- Two names in one directory. -/
theorem apart_concat {d : Location} {name name' : String} (h : name ≠ name') :
    Apart (d ++ [name]) (d ++ [name']) := by
  constructor <;> simp [List.prefix_append_right_inj, h, Ne.symm h]

section Move

variable (ha : Apart source target)
include ha

theorem find?_move_target : (t.apply (.move source target)).find? target = t.find? source := by
  -- Only the source itself comes to the target: what stood below it comes below the target.
  apply find?_move_of_iff ha.ne ha.symm.ne_nil ha.ne_nil
  intro e _
  by_cases hs : source <+: e.1
  · rw [moved_of_isPrefix hs]
    obtain ⟨r, hr⟩ := hs
    rw [← hr, List.drop_left]
    constructor
    · intro hr
      obtain ⟨_, h⟩ := hr
      have : r = [] := by simpa using h
      rw [this, List.append_nil]
    · intro h
      have : r = [] := by simpa using h
      rw [this, List.append_nil, List.append_nil]
      exact ⟨ha.ne, rfl⟩
  · rw [moved_of_not_isPrefix hs]
    constructor
    · intro hr
      obtain ⟨h, h'⟩ := hr
      exact absurd h' h
    · intro h
      exact absurd (h ▸ List.prefix_rfl) hs

/-- What stood at or below the source is gone from there. -/
theorem find?_move_source (hl : source <+: l) :
    (t.apply (.move source target)).find? l = none := by
  apply find?_move_of_forall ha.ne
  · rintro rfl
    exact ha.ne_nil (List.prefix_nil.1 hl)
  intro e _ _ hm
  by_cases hs : source <+: e.1
  · rw [moved_of_isPrefix hs] at hm
    exact ha.not_isPrefix hl ⟨_, hm⟩
  · rw [moved_of_not_isPrefix hs] at hm
    exact hs (hm ▸ hl)

theorem find?_move_other (hs : ¬ source <+: l) (ht : ¬ target <+: l) :
    (t.apply (.move source target)).find? l = t.find? l := by
  by_cases hl : l = []
  · rw [hl, find?_nil, find?_nil]
  apply find?_move_of_iff ha.ne hl hl
  intro e _
  by_cases hse : source <+: e.1
  · rw [moved_of_isPrefix hse]
    constructor
    · intro hr
      obtain ⟨_, h⟩ := hr
      exact absurd ⟨_, h⟩ ht
    · intro h
      exact absurd (h ▸ hse) hs
  · rw [moved_of_not_isPrefix hse]
    constructor
    · exact fun h => h.2
    · intro h
      refine ⟨?_, h⟩
      rintro h'
      exact ht (h' ▸ h ▸ List.prefix_rfl)

/-- Below the target nothing changes if nothing stood at the corresponding place below the
source. -/
theorem find?_move_below {r : Location} (hr : r ≠ []) (hnone : t.find? (source ++ r) = none) :
    (t.apply (.move source target)).find? (target ++ r) = t.find? (target ++ r) := by
  -- The one entry that would come here from the source is missing, so the old one stays.
  have hn : ∀ e ∈ t.entries, e.1 ≠ source ++ r := by
    rw [find?_of_ne_nil (by simp [hr]), Option.map_eq_none_iff, List.find?_eq_none] at hnone
    simpa using hnone
  apply find?_move_of_iff ha.ne (by simp [hr]) (by simp [hr])
  intro e he
  by_cases hs : source <+: e.1
  · rw [moved_of_isPrefix hs]
    obtain ⟨r', hr'⟩ := hs
    constructor
    · intro hr
      obtain ⟨_, h⟩ := hr
      have : r' = r := by simpa [← hr'] using h
      exact absurd (this ▸ hr').symm (hn e he)
    · intro h
      exact absurd ⟨r', hr'⟩ (ha.symm.not_isPrefix ⟨r, h.symm⟩)
  · rw [moved_of_not_isPrefix hs]
    constructor
    · exact fun h => h.2
    · intro h
      exact ⟨by simp [h, hr], h⟩

end Move

/-- Nothing stands below the place. -/
def IsBare (t : Tree) (l : Location) : Prop := ∀ r, r ≠ [] → t.find? (l ++ r) = none

/-- A move of what has nothing below it. -/
theorem find?_move (ha : Apart source target) (hbare : t.IsBare source) :
    (t.apply (.move source target)).find? l =
      if l = target then t.find? source else if source <+: l then none else t.find? l := by
  by_cases hlt : l = target
  · rw [if_pos hlt, hlt, find?_move_target ha]
  rw [if_neg hlt]
  by_cases hs : source <+: l
  · rw [if_pos hs, find?_move_source ha hs]
  rw [if_neg hs]
  by_cases ht : target <+: l
  · obtain ⟨r, rfl⟩ := ht
    have hr : r ≠ [] := by
      rintro rfl
      exact hlt (List.append_nil target)
    exact find?_move_below ha hr (hbare r hr)
  · exact find?_move_other ha hs ht

/-! ## Places that no path leads through -/

/-- Neither a directory nor a link stands here: a path that comes here goes no further. -/
def IsDeadEnd (t : Tree) (l : Location) : Prop :=
  t.find? l ≠ some .directory ∧ ∀ target, t.find? l ≠ some (.link target)

theorem isDeadEnd_of_none (h : t.find? l = none) : t.IsDeadEnd l := by
  simp [IsDeadEnd, h]

theorem isDeadEnd_of_file {bytes : Bytes} (h : t.find? l = some (.file bytes)) :
    t.IsDeadEnd l := by
  simp [IsDeadEnd, h]

/-- Nothing or a file stands here. -/
def IsLeaf (t : Tree) (l : Location) : Prop :=
  t.find? l = none ∨ ∃ bytes, t.find? l = some (.file bytes)

theorem IsLeaf.isDeadEnd (h : t.IsLeaf l) : t.IsDeadEnd l := by
  rcases h with hn | ⟨bytes, hn⟩
  · exact isDeadEnd_of_none hn
  · exact isDeadEnd_of_file hn

theorem IsDeadEnd.congr (h : t.IsDeadEnd l) (he : t'.find? l' = t.find? l) : t'.IsDeadEnd l' := by
  rwa [IsDeadEnd, he]

/-- Wherever the two trees differ, no path leads on in the second. -/
def Fades (t t' : Tree) : Prop := ∀ l, t'.find? l = t.find? l ∨ t'.IsDeadEnd l

/-- Wherever the two trees differ, no path leads on in either. -/
def Alike (t t' : Tree) : Prop := t.Fades t' ∧ t'.Fades t

theorem Fades.refl (t : Tree) : t.Fades t := fun _ => .inl rfl

theorem Fades.trans (h : t.Fades t') (h' : t'.Fades t'') : t.Fades t'' := by
  intro l
  -- The later change decides; where there was none, the earlier one does.
  rcases h' l with he | hd
  · rcases h l with he' | hd'
    · exact .inl (he.trans he')
    · exact .inr (hd'.congr he)
  · exact .inr hd

theorem Alike.refl (t : Tree) : t.Alike t := ⟨.refl t, .refl t⟩

theorem Alike.symm (h : t.Alike t') : t'.Alike t := ⟨h.2, h.1⟩

theorem Alike.trans (h : t.Alike t') (h' : t'.Alike t'') : t.Alike t'' :=
  ⟨h.1.trans h'.1, h'.2.trans h.2⟩

theorem Fades.find?_directory (h : t.Fades t') (hd : t'.find? l = some .directory) :
    t.find? l = some .directory := by
  rcases h l with he | hd'
  · rw [← he, hd]
  · exact absurd hd hd'.1

theorem Fades.find?_link {link : String} (h : t.Fades t') (hd : t'.find? l = some (.link link)) :
    t.find? l = some (.link link) := by
  rcases h l with he | hd'
  · rw [← he, hd]
  · exact absurd hd (hd'.2 link)

/-- What is a dead end stays one. -/
theorem Fades.isDeadEnd (h : t.Fades t') (hl : t.IsDeadEnd l) : t'.IsDeadEnd l := by
  rcases h l with he | hd
  · exact hl.congr he
  · exact hd

/-- A file that takes another one's place leaves every path as it was. -/
theorem alike_move {bytes : Bytes} (ha : Apart source target) (hbare : t.IsBare source)
    (hs : t.find? source = some (.file bytes)) (ht : t.IsDeadEnd target) :
    t.Alike (t.apply (.move source target)) := by
  -- The trees differ at the target, and at the source, below which nothing stood.
  constructor <;> intro l <;> rw [find?_move ha hbare]
  · by_cases hlt : l = target
    · rw [if_pos hlt, hs]
      exact .inr (isDeadEnd_of_file (by rw [find?_move ha hbare, if_pos hlt, hs]))
    · rw [if_neg hlt]
      by_cases hsl : source <+: l
      · rw [if_pos hsl]
        exact .inr (isDeadEnd_of_none (by rw [find?_move ha hbare, if_neg hlt, if_pos hsl]))
      · rw [if_neg hsl]
        exact .inl rfl
  · by_cases hlt : l = target
    · exact .inr (hlt ▸ ht)
    · rw [if_neg hlt]
      by_cases hsl : source <+: l
      · obtain ⟨r, rfl⟩ := hsl
        by_cases hr : r = []
        · rw [hr, List.append_nil]
          exact .inr (isDeadEnd_of_file hs)
        · exact .inr (isDeadEnd_of_none (hbare r hr))
      · rw [if_neg hsl]
        exact .inl rfl

/-! ## Kinds of steps -/

/-- The step makes the file at `l` or adds to it. -/
def Step.Fills (l : Location) : Step → Prop
  | .put p node => p = l ∧ node = .file []
  | .extend p _ => p = l
  | _ => False

/-- The step removes what stands at `l` or something below it. -/
def Step.Clears (l : Location) : Step → Prop
  | .remove p => l <+: p
  | _ => False

/-- `t'` is the tree `t` without what stood at `l`. -/
structure Without (t : Tree) (l : Location) (t' : Tree) : Prop where
  gone : t'.find? l = none
  /-- A directory is gone with all below it. -/
  below : t.find? l = some .directory → ∀ l', l <+: l' → t'.find? l' = none
  /-- Anything else is gone by itself. -/
  alone : t.find? l ≠ some .directory → ∀ l', l' ≠ l → t'.find? l' = t.find? l'
  kept : ∀ l', ¬ l <+: l' → t'.find? l' = t.find? l'

/-- A removal takes away just what stands at its place, unless that is a directory with entries. -/
theorem without_remove (hl : l ≠ []) (hbare : t.find? l = some .directory → t.IsBare l) :
    t.Without l (t.apply (.remove l)) := by
  have hfind (l' : Location) :
      (t.apply (.remove l)).find? l' = if l' = l then none else t.find? l' := find?_remove hl
  refine ⟨by rw [hfind, if_pos rfl], ?_, fun _ l' hne => by rw [hfind, if_neg hne],
    fun l' hl' => ?_⟩
  · rintro hdir _ ⟨r, rfl⟩
    by_cases hr : r = []
    · rw [hfind, if_pos (by simp [hr])]
    · rw [hfind, hbare hdir r hr, ite_self]
  · rw [hfind, if_neg]
    rintro rfl
    exact hl' List.prefix_rfl

theorem Without.fades (h : t.Without l t') : t.Fades t' := by
  intro l'
  by_cases hbelow : l <+: l'
  · by_cases hdir : t.find? l = some .directory
    · exact .inr (isDeadEnd_of_none (h.below hdir l' hbelow))
    · by_cases hl : l' = l
      · exact .inr (isDeadEnd_of_none (hl ▸ h.gone))
      · exact .inl (h.alone hdir l' hl)
  · exact .inl (h.kept l' hbelow)

section Kinds

variable {s : Step} (hl : l ≠ [])
include hl

theorem Step.Fills.find?_eq (h : s.Fills l) (hne : l' ≠ l) :
    (t.apply s).find? l' = t.find? l' := by
  cases s with
  | put p node =>
    obtain ⟨rfl, -⟩ := h
    rw [find?_put hl, if_neg hne]
  | extend p bytes =>
    obtain rfl : p = l := h
    rw [find?_extend, if_neg hne]
  | remove p => exact h.elim
  | move source target => exact h.elim

/-- Only a removal clears, and never that of the root. -/
theorem Step.Clears.exists_remove (h : s.Clears l) : ∃ p, p ≠ [] ∧ l <+: p ∧ s = .remove p := by
  cases s with
  | remove p =>
    refine ⟨p, ?_, h, rfl⟩
    rintro rfl
    exact hl (List.prefix_nil.1 h)
  | put p node => exact h.elim
  | extend p bytes => exact h.elim
  | move source target => exact h.elim

theorem Step.Clears.find?_eq (h : s.Clears l) (hne : ¬ l <+: l') :
    (t.apply s).find? l' = t.find? l' := by
  obtain ⟨p, hp, hbelow, rfl⟩ := h.exists_remove hl
  rw [find?_remove hp, if_neg]
  rintro rfl
  exact hne hbelow

theorem Step.Fills.fades (h : s.Fills l) : t.Fades (t.apply s) := by
  intro l'
  by_cases hne : l' = l
  · subst hne
    cases s with
    | put p node =>
      obtain ⟨rfl, rfl⟩ := h
      exact .inr (isDeadEnd_of_file (by rw [find?_put hl, if_pos rfl]))
    | extend p bytes =>
      obtain rfl : p = l' := h
      rw [IsDeadEnd, find?_extend, if_pos rfl]
      rcases t.find? p with - | (c | - | g | - | ⟨c, n, f⟩) <;> simp [Node.extended]
    | remove p => exact h.elim
    | move source target => exact h.elim
  · exact .inl (h.find?_eq hl hne)

theorem Step.Clears.fades (h : s.Clears l) : t.Fades (t.apply s) := by
  obtain ⟨p, hp, -, rfl⟩ := h.exists_remove hl
  intro l'
  by_cases hne : l' = p
  · exact .inr (isDeadEnd_of_none (by rw [find?_remove hp, if_pos hne]))
  · exact .inl (by rw [find?_remove hp, if_neg hne])

/-- Filling a dead end leaves every path as it was. -/
theorem Step.Fills.alike (h : s.Fills l) (hd : t.IsDeadEnd l) : t.Alike (t.apply s) := by
  refine ⟨h.fades hl, fun l' => ?_⟩
  by_cases hne : l' = l
  · exact .inr (hne ▸ hd)
  · exact .inl (h.find?_eq hl hne).symm

end Kinds

/-! ## Rooted trees -/

/-- Every entry stands in a directory. -/
def IsRooted (t : Tree) : Prop :=
  ∀ l name, t.find? (l ++ [name]) ≠ none → t.find? l = some .directory

/-- It is enough to look at the entries that the tree is made of. -/
theorem isRooted_of_entries (h : ∀ e ∈ t.entries, t.find? e.1.dropLast = some .directory) :
    t.IsRooted := by
  intro l name hne
  rw [find?_of_ne_nil (by simp)] at hne
  cases he : t.entries.find? (·.1 = l ++ [name]) with
  | none =>
    rw [he] at hne
    exact absurd rfl hne
  | some e =>
    have hplace : e.1 = l ++ [name] := by simpa using List.find?_some he
    have hparent := h e (List.mem_of_find?_eq_some he)
    rwa [hplace, List.dropLast_concat] at hparent

/-- In a rooted tree nothing stands below what is not a directory. -/
theorem IsRooted.isBare (ht : t.IsRooted) (hl : t.find? l ≠ some .directory) : t.IsBare l := by
  intro r hr
  -- From an entry below `l` upwards every place would be a directory, in the end `l` itself.
  by_contra hne
  induction r using List.reverseRecOn with
  | nil => exact hr rfl
  | append_singleton r name ih =>
    have hd := ht (l ++ r) name (by rwa [List.append_assoc])
    by_cases h : r = []
    · exact hl (by simpa [h] using hd)
    · exact ih h (by simp [hd])

end FileListCache.Tree
