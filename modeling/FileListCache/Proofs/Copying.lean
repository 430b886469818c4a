/-
  FileListCache.Proofs.Copying

  What a copy of an archive comes to, part by part. A part ends in one of three ways (`Copied`):
  all of it was written, the source gave no more, or the destination took no more; which of the
  three it is depends on the source and on the limits of the writer alone.
-/

import FileListCache.Proofs.Appending
import FileListCache.Proofs.Entries
import FileListCache.Proofs.Layout

namespace FileListCache.Transcode

open Archive (Member)
open Disk (Writer Undisturbed)
open FileListCache.Tree (Step)
open World (Works Same Takes)

variable {h : Host} {w : World} {wr : Writer} {l : Location} {bs bytes : Bytes} {m : Member}
  {arrival : Bytes.Arrival}

/-- A part of a copy that was to bring what is written to `bs`, from a source that is in order or
not: nothing but the file at `l` was touched, and each way to end has its reason. -/
def Copied (wr : Writer) (l : Location) (bs : Bytes) (inOrder : Prop) (w : World)
    (r : Except Failure Writer) (w' : World) : Prop :=
  Works (Step.Fills l) w w' ∧
    match r with
    | .ok wr' => inOrder ∧ wr'.Holds w'.tree l bs ∧ (wr.IsFree → wr'.IsFree)
    | .error (.source _ wr') => ¬ inOrder ∧ ∃ bs', wr'.Holds w'.tree l bs'
    | .error (.destination _) => ¬ wr.IsFree

/-! ## Members -/

theorem put_ends (hw : wr.Holds w.tree l bs) (bytes : Bytes) :
    Ends w (put wr bytes) (Copied wr l (bs ++ bytes) True w) := by
  apply ends_adapt
  refine ends_imp (Writer.push_ends hw bytes) ?_
  rintro (e | wr') w' ⟨hworks, hok, herr⟩
  · exact ⟨hworks, herr e rfl⟩
  · exact ⟨hworks, trivial, hok wr' rfl⟩

/-- The same with the rest of the copy, which only what it was given can stop. -/
theorem put_bind_ends {inOrder : Prop} {f : Writer → Attempt Failure Writer} {w₀ : World}
    {wr₀ : Writer} {bs' : Bytes} (hw₀ : Works (Step.Fills l) w₀ w)
    (hfree : wr₀.IsFree → wr.IsFree) (hw : wr.Holds w.tree l bs)
    (hf : ∀ wr' w', Works (Step.Fills l) w₀ w' → (wr₀.IsFree → wr'.IsFree) →
      wr'.Holds w'.tree l (bs ++ bytes) → Ends w' (f wr') (Copied wr₀ l bs' inOrder w₀)) :
    Ends w (put wr bytes >>= f) (Copied wr₀ l bs' inOrder w₀) := by
  apply ends_bind (put_ends hw bytes)
  · intro wr' w' hr
    obtain ⟨hworks, -, hholds, hfree'⟩ := hr
    exact hf wr' w' (hw₀.trans hworks) (fun hf => hfree' (hfree hf)) hholds
  · rintro (⟨e, wr'⟩ | e) w' ⟨hworks, hr⟩
    · exact absurd trivial hr.1
    · exact ⟨hw₀.trans hworks, fun hf => hr (hfree hf)⟩

/-- Pieces are put one after the other. -/
theorem foldlM_put_ends (pieces : List Bytes) (hw : wr.Holds w.tree l bs) :
    Ends w (pieces.foldlM put wr) (Copied wr l (bs ++ pieces.flatten) True w) := by
  -- What is written already and the pieces still to come make up the whole.
  refine ends_foldlM (fun rest wr₁ w₁ => ∃ done, Works (Step.Fills l) w w₁ ∧
    (wr.IsFree → wr₁.IsFree) ∧ wr₁.Holds w₁.tree l done ∧
      done ++ rest.flatten = bs ++ pieces.flatten) ?_ ?_ pieces wr w ⟨bs, .refl w, id, hw, rfl⟩
  · intro wr₁ w₁ hr
    obtain ⟨done, hworks, hfree, hholds, hdone⟩ := hr
    rw [List.flatten_nil, List.append_nil] at hdone
    exact ⟨hworks, trivial, hdone ▸ hholds, hfree⟩
  · intro piece rest wr₁ w₁ hr
    obtain ⟨done, hworks, hfree, hholds, hdone⟩ := hr
    refine ends_imp (put_ends hholds piece) ?_
    rintro ((⟨e, wr'⟩ | e) | wr') w' ⟨hworks', hr⟩
    · exact absurd trivial hr.1
    · exact ⟨hworks.trans hworks', fun hf => hr (hfree hf)⟩
    · refine ⟨done ++ piece, hworks.trans hworks', fun hf => hr.2.2 (hfree hf), hr.2.1, ?_⟩
      rw [List.append_assoc, ← List.flatten_cons, hdone]

/-- Nothing of the member is missing. -/
def IsSound (m : Member) : Prop := m.isWhole = true ∧ m.failure = none

/-- A sound member is copied with all its bytes; where one is not sound the copy stops. -/
theorem copyMember_ends (hw : wr.Holds w.tree l bs) :
    Ends w (copyMember arrival wr m) (Copied wr l (bs ++ m.bytes) (IsSound m) w) := by
  rw [copyMember_eq]
  apply ends_note_bind
  intro w₁ hsame
  have hw₁ : wr.Holds w₁.tree l bs := by rwa [hsame.tree]
  refine put_bind_ends hsame.works id hw₁ fun wr₂ w₂ hworks₂ hfree₂ hw₂ => ?_
  apply ends_bind (foldlM_put_ends (arrival.pieces m.payload) hw₂)
  · intro wr₃ w₃ hr
    obtain ⟨hworks₃, -, hw₃, hfree₃⟩ := hr
    rw [Bytes.Arrival.flatten_pieces] at hw₃
    have hworks₃ := hworks₂.trans hworks₃
    -- A source that fails inside the payload stops the copy before the padding.
    cases hfailure : m.failure with
    | some e =>
      refine ends_throw ⟨hworks₃, fun hs => ?_, _, hw₃⟩
      rw [hs.2] at hfailure
      cases hfailure
    | none =>
      refine put_bind_ends hworks₃ (fun hf => hfree₃ (hfree₂ hf)) hw₃
        fun wr₄ w₄ hworks₄ hfree₄ hw₄ => ?_
      -- A payload that is too short is noticed behind the padding only.
      by_cases hwhole : m.isWhole = true
      · rw [if_pos hwhole]
        refine ends_pure ⟨hworks₄, ⟨hwhole, hfailure⟩, ?_, hfree₄⟩
        have hbytes : bs ++ m.bytes = bs ++ m.header.bytes ++ m.payload ++
            List.replicate (Member.paddingOf m.payload.length) 0 := by
          simp only [Member.bytes, List.append_assoc]
        rwa [hbytes]
      · rw [if_neg hwhole]
        exact ends_throw ⟨hworks₄, fun hs => hwhole hs.1, _, hw₄⟩
  · rintro (⟨e, wr'⟩ | e) w₃ ⟨hworks₃, hr⟩
    · exact absurd trivial hr.1
    · exact ⟨hworks₂.trans hworks₃, fun hf => hr (hfree₂ hf)⟩

/-! ## Streams -/

/-- Members are copied in their order, as long as they are sound. -/
theorem foldlM_copyMember_ends (ms : List Member) (hw : wr.Holds w.tree l bs) :
    Ends w (ms.foldlM (copyMember arrival) wr)
      (Copied wr l (bs ++ (ms.map Member.bytes).flatten) (∀ m ∈ ms, IsSound m) w) := by
  -- The members that were copied are sound, so those still to come decide whether all are.
  refine ends_foldlM (fun rest wr₁ w₁ => ∃ done, Works (Step.Fills l) w w₁ ∧
    (wr.IsFree → wr₁.IsFree) ∧ wr₁.Holds w₁.tree l done ∧
      done ++ (rest.map Member.bytes).flatten = bs ++ (ms.map Member.bytes).flatten ∧
      ((∀ m ∈ ms, IsSound m) ↔ ∀ m ∈ rest, IsSound m)) ?_ ?_ ms wr w
    ⟨bs, .refl w, id, hw, rfl, Iff.rfl⟩
  · intro wr₁ w₁ hr
    obtain ⟨done, hworks, hfree, hholds, hdone, hsound⟩ := hr
    rw [List.map_nil, List.flatten_nil, List.append_nil] at hdone
    exact ⟨hworks, hsound.2 (by simp), hdone ▸ hholds, hfree⟩
  · intro m rest wr₁ w₁ hr
    obtain ⟨done, hworks, hfree, hholds, hdone, hsound⟩ := hr
    refine ends_imp (copyMember_ends hholds) ?_
    rintro ((⟨e, wr'⟩ | e) | wr') w' ⟨hworks', hr⟩
    · exact ⟨hworks.trans hworks', fun hs => hr.1 (hsound.1 hs m List.mem_cons_self), hr.2⟩
    · exact ⟨hworks.trans hworks', fun hf => hr (hfree hf)⟩
    · refine ⟨done ++ m.bytes, hworks.trans hworks', fun hf => hr.2.2 (hfree hf), hr.2.1, ?_, ?_⟩
      · rw [List.append_assoc, ← List.flatten_cons, ← List.map_cons, hdone]
      · rw [hsound, List.forall_mem_cons]
        exact and_iff_right hr.1

/-- The copy is ended and all that waits is written. -/
theorem finish_ends (hw : wr.Holds w.tree l bs) :
    Ends w (finish wr) fun r w' => Works (Step.Fills l) w w' ∧
      (r = .ok () → w'.tree.find? l = some (.file (bs ++ Archive.ending))) ∧
      (∀ f, r = .error f → (∃ e, f = .destination e) ∧ ¬ wr.IsFree) := by
  unfold finish
  apply ends_bind (put_ends hw Archive.ending)
  · intro wr₁ w₁ hr
    obtain ⟨hworks₁, -, hw₁, hfree₁⟩ := hr
    apply ends_adapt_bind (Writer.flush_ends hw₁)
    · intro wr' w' hr
      obtain ⟨hworks, ⟨hok, -⟩, hwait⟩ := hr
      refine ends_pure ⟨hworks₁.trans hworks, fun _ => ?_, by rintro _ ⟨⟩⟩
      obtain ⟨⟨-, done, hfile, hdone⟩, -⟩ := hok wr' rfl
      rw [hwait wr' rfl, List.append_nil] at hdone
      rw [hfile, hdone]
    · intro e w' hr
      obtain ⟨hworks, ⟨-, herr⟩, -⟩ := hr
      refine ⟨hworks₁.trans hworks, by rintro ⟨⟩, ?_⟩
      intro _ he
      cases he
      exact ⟨⟨e, rfl⟩, fun hf => herr e rfl (hfree₁ hf)⟩
  · rintro (⟨e, wr'⟩ | e) w₁ ⟨hworks₁, hr⟩
    · exact absurd trivial hr.1
    · refine ⟨hworks₁, by rintro ⟨⟩, ?_⟩
      intro _ he
      cases he
      exact ⟨⟨e, rfl⟩, hr⟩

/-- A stream is copied whole exactly if it is read to its end, unless the destination stops it. -/
theorem copyStream_ends (s : Archive.Stream) (hw : wr.Holds w.tree l []) :
    Ends w (copyStream arrival s wr) fun r w' => Works (Step.Fills l) w w' ∧
      match r with
      | .ok report => ∃ ms, Archive.members s = (ms, none) ∧ report = .ofMembers ms ∧
          w'.tree.find? l = some (.file (Archive.bytesOf ms))
      | .error (.source _ wr') => (∀ ms, Archive.members s ≠ (ms, none)) ∧
          ∃ bs, wr'.Holds w'.tree l bs
      | .error (.destination _) => ¬ wr.IsFree := by
  unfold copyStream
  rcases hs : Archive.members s with ⟨ms, stop⟩
  simp only
  apply ends_bind (foldlM_copyMember_ends ms hw)
  · intro wr₁ w₁ hr
    obtain ⟨hworks₁, -, hw₁, hfree₁⟩ := hr
    cases stop with
    | some e => exact ends_throw ⟨hworks₁, by simp, _, hw₁⟩
    | none =>
      simp only
      apply ends_bind (finish_ends hw₁)
      · intro u w' hr
        obtain ⟨hworks, hok, -⟩ := hr
        exact ends_pure ⟨hworks₁.trans hworks, ms, rfl, rfl, hok rfl⟩
      · intro f w' hr
        obtain ⟨hworks, -, herr⟩ := hr
        obtain ⟨⟨e, rfl⟩, hfree⟩ := herr f rfl
        exact ⟨hworks₁.trans hworks, fun hf => hfree (hfree₁ hf)⟩
  · rintro (⟨e, wr'⟩ | e) w₁ ⟨hworks₁, hr⟩
    · -- Some member is not sound, so the stream was not read to its end.
      refine ⟨hworks₁, fun ms' hms' => ?_, hr.2⟩
      cases hms'
      exact hr.1 (Archive.layout_of_membersFrom hs).1.isWhole
    · exact ⟨hworks₁, hr⟩

/-! ## Destinations that take nothing -/

section Stuck

open Disk.Writer

theorem put_stuck (hw : wr.IsStuck) :
    Gives w (put wr bytes) fun wr' _ => wr'.IsStuck ∧ wr'.waiting = wr.waiting ++ bytes :=
  gives_adapt (push_stuck hw)

theorem foldlM_put_stuck (pieces : List Bytes) (hw : wr.IsStuck) :
    Gives w (pieces.foldlM put wr) fun wr' _ => wr'.IsStuck := by
  refine gives_foldlM (fun wr₁ _ => wr₁.IsStuck) ?_ pieces wr hw
  intro wr₁ piece w₁ hw₁
  exact gives_imp (put_stuck hw₁) fun _ _ hr => hr.1

theorem copyMember_stuck (hw : wr.IsStuck) :
    Gives w (copyMember arrival wr m) fun wr' _ => wr'.IsStuck := by
  rw [copyMember_eq]
  apply ends_note_bind
  intro w₁ _
  refine gives_bind (put_stuck hw) fun wr₂ w₂ hr₂ => ?_
  refine gives_bind (foldlM_put_stuck _ hr₂.1) fun wr₃ w₃ hw₃ => ?_
  cases m.failure with
  | some e => exact gives_throw
  | none =>
    refine gives_bind (put_stuck hw₃) fun wr₄ w₄ hr₄ => ?_
    split
    · exact gives_pure hr₄.1
    · exact gives_throw

/-- The end of a copy is not empty, so a writer that takes nothing never writes it. -/
theorem finish_stuck (hw : wr.IsStuck) : Gives w (finish wr) fun _ _ => False := by
  unfold finish
  refine gives_bind (put_stuck hw) fun wr₁ w₁ hr => ?_
  -- The end of the archive waits in the buffer, so flushing it cannot succeed.
  obtain ⟨hw₁, hwait⟩ := hr
  refine gives_bind (gives_adapt (flush_stuck hw₁)) fun wr' w' hr => ?_
  rw [hwait] at hr
  cases (List.append_eq_nil_iff.1 hr.1).2

/-- A copy that cannot be written is never whole: its end at least would have to be. -/
theorem copyStream_stuck (s : Archive.Stream) (hw : wr.IsStuck) :
    Gives w (copyStream arrival s wr) fun _ _ => False := by
  unfold copyStream
  rcases Archive.members s with ⟨ms, stop⟩
  have hmembers : Gives w (ms.foldlM (copyMember arrival) wr) fun wr₁ _ => wr₁.IsStuck :=
    gives_foldlM (fun wr₁ _ => wr₁.IsStuck) (fun _ _ _ hw₁ => copyMember_stuck hw₁) ms wr hw
  refine gives_bind hmembers fun wr₁ w₁ hw₁ => ?_
  cases stop with
  | some e => exact gives_throw
  | none => exact gives_bind (finish_stuck hw₁) fun _ _ hfalse => hfalse.elim

end Stuck

end FileListCache.Transcode
