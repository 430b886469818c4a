/-
  FileListCache.Proofs.Writing

  What writing through a buffer leaves behind. A writer is seen as the bytes it was given: those
  in its file and those that wait make them up (`Writer.Holds`), and every step on the way fills
  the one file it writes to. A writer without limits never fails; one that takes nothing at all
  cannot be flushed once it was given something.
-/

import FileListCache.Proofs.History
import FileListCache.Proofs.Paths

namespace FileListCache

open FileListCache.Tree (Step)
open World (Works Same Takes)

/-- Nothing, a file or a directory stands here. -/
def Tree.IsPlain (t : Tree) (l : Location) : Prop :=
  t.find? l = none ∨ t.find? l = some .directory ∨ ∃ bytes, t.find? l = some (.file bytes)

theorem Tree.IsLeaf.isPlain {t : Tree} {l : Location} (h : t.IsLeaf l) : t.IsPlain l :=
  h.imp_right .inr

theorem Tree.IsPlain.ne_link {t : Tree} {l : Location} (h : t.IsPlain l) (target : String) :
    t.find? l ≠ some (.link target) := by
  rcases h with h | h | ⟨bytes, h⟩ <;> simp [h]

theorem Tree.IsPlain.isDeadEnd {t : Tree} {l : Location} (h : t.IsPlain l)
    (hd : t.find? l ≠ some .directory) : t.IsDeadEnd l :=
  ⟨hd, h.ne_link⟩

namespace Disk

variable {h : Host} {w : World} {p : String} {l : Location} {bs bytes done : Bytes}

/-! ## Locks -/

/-- The system lets a file at a place be written anew. -/
def Makeable (h : Host) (t : Tree) (l : Location) : Prop := askFile h t l = .ok ()

theorem askEntry_of_unlocked (hl : h.locked l.dropLast = none) : askEntry h l = .ok () := by
  rw [askEntry, hl]

theorem askEntry_of_locked {k : Lock} (hl : h.locked l.dropLast = some k) :
    askEntry h l = .error (.system k.error) := by
  rw [askEntry, hl]

theorem askEntry_eq_ok {u : Unit} : askEntry h l = .ok u ↔ h.locked l.dropLast = none := by
  cases hk : h.locked l.dropLast with
  | none => simp [askEntry_of_unlocked hk]
  | some k => simp [askEntry_of_locked hk]

theorem askVolume_of_unlocked (hl : h.locked l.dropLast = none) : askVolume h l = .ok () := by
  rw [askVolume, hl]
  rfl

theorem Makeable.unlocked {t : Tree} (hm : Makeable h t l) (hnone : t.find? l = none) :
    h.locked l.dropLast = none := by
  rw [Makeable, askFile, hnone] at hm
  exact askEntry_eq_ok.1 hm

theorem makeable_of_unlocked {t : Tree} (hl : h.locked l.dropLast = none) : Makeable h t l := by
  unfold Makeable askFile
  split
  · exact askEntry_of_unlocked hl
  · exact askVolume_of_unlocked hl
  · exact askVolume_of_unlocked hl
  · rfl

theorem ends_askFile_bind {α : Type} {t : Tree} {rest : Attempt IoError α}
    {Q : Except IoError α → World → Prop} (hmake : Makeable h t l) (hrest : Ends w rest Q) :
    Ends w (do
      askFile h t l
      rest : Attempt IoError α) Q := by
  rw [show askFile h t l = .ok () from hmake]
  exact hrest

/-! ## Making a file -/

/-- Nothing keeps an empty file from being made where a path aims. -/
structure CanCreate (h : Host) (t : Tree) (p : String) (l : Location) : Prop where
  leads : locate h t false p = .ok l
  noDirectory : t.find? l ≠ some .directory
  makeable : Makeable h t l

/-- Where nothing stands, in a directory that is not locked, a file is made. -/
theorem create_new (hl : locate h w.tree true p = .ok l) (hslash : Path.endsInSlash p = false)
    (hnone : w.tree.find? l = none) (hunlocked : h.locked l.dropLast = none) :
    Ends w (create h p) fun r w' => r = .ok ⟨some l, h.room l⟩ ∧
      w'.tree = w.tree.apply (.put l (.file [])) := by
  unfold create
  apply ends_get_bind
  apply ends_except_bind
  · intro l' hl'
    cases hl.symm.trans hl'
    rw [hslash, hnone]
    exact ends_askFile_bind (makeable_of_unlocked hunlocked) (ends_tell_bind (ends_pure ⟨rfl, rfl⟩))
  · intro e he
    cases hl.symm.trans he

/-- An empty file is made exactly where nothing keeps it from being made. -/
theorem create_ends (ha : Aims h w.tree p l)
    (hl : locate h w.tree false p = .ok l → w.tree.IsPlain l) :
    Ends w (create h p) fun r w' =>
      (∀ sink, r = .ok sink → CanCreate h w.tree p l ∧ Takes (.put l (.file [])) w w' ∧
        sink = ⟨some l, h.room l⟩) ∧
      (∀ e, r = .error e → Same w w' ∧ ¬ CanCreate h w.tree p l) := by
  unfold create
  apply ends_get_bind
  apply ends_except_bind
  · intro place hplace
    obtain ⟨rfl, hfalse⟩ := ha.locate_true (fun hp => (hl hp).ne_link) hplace
    rw [ha.endsInSlash, if_neg Bool.false_ne_true]
    apply ends_except_bind
    · intro _ hmake
      by_cases hdir : w.tree.find? place = some .directory
      · rw [hdir]
        exact ends_throw ⟨by rintro _ ⟨⟩, fun _ _ => ⟨.refl w, fun hc => hc.noDirectory hdir⟩⟩
      · -- Nothing or a file stands there, and an empty file is put in its place.
        have hput : Ends w (do
            World.take (.put place (.file []))
            return ⟨some place, h.room place⟩ : Attempt IoError Sink) fun r w' =>
            (∀ sink, r = .ok sink → CanCreate h w.tree p place ∧
              Takes (.put place (.file [])) w w' ∧ sink = ⟨some place, h.room place⟩) ∧
            (∀ e, r = .error e → Same w w' ∧ ¬ CanCreate h w.tree p place) := by
          refine ends_tell_bind (ends_pure ⟨?_, by rintro _ ⟨⟩⟩)
          rintro _ ⟨⟩
          exact ⟨⟨hfalse, hdir, hmake⟩, World.takes_take, rfl⟩
        rcases hn : w.tree.find? place with _ | node
        · exact hput
        · rcases hl hfalse with hn' | hn' | ⟨bytes, hn'⟩
          · cases hn.symm.trans hn'
          · exact absurd hn' hdir
          · cases hn.symm.trans hn'
            exact hput
    · intro e he
      refine ⟨by rintro _ ⟨⟩, fun _ _ => ⟨.refl w, fun hc => ?_⟩⟩
      cases hc.makeable.symm.trans he
  · intro e he
    refine ⟨by rintro _ ⟨⟩, fun _ _ => ⟨.refl w, fun hc => ?_⟩⟩
    rw [locate_true_of_false hc.leads (hl hc.leads).ne_link] at he
    cases he

/-- A device that refuses every byte is opened, but not a byte can be written to it. -/
theorem create_fullDevice (ha : Aims h w.tree p l) (hl : w.tree.find? l = some .fullDevice) :
    Gives w (create h p) fun sink _ => sink.room = some (0, .system .full) := by
  unfold create
  apply ends_get_bind
  apply gives_except_bind
  intro place hplace
  obtain ⟨rfl, -⟩ := ha.locate_true (by simp [hl]) hplace
  rw [ha.endsInSlash, if_neg Bool.false_ne_true]
  apply gives_except_bind
  intro _ _
  simp only [hl]
  exact gives_pure rfl

/-! ## Writing to a sink -/

/-- A sink with a file adds all it is given to it. -/
theorem Sink.run_grow {s : Sink} (hs : s.place = some l)
    (hfile : w.tree.find? l = some (.file done)) (bytes : Bytes) :
    Works (Step.Fills l) w ((s.grow bytes).run w).2 ∧
      ((s.grow bytes).run w).2.tree.find? l = some (.file (done ++ bytes)) := by
  unfold Sink.grow
  rw [hs]
  by_cases hb : bytes.isEmpty
  · have hbytes : bytes = [] := by simpa using hb
    simp only [hbytes, List.isEmpty_nil, if_true, List.append_nil]
    exact ⟨.refl w, hfile⟩
  · simp only [hb, Bool.false_eq_true, if_false]
    refine ⟨World.takes_take.works rfl, ?_⟩
    rw [World.takes_take.tree, Tree.find?_extend, if_pos rfl, hfile]
    rfl

/-- Bytes are added to the file of a sink, all of them if nothing limits it. -/
theorem write_ends {s : Sink} (hs : s.place = some l)
    (hfile : w.tree.find? l = some (.file done)) :
    Ends w (write s bytes) fun r w' => Works (Step.Fills l) w w' ∧
      (∀ s', r = .ok s' → s'.place = some l ∧
        w'.tree.find? l = some (.file (done ++ bytes)) ∧ (s.room = none → s'.room = none)) ∧
      (∀ e, r = .error e → s.room ≠ none) := by
  have hgrow := Sink.run_grow hs hfile
  unfold write
  -- Without a limit all is written; with one, as much as there is room for.
  rcases hroom : s.room with _ | ⟨room, e⟩
  · apply ends_tell_bind
    refine ends_pure ⟨(hgrow bytes).1, ?_, by rintro _ ⟨⟩⟩
    intro _ he
    cases he
    exact ⟨hs, (hgrow bytes).2, fun _ => hroom⟩
  · simp only
    split
    · apply ends_tell_bind
      refine ends_pure ⟨(hgrow bytes).1, ?_, by rintro _ ⟨⟩⟩
      intro _ he
      cases he
      exact ⟨hs, (hgrow bytes).2, by rintro ⟨⟩⟩
    · apply ends_tell_bind
      exact ends_throw ⟨(hgrow _).1, by rintro _ ⟨⟩, by rintro _ _ ⟨⟩⟩

/-! ## Writing through a buffer -/

namespace Writer

variable {wr : Writer}

/-- The file at `l` and the bytes that wait make up `bs`. -/
structure Holds (wr : Writer) (t : Tree) (l : Location) (bs : Bytes) : Prop where
  place : wr.sink.place = some l
  bytes : ∃ done, t.find? l = some (.file done) ∧ done ++ wr.waiting = bs

/-- Nothing limits what is written. -/
def IsFree (wr : Writer) : Prop := wr.sink.room = none

/-- The writer took the bytes `bs` or failed, which one without limits does not. -/
def Took (wr : Writer) (l : Location) (bs : Bytes) (r : Except IoError Writer) (w' : World) :
    Prop :=
  (∀ wr', r = .ok wr' → wr'.Holds w'.tree l bs ∧ (wr.IsFree → wr'.IsFree)) ∧
    (∀ e, r = .error e → ¬ wr.IsFree)

theorem flush_ends (hw : wr.Holds w.tree l bs) :
    Ends w wr.flush fun r w' => Works (Step.Fills l) w w' ∧ wr.Took l bs r w' ∧
      ∀ wr', r = .ok wr' → wr'.waiting = [] := by
  obtain ⟨hs, done, hfile, hbs⟩ := hw
  unfold flush
  apply ends_bind (write_ends hs hfile)
  · intro s' w' hr
    obtain ⟨hworks, hok, -⟩ := hr
    obtain ⟨hs', hfile', hfree⟩ := hok s' rfl
    refine ends_pure ⟨hworks, ⟨?_, by rintro _ ⟨⟩⟩, by rintro _ ⟨⟩; rfl⟩
    intro _ he
    cases he
    exact ⟨⟨hs', _, hfile', by rw [List.append_nil, hbs]⟩, hfree⟩
  · intro e w' hr
    obtain ⟨hworks, -, herr⟩ := hr
    exact ⟨hworks, ⟨by rintro _ ⟨⟩, fun _ _ => herr e rfl⟩, by rintro _ ⟨⟩⟩

/-- A writer that is closed has all it was given in its file. -/
theorem close_ends (hw : wr.Holds w.tree l bs) :
    Ends w wr.close fun r w' => Works (Step.Fills l) w w' ∧
      (∀ u, r = .ok u → w'.tree.find? l = some (.file bs)) ∧ (∀ e, r = .error e → ¬ wr.IsFree) := by
  unfold close
  apply ends_bind (flush_ends hw)
  · intro wr' w' hflush
    obtain ⟨hworks, ⟨hok, -⟩, hwait⟩ := hflush
    obtain ⟨⟨hs, done, hdone, hbytes⟩, -⟩ := hok wr' rfl
    rw [hwait wr' rfl, List.append_nil] at hbytes
    unfold sync
    rw [hs]
    exact ends_pure ⟨hworks, fun _ _ => by rw [hdone, hbytes], by rintro _ ⟨⟩⟩
  · intro e w' hflush
    obtain ⟨hworks, ⟨-, herr⟩, -⟩ := hflush
    exact ⟨hworks, by rintro _ ⟨⟩, fun _ _ => herr e rfl⟩

/-- The buffer is made ready first, then the bytes are taken. -/
theorem push_eq (wr : Writer) (bytes : Bytes) :
    wr.push bytes =
      (if capacity < wr.waiting.length + bytes.length then wr.flush else pure wr) >>= fun wr =>
        if capacity ≤ bytes.length then write wr.sink bytes >>= fun s => pure { wr with sink := s }
        else pure { wr with waiting := wr.waiting ++ bytes } := by
  unfold push
  by_cases h : capacity < wr.waiting.length + bytes.length
  · rw [if_pos h, if_pos h]
  · rw [if_neg h, if_neg h]

/-- More bytes are taken behind those that were taken before. -/
theorem push_ends (hw : wr.Holds w.tree l bs) (bytes : Bytes) :
    Ends w (wr.push bytes) fun r w' =>
      Works (Step.Fills l) w w' ∧ wr.Took l (bs ++ bytes) r w' := by
  -- Bytes that would fill the buffer on their own find it empty.
  have hready : Ends w (if capacity < wr.waiting.length + bytes.length then wr.flush else pure wr)
      fun r w' => Works (Step.Fills l) w w' ∧ wr.Took l bs r w' ∧
        ∀ wr', r = .ok wr' → capacity ≤ bytes.length → wr'.waiting = [] := by
    split
    · refine ends_imp (flush_ends hw) ?_
      intro r w' hr
      obtain ⟨hworks, htook, hwait⟩ := hr
      exact ⟨hworks, htook, fun wr' hr _ => hwait wr' hr⟩
    · refine ends_pure ⟨.refl w, ⟨?_, by rintro _ ⟨⟩⟩, ?_⟩
      · intro _ he
        cases he
        exact ⟨hw, id⟩
      · intro _ he hlong
        cases he
        have hwait : wr.waiting.length = 0 := by omega
        exact List.length_eq_zero_iff.1 hwait
  rw [push_eq]
  apply ends_bind hready
  · intro wr₁ w₁ hr
    obtain ⟨hworks₁, ⟨hok, -⟩, hwait⟩ := hr
    obtain ⟨⟨hs, done, hfile, hbs⟩, hfree⟩ := hok wr₁ rfl
    -- A long piece goes to the file at once; a short one waits behind those that wait already.
    by_cases hlong : capacity ≤ bytes.length
    · rw [if_pos hlong]
      have hwait := hwait wr₁ rfl hlong
      rw [hwait, List.append_nil] at hbs
      apply ends_bind (write_ends hs hfile)
      · intro s' w' hr
        obtain ⟨hworks, hok', -⟩ := hr
        obtain ⟨hs', hfile', hroom⟩ := hok' s' rfl
        refine ends_pure ⟨hworks₁.trans hworks, ?_, by rintro _ ⟨⟩⟩
        intro _ he
        cases he
        have hbytes : (done ++ bytes) ++ wr₁.waiting = bs ++ bytes := by
          rw [hwait, List.append_nil, hbs]
        exact ⟨⟨hs', _, hfile', hbytes⟩, fun hf => hroom (hfree hf)⟩
      · intro e w' hr
        obtain ⟨hworks, -, herr⟩ := hr
        exact ⟨hworks₁.trans hworks, by rintro _ ⟨⟩, fun _ _ hf => herr e rfl (hfree hf)⟩
    · rw [if_neg hlong]
      refine ends_pure ⟨hworks₁, ?_, by rintro _ ⟨⟩⟩
      intro _ he
      cases he
      have hbytes : done ++ (wr₁.waiting ++ bytes) = bs ++ bytes := by
        rw [← List.append_assoc, hbs]
      exact ⟨⟨hs, done, hfile, hbytes⟩, hfree⟩
  · intro e w₁ hr
    obtain ⟨hworks₁, ⟨-, herr⟩, -⟩ := hr
    exact ⟨hworks₁, by rintro _ ⟨⟩, fun _ _ => herr e rfl⟩

/-! ## Writers that take nothing -/

/-- Not a single byte can be written. -/
def IsStuck (wr : Writer) : Prop := ∃ e, wr.sink.room = some (0, e)

/-- What is written without room is nothing. -/
theorem write_stuck {s : Sink} {e : IoError} (hs : s.room = some (0, e)) :
    Gives w (write s bytes) fun s' _ => bytes = [] ∧ s'.room = some (0, e) := by
  unfold write
  rw [hs]
  by_cases hb : bytes.length ≤ 0
  · simp only [if_pos hb]
    have hbytes : bytes = [] := List.length_eq_zero_iff.1 (Nat.le_zero.1 hb)
    apply ends_tell_bind
    exact gives_pure ⟨hbytes, by rw [hbytes]; rfl⟩
  · simp only [if_neg hb]
    apply ends_tell_bind
    exact gives_throw

theorem flush_stuck (hw : wr.IsStuck) :
    Gives w wr.flush fun wr' _ => wr.waiting = [] ∧ wr'.waiting = [] ∧ wr'.IsStuck := by
  obtain ⟨e, he⟩ := hw
  unfold flush
  refine gives_bind (write_stuck he) fun s' w' hs' => ?_
  obtain ⟨hwait, hroom⟩ := hs'
  exact gives_pure ⟨hwait, rfl, e, hroom⟩

/-- A buffer that cannot be written holds all it ever took. -/
theorem push_stuck (hw : wr.IsStuck) :
    Gives w (wr.push bytes) fun wr' _ => wr'.IsStuck ∧ wr'.waiting = wr.waiting ++ bytes := by
  have hready : Gives w
      (if capacity < wr.waiting.length + bytes.length then wr.flush else pure wr)
      fun wr' _ => wr'.IsStuck ∧ wr'.waiting = wr.waiting := by
    split
    · refine gives_imp (flush_stuck hw) fun wr' w' hr => ?_
      obtain ⟨hbefore, hafter, hstuck⟩ := hr
      exact ⟨hstuck, hafter.trans hbefore.symm⟩
    · exact gives_pure ⟨hw, rfl⟩
  rw [push_eq]
  refine gives_bind hready fun wr₁ w₁ hr => ?_
  obtain ⟨⟨e, he⟩, hwait⟩ := hr
  split
  · refine gives_bind (write_stuck he) fun s' w' hs' => ?_
    obtain ⟨hbytes, hroom⟩ := hs'
    exact gives_pure ⟨⟨e, hroom⟩, by rw [hbytes, List.append_nil, ← hwait]⟩
  · exact gives_pure ⟨⟨e, he⟩, by rw [← hwait]⟩

end Writer

end Disk

end FileListCache
