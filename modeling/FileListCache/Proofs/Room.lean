/-
  FileListCache.Proofs.Room

  How much room a copy needs. A writer behind a buffer may notice late that the disk is full, but
  not too late: what was written to its end fits, and what could not be written does not
  (`Writer.Spends`). So an archive is rewritten exactly if its copy has room and may take its
  place (`inPlace_ok_iff`); nothing else on the disk decides it.
-/

import FileListCache.Proofs.Rewriting
import Mathlib.Algebra.GroupWithZero.Nat

namespace FileListCache

open Archive (Member)
open Disk (Aims Sink Writer locate)
open World (Same)

variable {ε α : Type} {h : Host} {w : World} {p q : String} {lp lq : Location} {m n : Nat}

/-- A new file at the place takes that many bytes. -/
def Host.HasRoom (h : Host) (l : Location) (n : Nat) : Prop :=
  ∀ room e, h.room l = some (room, e) → n ≤ room

namespace Disk

/-! ## Sinks -/

/-- The sink takes that many more bytes. -/
def Sink.HasRoom (s : Sink) (n : Nat) : Prop := ∀ room e, s.room = some (room, e) → n ≤ room

theorem Sink.HasRoom.mono {s : Sink} (hs : s.HasRoom n) (hmn : m ≤ n) : s.HasRoom m :=
  fun room e he => hmn.trans (hs room e he)

theorem Sink.hasRoom_iff {s : Sink} {room : Nat} {e : IoError} (hs : s.room = some (room, e)) :
    s.HasRoom n ↔ n ≤ room := by
  constructor
  · intro hr
    exact hr room e hs
  · intro hle room' e' hs'
    cases hs.symm.trans hs'
    exact hle

/-- What is written had room, and takes up its length of it. -/
theorem write_room (s : Sink) (bytes : Bytes) :
    Ends w (write s bytes) fun r _ =>
      (∀ s', r = .ok s' → s.HasRoom bytes.length ∧
        ∀ k, s'.HasRoom k ↔ s.HasRoom (bytes.length + k)) ∧
      (∀ e, r = .error e → ¬ s.HasRoom bytes.length) := by
  unfold write
  rcases hroom : s.room with _ | ⟨room, e⟩
  · apply ends_tell_bind
    refine ends_pure ⟨?_, by rintro _ ⟨⟩⟩
    intro _ he
    cases he
    simp [Sink.HasRoom, hroom]
  · simp only
    split
    · rename_i hle
      apply ends_tell_bind
      refine ends_pure ⟨?_, by rintro _ ⟨⟩⟩
      intro _ he
      cases he
      refine ⟨(Sink.hasRoom_iff hroom).2 hle, fun k => ?_⟩
      rw [Sink.hasRoom_iff rfl, Sink.hasRoom_iff hroom]
      omega
    · rename_i hle
      apply ends_tell_bind
      refine ends_throw ⟨by rintro _ ⟨⟩, ?_⟩
      intro _ _ hs
      exact hle ((Sink.hasRoom_iff hroom).1 hs)

/-! ## Writers -/

namespace Writer

variable {wr : Writer}

/-- The writer takes that many more bytes, once all that waits is written. -/
def HasRoom (wr : Writer) (n : Nat) : Prop := wr.sink.HasRoom (wr.waiting.length + n)

/-- A part of the work that gives the writer `n` bytes ends well only if room is left for just as
much as before without them, and fails only if they have no room. -/
def Spends (wr : Writer) (n : Nat) (r : Except ε Writer) : Prop :=
  (∀ wr', r = .ok wr' → ∀ k, wr'.HasRoom k ↔ wr.HasRoom (n + k)) ∧
    ∀ e, r = .error e → ¬ wr.HasRoom n

theorem HasRoom.mono (hw : wr.HasRoom n) (hmn : m ≤ n) : wr.HasRoom m :=
  Sink.HasRoom.mono hw (by omega)

theorem spends_ok {wr' : Writer} (hw : ∀ k, wr'.HasRoom k ↔ wr.HasRoom (n + k)) :
    wr.Spends n (.ok wr' : Except ε Writer) := by
  refine ⟨?_, by rintro _ ⟨⟩⟩
  intro _ he
  cases he
  exact hw

theorem spends_error {e : ε} (hw : ¬ wr.HasRoom n) : wr.Spends n (.error e) :=
  ⟨by rintro _ ⟨⟩, fun _ _ => hw⟩

theorem flush_room (wr : Writer) :
    Ends w wr.flush fun r _ => wr.Spends 0 r ∧ ∀ wr', r = .ok wr' → wr.HasRoom 0 := by
  unfold flush
  apply ends_bind (write_room wr.sink wr.waiting)
  · intro s' w' hr
    obtain ⟨hhad, hleft⟩ := hr.1 s' rfl
    refine ends_pure ⟨spends_ok fun k => ?_, fun _ _ => hhad⟩
    rw [HasRoom, HasRoom, Nat.zero_add, List.length_nil, Nat.zero_add, hleft]
  · intro e w' hr
    exact ⟨spends_error (hr.2 e rfl), by rintro _ ⟨⟩⟩

/-- Work in two parts spends what both spend. -/
theorem spends_bind {x : Attempt ε Writer} {f : Writer → Attempt ε Writer}
    (hx : Ends w x fun r _ => wr.Spends m r)
    (hf : ∀ wr' w', Ends w' (f wr') fun r _ => wr'.Spends n r) :
    Ends w (x >>= f) fun r _ => wr.Spends (m + n) r := by
  apply ends_bind hx
  · intro wr' w' hspent
    have hleft := hspent.1 wr' rfl
    refine ends_imp (hf wr' w') fun r _ hr => ?_
    cases r with
    | ok wr'' => exact spends_ok fun k => by rw [hr.1 wr'' rfl, hleft, Nat.add_assoc]
    | error e => exact spends_error fun hroom => hr.2 e rfl ((hleft n).2 hroom)
  · intro e w' hspent
    exact spends_error fun hroom => hspent.2 e rfl (hroom.mono (Nat.le_add_right m n))

theorem push_room (wr : Writer) (bytes : Bytes) :
    Ends w (wr.push bytes) fun r _ => wr.Spends bytes.length r := by
  have hready : Ends w (if capacity < wr.waiting.length + bytes.length then wr.flush else pure wr)
      fun r _ => wr.Spends 0 r := by
    split
    · exact ends_imp (flush_room wr) fun _ _ hr => hr.1
    · exact ends_pure (spends_ok fun k => by rw [Nat.zero_add])
  have hpush : Ends w (wr.push bytes) fun r _ => wr.Spends (0 + bytes.length) r := by
    rw [push_eq]
    refine spends_bind hready fun wr₁ w₁ => ?_
    split
    · apply ends_bind (write_room wr₁.sink bytes)
      · intro s' w' hr
        obtain ⟨-, hleft⟩ := hr.1 s' rfl
        refine ends_pure (spends_ok fun k => ?_)
        rw [HasRoom, HasRoom, hleft]
        dsimp only
        rw [Nat.add_left_comm]
      · intro e w' hr
        exact spends_error fun hroom => hr.2 e rfl (Sink.HasRoom.mono hroom (by omega))
    · refine ends_pure (spends_ok fun k => ?_)
      rw [HasRoom, HasRoom, List.length_append, Nat.add_assoc]
  rwa [Nat.zero_add] at hpush

/-- A loop spends what its rounds spend. -/
theorem spends_foldlM {f : Writer → α → Attempt ε Writer} {size : α → Nat} (as : List α)
    (hf : ∀ a ∈ as, ∀ wr w, Ends w (f wr a) fun r _ => wr.Spends (size a) r) (wr : Writer)
    (w : World) : Ends w (as.foldlM f wr) fun r _ => wr.Spends (as.map size).sum r := by
  induction as generalizing wr w with
  | nil => exact ends_pure (spends_ok fun k => by rw [List.map_nil, List.sum_nil, Nat.zero_add])
  | cons a as ih =>
    rw [List.foldlM_cons, List.map_cons, List.sum_cons]
    exact spends_bind (hf a List.mem_cons_self wr w)
      (ih fun a' ha' => hf a' (List.mem_cons_of_mem a ha'))

end Writer

end Disk

/-! ## Copies -/

namespace Transcode

open Disk.Writer (spends_bind spends_error spends_foldlM spends_ok)

theorem put_room (wr : Writer) (bytes : Bytes) :
    Ends w (put wr bytes) fun r _ => wr.Spends bytes.length r := by
  apply ends_adapt
  refine ends_imp (wr.push_room bytes) fun r _ hr => ?_
  cases r with
  | ok wr' => exact spends_ok (hr.1 wr' rfl)
  | error e => exact spends_error (hr.2 e rfl)

/-- A sound member needs as much room as it has bytes. -/
theorem copyMember_room {arrival : Bytes.Arrival} {member : Member} (hm : IsSound member)
    (wr : Writer) (w : World) :
    Ends w (copyMember arrival wr member) fun r _ => wr.Spends member.bytes.length r := by
  have hlength : member.bytes.length = member.header.bytes.length +
      (((arrival.pieces member.payload).map List.length).sum +
        (List.replicate (Member.paddingOf member.payload.length) (0 : UInt8)).length) := by
    rw [← List.length_flatten, Bytes.Arrival.flatten_pieces]
    simp only [Member.bytes, List.length_append, Nat.add_assoc]
  rw [copyMember_eq]
  apply ends_note_bind
  intro w₁ _
  rw [hlength]
  refine spends_bind (put_room wr _) fun wr₂ w₂ => ?_
  refine spends_bind (spends_foldlM _ (fun bytes _ wr w => put_room wr bytes) wr₂ w₂)
    fun wr₃ w₃ => ?_
  -- Neither the payload nor its end stops the copy.
  rw [hm.2]
  simp only [hm.1, if_true]
  rw [bind_pure]
  exact put_room wr₃ _

/-- The end of a copy is written exactly if there is room for it. -/
theorem finish_room (wr : Writer) (w : World) :
    Ends w (finish wr) fun r _ => r = .ok () ↔ wr.HasRoom Archive.ending.length := by
  unfold finish
  apply ends_bind (put_room wr Archive.ending)
  · intro wr₁ w₁ hspent
    have hroom := hspent.1 wr₁ rfl 0
    rw [Nat.add_zero] at hroom
    rw [← hroom]
    apply ends_adapt_bind wr₁.flush_room
    · intro wr' w' hr
      exact ends_pure ⟨fun _ => hr.2 wr' rfl, fun _ => rfl⟩
    · intro e w' hr
      exact ⟨by rintro ⟨⟩, fun hroom => absurd hroom (hr.1.2 e rfl)⟩
  · intro f w₁ hspent
    exact ⟨by rintro ⟨⟩, fun hroom => absurd hroom (hspent.2 f rfl)⟩

/-- A stream that is read to its end is copied exactly if there is room for its members. -/
theorem copyStream_room {arrival : Bytes.Arrival} {s : Archive.Stream} {ms : List Member}
    (hms : Archive.members s = (ms, none)) (wr : Writer) (w : World) :
    Ends w (copyStream arrival s wr) fun r _ =>
      (∃ report, r = .ok report) ↔ wr.HasRoom (Archive.bytesOf ms).length := by
  have hsound : ∀ m ∈ ms, IsSound m := (Archive.layout_of_membersFrom hms).1.isWhole
  have hlength : (Archive.bytesOf ms).length =
      (ms.map fun m => m.bytes.length).sum + Archive.ending.length := by
    rw [Archive.bytesOf, List.length_append, List.length_flatten, List.map_map]
    rfl
  unfold copyStream
  rw [hms, hlength]
  dsimp only
  apply ends_bind (spends_foldlM ms (fun m hm => copyMember_room (hsound m hm)) wr w)
  · intro wr₁ w₁ hspent
    rw [← hspent.1 wr₁ rfl]
    apply ends_bind (finish_room wr₁ w₁)
    · intro u w' hr
      exact ends_pure ⟨fun _ => hr.1 rfl, fun _ => ⟨_, rfl⟩⟩
    · intro e w' hr
      refine ⟨?_, fun hroom => ?_⟩
      · rintro ⟨report, ⟨⟩⟩
      · cases hr.2 hroom
  · intro e w₁ hspent
    refine ⟨?_, fun hroom => absurd (hroom.mono (Nat.le_add_right _ _)) (hspent.2 e rfl)⟩
    rintro ⟨report, ⟨⟩⟩

/-! ## Archives -/

/-- A copy can be begun: the first path leads to a file that is not empty, and nothing keeps a file
from being made where the second aims. -/
structure Begins (h : Host) (t : Tree) (p q : String) (lp lq : Location) (contents : Bytes) :
    Prop where
  source : locate h t false p = .ok lp
  copy : Disk.CanCreate h t q lq
  file : t.find? lp = some (.file contents)
  nonempty : contents ≠ []

/-- What a copy that can be begun comes to is decided by what is read and by the writer. -/
theorem copyArchive_begins {contents : Bytes} {Q : Except ArchiveError Report → Prop}
    (hb : Beside h w.tree p q lp lq) (hr : Begins h w.tree p q lp lq contents)
    (hQ : ∀ w₁, Writer.Holds { sink := ⟨some lq, h.room lq⟩ } w₁.tree lq [] →
      Ends w₁ (copyStream h.arrival (.ofContents
        (Compression.detect (contents.take Compression.signatureLength)) contents)
          { sink := ⟨some lq, h.room lq⟩ }) fun r _ =>
        (∀ report, r = .ok report → Q (.ok report)) ∧
          (∀ e, r = .error (.destination e) → Q (.error (.write q e))) ∧
          ∀ e wr, r = .error (.source e wr) → Q (.error (.read p e))) :
    Ends w (copyArchive h p q) fun r _ => Q r := by
  have hl := Disk.locate_true_of_false hr.source (hb.plainSource hr.source).ne_link
  have hq₀ : lq ≠ [] := hb.apart.symm.ne_nil
  unfold copyArchive
  apply ends_bind (Archive.openAt_ends hb.undisturbed)
  · intro o w₁ hopened
    obtain ⟨hsame, hok, -⟩ := hopened
    obtain ⟨l, contents', hl', hc', -, hcompression, hsource⟩ := hok o rfl
    cases hl.symm.trans hl'
    cases hr.file.symm.trans hc'
    have hb₁ : Beside h w₁.tree p q lp lq := by rwa [hsame.tree]
    apply ends_adapt_bind (Disk.create_ends hb₁.copy hb₁.plainCopy)
    · intro sink w₂ hcreated
      obtain ⟨-, htakes, rfl⟩ := hcreated.1 sink rfl
      have hcontent : w₂.tree.find? lp = some (.file contents) := by
        rw [htakes.tree, Tree.find?_put hq₀, if_neg hb.apart.ne, hsame.tree, hr.file]
      have hstream : o.stream w₂.tree = .ofContents
          (Compression.detect (contents.take Compression.signatureLength)) contents := by
        simp only [Archive.Opened.stream, hsource, Disk.contentOf, hcontent, hcompression]
      have hempty : w₂.tree.find? lq = some (.file []) := by
        rw [htakes.tree, Tree.find?_put hq₀, if_pos rfl]
      apply ends_get_bind
      rw [hstream]
      apply ends_outcome_bind
      refine ends_imp (hQ w₂ ⟨rfl, [], hempty, rfl⟩) ?_
      rintro ((⟨e, wr⟩ | e) | report) w₃ ⟨hdone, hdestination, hsource⟩
      · apply ends_discard_bind
        apply ends_outcome_bind
        exact ends_imp (R := fun _ _ => True) trivial fun _ _ _ => ends_throw (hsource e wr rfl)
      · exact ends_throw (hdestination e rfl)
      · exact ends_pure (hdone report rfl)
    · intro e w₂ hcreated
      obtain ⟨-, hcan⟩ := hcreated.2 e rfl
      rw [hsame.tree] at hcan
      exact absurd hr.copy hcan
  · intro e w₁ hopened
    exact absurd ((hopened.2.2 e rfl).2 lp contents hl hr.file) hr.nonempty

/-- With its paths in order, an archive is copied exactly if there is room for its members. -/
theorem copyArchive_ok_iff {ms : List Member} (hb : Beside h w.tree p q lp lq)
    (hr : Ready h w.tree p q lp lq ms) :
    Ends w (copyArchive h p q) fun r _ =>
      (∃ report, r = .ok report) ↔ h.HasRoom lq (Archive.bytesOf ms).length := by
  obtain ⟨contents, hc, haccepts⟩ := hr.accepted
  have hroom : Disk.Writer.HasRoom { sink := ⟨some lq, h.room lq⟩ }
      (Archive.bytesOf ms).length ↔ h.HasRoom lq (Archive.bytesOf ms).length := by
    rw [Disk.Writer.HasRoom, List.length_nil, Nat.zero_add]
    rfl
  refine copyArchive_begins hb ⟨hr.source, hr.copy, hc, haccepts.1⟩ fun w₁ _ => ?_
  refine ends_imp (copyStream_room haccepts.2 _ w₁) fun r _ hcopied => ?_
  rw [← hroom, ← hcopied]
  refine ⟨?_, ?_, ?_⟩
  · rintro report rfl
    simp
  · rintro e rfl
    simp
  · rintro e wr rfl
    simp

/-- With its paths in order, an archive is rewritten exactly if there is room for its members and
the system lets the copy take its place. -/
theorem inPlace_ok_iff {ms : List Member} (hb : Beside h w.tree p (copyPath p) lp lq)
    (hr : Ready h w.tree p (copyPath p) lp lq ms) :
    Ends w (inPlace h p) fun r _ => (∃ report, r = .ok report) ↔
      h.HasRoom lq (Archive.bytesOf ms).length ∧ h.Moves lq lp := by
  unfold inPlace
  refine ends_bind (ends_and (R := fun r _ =>
    (∃ report, r = .ok report) ↔ h.HasRoom lq (Archive.bytesOf ms).length) (tryCopy_ends hb) ?_)
    ?_ ?_
  · apply ends_catch (copyArchive_ok_iff hb hr)
    · exact fun report w₁ hcopied => hcopied
    · -- A copy that fails is removed, and fails still.
      intro e w₁ hcopied
      apply Files.ends_noted
      refine ends_imp (R := fun _ _ => True) trivial fun _ _ _ _ _ => ends_throw ?_
      rw [← hcopied]
  · intro report w₁ hcopied
    obtain ⟨⟨hok, -⟩, hroom⟩ := hcopied
    obtain ⟨ms', rfl, halike, hcomplete⟩ := hok report rfl
    have hroom := hroom.1 ⟨_, rfl⟩
    have hcopy₁ : Aims h w₁.tree (copyPath p) lq := hb.copy.fades halike.1
    have hsource₁ : Aims h w₁.tree p lp := hb.source.fades halike.1
    apply ends_adapt_bind (Disk.rename_ends hcopy₁ hsource₁ hb.apart.symm.ne hcomplete.copy)
    · intro u w₂ hmoved
      obtain ⟨-, -, -, hmoves, -⟩ := hmoved.1 rfl
      apply ends_note_bind
      intro w₃ _
      exact ends_pure ⟨fun _ => ⟨hroom, hmoves⟩, fun _ => ⟨_, rfl⟩⟩
    · intro e w₂ hmoved
      obtain ⟨-, hkept⟩ := hmoved.2 e rfl
      refine ⟨?_, fun hfree => absurd hfree.2 (hkept ?_ ?_ ?_)⟩
      · rintro ⟨_, ⟨⟩⟩
      · exact hb.copy.alike halike hcomplete.ready.copy.leads
      · exact hb.source.alike halike hcomplete.ready.source
      · obtain ⟨contents, hc, -⟩ := hcomplete.ready.accepted
        rw [hcomplete.works.find?_of_fills hb.apart.symm.ne_nil hb.apart.ne, hc]
        simp
  · intro e w₁ hcopied
    obtain ⟨-, hroom⟩ := hcopied
    refine ⟨?_, fun hfree => ?_⟩
    · rintro ⟨_, ⟨⟩⟩
    · obtain ⟨_, ⟨⟩⟩ := hroom.2 hfree.1

end Transcode

end FileListCache
