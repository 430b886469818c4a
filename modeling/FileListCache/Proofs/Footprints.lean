/-
  FileListCache.Proofs.Footprints

  What writing can touch, whatever the disk holds. `Treads S x J` says that the attempt `x` takes
  steps of the kind `S` only, in whichever world it starts, and that `J` holds of its outcome.
  A writer never changes the file that it writes to, so a transfer and a copy only add to the one
  place of their sink (`Step.Adds`), and to none at all where that is a device.
-/

import FileListCache.Proofs.Appending
import FileListCache.Proofs.Fetching

namespace FileListCache

open FileListCache.Tree (Step)
open World (Works Same Quiet)

variable {ε ε' α β : Type} {S : Step → Prop} {J : Except ε α → Prop}

/-- The step adds to the file at the place, if there is one. -/
def Tree.Step.Adds (place : Option Location) : Step → Prop
  | .extend l _ => place = some l
  | _ => False

theorem Tree.Step.Adds.exists_extend {place : Option Location} {s : Step} (hs : s.Adds place) :
    ∃ p bytes, place = some p ∧ s = .extend p bytes := by
  cases s with
  | extend p bytes => exact ⟨p, bytes, hs, rfl⟩
  | put p node => exact hs.elim
  | remove p => exact hs.elim
  | move source target => exact hs.elim

/-- Whatever the world, the attempt takes steps of one kind only, and `J` holds of its outcome. -/
def Treads (S : Step → Prop) (x : Attempt ε α) (J : Except ε α → Prop) : Prop :=
  ∀ w, Ends w x fun r w' => Works S w w' ∧ J r

/-! ## Ways of putting attempts together -/

namespace Treads

theorem imp {x : Attempt ε α} {J' : Except ε α → Prop} (hx : Treads S x J')
    (h : ∀ r, J' r → J r) : Treads S x J := fun w =>
  ends_imp (hx w) fun r _ hr => ⟨hr.1, h r hr.2⟩

theorem pure {a : α} (h : J (.ok a)) : Treads S (pure a) J := fun w => ends_pure ⟨.refl w, h⟩

theorem throw {e : ε} (h : J (.error e)) : Treads S (throw e) J := fun w =>
  ends_throw ⟨.refl w, h⟩

/-- Nothing comes after a failure. -/
theorem throw_bind {e : ε} {f : β → Attempt ε α} (h : J (.error e)) :
    Treads S (MonadExcept.throw e >>= f) J := fun w =>
  have hends : Ends w (MonadExcept.throw e) fun r w' => r = .error e ∧ Same w w' :=
    ends_throw ⟨rfl, .refl w⟩
  ends_bind hends (fun _ _ hr => nomatch hr.1) fun _ _ hr => by
    cases hr.1
    exact ⟨hr.2.works, h⟩

/-- A failure of the first part is a failure of the whole. -/
theorem bind {x : Attempt ε β} {f : β → Attempt ε α} {M : Except ε β → Prop}
    (hx : Treads S x M) (hok : ∀ b, M (.ok b) → Treads S (f b) J)
    (herr : ∀ e, M (.error e) → J (.error e)) : Treads S (x >>= f) J := fun w =>
  ends_bind (hx w)
    (fun b w' hr => ends_imp (hok b hr.2 w') fun _ _ hr' => ⟨hr.1.trans hr'.1, hr'.2⟩)
    fun e _ hr => ⟨hr.1, herr e hr.2⟩

theorem adapt {x : Attempt ε' α} {f : ε' → ε} {M : Except ε' α → Prop} (hx : Treads S x M)
    (h : ∀ r, M r → J (r.mapError f)) : Treads S (x.adapt f) J := fun w =>
  ends_adapt (ends_imp (hx w) fun r _ hr => ⟨hr.1, h r hr.2⟩)

/-- An attempt that states its failures in other words, with the rest. -/
theorem adapt_bind {x : Attempt ε' β} {f : ε' → ε} {g : β → Attempt ε α} {M : Except ε' β → Prop}
    (hx : Treads S x M) (hok : ∀ b, M (.ok b) → Treads S (g b) J)
    (herr : ∀ e, M (.error e) → J (.error (f e))) : Treads S (x.adapt f >>= g) J := fun w =>
  ends_adapt_bind (hx w)
    (fun b w' hr => ends_imp (hok b hr.2 w') fun _ _ hr' => ⟨hr.1.trans hr'.1, hr'.2⟩)
    fun e _ hr => ⟨hr.1, herr e hr.2⟩

/-- A failure that is looked at and not passed on. -/
theorem outcome_bind {x : Attempt ε' β} {f : Except ε' β → Attempt ε α} {M : Except ε' β → Prop}
    (hx : Treads S x M) (hf : ∀ r, M r → Treads S (f r) J) :
    Treads S (liftM x.run >>= f) J := fun w =>
  ends_outcome_bind (ends_imp (hx w) fun r w' hr =>
    ends_imp (hf r hr.2 w') fun _ _ hr' => ⟨hr.1.trans hr'.1, hr'.2⟩)

theorem discard_bind {x : Attempt ε β} {f : Unit → Attempt ε α}
    (h : Treads S (x >>= fun _ => f ()) J) : Treads S (discard x >>= f) J := fun w =>
  ends_discard_bind (h w)

/-- A computation that cannot fail. -/
theorem tell_bind {x : Run β} {f : β → Attempt ε α} (hx : ∀ w : World, Works S w (x.run w).2)
    (hf : ∀ b, Treads S (f b) J) : Treads S (liftM x >>= f) J := fun w =>
  ends_tell_bind (ends_imp (hf _ _) fun _ _ hr => ⟨(hx w).trans hr.1, hr.2⟩)

theorem note_bind {level : Level} {topic : Topic} {message : String} {f : Unit → Attempt ε α}
    (hf : Treads S (f ()) J) : Treads S (liftM (World.note level topic message) >>= f) J :=
  tell_bind (fun _ => World.same_note.works) fun _ => hf

/-- A loop keeps what each of its rounds keeps. -/
theorem foldlM {f : β → α → Attempt ε β} {M : Except ε β → Prop}
    (hf : ∀ b a, M (.ok b) → Treads S (f b a) M) (l : List α) (b : β) (hb : M (.ok b)) :
    Treads S (l.foldlM f b) M := by
  induction l generalizing b with
  | nil => exact .pure hb
  | cons a l ih =>
    rw [List.foldlM_cons]
    exact .bind (hf b a hb) ih fun _ he => he

end Treads

/-! ## Writing -/

namespace Disk

variable {place : Option Location} {s : Sink} {wr : Writer}

theorem Sink.works_grow (hs : s.place = place) (bytes : Bytes) (w : World) :
    Works (Step.Adds place) w ((s.grow bytes).run w).2 := by
  unfold Sink.grow
  rw [hs]
  cases place with
  | none => exact .refl w
  | some l =>
    dsimp only
    split
    · exact .refl w
    · exact World.takes_take.works rfl

/-- The sink goes on to have the same place. -/
theorem write_treads (hs : s.place = place) (bytes : Bytes) :
    Treads (Step.Adds place) (write s bytes) fun r => ∀ s', r = .ok s' → s'.place = place := by
  unfold write
  split
  · refine .tell_bind (Sink.works_grow hs _) fun _ => .pure ?_
    rintro _ ⟨⟩
    exact hs
  · split
    · refine .tell_bind (Sink.works_grow hs _) fun _ => .pure ?_
      rintro _ ⟨⟩
      exact hs
    · exact .tell_bind (Sink.works_grow hs _) fun _ => .throw (by rintro _ ⟨⟩)

namespace Writer

/-- The outcome is a failure or a writer to the place. -/
def WritesTo (place : Option Location) (r : Except ε Writer) : Prop :=
  ∀ wr, r = .ok wr → wr.sink.place = place

theorem writesTo_error (e : ε) : WritesTo place (.error e) := by
  rintro _ ⟨⟩

variable (hwr : wr.sink.place = place)
include hwr

theorem writesTo_ok : WritesTo place (.ok wr : Except ε Writer) := by
  rintro _ ⟨⟩
  exact hwr

theorem flush_treads : Treads (Step.Adds place) wr.flush (WritesTo place) := by
  unfold flush
  exact .bind (write_treads hwr _) (fun s hs => .pure (writesTo_ok (hs s rfl)))
    fun e _ => writesTo_error e

/-- Only a file can be closed. -/
theorem close_treads :
    Treads (Step.Adds place) wr.close fun r => ∀ u, r = .ok u → place ≠ none := by
  unfold close
  refine .bind (flush_treads hwr) (fun wr' hr => ?_) fun _ _ => by rintro _ ⟨⟩
  have hwr' : wr'.sink.place = place := hr wr' rfl
  unfold sync
  rw [hwr']
  cases place with
  | some l => exact .pure fun _ _ => by rintro ⟨⟩
  | none => exact .throw (by rintro _ ⟨⟩)

theorem push_treads (bytes : Bytes) :
    Treads (Step.Adds place) (wr.push bytes) (WritesTo place) := by
  rw [push_eq]
  have hready : Treads (Step.Adds place)
      (if capacity < wr.waiting.length + bytes.length then wr.flush else pure wr)
      (WritesTo place) := by
    split
    · exact flush_treads hwr
    · exact .pure (writesTo_ok hwr)
  refine .bind hready (fun wr' hr => ?_) fun e _ => writesTo_error e
  split
  · exact .bind (write_treads (hr wr' rfl) bytes) (fun s hs => .pure (writesTo_ok (hs s rfl)))
      fun e _ => writesTo_error e
  · exact .pure (writesTo_ok (hr wr' rfl))

end Writer

end Disk

/-! ## Transfers -/

namespace Fetcher

open Disk (Writer)

variable {place : Option Location} {wr : Writer} {f : Fetcher} {part filename : String}

theorem takeChunk_treads {total : Nat} (hf : f.IsPassive) (state : Writer × Nat) (chunk : Bytes)
    (hstate : state.1.sink.place = place) :
    Treads (Step.Adds place) (f.takeChunk part filename total state chunk)
      fun r => ∀ state', r = .ok state' → state'.1.sink.place = place := by
  unfold takeChunk
  refine .adapt_bind (Writer.push_treads hstate chunk) (fun wr hr => ?_) fun _ _ => by
    rintro _ ⟨⟩
  refine .tell_bind (fun w => (hf _ w).works) fun _ => .pure ?_
  rintro _ ⟨⟩
  exact hr wr rfl

theorem foldlM_takeChunk_treads {total : Nat} (hf : f.IsPassive) (chunks : List Bytes)
    (state : Writer × Nat) (hstate : state.1.sink.place = place) :
    Treads (Step.Adds place) (chunks.foldlM (f.takeChunk part filename total) state)
      fun r => ∀ state', r = .ok state' → state'.1.sink.place = place := by
  refine .foldlM (fun state chunk hs => takeChunk_treads hf state chunk (hs state rfl)) chunks
    state ?_
  rintro _ ⟨⟩
  exact hstate

theorem closing_treads {size : Nat} {failure : Option IoError} (hwr : wr.sink.place = place) :
    Treads (Step.Adds place) (match failure with
      | some e => do
        discard wr.flush.run
        throw (.io e)
      | none => do
        wr.close.adapt (DownloadError.write part)
        return size : Attempt DownloadError Nat) fun r => ∀ n, r = .ok n → place ≠ none := by
  cases failure with
  | some e =>
    exact .discard_bind (.outcome_bind (Writer.flush_treads hwr) fun _ _ =>
      .throw (by rintro _ ⟨⟩))
  | none =>
    exact .adapt_bind (Writer.close_treads hwr) (fun u hu => .pure fun _ _ => hu u rfl)
      fun _ _ => by rintro _ ⟨⟩

end Fetcher

/-! ## Copies -/

namespace Transcode

open Disk (Writer)

variable {place : Option Location} {wr : Writer} {p : α → Prop}

/-- `p` holds of the result of a copy, and a writer that is left writes to the place. -/
def Leaves (place : Option Location) (p : α → Prop) : Except Failure α → Prop
  | .ok a => p a
  | .error (.source _ wr) => wr.sink.place = place
  | .error (.destination _) => True

/-- A failure leaves the same whatever was to be the result. -/
theorem Leaves.of_error {q : β → Prop} {e : Failure}
    (h : Leaves place p (.error e)) : Leaves place q (.error e) := by
  cases e with
  | source e wr => exact h
  | destination e => trivial

/-- The writer writes to the place. -/
def IsAt (place : Option Location) (wr : Writer) : Prop := wr.sink.place = place

variable (hwr : IsAt place wr)
include hwr

theorem put_treads (bytes : Bytes) :
    Treads (Step.Adds place) (put wr bytes) (Leaves place (IsAt place)) := by
  refine .adapt (Writer.push_treads hwr bytes) fun r hr => ?_
  cases r with
  | ok wr' => exact hr wr' rfl
  | error e => trivial

theorem copyMember_treads (arrival : Bytes.Arrival) (m : Archive.Member) :
    Treads (Step.Adds place) (copyMember arrival wr m) (Leaves place (IsAt place)) := by
  rw [copyMember_eq]
  refine .note_bind (.bind (put_treads hwr _) (fun wr₁ hwr₁ => ?_) fun _ he => he.of_error)
  refine .bind (.foldlM (fun wr bytes hwr => put_treads hwr bytes) _ wr₁ hwr₁)
    (fun wr₂ hwr₂ => ?_) fun _ he => he.of_error
  have hpadding : Treads (Step.Adds place) (do
      let w ← put wr₂ (List.replicate (Archive.Member.paddingOf m.payload.length) 0)
      if m.isWhole then return w
      else throw (.source (.memberCutShort m.payload.length m.size) w))
      (Leaves place (IsAt place)) := by
    refine .bind (put_treads hwr₂ _) (fun wr₃ hwr₃ => ?_) fun _ he => he.of_error
    split
    · exact .pure hwr₃
    · exact .throw hwr₃
  cases m.failure with
  | some e => exact .throw_bind hwr₂
  | none => exact hpadding

theorem finish_treads : Treads (Step.Adds place) (finish wr) (Leaves place fun _ => True) := by
  unfold finish
  refine .bind (put_treads hwr _) (fun wr' hwr' => ?_) fun _ he => he.of_error
  rw [← bind_pure (discard _)]
  exact .discard_bind (.adapt_bind (Writer.flush_treads hwr') (fun _ _ => .pure trivial)
    fun _ _ => trivial)

/-- A copy adds to its file only, and what is left of it when the source fails does so too. -/
theorem copyStream_treads (arrival : Bytes.Arrival) (s : Archive.Stream) :
    Treads (Step.Adds place) (copyStream arrival s wr) (Leaves place fun _ => True) := by
  unfold copyStream
  rcases Archive.members s with ⟨ms, stop⟩
  refine .bind (.foldlM (fun wr m hwr => copyMember_treads hwr arrival m) ms wr hwr)
    (fun wr₁ hwr₁ => ?_) fun _ he => he.of_error
  cases stop with
  | some e => exact .throw_bind hwr₁
  | none => exact .bind (finish_treads hwr₁) (fun _ _ => .pure trivial) fun _ he => he.of_error

end Transcode

end FileListCache
