/-
  FileListCache.Proofs.Appending

  What copying one member comes to. The work on a member fails in one way only, and which side is
  to blame is found out afterwards from what was noticed of the payload. That this finds the right
  side is one equation (`Transcode.copyMember_eq`): the copy ends with the first error that is
  met, and with its own.
-/

import FileListCache.Transcode
import FileListCache.Proofs.Attempt

namespace FileListCache

open Archive (Member)
open Disk (Writer)

variable {ε ε' α β : Type} {w : World}

/-- Attempts that come to the same in every world are the same. -/
theorem attempt_ext {x y : Attempt ε α} (h : ∀ w : World, w.attempt x = w.attempt y) : x = y :=
  ExceptT.ext (StateT.ext fun w => h w)

/-- A loop fails with the errors of its rounds. -/
theorem adapt_foldlM {f : β → α → Attempt ε' β} {g : ε' → ε} (l : List α) (b : β) :
    (l.foldlM f b).adapt g = l.foldlM (fun b a => (f b a).adapt g) b := by
  induction l generalizing b with
  | nil => rfl
  | cons a l ih =>
    rw [List.foldlM_cons, List.foldlM_cons]
    refine attempt_ext fun w => ?_
    rw [World.attempt_adapt, World.attempt_bind, World.attempt_bind, World.attempt_adapt]
    rcases w.attempt (f b a) with ⟨e | b', w'⟩
    · rfl
    · exact (World.attempt_adapt w' _ g).symm.trans (congrArg w'.attempt (ih b'))

namespace Transcode

variable {arrival : Bytes.Arrival} {m : Member} {wr : Writer}

namespace Copy

variable {c : Copying}

/-- The work has come to what writing came to, `n` bytes of the payload were read for it, and
nothing went wrong with them. -/
def Wrote (c : Copying) (n : Nat) (y : Except IoError Writer × World) (r : Except IoError Unit)
    (c' : Copying) (w' : World) : Prop :=
  w' = y.2 ∧ c'.error = c.error ∧
    match y.1 with
    | .ok wr => r = .ok () ∧ c' = ⟨wr, c.count + n, c.error⟩
    | .error e => r = .error e

theorem write_settles (bytes : Bytes) :
    Settles w c (write bytes).run (Wrote c 0 (w.attempt (c.writer.push bytes))) := by
  have hpush : Ends w (c.writer.push bytes) fun r w' => w.attempt (c.writer.push bytes) = (r, w') :=
    rfl
  unfold write
  refine settles_run_lift_bind (x := get) ?_
  refine settles_run_bind (settles_run_attempt (ends_imp hpush fun r w' hr => ?_))
  rw [hr]
  cases r with
  | error e => exact ⟨rfl, rfl, rfl⟩
  | ok wr => exact ⟨rfl, rfl, rfl, rfl⟩

theorem read_ok_settles (piece : Bytes) :
    Settles w c (read (.ok piece)).run fun r c' w' =>
      r = .ok piece ∧ c' = { c with count := c.count + piece.length } ∧ w' = w :=
  ⟨rfl, rfl, rfl⟩

/-- Pieces that can be read are written one after the other. -/
theorem pieces_settles (pieces : List Bytes) :
    Settles w c ((pieces.map Except.ok).forM fun r => do write (← read r)).run
      (Wrote c pieces.flatten.length (w.attempt (pieces.foldlM Writer.push c.writer))) := by
  induction pieces generalizing c w with
  | nil => exact ⟨rfl, rfl, rfl, rfl⟩
  | cons piece pieces ih =>
    rw [List.map_cons, List.forM_eq_forM, List.forM_cons, List.foldlM_cons, World.attempt_bind]
    refine settles_run_bind (settles_run_bind (settles_imp (read_ok_settles piece) ?_))
    rintro r c₁ w₁ ⟨rfl, rfl, rfl⟩
    refine settles_imp (write_settles piece) fun r c₂ w₂ hr => ?_
    rcases hpush : w₁.attempt (c.writer.push piece) with ⟨e | wr, w₃⟩
    · rw [hpush] at hr
      obtain ⟨rfl, herror, rfl⟩ := hr
      exact ⟨rfl, herror, rfl⟩
    · rw [hpush] at hr
      obtain ⟨rfl, -, rfl, rfl⟩ := hr
      refine settles_imp (ih (c := ⟨wr, _, c.error⟩)) fun r c₄ w₄ hr => ?_
      obtain ⟨rfl, herror, hr⟩ := hr
      refine ⟨rfl, herror, ?_⟩
      cases hrest : (w₂.attempt (pieces.foldlM Writer.push wr)).1 with
      | error e =>
        rw [hrest] at hr
        exact hr
      | ok wr' =>
        rw [hrest] at hr
        obtain ⟨rfl, rfl⟩ := hr
        refine ⟨rfl, ?_⟩
        simp [Nat.add_assoc]

/-- The padding goes by how many bytes of the payload were read. -/
theorem pad_settles :
    Settles w c (do write (List.replicate (Member.paddingOf (← get).count) 0)).run
      (Wrote c 0 (w.attempt (c.writer.push (List.replicate (Member.paddingOf c.count) 0)))) := by
  refine settles_run_lift_bind (x := get) ?_
  exact write_settles (List.replicate (Member.paddingOf c.count) 0)

end Copy

/-- The side that is blamed, by what the work on a member came to and what was noticed of its
payload. -/
def judged (m : Member) (r : Except IoError Unit) (c : Copying) : Except Failure Writer :=
  match c.error, r with
  | some e, _ => .error (.source e c.writer)
  | none, .error e => .error (.destination e)
  | none, .ok () =>
    if c.count = m.size then .ok c.writer
    else .error (.source (.memberCutShort c.count m.size) c.writer)

/-- A part of the work that writes, and the rest of it: if writing fails the writer is to blame, and
otherwise the rest decides. -/
theorem judged_bind {c : Copying} {n : Nat} {x : Copy Unit} {y : Attempt IoError Writer}
    {rest : Copy Unit} {f : Writer → Attempt Failure Writer} (hc : c.error = none)
    (hx : Settles w c x.run (Copy.Wrote c n (w.attempt y)))
    (hrest : ∀ wr w', Settles w' ⟨wr, c.count + n, none⟩ rest.run fun r c' w'' =>
      w'.attempt (f wr) = (judged m r c', w'')) :
    Settles w c (x >>= fun _ => rest).run fun r c' w' =>
      w.attempt (y.adapt Failure.destination >>= f) = (judged m r c', w') := by
  refine settles_run_bind (settles_imp hx fun r c₁ w₁ hr => ?_)
  rw [World.attempt_bind, World.attempt_adapt]
  rcases hy : w.attempt y with ⟨e | wr, w₁'⟩
  · rw [hy] at hr
    obtain ⟨rfl, herror, rfl⟩ := hr
    simp only [Except.mapError, judged, herror, hc]
  · rw [hy] at hr
    obtain ⟨rfl, -, rfl, rfl⟩ := hr
    rw [hc]
    exact hrest wr w₁

/-- The work on a member is judged by the first error that is met. -/
theorem append_settles (arrival : Bytes.Arrival) (m : Member) (wr : Writer) (w : World) :
    Settles w { writer := wr } (Copy.append arrival m).run fun r c w' =>
      w.attempt (do
        let w ← put wr m.header.bytes
        let w ← (arrival.pieces m.payload).foldlM put w
        if let some e := m.failure then throw (.source e w)
        let w ← put w (List.replicate (Member.paddingOf m.payload.length) 0)
        if m.isWhole then return w
        else throw (.source (.memberCutShort m.payload.length m.size) w)) =
          (judged m r c, w') := by
  unfold Copy.append readings
  refine judged_bind rfl (Copy.write_settles _) fun wr₁ w₁ => ?_
  have hpieces : (arrival.pieces m.payload).foldlM put wr₁ =
      ((arrival.pieces m.payload).foldlM Writer.push wr₁).adapt .destination :=
    (adapt_foldlM _ _).symm
  rw [List.forM_eq_forM, List.forM_append, bind_assoc, hpieces]
  refine judged_bind rfl (Copy.pieces_settles _) fun wr₂ w₂ => ?_
  rw [Bytes.Arrival.flatten_pieces, Nat.zero_add]
  cases m.failure with
  | some e => rfl
  | none =>
    refine settles_run_bind (x := pure ()) (settles_pure (a := Except.ok ()) ?_)
    -- Nothing comes behind the padding.
    have hlast (x : Copy Unit) : x = x >>= fun _ => pure () := (bind_pure x).symm
    dsimp only
    rw [hlast (do Copy.write (List.replicate (Member.paddingOf (← get).count) 0))]
    refine judged_bind rfl Copy.pad_settles fun wr₃ w₃ => ?_
    have hwhole : m.isWhole = true ↔ m.payload.length = m.size := decide_eq_true_iff
    change w₃.attempt (if m.isWhole = true then pure wr₃ else throw _) =
      ((if m.payload.length = m.size then .ok wr₃ else .error _), w₃)
    rw [if_congr hwhole rfl rfl]
    split <;> rfl

/-- Copying a member ends with the first error that is met, be it one of the payload or one of the
writer. -/
theorem copyMember_eq :
    copyMember arrival wr m = (do
      World.note .trace .transcode ("copying " ++ Utf8.lossy m.header.name)
      let w ← put wr m.header.bytes
      let w ← (arrival.pieces m.payload).foldlM put w
      if let some e := m.failure then throw (.source e w)
      let w ← put w (List.replicate (Member.paddingOf m.payload.length) 0)
      if m.isWhole then return w
      else throw (.source (.memberCutShort m.payload.length m.size) w)) := by
  unfold copyMember
  refine bind_congr fun _ => attempt_ext fun w => ?_
  refine Eq.trans ?_ (append_settles arrival m wr w).symm
  have htell (x : Run (Except IoError Unit × Copying)) :
      w.attempt (liftM x : Attempt Failure _) = (.ok (x.run w).1, (x.run w).2) := rfl
  rw [World.attempt_bind, htell]
  generalize ((ExceptT.run (Copy.append arrival m)).run { writer := wr }).run w = y
  obtain ⟨⟨r, c⟩, w'⟩ := y
  obtain ⟨wr', count, error⟩ := c
  unfold judged
  cases error with
  | some e => rfl
  | none =>
    cases r with
    | error e => rfl
    | ok u =>
      change w'.attempt (if count = m.size then pure wr' else throw _) =
        ((if count = m.size then .ok wr' else .error _), w')
      split <;> rfl

end Transcode

end FileListCache
