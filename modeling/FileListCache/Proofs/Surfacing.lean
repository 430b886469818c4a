/-
  FileListCache.Proofs.Surfacing

  When the errors of a destination surface. A writer behind a buffer passes bytes on late, so it
  meets the error of its sink late. How many bytes wait depends on the lengths of the pieces that it
  was given and on nothing else (`Writer.heldBack`); what it has passed on is the rest, and the
  error surfaces as soon as this is more than the sink takes (`Writer.foldlM_pushing`).
-/

import FileListCache.Proofs.Handing

namespace FileListCache.Disk

variable {w : World} {s sink : Sink} {wr : Writer} {e : IoError} {m n passed held : Nat}
  {bytes : Bytes} {r : Except IoError Writer}

/-! ## Sinks -/

/-- The error that a sink meets, if any, when it is given that many bytes. -/
def Sink.refusal? (s : Sink) (n : Nat) : Option IoError :=
  match s.room with
  | some (room, e) => if room < n then some e else none
  | none => none

/-- Bytes that are too many stay too many. -/
theorem Sink.refusal?_mono (hmn : m ≤ n) (he : s.refusal? m = some e) : s.refusal? n = some e := by
  unfold refusal? at he ⊢
  rcases hroom : s.room with _ | ⟨room, e'⟩
  · rw [hroom] at he
    cases he
  · rw [hroom] at he
    simp only [Option.ite_none_right_eq_some] at he ⊢
    exact ⟨by omega, he.2⟩

/-- The error is the one that was foreseen where the room was given. -/
theorem Sink.room_of_refusal? (he : s.refusal? n = some e) : ∃ room, s.room = some (room, e) := by
  unfold refusal? at he
  split at he
  · rename_i room e' hroom
    simp only [Option.ite_none_right_eq_some, Option.some.injEq] at he
    obtain ⟨-, rfl⟩ := he
    exact ⟨room, hroom⟩
  · cases he

/-- What comes of giving that many bytes to a sink. -/
def Sink.Takes (s : Sink) (n : Nat) : Except IoError Sink → Prop
  | .ok s' => s.refusal? n = none ∧ ∀ k, s'.refusal? k = s.refusal? (n + k)
  | .error e => s.refusal? n = some e

theorem write_takes (s : Sink) (bytes : Bytes) :
    Ends w (write s bytes) fun r _ => s.Takes bytes.length r := by
  unfold write
  rcases hroom : s.room with _ | ⟨room, e⟩
  · apply ends_tell_bind
    refine ends_pure ⟨by rw [Sink.refusal?, hroom], fun k => ?_⟩
    rw [Sink.refusal?, Sink.refusal?, hroom]
  · dsimp only
    split
    · rename_i hfits
      apply ends_tell_bind
      refine ends_pure ⟨?_, fun k => ?_⟩
      · simp only [Sink.refusal?, hroom]
        exact if_neg (by omega)
      · simp only [Sink.refusal?, hroom]
        exact if_congr (by omega) rfl rfl
    · rename_i hfull
      apply ends_tell_bind
      refine ends_throw ?_
      simp only [Sink.Takes, Sink.refusal?, hroom]
      exact if_pos (by omega)

/-! ## Buffers -/

namespace Writer

/-- How many bytes wait in a buffer with `held` bytes once `count` more were pushed. -/
def heldAfter (held count : Nat) : Nat :=
  if capacity ≤ count then 0 else if capacity < held + count then count else held + count

/-- How many bytes wait in a buffer with `held` bytes once the pieces were pushed. -/
def heldFrom (held : Nat) (pieces : List Bytes) : Nat :=
  pieces.foldl (fun held piece => heldAfter held piece.length) held

/-- How many bytes of the pieces a new writer holds back. -/
def heldBack (pieces : List Bytes) : Nat := heldFrom 0 pieces

/-- How many bytes of the pieces a new writer passes on. -/
def passedOn (pieces : List Bytes) : Nat := pieces.flatten.length - heldBack pieces

theorem heldAfter_le (held count : Nat) : heldAfter held count ≤ held + count := by
  unfold heldAfter
  split
  · exact Nat.zero_le _
  · split <;> omega

theorem heldFrom_le (held : Nat) (pieces : List Bytes) :
    heldFrom held pieces ≤ held + pieces.flatten.length := by
  induction pieces generalizing held with
  | nil => exact Nat.le_refl held
  | cons piece pieces ih =>
    have hpiece := heldAfter_le held piece.length
    have hpieces := ih (heldAfter held piece.length)
    rw [List.flatten_cons, List.length_append]
    change heldFrom (heldAfter held piece.length) pieces ≤ _
    omega

/-- What comes of work with a new writer in front of the sink that passes on `passed` bytes and
holds `held` of them back. -/
def Passes (sink : Sink) (passed held : Nat) : Except IoError Writer → Prop
  | .ok wr => sink.refusal? passed = none ∧ wr.waiting.length = held ∧
      ∀ n, wr.sink.refusal? n = sink.refusal? (passed + n)
  | .error e => sink.refusal? passed = some e

theorem passes_new (sink : Sink) : Passes sink 0 0 (.ok { sink }) := by
  refine ⟨?_, rfl, fun n => by rw [Nat.zero_add]⟩
  unfold Sink.refusal?
  rcases sink.room with _ | ⟨room, e⟩
  · rfl
  · exact if_neg (Nat.not_lt_zero room)

theorem flush_passes (hw : Passes sink passed held (.ok wr)) :
    Ends w wr.flush fun r _ => Passes sink (passed + held) 0 r := by
  obtain ⟨-, hheld, hroom⟩ := hw
  unfold flush
  apply ends_bind (write_takes wr.sink wr.waiting)
  · intro s' w' hr
    obtain ⟨hfits, hleft⟩ := hr
    rw [hheld, hroom] at hfits
    refine ends_pure ⟨hfits, rfl, fun n => ?_⟩
    rw [hleft, hheld, hroom, Nat.add_assoc]
  · intro e w' hr
    have hfull : wr.sink.refusal? wr.waiting.length = some e := hr
    rwa [hheld, hroom] at hfull

theorem passes_error_mono {passed' held' : Nat} (hle : passed ≤ passed')
    (he : Passes sink passed held (.error e)) : Passes sink passed' held' (.error e) :=
  Sink.refusal?_mono hle he

/-- Bytes that go through the buffer wait in it. -/
theorem passes_waiting (hw : Passes sink passed held (.ok wr)) (bytes : Bytes) :
    Passes sink passed (held + bytes.length) (.ok { wr with waiting := wr.waiting ++ bytes }) := by
  obtain ⟨hfits, hheld, hroom⟩ := hw
  exact ⟨hfits, by rw [List.length_append, hheld], hroom⟩

/-- Bytes that do not go through the buffer find it empty. -/
theorem passes_write (hw : Passes sink passed 0 (.ok wr)) (bytes : Bytes) :
    Ends w (write wr.sink bytes >>= fun s => pure { wr with sink := s }) fun r _ =>
      Passes sink (passed + bytes.length) 0 r := by
  obtain ⟨-, hheld, hroom⟩ := hw
  apply ends_bind (write_takes wr.sink bytes)
  · intro s' w' hr
    obtain ⟨hfits, hleft⟩ := hr
    rw [hroom] at hfits
    refine ends_pure ⟨hfits, hheld, fun n => ?_⟩
    rw [hleft, hroom, Nat.add_assoc]
  · intro e w' hr
    have hfull : wr.sink.refusal? bytes.length = some e := hr
    rwa [hroom] at hfull

/-- Pushed bytes are passed on or wait, as their number says. -/
theorem push_passes (hw : Passes sink passed held (.ok wr)) (bytes : Bytes) :
    Ends w (wr.push bytes) fun r _ =>
      Passes sink (passed + held + bytes.length - heldAfter held bytes.length)
        (heldAfter held bytes.length) r := by
  -- What waits is passed on first unless the bytes fit behind it.
  obtain ⟨passed₁, held₁, hsum, hheld₁, hready⟩ : ∃ passed₁ held₁, passed₁ + held₁ = passed + held ∧
      held₁ = (if capacity < held + bytes.length then 0 else held) ∧
      Ends w (if capacity < wr.waiting.length + bytes.length then wr.flush else pure wr)
        fun r _ => Passes sink passed₁ held₁ r := by
    rw [hw.2.1]
    by_cases hfull : capacity < held + bytes.length
    · exact ⟨passed + held, 0, rfl, (if_pos hfull).symm, by
        rw [if_pos hfull]
        exact flush_passes hw⟩
    · exact ⟨passed, held, rfl, (if_neg hfull).symm, by
        rw [if_neg hfull]
        exact ends_pure hw⟩
  unfold heldAfter
  rw [push_eq]
  refine ends_bind hready (fun wr₁ w₁ hr => ?_) fun e w₁ hr => ?_
  · by_cases hlong : capacity ≤ bytes.length
    · -- Nothing waits any more, or nothing did.
      obtain rfl : held₁ = 0 := by
        rw [hheld₁]
        split <;> omega
      rw [if_pos hlong, if_pos hlong]
      have hpassed : passed + held + bytes.length - 0 = passed₁ + bytes.length := by omega
      rw [hpassed]
      exact passes_write hr bytes
    · rw [if_neg hlong, if_neg hlong]
      have hwaits : (if capacity < held + bytes.length then bytes.length
          else held + bytes.length) = held₁ + bytes.length := by
        rw [hheld₁]
        split <;> omega
      have hpassed : passed + held + bytes.length - (held₁ + bytes.length) = passed₁ := by omega
      rw [hwaits, hpassed]
      exact ends_pure (passes_waiting hr bytes)
  · have hwaits : heldAfter held bytes.length ≤ held₁ + bytes.length := by
      unfold heldAfter
      rw [hheld₁]
      split
      · exact Nat.zero_le _
      · split <;> omega
    unfold heldAfter at hwaits
    exact passes_error_mono (by omega) hr

theorem pushing_passes (hw : Passes sink passed held (.ok wr)) (bytes : Bytes) :
    Passes sink (passed + held + bytes.length - heldAfter held bytes.length)
      (heldAfter held bytes.length) (wr.pushing bytes) :=
  push_passes (w := {}) hw bytes

/-- Pieces that are pushed one after the other are passed on or wait, as their lengths say. -/
theorem foldlM_pushing_from (pieces : List Bytes) (hw : Passes sink passed held (.ok wr)) :
    Passes sink (passed + held + pieces.flatten.length - heldFrom held pieces)
      (heldFrom held pieces) (pieces.foldlM pushing wr) := by
  induction pieces generalizing wr passed held with
  | nil =>
    have hpassed : passed + held + ([] : List Bytes).flatten.length - heldFrom held [] = passed :=
      Nat.add_sub_cancel passed held
    rw [hpassed]
    exact hw
  | cons piece pieces ih =>
    have hpiece := heldAfter_le held piece.length
    have hpieces := heldFrom_le (heldAfter held piece.length) pieces
    have hheld : heldFrom held (piece :: pieces) = heldFrom (heldAfter held piece.length) pieces :=
      rfl
    have hpush := pushing_passes hw piece
    rw [List.foldlM_cons, List.flatten_cons, List.length_append, hheld]
    cases hr : wr.pushing piece with
    | error e =>
      rw [hr] at hpush
      exact passes_error_mono (by omega) hpush
    | ok wr' =>
      rw [hr] at hpush
      have hrest := ih hpush
      rwa [Nat.sub_add_cancel (by omega), Nat.add_assoc] at hrest

/-- The error of a sink surfaces behind the buffer of a new writer exactly if more bytes are passed
on than the sink takes. -/
theorem foldlM_pushing (sink : Sink) (pieces : List Bytes) :
    Passes sink (passedOn pieces) (heldBack pieces) (pieces.foldlM pushing { sink }) := by
  have hpasses := foldlM_pushing_from pieces (passes_new sink)
  rwa [Nat.zero_add] at hpasses

end Writer

end FileListCache.Disk
