/-
  FileListCache.Proofs.Cuts.Bzip2

  Bzip2 files that are cut off. A block is read as a whole before any of it is released, so what is
  released are the contents of whole blocks, but for the byte that a fault behind it keeps back.
-/

import FileListCache.Proofs.Cuts

namespace FileListCache.Bzip2

open Bytes (Agree ofPacked)

variable {data whole out : ByteArray} {pos count : Nat}

/-! ## Blocks -/

theorem field_carries (h : Cut data whole) (pos count : Nat) :
    Carries (field data pos count) (field whole pos count) := by
  unfold field
  cases hn : Bits.highNumber? data pos count with
  | none => exact .error _ _
  | some n =>
    rw [h.highNumber? hn]
    exact .refl _

theorem bytesInUse_carries (h : Cut data whole) (pos : Nat) :
    Carries (bytesInUse data pos) (bytesInUse whole pos) := by
  unfold bytesInUse
  refine (field_carries h pos 16).bind fun ⟨groups, pos⟩ _ => ?_
  refine .foldlM _ (fun ⟨used, pos⟩ i _ => .ite (fun _ => ?_) fun _ => .refl _) _
  exact (field_carries h pos 16).bind fun _ _ => .refl _

theorem unary_carries (h : Cut data whole) (limit pos : Nat) :
    Carries (unary data limit pos) (unary whole limit pos) := by
  have hgo (left rank pos : Nat) :
      Carries (unary.go data left rank pos) (unary.go whole left rank pos) := by
    induction left generalizing rank pos with
    | zero => exact .error _ _
    | succ left ih =>
      unfold unary.go
      cases hb : Bits.high? data pos with
      | none => exact .error _ _
      | some b =>
        rw [h.high? hb]
        cases b with
        | false => exact .refl _
        | true => exact ih _ _
  exact hgo limit 0 pos

theorem selectors_carries (h : Cut data whole) (codes count pos : Nat) :
    Carries (selectors data codes count pos) (selectors whole codes count pos) := by
  unfold selectors
  refine .bind (.foldlM _ (fun acc _ _ => ?_) _) fun _ _ => .refl _
  exact (unary_carries h codes _).bind fun _ _ => .refl _

theorem codeLength_carries (h : Cut data whole) (length pos : Nat) :
    Carries (codeLength data length pos) (codeLength whole length pos) := by
  intro a ha
  fun_induction codeLength data length pos with
  | case1 => cases ha
  | case2 => cases ha
  | case3 length pos hlength hb =>
    have hw := h.high? hb
    rw [codeLength, if_neg hlength]
    split
    · simp_all
    · exact ha
    · simp_all
  | case4 => cases ha
  | case5 length pos hlength hb down hdown ih =>
    have hw := h.high? hb
    rw [codeLength, if_neg hlength]
    split
    · simp_all
    · simp_all
    · rw [h.high? hdown]
      exact ih ha

theorem codeTable_carries (h : Cut data whole) (size pos : Nat) :
    Carries (codeTable data size pos) (codeTable whole size pos) := by
  unfold codeTable
  refine (field_carries h pos 5).bind fun ⟨first, pos⟩ _ => ?_
  refine .bind (.foldlM _ (fun acc _ _ => ?_) _) fun _ _ => .refl _
  exact (codeLength_carries h _ _).bind fun _ _ => .refl _

theorem symbols_carries (h : Cut data whole) (c : Codes) (pos index : Nat) (order : List UInt8)
    (run weight : Nat) (out : ByteArray) :
    Carries (symbols c data pos index order run weight out)
      (symbols c whole pos index order run weight out) := by
  have hsize := h.size_le
  induction hn : 8 * data.size - pos using Nat.strongRecOn
    generalizing pos index order run weight out with
  | ind n ih =>
    unfold symbols
    split
    · exact .refl _
    · rename_i table _
      cases hr : table.read (Bits.high? data) pos with
      | error e => exact .error _ _
      | ok a =>
        obtain ⟨symbol, next⟩ := a
        rw [table.read_carries (fun _ _ => h.high?) pos _ hr]
        refine .check (fun hin => ⟨hin.1, by omega⟩) fun hin => ?_
        have hless : 8 * data.size - next < n := by omega
        refine .ite (fun _ => .ite (fun _ => .refl _) fun _ => ih _ hless next _ _ _ _ _ rfl)
          fun _ => .ite (fun _ => .refl _) fun _ => .ite (fun _ => .refl _) fun _ =>
            .ite (fun _ => .refl _) fun _ => ?_
        split
        · exact .refl _
        · exact ih _ hless next _ _ _ _ _ rfl

theorem block_carries (h : Cut data whole) (level pos : Nat) :
    Carries (block level data pos) (block level whole pos) := by
  unfold block
  refine (field_carries h pos 32).bind fun ⟨check, pos⟩ _ => ?_
  refine (field_carries h pos 1).bind fun ⟨scrambled, pos⟩ _ => ?_
  refine (field_carries h pos 24).bind fun ⟨origin, pos⟩ _ => ?_
  refine .ite (fun _ => .refl _) fun _ => ?_
  refine (bytesInUse_carries h pos).bind fun ⟨used, pos⟩ _ => ?_
  refine .ite (fun _ => .refl _) fun _ => ?_
  refine (field_carries h pos 3).bind fun ⟨codes, pos⟩ _ => ?_
  refine .ite (fun _ => .refl _) fun _ => ?_
  refine (field_carries h pos 15).bind fun ⟨count, pos⟩ _ => ?_
  refine .ite (fun _ => .refl _) fun _ => ?_
  refine (selectors_carries h codes count pos).bind fun ⟨selected, pos⟩ _ => ?_
  refine .bind (.foldlM _ (fun acc _ _ => ?_) _) fun ⟨tables, pos⟩ _ => ?_
  · exact (codeTable_carries h _ _).bind fun _ _ => .refl _
  · exact (symbols_carries h _ pos 0 _ 0 1 _).bind fun _ _ => .refl _

/-! ## Streams -/

theorem expect_carries (h : Cut data whole) (expected : List UInt8) (pos : Nat) :
    Carries (expect data expected pos) (expect whole expected pos) := by
  induction expected generalizing pos with
  | nil => exact .refl _
  | cons b rest ih =>
    unfold expect
    exact (field_carries h pos 8).bind fun ⟨found, pos⟩ _ => .ite (fun _ => ih pos) fun _ => .refl _

theorem mark_carries (h : Cut data whole) (pos : Nat) :
    Carries (mark data pos) (mark whole pos) := by
  unfold mark
  refine (field_carries h pos 8).bind fun ⟨first, next⟩ _ => .ite (fun _ => ?_) fun _ => ?_
  · exact (expect_carries h _ next).bind fun _ _ => .refl _
  · exact (expect_carries h _ pos).bind fun _ _ => .refl _

theorem header_carries (h : Cut data whole) (start : Nat) :
    Carries (header data start) (header whole start) := by
  unfold header
  cases he : expect data [0x42, 0x5a, 0x68] (8 * start) with
  | error e => cases e <;> exact .error _ _
  | ok pos =>
    rw [expect_carries h _ _ pos he]
    dsimp only
    cases hf : field data pos 8 with
    | error e => exact .error _ _
    | ok p =>
      rw [field_carries h pos 8 p hf]
      exact .refl _

theorem stopBehind_fails {α : Type} (stop : Stop) (out : ByteArray) :
    Fails out (stopBehind stop out : Except (Stop × ByteArray) α) := by
  cases stop with
  | exhausted => exact .error (.refl out)
  | corrupt => exact .error (.extract _ _)

theorem blocks_eq (level : Nat) (data : ByteArray) (pos : Nat) (combined : UInt32)
    (out : ByteArray) : blocks level data pos combined out =
      stopping (stopBehind · out) (mark data pos) >>= fun (ends, next) =>
        if ends then
          stopping (stopBehind · out) (field data next 32) >>= fun (check, next) =>
            if check = combined.toNat then .ok (out, Bits.nextByte next)
            else stopBehind .corrupt out
        else
          stopping (stopBehind · out) (block level data next) >>= fun b =>
            if ¬ b.isWhole ∨ (Checksum.crc32Forward b.content).toNat ≠ b.check then
              stopBehind .corrupt (out ++ b.content)
            else if pos < b.next ∧ b.next ≤ 8 * data.size then
              blocks level data b.next (((combined <<< 1) ||| (combined >>> 31)) ^^^
                Checksum.crc32Forward b.content) (out ++ b.content)
            else stopBehind .corrupt (out ++ b.content) := by
  rw [blocks]
  cases mark data pos with
  | error e => cases e <;> rfl
  | ok a =>
    obtain ⟨ends, next⟩ := a
    cases ends with
    | true =>
      dsimp only [stopping, bind, Except.bind]
      cases field data next 32 with
      | error e => cases e <;> rfl
      | ok a => rfl
    | false =>
      dsimp only [stopping, bind, Except.bind]
      cases block level data next with
      | error e => cases e <;> rfl
      | ok b => rfl

theorem blocks_trails (h : Cut data whole) (level pos : Nat) (combined : UInt32)
    (out : ByteArray) :
    Trails Prod.fst out (blocks level data pos combined out)
      (blocks level whole pos combined out) := by
  have hsize := h.size_le
  induction hn : 8 * whole.size - pos using Nat.strongRecOn generalizing pos combined out with
  | ind n ih =>
    rw [blocks_eq, blocks_eq level whole]
    refine (Trails.stopping (mark_carries h pos) fun e => stopBehind_fails e out).bind
      fun ⟨ends, next⟩ => .ite (fun _ => ?_) fun _ => ?_
    · refine (Trails.stopping (field_carries h next 32) fun e => stopBehind_fails e out).bind
        fun ⟨check, next⟩ => ?_
      exact .ite (fun _ => .ok (.refl out)) fun _ =>
        .fail (stopBehind_fails _ _) (stopBehind_fails _ _)
    · refine (Trails.stopping (block_carries h level next) fun e => stopBehind_fails e out).bind
        fun b => .of_cut (.append out b.content) ?_
      refine .ite (fun _ => .fail (stopBehind_fails _ _) (stopBehind_fails _ _)) fun _ =>
        .check (fun hin => ⟨hin.1, by omega⟩) (fun hin => ih _ (by omega) _ _ _ rfl)
          (stopBehind_fails _ _) (stopBehind_fails _ _)

/-- What a stop of a stream means for the file. -/
def causeOf : Stop → StreamError
  | .exhausted => .bzip2CutShort
  | .corrupt => .bzip2Corrupt

/-- One stream behind the output `out`, and the byte after it. -/
def stream (data : ByteArray) (start : Nat) (out : ByteArray) :
    Except (StreamError × ByteArray) (ByteArray × Nat) :=
  stopping (fun e => .error (e, out)) (header data start) >>= fun (level, pos) =>
    ((blocks level data pos 0 .empty).mapError fun p => (causeOf p.1, out ++ p.2)) >>=
      fun (content, next) => .ok (out ++ content, next)

theorem streams_eq (data : ByteArray) (start : Nat) (out : ByteArray) :
    streams data start out = units stream (directly .bzip2Corrupt) data start out := by
  induction hn : data.size - start using Nat.strongRecOn generalizing start out with
  | ind n ih =>
    rw [streams, units, stream]
    cases header data start with
    | error e => rfl
    | ok a =>
      dsimp only [stopping, bind, Except.bind]
      cases blocks a.1 data a.2 0 .empty with
      | error p =>
        obtain ⟨stop, content⟩ := p
        cases stop <;> rfl
      | ok b =>
        dsimp only [Except.mapError, directly]
        split
        · rfl
        · split
          · rw [ih _ (by omega) b.2 _ rfl]
            exact (if_pos ⟨by assumption, by omega⟩).symm
          · rfl

theorem stream_trails (h : Cut data whole) (start : Nat) (out : ByteArray) :
    Trails Prod.fst out (stream data start out) (stream whole start out) := by
  refine (Trails.stopping (header_carries h start) fun _ => .error (.refl out)).bind
    fun ⟨level, pos⟩ => .of_cut (.append out .empty) ?_
  exact ((blocks_trails h level pos 0 .empty).behind out).bind fun _ => .ok (.refl _)

/-- A bzip2 file that is cut off is decoded like the whole file, as far as both go. -/
theorem decode_agree (h : Cut data whole) : Agree (decode data).bytes (decode whole).bytes := by
  rw [decode, decode, streams_eq, streams_eq]
  exact (units_agree h (resumes_directly h _) (stream_trails h) 0 .empty).1

end FileListCache.Bzip2
