/-
  FileListCache.Proofs.Cuts.Gzip

  Gzip files that are cut off. Deflate writes item by item and takes nothing back but what it
  withholds of a stretch, so what it releases for a part is the start of what it writes for the
  whole; members are read one after the other.
-/

import FileListCache.Proofs.Cuts

namespace FileListCache

open Bytes (Agree ofPacked)

/-! ## Deflate -/

namespace Deflate

variable {data whole out : ByteArray} {pos count : Nat} {literals distances : PrefixCode}

theorem field_carries (h : Cut data whole) (pos count : Nat) :
    Carries (field data pos count) (field whole pos count) := by
  unfold field
  cases hn : Bits.lowNumber? data pos count with
  | none => exact .error _ _
  | some n =>
    rw [h.lowNumber? hn]
    exact .refl _

theorem read_carries (h : Cut data whole) (c : PrefixCode) (pos : Nat) :
    Carries (c.read (Bits.low? data) pos) (c.read (Bits.low? whole) pos) :=
  c.read_carries (fun _ _ => h.low?) pos

theorem item_carries (h : Cut data whole) (literals distances : PrefixCode) (pos : Nat) :
    Carries (item literals distances data pos) (item literals distances whole pos) := by
  unfold item
  refine (read_carries h literals pos).bind fun ⟨symbol, pos⟩ _ => ?_
  refine .ite (fun _ => .refl _) fun _ => .ite (fun _ => .refl _) fun _ => ?_
  dsimp only
  split
  · refine (field_carries h pos _).bind fun ⟨more, pos⟩ _ => ?_
    refine (read_carries h distances pos).bind fun ⟨symbol, pos⟩ _ => ?_
    dsimp only
    split
    · exact (field_carries h pos _).bind fun _ _ => .refl _
    · exact .refl _
  · exact .refl _

theorem items_eq (literals distances : PrefixCode) (data : ByteArray) (pos : Nat)
    (out : ByteArray) : items literals distances data pos out =
      stopping (fun e => .error (e, out)) (item literals distances data pos) >>= fun (it, next) =>
        match it with
        | .done => .ok (out, next)
        | .literal b =>
          if pos < next ∧ next ≤ 8 * data.size then items literals distances data next (out.push b)
          else .error (.corrupt, out)
        | .copy length distance =>
          if pos < next ∧ next ≤ 8 * data.size then
            items literals distances data next (copyBack out distance length)
          else .error (.corrupt, out) := by
  rw [items]
  cases item literals distances data pos with
  | error e => rfl
  | ok a => rfl

theorem items_trails (h : Cut data whole) (literals distances : PrefixCode) (pos : Nat)
    (out : ByteArray) :
    Trails Prod.fst out (items literals distances data pos out)
      (items literals distances whole pos out) := by
  have hsize := h.size_le
  induction hn : 8 * whole.size - pos using Nat.strongRecOn generalizing pos out with
  | ind n ih =>
    rw [items_eq, items_eq _ _ whole]
    refine (Trails.stopping (item_carries h literals distances pos)
      fun _ => .error (.refl out)).bind fun ⟨it, next⟩ => ?_
    cases it with
    | done => exact .ok (.refl out)
    | literal b =>
      exact .check (fun hin => ⟨hin.1, by omega⟩)
        (fun hin => (ih _ (by omega) next _ rfl).of_cut (.push out b))
        (.error (.refl out)) (.error (.refl out))
    | copy length distance =>
      exact .check (fun hin => ⟨hin.1, by omega⟩)
        (fun hin => (ih _ (by omega) next _ rfl).of_cut (.copyBack out distance length))
        (.error (.refl out)) (.error (.refl out))

/-- Of a stored block what is there is copied. -/
theorem stored_keeps (data : ByteArray) (start : Nat) (out : ByteArray) :
    Keeps Prod.fst out (stored data start out) := by
  unfold stored
  split
  · split
    · dsimp only
      split
      · exact .error (.inl (Cut.foldl_packed _ out))
      · refine .ok ?_
        dsimp only
        exact .foldl_packed _ out
    · exact .of_fails (.error (.refl out))
  · exact .of_fails (.error (.refl out))

theorem stored_trails (h : Cut data whole) (start : Nat) (out : ByteArray) :
    Trails Prod.fst out (stored data start out) (stored whole start out) := by
  have hsize := h.size_le
  have hkeeps := stored_keeps whole start out
  unfold stored at hkeeps ⊢
  cases hlength : littleEndianAt? data start 2 with
  | none => exact .of_fails (.error (.refl _)) hkeeps
  | some length =>
    cases hcomplement : littleEndianAt? data (start + 2) 2 with
    | none => exact .of_fails (.error (.refl _)) hkeeps
    | some complement =>
      have hheader := le_size_of_littleEndianAt? hcomplement
      rw [h.littleEndianAt? hlength, h.littleEndianAt? hcomplement]
      refine .ite (fun _ => ?_) fun _ => .fail (.error (.refl _)) (.error (.refl _))
      dsimp only
      by_cases hall : start + 4 + length ≤ data.size
      · have hmin : min length (data.size - (start + 4)) = length := by omega
        have hmin' : min length (whole.size - (start + 4)) = length := by omega
        rw [hmin, hmin', h.extract_eq hall]
        simp only [Nat.lt_irrefl, ↓reduceIte]
        refine .ok ?_
        dsimp only
        exact .foldl_packed _ out
      · -- What is there of the block in the part, is there in the whole.
        have hgrown : Cut
            ((data.extract (start + 4) (start + 4 + min length (data.size - (start + 4)))).foldl
              ByteArray.push out)
            ((whole.extract (start + 4) (start + 4 + min length (whole.size - (start + 4)))).foldl
              ByteArray.push out) :=
          (h.extract_mono (by omega)).foldl_packed_mono out
        rw [if_pos (show min length (data.size - (start + 4)) < length by omega)]
        refine Trails.of_grown (Cut.foldl_packed _ out) ?_
        split
        · exact .error (.inl hgrown)
        · refine .ok ?_
          dsimp only
          exact hgrown

/-- The lengths that one symbol of the length code stands for: a length, how often it comes, and
the position after it. -/
def lengthRun (data : ByteArray) (got : Array Nat) (symbol next : Nat) :
    Except Stop (Nat × Nat × Nat) :=
  if symbol < 16 then .ok (symbol, 1, next)
  else if symbol = 16 then
    match got.back?, field data next 2 with
    | some last, .ok (n, next) => .ok (last, 3 + n, next)
    | none, _ => .error .corrupt
    | _, .error e => .error e
  else if symbol = 17 then (field data next 3).map fun (n, next) => (0, 3 + n, next)
  else (field data next 7).map fun (n, next) => (0, 11 + n, next)

theorem codeLengths_eq (code : PrefixCode) (data : ByteArray) (pos want : Nat)
    (got : Array Nat) : codeLengths code data pos want got =
      if got.size = want then .ok (got, pos)
      else if want < got.size then .error .corrupt
      else code.read (Bits.low? data) pos >>= fun (symbol, next) =>
        lengthRun data got symbol next >>= fun (value, times, next) =>
          if 0 < times then codeLengths code data next want (got ++ Array.replicate times value)
          else .error .corrupt := by
  rw [codeLengths]
  split
  · rfl
  · split
    · rfl
    · cases code.read (Bits.low? data) pos with
      | error e => rfl
      | ok a =>
        obtain ⟨symbol, next⟩ := a
        unfold lengthRun
        dsimp only [bind, Except.bind]
        by_cases hlength : symbol < 16
        · simp only [if_pos hlength]
        · simp only [if_neg hlength]
          by_cases hagain : symbol = 16
          · simp only [if_pos hagain]
            cases got.back? with
            | none => rfl
            | some last => cases field data next 2 <;> rfl
          · simp only [if_neg hagain]
            by_cases hzeros : symbol = 17
            · simp only [if_pos hzeros]
              cases field data next 3 <;> rfl
            · simp only [if_neg hzeros]
              cases field data next 7 <;> rfl

theorem lengthRun_carries (h : Cut data whole) (got : Array Nat) (symbol next : Nat) :
    Carries (lengthRun data got symbol next) (lengthRun whole got symbol next) := by
  unfold lengthRun
  refine .ite (fun _ => .refl _) fun _ => .ite (fun _ => ?_) fun _ => .ite (fun _ => ?_) fun _ => ?_
  · cases got.back? with
    | none => exact .refl _
    | some last =>
      cases hf : field data next 2 with
      | error e => exact .error _ _
      | ok p =>
        rw [field_carries h next 2 p hf]
        exact .refl _
  · exact (field_carries h next 3).map _
  · exact (field_carries h next 7).map _

theorem codeLengths_carries (h : Cut data whole) (code : PrefixCode) (pos want : Nat)
    (got : Array Nat) :
    Carries (codeLengths code data pos want got) (codeLengths code whole pos want got) := by
  induction hn : want - got.size using Nat.strongRecOn generalizing pos got with
  | ind n ih =>
    rw [codeLengths_eq, codeLengths_eq]
    refine .ite (fun _ => .refl _) fun hne => .ite (fun _ => .refl _) fun hle => ?_
    refine (read_carries h code pos).bind fun ⟨symbol, next⟩ _ => ?_
    refine (lengthRun_carries h got symbol next).bind fun ⟨value, times, next⟩ _ => ?_
    refine .ite (fun htimes => ih _ ?_ next _ rfl) fun _ => .refl _
    rw [Array.size_append, Array.size_replicate]
    omega

theorem dynamicCodes_carries (h : Cut data whole) (pos : Nat) :
    Carries (dynamicCodes data pos) (dynamicCodes whole pos) := by
  unfold dynamicCodes
  refine (field_carries h pos 5).bind fun ⟨hlit, pos⟩ _ => ?_
  refine (field_carries h pos 5).bind fun ⟨hdist, pos⟩ _ => ?_
  refine (field_carries h pos 4).bind fun ⟨hclen, pos⟩ _ => ?_
  refine .ite (fun _ => .refl _) fun _ => ?_
  refine .bind (.foldlM _ (fun ⟨lengths, pos⟩ i _ => ?_) _) fun ⟨lengths, pos⟩ _ => ?_
  · refine .ite (fun _ => .refl _) fun _ => ?_
    exact (codeLengths_carries h _ pos _ _).bind fun _ _ => .refl _
  · exact (field_carries h pos 3).bind fun _ _ => .refl _

theorem block_eq (data : ByteArray) (pos : Nat) (out : ByteArray) : block data pos out =
    stopping (fun e => .error (e, out)) (field data pos 3) >>= fun (header, pos) =>
      (match header / 2 with
      | 0 => stored data (Bits.nextByte pos) out
      | 1 => items fixedLiterals fixedDistances data pos out
      | 2 => stopping (fun e => .error (e, out)) (dynamicCodes data pos) >>=
          fun (literals, distances, pos) => items literals distances data pos out
      | _ => .error (.corrupt, out)).map fun (out, pos) => (decide (header % 2 = 1), out, pos) := by
  rw [block]
  cases field data pos 3 with
  | error e => rfl
  | ok a =>
    obtain ⟨header, pos⟩ := a
    refine congrArg (Except.map _) ?_
    match header / 2 with
    | 0 => rfl
    | 1 => rfl
    | 2 => cases dynamicCodes data pos <;> rfl
    | kind + 3 => rfl

theorem block_trails (h : Cut data whole) (pos : Nat) (out : ByteArray) :
    Trails (fun a => a.2.1) out (block data pos out) (block whole pos out) := by
  rw [block_eq, block_eq whole]
  refine (Trails.stopping (field_carries h pos 3) fun _ => .error (.refl out)).bind
    fun ⟨header, pos⟩ => Trails.map (p := Prod.fst) ?_ fun _ => rfl
  dsimp only
  split
  · exact stored_trails h _ out
  · exact items_trails h _ _ pos out
  · exact (Trails.stopping (dynamicCodes_carries h pos) fun _ => .error (.refl out)).bind
      fun ⟨literals, distances, pos⟩ => items_trails h literals distances pos out
  · exact .fail (.error (.refl out)) (.error (.refl out))

theorem blocks_eq (data : ByteArray) (pos : Nat) (out : ByteArray) : blocks data pos out =
    block data pos out >>= fun (last, out, next) =>
      if last then .ok (out, next)
      else if pos < next ∧ next ≤ 8 * data.size then blocks data next out
      else .error (.corrupt, out) := by
  rw [blocks]
  cases block data pos out <;> rfl

theorem blocks_trails (h : Cut data whole) (pos : Nat) (out : ByteArray) :
    Trails Prod.fst out (blocks data pos out) (blocks whole pos out) := by
  have hsize := h.size_le
  induction hn : 8 * whole.size - pos using Nat.strongRecOn generalizing pos out with
  | ind n ih =>
    rw [blocks_eq, blocks_eq whole]
    refine (block_trails h pos out).bind fun ⟨last, grown, next⟩ => ?_
    refine .ite (fun _ => .ok (.refl grown)) fun _ => .check (fun hin => ⟨hin.1, by omega⟩)
      (fun hin => ih _ (by omega) next grown rfl) (.error (.refl grown)) (.error (.refl grown))

theorem released_cut (stop : Stop) (out : ByteArray) : Cut (released stop out) out := by
  cases stop with
  | exhausted => exact .refl out
  | corrupt => exact .extract _ _

theorem decode_eq (data : ByteArray) (start : Nat) : decode data start =
    ((blocks data (8 * start) .empty).mapError fun p => (p.1, released p.1 p.2)).map
      fun (out, pos) => (out, Bits.nextByte pos) := by
  rw [decode]
  cases blocks data (8 * start) .empty <;> rfl

/-- A stream that is cut off releases the start of what the whole stream writes. -/
theorem decode_trails (h : Cut data whole) (start : Nat) :
    Trails Prod.fst .empty (decode data start) (decode whole start) := by
  rw [decode_eq, decode_eq whole]
  exact ((blocks_trails h _ _).mapError fun p => released_cut p.1 p.2).map fun _ => rfl

end Deflate

/-! ## Members -/

namespace Gzip

variable {data whole out : ByteArray} {pos : Nat}

theorem afterText_carries (h : Cut data whole) (pos : Nat) :
    Carries (afterText data pos) (afterText whole pos) := by
  have hsize := h.size_le
  have hgo (left left' : Nat) (hle : left ≤ left') (at_ : Nat) (hin : left ≤ data.size - at_) :
      Carries (afterText.go data pos at_ left) (afterText.go whole pos at_ left') := by
    induction left generalizing at_ left' with
    | zero => exact .error _ _
    | succ left ih =>
      obtain ⟨left', rfl⟩ : ∃ k, left' = k + 1 := ⟨left' - 1, by omega⟩
      unfold afterText.go
      rw [h.getElem?_eq (by omega)]
      refine .ite (fun _ => .refl _) fun _ => .ite (fun _ => .refl _) fun _ => ?_
      exact ih left' (by omega) (at_ + 1) (by omega)
  exact hgo _ _ (by omega) pos (Nat.le_refl _)

theorem header_carries (h : Cut data whole) (start : Nat) :
    Carries (header data start) (header whole start) := by
  have hsize := h.size_le
  unfold header
  cases hs : slice? data start 10 with
  | none => exact .error _ _
  | some bytes =>
    rw [h.slice? hs]
    split
    · refine .ite (fun _ => .refl _) fun _ => ?_
      -- Behind each optional field the header goes on in the same way, whether it was there or not.
      extract_lets pos check comment name check' comment' name'
      have hcheck (pos : Nat) : Carries (check pos) (check' pos) := by
        refine .ite (fun _ => ?_) fun _ => .refl _
        cases hstored : littleEndianAt? data pos 2 with
        | none => exact .error _ _
        | some stored =>
          have hpos := le_size_of_littleEndianAt? hstored
          rw [h.littleEndianAt? hstored, h.extract_eq (by omega)]
          exact .refl _
      have hcomment (pos : Nat) : Carries (comment pos) (comment' pos) :=
        .ite (fun _ => (afterText_carries h pos).bind fun pos _ => hcheck pos) fun _ => hcheck pos
      have hname (pos : Nat) : Carries (name pos) (name' pos) :=
        .ite (fun _ => (afterText_carries h pos).bind fun pos _ => hcomment pos)
          fun _ => hcomment pos
      refine .ite (fun _ => ?_) fun _ => hname pos
      cases hextra : littleEndianAt? data pos 2 with
      | none => exact .error _ _
      | some n =>
        rw [h.littleEndianAt? hextra]
        dsimp only
        split
        · rw [if_pos (by omega)]
          exact hname _
        · exact .error _ _
    · exact .refl _

theorem trailer_carries (h : Cut data whole) (pos : Nat) (content : ByteArray) :
    Carries (trailer data pos content) (trailer whole pos content) := by
  unfold trailer
  cases hcheck : littleEndianAt? data pos 4 with
  | none => exact .error _ _
  | some check =>
    cases hlength : littleEndianAt? data (pos + 4) 4 with
    | none => exact .error _ _
    | some length =>
      rw [h.littleEndianAt? hcheck, h.littleEndianAt? hlength]
      exact .refl _

/-- What a stop of a member's stream means for the file. -/
def causeOf : Stop → StreamError
  | .exhausted => .deflateCutShort
  | .corrupt => .deflateCorrupt

/-- One member behind the output `out`, and the byte after it. -/
def member (data : ByteArray) (start : Nat) (out : ByteArray) :
    Except (StreamError × ByteArray) (ByteArray × Nat) :=
  stopping (fun e => .error (e, out)) (header data start) >>= fun body =>
    ((Deflate.decode data body).mapError fun p => (causeOf p.1, out ++ p.2)) >>=
        fun (content, pos) =>
      stopping (fun e => .error (e, out ++ content)) (trailer data pos content) >>= fun next =>
        .ok (out ++ content, next)

theorem members_eq (data : ByteArray) (start : Nat) (out : ByteArray) :
    members data start out = units member (directly .gzipHeader) data start out := by
  induction hn : data.size - start using Nat.strongRecOn generalizing start out with
  | ind n ih =>
    rw [members, units, member]
    cases header data start with
    | error e => rfl
    | ok body =>
      dsimp only [stopping, bind, Except.bind]
      cases Deflate.decode data body with
      | error p =>
        obtain ⟨stop, content⟩ := p
        cases stop <;> rfl
      | ok a =>
        dsimp only [Except.mapError]
        cases trailer data a.2 a.1 with
        | error e => rfl
        | ok next =>
          dsimp only [directly]
          split
          · rfl
          · split
            · rw [ih _ (by omega) next _ rfl]
              exact (if_pos ⟨by assumption, by omega⟩).symm
            · rfl

theorem member_trails (h : Cut data whole) (start : Nat) (out : ByteArray) :
    Trails Prod.fst out (member data start out) (member whole start out) := by
  refine (Trails.stopping (header_carries h start) fun _ => .error (.refl out)).bind fun body => ?_
  refine .of_cut (.append out .empty) (((Deflate.decode_trails h body).behind out).bind
    fun ⟨content, pos⟩ => ?_)
  exact (Trails.stopping (trailer_carries h pos content) fun _ => .error (.refl _)).bind
    fun _ => .ok (.refl _)

/-- A gzip file that is cut off is decoded like the whole file, as far as both go. -/
theorem decode_agree (h : Cut data whole) : Agree (decode data).bytes (decode whole).bytes := by
  rw [decode, decode, members_eq, members_eq]
  exact (units_agree h (resumes_directly h _) (member_trails h) 0 .empty).1

end Gzip

end FileListCache
