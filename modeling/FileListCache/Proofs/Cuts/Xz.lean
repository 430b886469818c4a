/-
  FileListCache.Proofs.Cuts.Xz

  Xz files that are cut off. Most of the format is read without anything being written, and a fault
  in it keeps back at most one byte; what is written are the chunks of blocks.
-/

import FileListCache.Compression.Xz
import FileListCache.Proofs.Cuts.Lzma

namespace FileListCache.Xz

open Bytes (Agree ofPacked)

variable {data whole out : ByteArray} {pos kind : Nat}

/-! ## Steps that write nothing -/

theorem failBehind_fails {α : Type} (e : StreamError) (out : ByteArray) (released : Nat) :
    Fails out (failBehind e out released : Partial α) := by
  refine ⟨e, _, rfl, ?_⟩
  split
  · exact .refl out
  · exact Lzma.Window.withhold_cut _ out

theorem quietly_eq {α : Type} (out : ByteArray) (x : Except StreamError α) (released : Nat) :
    quietly out x released = stopping (failBehind · out released) x := by
  cases x <;> rfl

theorem quietly_trails {α : Type} {x y : Except StreamError α} (h : Carries x y)
    (out : ByteArray) (released : Nat) :
    Trails (fun _ => out) out (quietly out x released) (quietly out y released) := by
  rw [quietly_eq, quietly_eq]
  exact .stopping h fun e => failBehind_fails e out released

theorem take_carries (h : Cut data whole) (pos count : Nat) :
    Carries (take data pos count) (take whole pos count) := by
  unfold take
  cases hs : slice? data pos count with
  | none => exact .error _ _
  | some bs =>
    rw [h.slice? hs]
    exact .refl _

theorem le_size_of_take {count : Nat} {bs : Bytes} (h : take data pos count = .ok bs) :
    pos + count ≤ data.size := by
  unfold take at h
  split at h
  · exact le_size_of_slice? ‹_›
  · cases h

theorem require_eq_ok {ok : Bool} {e : StreamError} {u : Unit} (h : require ok e = .ok u) :
    ok = true := by
  unfold require at h
  split at h
  · assumption
  · cases h

theorem header_carries (h : Cut data whole) (pos : Nat) :
    Carries (header data pos) (header whole pos) :=
  (take_carries h pos 12).bind fun _ _ => .refl _

theorem footer_carries (h : Cut data whole) (pos kind indexSize : Nat) :
    Carries (footer data pos kind indexSize) (footer whole pos kind indexSize) :=
  (take_carries h pos 12).bind fun _ _ => .refl _

theorem grouped_carries {limit limit' : Nat} (h : Cut data whole) (hlimit : limit ≤ limit')
    (pos : Nat) (short : StreamError) :
    Carries (grouped data limit pos short) (grouped whole limit' pos short) := by
  have hgo (left at_ weight n : Nat) : Carries (grouped.go data limit short left at_ weight n)
      (grouped.go whole limit' short left at_ weight n) := by
    induction left generalizing at_ weight n with
    | zero => exact .error _ _
    | succ left ih =>
      unfold grouped.go
      cases hb : (if at_ < limit then data[at_]? else none) with
      | none => exact .error _ _
      | some b =>
        rw [h.getElem?_ite (fun hat : at_ < limit => hat.trans_le hlimit) hb]
        exact .ite (fun _ => .refl _) fun _ => ih _ _ _
  exact hgo 9 pos 1 0

theorem blockHeader_carries (h : Cut data whole) (pos kind : Nat) :
    Carries (blockHeader data pos kind) (blockHeader whole pos kind) := by
  unfold blockHeader
  refine (take_carries h pos 1).bind fun first _ => ?_
  refine (take_carries h pos _).bind fun bytes hbytes => ?_
  have hsize := le_size_of_take hbytes
  refine (Carries.refl _).bind fun _ _ => (Carries.refl _).bind fun _ _ => ?_
  have hgrouped {limit : Nat} (pos : Nat) := grouped_carries h (Nat.le_refl limit) pos .xzCorrupt
  refine .bind (.ite (fun _ => (hgrouped _).map _) fun _ => .refl _) fun ⟨_, at_⟩ _ => ?_
  refine (Carries.refl _).bind fun _ _ => ?_
  refine .bind (.ite (fun _ => (hgrouped _).map _) fun _ => .refl _) fun ⟨_, at_⟩ _ => ?_
  refine (hgrouped at_).bind fun ⟨filter, at_⟩ _ => (Carries.refl _).bind fun _ _ => ?_
  refine (hgrouped at_).bind fun ⟨length, at_⟩ _ => ?_
  refine (Carries.refl _).bind fun _ hlimit => (Carries.refl _).bind fun _ hone => ?_
  -- The code of the window's size is one of the header's bytes, so it is there.
  have hlimit := require_eq_ok hlimit
  have hone := require_eq_ok hone
  simp only [decide_eq_true_eq] at hlimit hone
  rw [h.getElem?_eq (by omega)]
  exact .refl _

theorem nextByte_carries (h : Cut data whole) (pos : Nat) :
    Carries (nextByte data pos) (nextByte whole pos) := by
  unfold nextByte
  cases hb : data[pos]? with
  | none => exact .error _ _
  | some b =>
    rw [h.getElem? hb]
    exact .refl _

theorem nextPair_carries (h : Cut data whole) (pos : Nat) :
    Carries (nextPair data pos) (nextPair whole pos) :=
  (nextByte_carries h pos).bind fun _ _ => (nextByte_carries h _).bind fun _ _ => .refl _

theorem prepare_carries (h : Cut data whole) (reset pos : Nat) (k : Carried) :
    Carries (prepare data reset pos k) (prepare whole reset pos k) := by
  unfold prepare
  exact .ite (fun _ => (nextByte_carries h pos).bind fun _ _ => .refl _) fun _ => .refl _

/-! ## Blocks -/

/-- What a coded chunk starts with: its two sizes, properties, memory, and where its text is. -/
def opening (data : ByteArray) (control pos : Nat) (k : Carried) :
    Except StreamError (Nat × Nat × Lzma.Properties × Lzma.Memory × Nat) := do
  let reset := control / 32 % 4
  require (2 ≤ reset || k.properties.isSome) .xzCorrupt
  let size := (control % 32) * 65536 + (← nextPair data (pos + 1)) + 1
  let coded := (← nextPair data (pos + 3)) + 1
  let (p, m, body) ← prepare data reset (pos + 5) k
  return (size, coded, p, m, body)

theorem opening_carries (h : Cut data whole) (control pos : Nat) (k : Carried) :
    Carries (opening data control pos k) (opening whole control pos k) := by
  unfold opening
  refine (Carries.refl _).bind fun _ _ => (nextPair_carries h _).bind fun _ _ => ?_
  exact (nextPair_carries h _).bind fun _ _ => (prepare_carries h _ _ k).bind fun _ _ => .refl _

/-- What is carried to a chunk with the given control byte, which may start a new window. -/
def Carried.renewed (k : Carried) (control : Nat) (out : ByteArray) : Carried :=
  if 0xe0 ≤ control ∨ control = 1 then { k with needsWindow := false, start := out.size } else k

theorem chunks_eq (data : ByteArray) (capacity pos : Nat) (k : Carried) (out : ByteArray) :
    chunks data capacity pos k out = quietly out (nextByte data pos) >>= fun control =>
      if control = 0 then .ok (out, pos + 1)
      else if (k.renewed control out).needsWindow then failBehind .xzCorrupt out
      else if 0x80 ≤ control then
        quietly out (opening data control pos (k.renewed control out))
            (k.renewed control out).start >>= fun (size, coded, p, m, body) =>
          (Lzma.text ⟨data, body + coded⟩ p ⟨(k.renewed control out).start, capacity⟩ size
              (some size) body m out).mapError (fun p => (causeOf p.1, p.2)) >>=
            fun (out', next, m) =>
              if next ≠ body + coded then failBehind .xzCorrupt out'
              else if pos < next ∧ next ≤ data.size then
                chunks data capacity next
                  { k.renewed control out with properties := some p, memory := m } out'
              else failBehind .xzCorrupt out'
      else if 3 ≤ control then failBehind .xzCorrupt out
      else quietly out (nextPair data (pos + 1)) >>= fun n =>
        if pos + 4 + n ≤ data.size then
          chunks data capacity (pos + 4 + n)
            (if control = 1 then { k.renewed control out with properties := none }
              else k.renewed control out)
            ((data.extract (pos + 3) (pos + 4 + n)).foldl ByteArray.push out)
        else
          .error (.xzCutShort,
            (data.extract (pos + 3) (pos + 4 + n)).foldl ByteArray.push out) := by
  rw [chunks]
  cases quietly out (nextByte data pos) with
  | error p => rfl
  | ok control =>
    refine if_congr Iff.rfl rfl (if_congr Iff.rfl rfl (if_congr Iff.rfl ?_
      (if_congr Iff.rfl rfl ?_)))
    · dsimp only [opening, Carried.renewed]
      split
      · rename_i he
        rw [he]
        rfl
      · rename_i he
        rw [he]
        dsimp only [bind, Except.bind]
        split
        · rename_i hl
          rw [hl]
          rfl
        · rename_i hl
          rw [hl]
          rfl
    · cases quietly out (nextPair data (pos + 1)) with
      | error p => rfl
      | ok n => rfl

theorem chunks_trails (h : Cut data whole) (capacity pos : Nat) (k : Carried) (out : ByteArray) :
    Trails Prod.fst out (chunks data capacity pos k out) (chunks whole capacity pos k out) := by
  have hsize := h.size_le
  induction hn : whole.size - pos using Nat.strongRecOn generalizing pos k out with
  | ind n ih =>
    have hfails (e : StreamError) (out : ByteArray) :=
      failBehind_fails (α := ByteArray × Nat) e out 0
    rw [chunks_eq, chunks_eq whole]
    refine (quietly_trails (nextByte_carries h pos) out 0).bind fun control =>
      .ite (fun _ => .ok (.refl out)) fun _ => .ite (fun _ => .fail (hfails _ out) (hfails _ out))
        fun _ => .ite (fun _ => ?_) fun _ => .ite (fun _ => .fail (hfails _ out) (hfails _ out))
          fun _ => ?_
    · refine (quietly_trails (opening_carries h control pos _) out _).bind
        fun ⟨size, coded, p, m, body⟩ => ?_
      have htext := Lzma.text_trails (Lzma.Source.precedes_of_cut h (body + coded)) p
        ⟨(k.renewed control out).start, capacity⟩ size (some size) body m out
      refine (htext.mapError (F := fun p => (causeOf p.1, p.2)) fun p => .refl p.2).bind
        fun ⟨grown, next, m⟩ => ?_
      exact .ite (fun _ => .fail (hfails _ grown) (hfails _ grown)) fun _ =>
        .check (fun hin => ⟨hin.1, by omega⟩) (fun hin => ih _ (by omega) next _ grown rfl)
          (hfails _ grown) (hfails _ grown)
    · refine (quietly_trails (nextPair_carries h _) out 0).bind fun size => ?_
      have hlater (hin : pos + 4 + size ≤ whole.size) (k : Carried) (out : ByteArray) :=
        ih _ (by omega) (pos + 4 + size) k out rfl
      by_cases hall : pos + 4 + size ≤ data.size
      · have hall' : pos + 4 + size ≤ whole.size := by omega
        rw [if_pos hall, if_pos hall', h.extract_eq hall]
        exact (hlater hall' _ _).of_cut (.foldl_packed _ out)
      · -- What is there of the chunk in the part, is there in the whole.
        rw [if_neg hall]
        refine .of_grown (.foldl_packed _ out)
          (.of_cut ((h.extract_mono (Nat.le_refl _)).foldl_packed_mono out) ?_)
        split
        · exact (hlater ‹_› _ _).keeps
        · exact .of_fails (.error (.refl _))

theorem zeros_carries (h : Cut data whole) (pos count : Nat) :
    Carries (zeros data pos count) (zeros whole pos count) := by
  unfold zeros
  refine .bind ?_ fun _ _ => .refl _
  exact .forM _ fun i => (nextByte_carries h _).bind fun _ _ => .refl _

/-- What follows the chunks of a block: padding and check. -/
def blockEnd (data : ByteArray) (kind pos start next : Nat) (b : Block) (out : ByteArray) :
    Except StreamError (Record × Nat) := do
  let compressed := next - b.body
  let content := out.size - start
  require (b.compressedSize.all (· = compressed) && b.contentSize.all (· = content)) .xzCorrupt
  let check ← zeros data next (padding compressed)
  let stored ← take data check (checkSize kind)
  require ((checkOf kind (out.extract start out.size)).all (· = stored)) .xzCorrupt
  return (⟨b.body - pos + compressed + checkSize kind, content⟩, check + checkSize kind)

theorem blockEnd_carries (h : Cut data whole) (kind pos start next : Nat) (b : Block)
    (out : ByteArray) :
    Carries (blockEnd data kind pos start next b out)
      (blockEnd whole kind pos start next b out) := by
  unfold blockEnd
  refine (Carries.refl _).bind fun _ _ => (zeros_carries h _ _).bind fun check _ => ?_
  exact (take_carries h check _).bind fun _ _ => .refl _

theorem block_eq (data : ByteArray) (kind pos : Nat) (out : ByteArray) :
    block data kind pos out = quietly out (blockHeader data pos kind) >>= fun b =>
      chunks data b.capacity b.body { start := out.size } out >>= fun (grown, next) =>
        (quietly grown (blockEnd data kind pos out.size next b grown)).map fun (record, next) =>
          (grown, record, next) := by
  rw [block]
  refine congrArg (_ >>= ·) (funext fun b => congrArg (_ >>= ·) (funext fun ⟨grown, next⟩ => ?_))
  unfold blockEnd
  dsimp only [bind, Except.bind]
  cases require (b.compressedSize.all (· = next - b.body) &&
    b.contentSize.all (· = grown.size - out.size)) .xzCorrupt with
  | error e => rfl
  | ok _ =>
    dsimp only
    cases zeros data next (padding (next - b.body)) with
    | error e => rfl
    | ok check =>
      dsimp only
      cases take data check (checkSize kind) with
      | error e => rfl
      | ok stored =>
        dsimp only
        cases require ((checkOf kind (grown.extract out.size grown.size)).all (· = stored))
          .xzCorrupt with
        | error e => rfl
        | ok _ => rfl

theorem block_trails (h : Cut data whole) (kind pos : Nat) (out : ByteArray) :
    Trails Prod.fst out (block data kind pos out) (block whole kind pos out) := by
  rw [block_eq, block_eq whole]
  refine (quietly_trails (blockHeader_carries h pos kind) out 0).bind fun b => ?_
  refine (chunks_trails h b.capacity b.body _ out).bind fun ⟨grown, next⟩ => ?_
  exact (quietly_trails (blockEnd_carries h kind pos _ next b grown) grown 0).map fun _ => rfl

/-! ## Index and streams -/

theorem index_carries (h : Cut data whole) (pos : Nat) (records : List Record) :
    Carries (index data pos records) (index whole pos records) := by
  have hgrouped (pos : Nat) := grouped_carries h h.size_le pos .xzCutShort
  unfold index
  refine (hgrouped _).bind fun ⟨count, next⟩ _ => (Carries.refl _).bind fun _ _ => ?_
  refine .bind (.foldlM _ (fun acc _ _ => ?_) _) fun ⟨found, next⟩ _ => ?_
  · exact (hgrouped _).bind fun ⟨_, next⟩ _ => (hgrouped next).bind fun _ _ => .refl _
  · refine (zeros_carries h _ _).bind fun next _ => (Carries.refl _).bind fun _ _ => ?_
    refine (take_carries h next 4).bind fun check hcheck => ?_
    have hsize := le_size_of_take hcheck
    rw [h.extract_eq (by omega)]
    exact .refl _

/-- What follows the blocks of a stream: index and footer. -/
def streamEnd (data : ByteArray) (kind pos : Nat) (records : List Record) :
    Except StreamError Nat := do
  let next ← index data pos records
  footer data next kind (next - pos)

theorem streamEnd_carries (h : Cut data whole) (kind pos : Nat) (records : List Record) :
    Carries (streamEnd data kind pos records) (streamEnd whole kind pos records) :=
  (index_carries h pos records).bind fun _ _ => footer_carries h _ kind _

theorem blocks_eq (data : ByteArray) (kind pos : Nat) (records : List Record) (out : ByteArray) :
    blocks data kind pos records out = quietly out (nextByte data pos) >>= fun first =>
      if first = 0 then (quietly out (streamEnd data kind pos records)).map fun next => (out, next)
      else block data kind pos out >>= fun (grown, record, next) =>
        if pos < next ∧ next ≤ data.size then blocks data kind next (records ++ [record]) grown
        else failBehind .xzCorrupt grown := by
  rw [blocks]
  cases quietly out (nextByte data pos) with
  | error p => rfl
  | ok first =>
    match first with
    | 0 =>
      unfold streamEnd
      dsimp only [bind, Except.bind]
      cases index data pos records with
      | error e => rfl
      | ok next =>
        dsimp only
        cases footer data next kind (next - pos) with
        | error e => rfl
        | ok next => rfl
    | first + 1 => cases block data kind pos out <;> rfl

theorem blocks_trails (h : Cut data whole) (kind pos : Nat) (records : List Record)
    (out : ByteArray) :
    Trails Prod.fst out (blocks data kind pos records out) (blocks whole kind pos records out) := by
  have hsize := h.size_le
  induction hn : whole.size - pos using Nat.strongRecOn generalizing pos records out with
  | ind n ih =>
    rw [blocks_eq, blocks_eq whole]
    refine (quietly_trails (nextByte_carries h pos) out 0).bind fun first =>
      .ite (fun _ => ?_) fun _ => ?_
    · exact (quietly_trails (streamEnd_carries h kind pos records) out 0).map fun _ => rfl
    · refine (block_trails h kind pos out).bind fun ⟨grown, record, next⟩ => ?_
      exact .check (fun hin => ⟨hin.1, by omega⟩) (fun hin => ih _ (by omega) next _ grown rfl)
        (failBehind_fails _ grown 0) (failBehind_fails _ grown 0)

/-- One stream without the padding behind it. -/
def stream (data : ByteArray) (pos : Nat) (out : ByteArray) : Partial (ByteArray × Nat) :=
  quietly out (header data pos) >>= fun kind => blocks data kind (pos + 12) [] out

theorem stream_trails (h : Cut data whole) (pos : Nat) (out : ByteArray) :
    Trails Prod.fst out (stream data pos out) (stream whole pos out) :=
  (quietly_trails (header_carries h pos) out 0).bind fun kind => blocks_trails h kind _ [] out

theorem zeroRun_def (data : ByteArray) (pos : Nat) :
    zeroRun data pos = (((ofPacked data).drop pos).takeWhile (· = 0)).length := by
  rw [zeroRun, Bytes.ofPacked_extract, ← Bytes.length_ofPacked, List.take_length]

/-- Padding that ends within the part, ends there in the whole. -/
theorem zeroRun_eq (h : Cut data whole) (hend : pos + zeroRun data pos < data.size) :
    zeroRun whole pos = zeroRun data pos := by
  obtain ⟨rest, hrest⟩ := h
  have hlen : ((ofPacked data).drop pos).length = data.size - pos := by
    rw [List.length_drop, Bytes.length_ofPacked]
  rw [zeroRun_def] at hend
  rw [zeroRun_def, zeroRun_def, ← hrest, List.drop_append_of_le_length
    (by rw [Bytes.length_ofPacked]; omega), List.takeWhile_append, if_neg (by omega)]

/-- What is behind a stream: zero padding in steps of four bytes, and then another stream or the
end of the file. -/
def padded (data : ByteArray) (pos : Nat) (grown : ByteArray) (next : Nat) : Except Decoded Nat :=
  if data.size ≤ next + zeroRun data next then
    .error ⟨ofPacked grown, if zeroRun data next % 4 = 0 then none else some .xzCorrupt⟩
  else if zeroRun data next % 4 = 0 ∧ pos < next + zeroRun data next then
    .ok (next + zeroRun data next)
  else .error ⟨ofPacked (Lzma.Window.withhold ⟨0, 0⟩ grown), some .xzCorrupt⟩

theorem resumes_padded (h : Cut data whole) : Resumes padded data whole := by
  have hsize := h.size_le
  constructor
  · intro file pos grown next d hd
    unfold padded at hd
    split at hd
    · cases hd
      exact List.prefix_rfl
    · split at hd
      · cases hd
      · cases hd
        exact Lzma.Window.withhold_cut _ grown
  · intro pos grown next n hn
    unfold padded at hn ⊢
    split at hn
    · cases hn
    · rw [zeroRun_eq h (by omega), if_neg (by omega)]
      exact hn

/-- What a file decodes to, by the outcome of its streams. -/
def decodedOf (x : Partial ByteArray) : Decoded :=
  match x with
  | .ok out => ⟨ofPacked out, none⟩
  | .error (e, out) => ⟨ofPacked out, some e⟩

theorem streams_eq (data : ByteArray) (pos : Nat) (out : ByteArray) :
    decodedOf (streams data pos out) = units stream padded data pos out := by
  induction hn : data.size - pos using Nat.strongRecOn generalizing pos out with
  | ind n ih =>
    rw [streams, units, stream]
    cases quietly out (header data pos) with
    | error p => rfl
    | ok kind =>
      dsimp only [bind, Except.bind]
      cases blocks data kind (pos + 12) [] out with
      | error p => rfl
      | ok a =>
        dsimp only [padded]
        split
        · split <;> rfl
        · split
          · rw [if_neg (by tauto)]
            rfl
          · split
            · rename_i hmore hpad hlt
              rw [ih _ (by omega) _ _ rfl, if_pos ⟨not_not.1 hpad, hlt⟩]
              exact (if_pos ⟨hlt, by omega⟩).symm
            · rw [if_neg (by tauto)]
              rfl

/-- An xz file that is cut off is decoded like the whole file, as far as both go. -/
theorem decode_agree (h : Cut data whole) (hmagic : data[0]? = magic.head?) :
    Agree (decode data).bytes (decode whole).bytes := by
  have hdecode {x : ByteArray} (hx : x[0]? = magic.head?) :
      decode x = units stream padded x 0 .empty := by
    rw [← streams_eq]
    unfold decode
    rw [if_pos hx]
    rfl
  rw [hdecode hmagic, hdecode (h.getElem? hmagic)]
  exact (units_agree h (resumes_padded h) (stream_trails h) 0 .empty).1

end FileListCache.Xz
