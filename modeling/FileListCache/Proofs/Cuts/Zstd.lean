/-
  FileListCache.Proofs.Cuts.Zstd

  Zstandard files that are cut off. A block is decoded only when all its bytes are there, and from
  then on nothing behind it is looked at. So within a block both decoders do the same, also where
  missing bits would count as zeros.
-/

import FileListCache.Compression.Zstd
import FileListCache.Proofs.Cuts

namespace FileListCache.Zstd

open Bytes (Agree ofPacked)

variable {data whole : ByteArray} {start stop pos count : Nat} {s : Backward}

/-! ## Backward bit streams -/

/-- The bits of the stream are in the file. -/
def Backward.Inside (s : Backward) (data : ByteArray) : Prop :=
  8 * s.start + s.left ≤ 8 * data.size

namespace Backward

theorem open?_carries (h : Cut data whole) (start stop : Nat) :
    Carries (open? data start stop) (open? whole start stop) := by
  unfold open?
  cases hb : (if start < stop then data[stop - 1]? else none) with
  | none => exact .error _ _
  | some b =>
    rw [h.getElem?_ite id hb]
    exact .refl _

theorem inside_of_open? (h : open? data start stop = .ok s) : s.Inside data := by
  unfold open? at h
  split at h
  · rename_i b hb
    split at hb
    · split at h
      · cases h
      · rename_i hlt hne
        cases h
        have hsize : stop - 1 < data.size := (getElem?_eq_some_iff.1 hb).1
        have hbit : Bits.highestSet b.toNat < 8 := by
          unfold Bits.highestSet
          rw [Nat.log2_lt (by simpa [← UInt8.toNat_inj] using hne)]
          exact b.toNat_lt
        simp only [Inside]
        omega
    · cases hb
  · cases h

theorem read_carries (h : Cut data whole) (s : Backward) (count : Nat) :
    Carries (read data s count) (read whole s count) := by
  unfold read
  refine .ite (fun _ => ?_) fun _ => .refl _
  cases hn : Bits.lowNumber? data (8 * s.start + (s.left - count)) count with
  | none => exact .error _ _
  | some n =>
    rw [h.lowNumber? hn]
    exact .refl _

theorem read_eq (h : Cut data whole) (hs : s.Inside data) (count : Nat) :
    read whole s count = read data s count := by
  unfold Inside at hs
  unfold read
  split
  · rw [h.lowNumber?_eq (by omega)]
  · rfl

theorem peek_eq (h : Cut data whole) (hs : s.Inside data) (count : Nat) :
    peek whole s count = peek data s count := by
  unfold Inside at hs
  unfold peek
  dsimp only
  rw [h.lowNumber?_eq (by omega)]

theorem inside_of_read {n : Nat} {s' : Backward} (hs : s.Inside data)
    (h : read data s count = .ok (n, s')) : s'.Inside data := by
  unfold read at h
  split at h
  · split at h
    · cases h
      unfold Inside at hs ⊢
      dsimp only
      omega
    · cases h
  · cases h

end Backward

/-! ## Tables -/

namespace StateTable

theorem bitsBefore_eq (h : Cut data whole) (hstop : stop ≤ data.size) (pos count : Nat) :
    bitsBefore whole stop pos count = bitsBefore data stop pos count := by
  unfold bitsBefore
  dsimp only
  by_cases hpos : pos ≤ 8 * stop
  · rw [h.lowNumber?_eq (by omega)]
  · have hzero : 8 * stop - pos = 0 := by omega
    rw [hzero, Nat.min_zero]
    rfl

theorem zeroRun_eq (h : Cut data whole) (hstop : stop ≤ data.size) (pos fuel run : Nat) :
    zeroRun whole stop pos fuel run = zeroRun data stop pos fuel run := by
  induction fuel generalizing pos run with
  | zero => rfl
  | succ fuel ih =>
    unfold zeroRun
    simp only [bitsBefore_eq h hstop, ih]

theorem frequency_eq (h : Cut data whole) (hstop : stop ≤ data.size) (pos : Nat)
    (remaining : Int) : frequency whole stop pos remaining = frequency data stop pos remaining := by
  unfold frequency
  simp only [bitsBefore_eq h hstop]

theorem readFrequencies_eq (h : Cut data whole) (hstop : stop ≤ data.size) (limit fuel : Nat)
    (r : Reading) :
    readFrequencies whole stop limit fuel r = readFrequencies data stop limit fuel r := by
  induction fuel generalizing r with
  | zero => rfl
  | succ fuel ih =>
    unfold readFrequencies
    simp only [zeroRun_eq h hstop, frequency_eq h hstop, ih]

theorem read_eq (h : Cut data whole) (hstop : stop ≤ data.size) (limit maxLog start : Nat) :
    read whole limit maxLog start stop = read data limit maxLog start stop := by
  unfold read
  simp only [bitsBefore_eq h hstop, readFrequencies_eq h hstop]

theorem start_carries (h : Cut data whole) (t : StateTable) (s : Backward) :
    Carries (t.start data s) (t.start whole s) :=
  Backward.read_carries h s t.log

theorem next_carries (h : Cut data whole) (t : StateTable) (i : Nat) (s : Backward) :
    Carries (t.next data i s) (t.next whole i s) :=
  (Backward.read_carries h s _).bind fun _ _ => .refl _

theorem next_eq (h : Cut data whole) (hs : s.Inside data) (t : StateTable) (i : Nat) :
    t.next whole i s = t.next data i s := by
  unfold next
  simp only [Backward.read_eq h hs]

theorem inside_of_next {t : StateTable} {i j : Nat} {s' : Backward} (hs : s.Inside data)
    (h : t.next data i s = .ok (j, s')) : s'.Inside data := by
  unfold next at h
  obtain ⟨a, hr, h⟩ := exists_of_bind_ok h
  cases h
  exact Backward.inside_of_read hs hr

end StateTable

/-! ## Literals -/

namespace WeightCode

theorem takeTurns_eq (h : Cut data whole) (t : StateTable) (fuel mine other : Nat)
    (hs : s.Inside data) (acc : List Nat) :
    takeTurns t whole fuel mine other s acc = takeTurns t data fuel mine other s acc := by
  induction fuel generalizing mine other s acc with
  | zero => rfl
  | succ fuel ih =>
    unfold takeTurns
    rw [t.next_eq h hs]
    dsimp only
    cases hn : t.next data mine s with
    | error e => rfl
    | ok a => exact ih _ _ (StateTable.inside_of_next hs hn) _

theorem decode_eq (h : Cut data whole) (c : WeightCode) (count : Nat) (hs : s.Inside data)
    (out : ByteArray) : c.decode whole count s out = c.decode data count s out := by
  induction count generalizing s out with
  | zero => rfl
  | succ count ih =>
    unfold decode
    rw [Backward.peek_eq h hs]
    generalize c.cells.getD (s.peek data c.log) (0, 0) = cell
    dsimp only
    split
    · refine ih ?_ _
      unfold Backward.Inside at hs ⊢
      dsimp only
      omega
    · rfl

theorem read_carries (h : Cut data whole) (hstop : stop ≤ data.size) (start : Nat) :
    Carries (read data start stop) (read whole start stop) := by
  unfold read
  by_cases hlt : start < stop
  · rw [if_pos hlt, if_pos hlt, h.getElem?_eq (by omega)]
    split
    · exact .refl _
    · rename_i header _
      dsimp only
      refine .ite (fun _ => .ite (fun _ => .error _ _) fun hnext => ?_) fun _ =>
        .ite (fun _ => .error _ _) fun hnext => ?_
      · rw [StateTable.read_eq h (by omega)]
        refine (Carries.refl _).bind fun ⟨table, body⟩ _ => ?_
        refine (Backward.open?_carries h body _).bind fun s hs => ?_
        have hs := Backward.inside_of_open? hs
        refine (table.start_carries h s).bind fun ⟨first, s'⟩ hfirst => ?_
        have hs' := Backward.inside_of_read hs hfirst
        refine (table.start_carries h s').bind fun ⟨second, s''⟩ hsecond => ?_
        rw [takeTurns_eq h _ _ _ _ (Backward.inside_of_read hs' hsecond)]
        exact .refl _
      · refine .of_eq (congrArg (ofWeights? · >>= _) (List.map_congr_left fun i hi => ?_))
        have hi := List.mem_range.1 hi
        rw [h.getElem?_eq (by omega)]
  · rw [if_neg hlt, if_neg hlt]
    exact .refl _

end WeightCode

theorem exactStream_carries (h : Cut data whole) (c : WeightCode) (start stop count : Nat)
    (out : ByteArray) :
    Carries (exactStream c data start stop count out)
      (exactStream c whole start stop count out) := by
  unfold exactStream
  refine (Backward.open?_carries h start stop).bind fun s hs => ?_
  rw [c.decode_eq h count (Backward.inside_of_open? hs)]
  exact .refl _

theorem longStream_eq (h : Cut data whole) {floor : Nat} (hfloor : floor < stop)
    (hstop : stop ≤ data.size) (c : WeightCode) (start count : Nat) (out : ByteArray) :
    longStream c whole floor start stop count out =
      longStream c data floor start stop count out := by
  unfold longStream
  rw [h.getElem?_eq (by omega)]
  dsimp only
  rw [c.decode_eq h count]
  simp only [Backward.Inside]
  omega

/-- Literals in four streams of which the lengths of the first three are known. -/
def fourParts (c : WeightCode) (data : ByteArray) (start stop count : Nat)
    (lengths : Nat × Nat × Nat) : Except StreamError ByteArray := do
  let first := start + 6
  let second := first + lengths.1
  let third := second + lengths.2.1
  let fourth := third + lengths.2.2
  if stop < fourth then throw .zstdCorrupt
  let quarter := (count + 3) / 4
  if count < 3 * quarter then throw .zstdCorrupt
  let parts := [(first, second, quarter), (second, third, quarter), (third, fourth, quarter),
    (fourth, stop, count - 3 * quarter)]
  let areLong := c.log < WeightCode.longest && 3 * quarter < count
    && parts.all fun (a, b, _) => a + 8 ≤ b
  parts.foldlM (fun out (a, b, n) =>
    if areLong then longStream c data start a b n out else exactStream c data a b n out) .empty

theorem fourStreams_eq (c : WeightCode) (data : ByteArray) (start stop count : Nat) :
    fourStreams c data start stop count =
      let length (i : Nat) : Nat := (littleEndianAt? data (start + 2 * i) 2).getD 0
      if stop < start + 10 ∨ count < 6 then .error .zstdCorrupt
      else fourParts c data start stop count (length 0, length 1, length 2) := rfl

theorem fourParts_carries (h : Cut data whole) (hstop : stop ≤ data.size) (c : WeightCode)
    (start count : Nat) (lengths : Nat × Nat × Nat) :
    Carries (fourParts c data start stop count lengths)
      (fourParts c whole start stop count lengths) := by
  unfold fourParts
  dsimp only
  refine .ite (fun _ => .error _ _) fun hfourth => .ite (fun _ => .error _ _) fun _ => ?_
  refine .foldlM _ (fun out part hpart => .ite (fun hlong => ?_) fun _ => ?_) _
  · have hpart' : start < part.2.1 ∧ part.2.1 ≤ stop := by
      simp only [List.mem_cons, List.not_mem_nil, or_false] at hpart
      rcases hpart with rfl | rfl | rfl | rfl <;> dsimp only <;> omega
    exact .of_eq (longStream_eq h hpart'.1 (by omega) c _ _ out).symm
  · exact exactStream_carries h c _ _ _ out

theorem fourStreams_carries (h : Cut data whole) (hstop : stop ≤ data.size) (c : WeightCode)
    (start count : Nat) :
    Carries (fourStreams c data start stop count) (fourStreams c whole start stop count) := by
  rw [fourStreams_eq, fourStreams_eq c whole]
  refine .ite (fun _ => .refl _) fun hroom => ?_
  have hlength (i : Nat) (hi : i < 3) :
      littleEndianAt? whole (start + 2 * i) 2 = littleEndianAt? data (start + 2 * i) 2 :=
    h.littleEndianAt?_eq (by omega)
  dsimp only
  rw [hlength 0 (by omega), hlength 1 (by omega), hlength 2 (by omega)]
  exact fourParts_carries h hstop c start count _

theorem Literals.read_carries (h : Cut data whole) (hstop : stop ≤ data.size)
    (kept : Option WeightCode) (largest start : Nat) :
    Carries (Literals.read data kept largest start stop)
      (Literals.read whole kept largest start stop) := by
  unfold Literals.read
  refine .ite (fun _ => .error _ _) fun hroom => ?_
  beta_reduce
  rw [h.getElem?_eq (show start < data.size by omega)]
  extract_lets head format need number size count body plain coded number' count' plain' coded'
  have hneed {n : Nat} {u : Unit} (hn : need n = .ok u) : start + n ≤ data.size := by
    unfold need at hn
    split at hn
    · cases hn
    · omega
  have hnumber {n : Nat} (hn : start + n ≤ data.size) : number' n = number n :=
    congrArg (·.getD 0) (h.littleEndianAt?_eq hn)
  refine .ite (fun _ => (Carries.refl _).bind fun _ hsize => ?_) fun _ =>
    .ite (fun _ => .error _ _) fun _ => ?_
  · have hcount : count' = count := by
      unfold count' count
      rw [hnumber (hneed hsize)]
    have hbody : body = start + size := rfl
    rw [hcount]
    refine .ite (fun _ => .error _ _) fun _ => ?_
    unfold plain plain'
    rw [hcount]
    refine .ite (fun _ => (Carries.refl _).bind fun _ hall => ?_) fun _ =>
      (Carries.refl _).bind fun _ hone => ?_
    · have hall := hneed hall
      rw [h.extract_eq (by omega)]
      exact .refl _
    · have hone := hneed hone
      rw [h.getElem?_eq (by omega)]
      exact .refl _
  · unfold coded coded'
    refine (Carries.refl _).bind fun _ hfive => ?_
    have hsizes :
        (if format < 2 then (3, 10) else if format = 2 then (4, 14) else (5, 18)).1 ≤ 5 := by
      split
      · omega
      · split <;> omega
    generalize (if format < 2 then (3, 10) else if format = 2 then (4, 14) else (5, 18)) = sizes
      at hsizes ⊢
    obtain ⟨size, width⟩ := sizes
    dsimp only
    rw [hnumber (by have := hneed hfive; omega)]
    generalize number size / 16 = n
    refine .ite (fun _ => .error _ _) fun _ => (Carries.refl _).bind fun _ hall => ?_
    have hall := hneed hall
    have hnext : start + size + n / Nat.pow 2 width ≤ data.size := by omega
    split
    · refine (Carries.refl _).bind fun code _ => ?_
      exact .ite (fun _ => (exactStream_carries h _ _ _ _ _).bind fun _ _ => .refl _) fun _ =>
        (fourStreams_carries h hnext _ _ _).bind fun _ _ => .refl _
    · refine (WeightCode.read_carries h hnext _).bind fun code _ => ?_
      exact .ite (fun _ => (exactStream_carries h _ _ _ _ _).bind fun _ _ => .refl _) fun _ =>
        (fourStreams_carries h hnext _ _ _).bind fun _ _ => .refl _

/-! ## Sequences -/

theorem table_carries (h : Cut data whole) (hstop : stop ≤ data.size) (a : Alphabet) (mode : Nat)
    (kept : Option StateTable) (start : Nat) :
    Carries (a.table data mode kept start stop) (a.table whole mode kept start stop) := by
  unfold Alphabet.table
  split
  · exact .refl _
  · by_cases hlt : start < stop
    · rw [if_pos hlt, if_pos hlt, h.getElem?_eq (by omega)]
      exact .refl _
    · rw [if_neg hlt, if_neg hlt]
      exact .refl _
  · rw [StateTable.read_eq h hstop]
    exact .refl _
  · exact .refl _

theorem readSequences_carries (h : Cut data whole) (t : Tables) (count : Nat) (m : Machines)
    (s : Backward) (acc : List Sequence) :
    Carries (readSequences t data count m s acc) (readSequences t whole count m s acc) := by
  induction count generalizing m s acc with
  | zero => exact .refl _
  | succ count ih =>
    unfold readSequences
    extract_lets value value'
    have hvalue (a : Alphabet) (symbol : Nat) (s : Backward) :
        Carries (value a symbol s) (value' a symbol s) :=
      (Backward.read_carries h s _).bind fun _ _ => .refl _
    refine (hvalue _ _ s).bind fun ⟨distance, s⟩ _ => (hvalue _ _ s).bind fun ⟨length, s⟩ _ =>
      (hvalue _ _ s).bind fun ⟨literals, s⟩ _ => .ite (fun _ => .refl _) fun _ => ?_
    refine (t.literals.next_carries h _ s).bind fun ⟨ls, s⟩ _ =>
      (t.copies.next_carries h _ s).bind fun ⟨cs, s⟩ _ =>
        (t.distances.next_carries h _ s).bind fun ⟨ds, s⟩ _ => ih _ s _

theorem sequenceCount_carries (h : Cut data whole) (start stop : Nat) :
    Carries (sequenceCount data start stop) (sequenceCount whole start stop) := by
  unfold sequenceCount
  extract_lets byte byte'
  have hbyte (i : Nat) : Carries (byte i) (byte' i) := by
    unfold byte byte'
    cases hb : (if start + i < stop then data[start + i]? else none) with
    | none => exact .error _ _
    | some b =>
      rw [h.getElem?_ite id hb]
      exact .refl _
  refine (hbyte 0).bind fun first _ =>
    .ite (fun _ => .refl _) fun _ => .ite (fun _ => ?_) fun _ => ?_
  · exact (hbyte 1).bind fun _ _ => .refl _
  · exact (hbyte 1).bind fun _ _ => (hbyte 2).bind fun _ _ => .refl _

theorem sequences_carries (h : Cut data whole) (hstop : stop ≤ data.size) (kept : Option Tables)
    (start : Nat) :
    Carries (sequences data kept start stop) (sequences whole kept start stop) := by
  unfold sequences
  refine (sequenceCount_carries h start stop).bind fun ⟨count, pos⟩ _ => ?_
  refine .ite (fun _ => .refl _) fun _ => .ite (fun _ => .error _ _) fun hpos => ?_
  beta_reduce
  rw [h.getElem?_eq (show pos < data.size by omega)]
  refine .ite (fun _ => .error _ _) fun _ => ?_
  refine (table_carries h hstop _ _ _ _).bind fun ⟨ls, pos⟩ _ =>
    (table_carries h hstop _ _ _ pos).bind fun ⟨ds, pos⟩ _ =>
      (table_carries h hstop _ _ _ pos).bind fun ⟨cs, pos⟩ _ => ?_
  refine (Backward.open?_carries h pos stop).bind fun s _ => ?_
  refine (ls.start_carries h s).bind fun ⟨l, s⟩ _ => (ds.start_carries h s).bind fun ⟨d, s⟩ _ =>
    (cs.start_carries h s).bind fun ⟨c, s⟩ _ => ?_
  exact (readSequences_carries h _ count _ s []).bind fun _ _ => .refl _

/-! ## Blocks -/

theorem codedBlock_carries (h : Cut data whole) (hstop : stop ≤ data.size) (largest pos start : Nat)
    (k : Kept) (out : ByteArray) :
    Carries (codedBlock data largest pos stop start k out)
      (codedBlock whole largest pos stop start k out) := by
  unfold codedBlock
  refine (Literals.read_carries h hstop _ _ _).bind fun literals _ => ?_
  exact (sequences_carries h hstop _ _).bind fun _ _ => .refl _

theorem block_carries (h : Cut data whole) (f : Frame) (kind size pos start : Nat) (k : Kept)
    (out : ByteArray) :
    Carries (block data f kind size pos start k out) (block whole f kind size pos start k out) := by
  have hsize := h.size_le
  unfold block
  dsimp only
  refine .ite (fun _ => .error _ _) fun _ => .ite (fun _ => .error _ _) fun _ =>
    .refuse (by omega) fun hall => .ite (fun hkind => .ite (fun _ => .error _ _) fun _ => ?_)
      fun hkind => .ite (fun _ => ?_) fun _ => ?_
  · rw [if_pos hkind] at hall
    rw [h.getElem?_eq (by omega)]
    exact .refl _
  · rw [if_neg hkind] at hall
    rw [h.extract_eq (by omega)]
    exact .refl _
  · rw [if_neg hkind] at hall
    exact (codedBlock_carries h (by omega) _ pos start k out).bind fun _ _ => .refl _

/-- Sequences only add to the output. -/
theorem cut_of_steps {literals : ByteArray} {found : List Sequence} {o o' : Output}
    (h : found.foldlM (Output.step literals start) o = .ok o') : Cut o.out o'.out := by
  induction found generalizing o with
  | nil =>
    cases h
    exact .refl _
  | cons q found ih =>
    rw [List.foldlM_cons] at h
    obtain ⟨o₁, hstep, h⟩ := exists_of_bind_ok h
    refine Cut.trans ?_ (ih h)
    unfold Output.step at hstep
    obtain ⟨-, hstep⟩ := ok_of_refuse hstep
    obtain ⟨-, hstep⟩ := ok_of_refuse hstep
    cases hstep
    exact (Cut.foldl_packed _ _).trans (.copyBack _ _ _)

theorem cut_of_codedBlock {largest : Nat} {k k' : Kept} {out grown : ByteArray}
    (h : codedBlock data largest pos stop start k out = .ok (grown, k')) : Cut out grown := by
  unfold codedBlock at h
  obtain ⟨literals, -, h⟩ := exists_of_bind_ok h
  obtain ⟨⟨found, tables⟩, -, h⟩ := exists_of_bind_ok h
  obtain ⟨o, ho, h⟩ := exists_of_bind_ok h
  obtain ⟨-, h⟩ := ok_of_refuse h
  cases h
  exact (cut_of_steps ho).trans (.foldl_packed _ _)

theorem cut_of_block {f : Frame} {kind size next : Nat} {k k' : Kept} {out grown : ByteArray}
    (h : block data f kind size pos start k out = .ok (grown, k', next)) : Cut out grown := by
  unfold block at h
  dsimp only at h
  obtain ⟨-, h⟩ := ok_of_refuse h
  obtain ⟨-, h⟩ := ok_of_refuse h
  obtain ⟨-, h⟩ := ok_of_refuse h
  split at h
  · obtain ⟨-, h⟩ := ok_of_refuse h
    cases h
    exact .foldl_push _ _
  · split at h
    · cases h
      exact .foldl_packed _ _
    · obtain ⟨⟨grown, k⟩, hcoded, h⟩ := exists_of_bind_ok h
      cases h
      exact cut_of_codedBlock hcoded

/-- The block at `pos` behind its header. What the header says comes with what the block gives. -/
def headedBlock (data : ByteArray) (f : Frame) (pos start : Nat) (k : Kept) (out : ByteArray) :
    Except StreamError (Nat × ByteArray × Kept × Nat) :=
  match littleEndianAt? data pos 3 with
  | none => .error .zstdCutShort
  | some header =>
    (block data f (header / 2 % 4) (header / 8) (pos + 3) start k out).map (header, ·)

theorem headedBlock_carries (h : Cut data whole) (f : Frame) (pos start : Nat) (k : Kept)
    (out : ByteArray) :
    Carries (headedBlock data f pos start k out) (headedBlock whole f pos start k out) := by
  unfold headedBlock
  cases hheader : littleEndianAt? data pos 3 with
  | none => exact .error _ _
  | some header =>
    rw [h.littleEndianAt? hheader]
    exact (block_carries h f _ _ _ start k out).map _

theorem cut_of_headedBlock {f : Frame} {header next : Nat} {k k' : Kept} {out grown : ByteArray}
    (h : headedBlock data f pos start k out = .ok (header, grown, k', next)) : Cut out grown := by
  unfold headedBlock at h
  split at h
  · cases h
  · obtain ⟨a, hblock, h⟩ := exists_of_bind_ok h
    cases h
    exact cut_of_block hblock

theorem blocks_eq (data : ByteArray) (f : Frame) (pos start : Nat) (k : Kept) (out : ByteArray) :
    blocks data f pos start k out =
      stopping (fun e => .error (e, out)) (headedBlock data f pos start k out) >>=
        fun (header, grown, k, next) =>
          if header % 2 = 1 then
            if (decide (next = pos + 3) && !f.isSmall) || f.contentSize.all (· = grown.size - start)
            then .ok (grown, next)
            else .error (.zstdCorrupt, out)
          else if pos < next ∧ next ≤ data.size then blocks data f next start k grown
          else .error (.zstdCorrupt, out) := by
  rw [blocks, headedBlock]
  cases littleEndianAt? data pos 3 with
  | none => rfl
  | some header =>
    dsimp only
    cases block data f (header / 2 % 4) (header / 8) (pos + 3) start k out <;> rfl

theorem blocks_trails (h : Cut data whole) (f : Frame) (pos start : Nat) (k : Kept)
    (out : ByteArray) :
    Trails Prod.fst out (blocks data f pos start k out) (blocks whole f pos start k out) := by
  have hsize := h.size_le
  induction hn : whole.size - pos using Nat.strongRecOn generalizing pos k out with
  | ind n ih =>
    have hfails (e : StreamError) :
        Fails out (.error (e, out) : Partial (ByteArray × Nat)) := .error (.refl out)
    rw [blocks_eq, blocks_eq whole]
    refine (Trails.stopping (headedBlock_carries h f pos start k out) fun _ =>
      .error (.refl out)).bind_of_ok fun ⟨header, grown, k', next⟩ hok => ?_
    have hgrown : Cut out grown := by
      cases hw : headedBlock whole f pos start k out with
      | error e =>
        rw [hw] at hok
        cases hok
      | ok a =>
        rw [hw] at hok
        cases hok
        exact cut_of_headedBlock hw
    refine .ite (fun _ => .ite (fun _ => .ok hgrown) fun _ => .fail (hfails _) (hfails _))
      fun _ => ?_
    -- Blocks behind the end of the part are blocks of the whole at most.
    refine .check (fun hin => ⟨hin.1, hin.2.trans hsize⟩) (fun hin => ?_) (hfails _) (hfails _)
    exact .of_cut hgrown (ih _ (by omega) next k' grown rfl)

/-! ## Frames -/

theorem frameHeader_carries (h : Cut data whole) (start : Nat) :
    Carries (frameHeader data start) (frameHeader whole start) := by
  have hsize := h.size_le
  unfold frameHeader
  cases hb : data[start + 4]? with
  | none => exact .error _ _
  | some b =>
    rw [h.getElem? hb]
    -- A header gives its window or the size of its content, so something follows the flags.
    have hfield : 5 < 5 + (if b.toNat.testBit 5 = true then 0 else 1) +
        #[if b.toNat.testBit 5 = true then 1 else 0, 2, 4, 8].getD (b.toNat / 64) 0 := by
      have hkind : b.toNat / 64 < 4 := by
        have := b.toNat_lt
        omega
      generalize b.toNat / 64 = kind at hkind ⊢
      split
      · match kind, hkind with
        | 0, _ | 1, _ | 2, _ | 3, _ => decide
      · exact Nat.lt_add_right _ (by decide)
    dsimp only
    refine .refuse (by omega) fun hbody => .of_eq ?_
    simp only [h.getElem?_eq (show start + 5 < data.size by omega)]
    rw [h.littleEndianAt?_eq (by omega), h.littleEndianAt?_eq (by omega)]

theorem frameCheck_carries (h : Cut data whole) (f : Frame) (pos start : Nat) (out : ByteArray) :
    Carries (frameCheck data f pos start out) (frameCheck whole f pos start out) := by
  unfold frameCheck
  refine .ite (fun _ => ?_) fun _ => .refl _
  cases hc : littleEndianAt? data pos 4 with
  | none => exact .error _ _
  | some check =>
    rw [h.littleEndianAt? hc]
    exact .refl _

/-- What stands at the start of a frame: the place behind one to be skipped, or the header of one
with content. -/
def opening (data : ByteArray) (pos : Nat) : Except StreamError (Nat ⊕ Frame) :=
  let bytes := ofPacked (data.extract pos (pos + 5))
  if ¬ couldStart bytes then .error .zstdMagic
  else if bytes.length < 5 then .error .zstdCutShort
  else if isSkipMagic (littleEndian (bytes.take 4)) then
    match littleEndianAt? data (pos + 4) 4 with
    | none => .error .zstdCutShort
    | some size =>
      if data.size < pos + 8 + size then .error .zstdCutShort else .ok (.inl (pos + 8 + size))
  else .inr <$> frameHeader data pos

theorem opening_carries (h : Cut data whole) (pos : Nat) :
    Carries (opening data pos) (opening whole pos) := by
  have hsize := h.size_le
  unfold opening
  dsimp only
  by_cases hfive : pos + 5 ≤ data.size
  · rw [h.extract_eq hfive]
    refine .ite (fun _ => .refl _) fun _ => .ite (fun _ => .refl _) fun _ => .ite (fun _ => ?_)
      fun _ => (frameHeader_carries h pos).map _
    cases hlength : littleEndianAt? data (pos + 4) 4 with
    | none => exact .error _ _
    | some size =>
      rw [h.littleEndianAt? hlength]
      exact .refuse (by omega) fun _ => .refl _
  · -- Fewer bytes than that are no frame, whatever they are.
    have hshort : (ofPacked (data.extract pos (pos + 5))).length < 5 := by
      rw [Bytes.length_ofPacked, ByteArray.size_extract]
      omega
    rw [if_pos hshort]
    split <;> exact .error _ _

theorem frame_eq (data : ByteArray) (pos : Nat) (out : ByteArray) :
    frame data pos out =
      stopping (fun e => .error (e, out)) (opening data pos) >>= fun
        | .inl next => .ok (out, next)
        | .inr f =>
          blocks data f f.body out.size {} out >>= fun (grown, next) =>
            stopping (fun e => .error (e, grown)) (frameCheck data f next out.size grown) >>=
              fun next => .ok (grown, next) := by
  unfold frame opening
  dsimp only
  split
  · rfl
  · split
    · rfl
    · split
      · cases littleEndianAt? data (pos + 4) 4 with
        | none => rfl
        | some size =>
          dsimp only
          split <;> rfl
      · cases frameHeader data pos with
        | error e => rfl
        | ok f =>
          dsimp only [releasing, Except.mapError, Functor.map, Except.map, stopping, bind,
            Except.bind, pure, Except.pure]
          cases blocks data f f.body out.size {} out with
          | error p => rfl
          | ok a =>
            dsimp only
            cases frameCheck data f a.2 out.size a.1 <;> rfl

theorem frame_trails (h : Cut data whole) (pos : Nat) (out : ByteArray) :
    Trails Prod.fst out (frame data pos out) (frame whole pos out) := by
  rw [frame_eq, frame_eq whole]
  refine (Trails.stopping (opening_carries h pos) fun _ => .error (.refl out)).bind fun
    | .inl next => .ok (.refl out)
    | .inr f => (blocks_trails h f _ _ _ out).bind fun ⟨grown, next⟩ => ?_
  exact (Trails.stopping (frameCheck_carries h f next _ grown) fun _ => .error (.refl grown)).bind
    fun _ => .ok (.refl grown)

theorem frames_eq (data : ByteArray) (pos : Nat) (out : ByteArray) :
    frames data pos out = units frame (directly .zstdCorrupt) data pos out := by
  induction hn : data.size - pos using Nat.strongRecOn generalizing pos out with
  | ind n ih =>
    rw [frames, units]
    cases frame data pos out with
    | error p => rfl
    | ok a =>
      obtain ⟨grown, next⟩ := a
      dsimp only [directly]
      split
      · rfl
      · split
        · rw [ih _ (by omega) next grown rfl]
          exact (if_pos ⟨by assumption, by omega⟩).symm
        · rfl

/-- A Zstandard file that is cut off is decoded like the whole file, as far as both go. -/
theorem decode_agree (h : Cut data whole) : Agree (decode data).bytes (decode whole).bytes := by
  rw [decode, decode, frames_eq, frames_eq]
  exact (units_agree h (resumes_directly h _) (frame_trails h) 0 .empty).1

end FileListCache.Zstd
