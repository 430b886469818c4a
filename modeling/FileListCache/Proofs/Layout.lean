/-
  FileListCache.Proofs.Layout

  How an archive lies in its bytes, said without a reader: member after member, up to a block of
  zeros or the end (`Archive.Layout`). The reader finds exactly the members that are laid out, and
  finds them again in the archive that is written from them, whatever followed their payloads in
  the first one.
-/

import FileListCache.Archive.Member
import Mathlib.Tactic.Common

namespace FileListCache.Archive

/-- The bytes hold the members of an archive one after the other, each in whole blocks. The
archive ends with a block of zeros or, if no error ended the bytes early, with the bytes. -/
inductive Layout (failure : Option IoError) : Bytes → List Member → Prop
  | ended (h : failure = none) : Layout failure [] []
  | marked (rest : Bytes) : Layout failure (List.replicate blockSize 0 ++ rest) []
  | member {m : Member} {padding rest : Bytes} {ms : List Member}
      (hlength : m.header.bytes.length = blockSize) (hzero : m.header.isZero = false)
      (hsize : m.header.size = .ok m.size) (hpayload : m.payload.length = m.size)
      (hfailure : m.failure = none) (hpadding : padding.length = Member.paddingOf m.size)
      (hrest : Layout failure rest ms) :
      Layout failure (m.header.bytes ++ (m.payload ++ (padding ++ rest))) (m :: ms)

/-- The checksum in the header is right. -/
def Header.IsSigned (h : Header) : Prop := h.statedSum = .ok (h.sum % Nat.pow 2 32)

instance (h : Header) : Decidable h.IsSigned :=
  match hs : h.statedSum with
  | .ok n => decidable_of_iff (n = h.sum % Nat.pow 2 32) (by simp [Header.IsSigned, hs])
  | .error _ => isFalse (by simp [Header.IsSigned, hs])

variable {failure : Option IoError} {bytes rest padding : Bytes} {m : Member}
  {ms ms' : List Member} {position : Nat} {s : Stream} {h : Header} {size : Nat}

/-! ## Blocks -/

theorem isZero_replicate : Header.isZero ⟨List.replicate blockSize 0⟩ = true := by
  simp [Header.isZero]

/-- A block of zeros has no other form. -/
theorem Header.eq_of_isZero (hlen : h.bytes.length = blockSize) (hzero : h.isZero = true) :
    h.bytes = List.replicate blockSize 0 := by
  rw [List.eq_replicate_iff]
  refine ⟨hlen, fun b hb => ?_⟩
  simpa using List.all_eq_true.1 hzero b hb

theorem readHeader_append (hlen : h.bytes.length = blockSize) :
    readHeader ⟨h.bytes ++ rest, failure⟩ = .ok (if h.isZero then none else some h) := by
  have htake : (h.bytes ++ rest).take blockSize = h.bytes := by
    rw [← hlen, List.take_left]
  have hle : blockSize ≤ (h.bytes ++ rest).length := by
    rw [List.length_append, hlen]
    omega
  unfold readHeader
  simp only [htake]
  rw [if_pos hle]
  split <;> simp_all

/-- A block of zeros ends the archive, whatever follows it. -/
theorem readHeader_marked :
    readHeader ⟨List.replicate blockSize 0 ++ rest, failure⟩ = .ok none := by
  have hlen : (List.replicate blockSize (0 : UInt8)).length = blockSize := List.length_replicate
  have hread : readHeader ⟨Header.bytes ⟨List.replicate blockSize 0⟩ ++ rest, failure⟩ = _ :=
    readHeader_append hlen
  rwa [isZero_replicate] at hread

/-- Where a header is read, it is the first block. -/
theorem readHeader_eq_some (hr : readHeader s = .ok (some h)) :
    h.bytes.length = blockSize ∧ h.isZero = false ∧
      s.bytes = h.bytes ++ s.bytes.drop blockSize := by
  have hle := blockSize_le_of_readHeader hr
  unfold readHeader at hr
  rw [if_pos hle] at hr
  simp only at hr
  split at hr
  · cases hr
  · rename_i hz
    cases hr
    refine ⟨by rw [List.length_take]; omega, by simpa using hz, ?_⟩
    rw [List.take_append_drop]

/-- Where the archive ends, there is a block of zeros or nothing. -/
theorem layout_of_readHeader (hr : readHeader s = .ok none) : Layout s.failure s.bytes [] := by
  unfold readHeader at hr
  split at hr
  · rename_i hle
    simp only at hr
    split at hr
    · rename_i hz
      have hb : s.bytes.take blockSize = List.replicate blockSize 0 :=
        Header.eq_of_isZero (by rw [List.length_take]; omega) hz
      rw [← List.take_append_drop blockSize s.bytes, hb]
      exact .marked _
    · cases hr
  · split at hr
    · cases hr
    · rename_i hf
      split at hr
      · rename_i he
        rw [List.isEmpty_iff.1 he, hf]
        exact .ended rfl
      · cases hr

/-! ## Members -/

/-- A checked header states the size that is read, and its checksum is right. -/
theorem checkHeader_eq_ok :
    checkHeader h position = .ok size ↔ h.IsSigned ∧ h.size = .ok size ∧
      size + (blockSize - 1) ≤ lastPosition ∧
      position + size + Member.paddingOf size ≤ lastPosition := by
  -- The checks in their order: the checksum, the size, and the two bounds on positions.
  unfold checkHeader Header.IsSigned
  cases hsum : h.statedSum with
  | error e =>
    constructor
    · intro he
      cases he
    · intro hr
      obtain ⟨he, -⟩ := hr
      cases he
  | ok sum =>
    simp only [bind, Except.bind, Except.ok.injEq]
    by_cases hs : sum = h.sum % Nat.pow 2 32
    · rw [if_neg (not_not.2 hs)]
      cases hsize : h.size with
      | error e =>
        constructor
        · intro he
          cases he
        · intro hr
          obtain ⟨-, he, -⟩ := hr
          cases he
      | ok n =>
        simp only [pure, Except.pure]
        by_cases h1 : lastPosition < n + (blockSize - 1)
        · rw [if_pos h1]
          constructor
          · intro he
            cases he
          · intro hr
            obtain ⟨-, he, hle, -⟩ := hr
            cases he
            omega
        · rw [if_neg h1]
          by_cases h2 : lastPosition < position + n + Member.paddingOf n
          · rw [if_pos h2]
            constructor
            · intro he
              cases he
            · intro hr
              obtain ⟨-, he, -, hle⟩ := hr
              cases he
              omega
          · rw [if_neg h2]
            constructor
            · intro he
              cases he
              exact ⟨hs, rfl, by omega, by omega⟩
            · intro hr
              obtain ⟨-, he, -⟩ := hr
              cases he
              rfl
    · rw [if_pos hs]
      constructor
      · intro he
        cases he
      · intro hr
        obtain ⟨he, -⟩ := hr
        exact absurd he hs

/-- What is read where a block that is no block of zeros starts. -/
theorem membersFrom_header (hlen : h.bytes.length = blockSize) (hzero : h.isZero = false) :
    membersFrom position ⟨h.bytes ++ rest, failure⟩ =
      match checkHeader h (position + blockSize) with
      | .error e => ([], some e)
      | .ok size =>
        match Stream.skip ⟨rest, failure⟩ (size + Member.paddingOf size) with
        | .error e => ([memberOf h size ⟨rest, failure⟩], some e)
        | .ok s =>
          let later := membersFrom (position + blockSize + (size + Member.paddingOf size)) s
          (memberOf h size ⟨rest, failure⟩ :: later.1, later.2) := by
  have hread : readHeader ⟨h.bytes ++ rest, failure⟩ = .ok (some h) := by
    rw [readHeader_append hlen, hzero]
    rfl
  have hdrop : Stream.drop ⟨h.bytes ++ rest, failure⟩ blockSize = ⟨rest, failure⟩ := by
    simp [Stream.drop, ← hlen]
  rw [membersFrom]
  split
  · rename_i he
    rw [hread] at he
    cases he
  · rename_i he
    rw [hread] at he
    cases he
  · rename_i he
    rw [hread] at he
    cases he
    rw [hdrop]
    cases checkHeader h (position + blockSize) with
    | error e => rfl
    | ok size =>
      dsimp only
      split
      · rename_i he
        rw [he]
      · rename_i he
        rw [he]

/-- A member that lies at the start of a stream is read, and the reader goes on behind it. -/
theorem membersFrom_append (hlen : m.header.bytes.length = blockSize)
    (hzero : m.header.isZero = false)
    (hcheck : checkHeader m.header (position + blockSize) = .ok m.size)
    (hpayload : m.payload.length = m.size) (hfailure : m.failure = none)
    (hpadding : padding.length = Member.paddingOf m.size) :
    membersFrom position ⟨m.header.bytes ++ (m.payload ++ (padding ++ rest)), failure⟩ =
      let later := membersFrom (position + blockSize + (m.size + Member.paddingOf m.size))
        ⟨rest, failure⟩
      (m :: later.1, later.2) := by
  have hmember : memberOf m.header m.size ⟨m.payload ++ (padding ++ rest), failure⟩ = m := by
    obtain ⟨header, size, payload, fault⟩ := m
    obtain rfl : fault = none := hfailure
    obtain rfl : payload.length = size := hpayload
    have hwhole : ¬ (payload ++ (padding ++ rest)).length < payload.length := by
      rw [List.length_append]
      omega
    simp only [memberOf, List.take_left, if_neg hwhole]
  have hskip : Stream.skip ⟨m.payload ++ (padding ++ rest), failure⟩
      (m.size + Member.paddingOf m.size) = .ok ⟨rest, failure⟩ := by
    have hdrop' : (m.payload ++ (padding ++ rest)).drop (m.size + Member.paddingOf m.size) =
        rest := by
      have hlength : m.size + Member.paddingOf m.size = (m.payload ++ padding).length := by
        rw [List.length_append, hpayload, hpadding]
      rw [hlength, ← List.append_assoc, List.drop_left]
    unfold Stream.skip
    rw [if_pos (by simp only [List.length_append]; omega), Stream.drop, hdrop']
  rw [membersFrom_header hlen hzero, hcheck]
  dsimp only
  rw [hskip, hmember]

theorem membersFrom_of_readHeader (hr : readHeader s = .ok none) :
    membersFrom position s = ([], none) := by
  rw [membersFrom]
  split <;> simp_all

/-- Reading that is not broken off has found a member that lies at the start of the stream, and
the members behind it, or the end. -/
theorem membersFrom_eq_none (hm : membersFrom position s = (ms, none)) :
    (ms = [] ∧ readHeader s = .ok none) ∨
      ∃ m padding rest ms', ms = m :: ms' ∧
        s.bytes = m.header.bytes ++ (m.payload ++ (padding ++ rest)) ∧
        m.header.bytes.length = blockSize ∧ m.header.isZero = false ∧
        checkHeader m.header (position + blockSize) = .ok m.size ∧
        m.payload.length = m.size ∧ m.failure = none ∧
        padding.length = Member.paddingOf m.size ∧
        membersFrom (position + blockSize + (m.size + Member.paddingOf m.size))
          ⟨rest, s.failure⟩ = (ms', none) := by
  rw [membersFrom] at hm
  split at hm
  · cases hm
  · rename_i he
    cases hm
    exact .inl ⟨rfl, he⟩
  · rename_i header he
    obtain ⟨hlen, hzero, hbytes⟩ := readHeader_eq_some he
    cases hcheck : checkHeader header (position + blockSize) with
    | error e =>
      rw [hcheck] at hm
      cases hm
    | ok size =>
      simp only [hcheck] at hm
      split at hm
      · cases hm
      · rename_i s' hs'
        unfold Stream.skip at hs'
        split at hs'
        · rename_i hle
          cases hs'
          -- The payload and its padding are all there, so the bytes can be cut into the parts.
          have hstop := congrArg Prod.snd hm
          have hms := congrArg Prod.fst hm
          have hdrop : s.drop blockSize = ⟨s.bytes.drop blockSize, s.failure⟩ := rfl
          rw [hdrop] at hle hms hstop
          generalize s.bytes.drop blockSize = body at hbytes hle hms hstop
          simp only [Stream.drop] at hle hms hstop
          refine .inr ⟨memberOf header size ⟨body, s.failure⟩,
            (body.drop size).take (Member.paddingOf size),
            (body.drop size).drop (Member.paddingOf size), _, hms.symm, ?_, hlen, hzero, hcheck,
            ?_, ?_, ?_, ?_⟩
          · rw [List.take_append_drop]
            change s.bytes = header.bytes ++ (body.take size ++ body.drop size)
            rw [List.take_append_drop, ← hbytes]
          · change (body.take size).length = size
            rw [List.length_take]
            omega
          · change (if body.length < size then s.failure else none) = none
            rw [if_neg (by omega)]
          · change ((body.drop size).take (Member.paddingOf size)).length = Member.paddingOf size
            rw [List.length_take, List.length_drop]
            omega
          · rw [List.drop_drop]
            exact Prod.ext rfl hstop
        · cases hs'

/-! ## Readers and layouts -/

/-- What is read without a failure is laid out so, with right checksums. -/
theorem layout_of_membersFrom (hm : membersFrom position s = (ms, none)) :
    Layout s.failure s.bytes ms ∧ ∀ m ∈ ms, m.header.IsSigned := by
  induction ms generalizing position s with
  | nil =>
    rcases membersFrom_eq_none hm with ⟨-, hr⟩ | ⟨m, padding, rest, ms', hms, -⟩
    · exact ⟨layout_of_readHeader hr, by simp⟩
    · cases hms
  | cons m ms ih =>
    rcases membersFrom_eq_none hm with ⟨hms, -⟩ | ⟨m, padding, rest, ms', ⟨⟩, hbytes, hlen, hzero,
      hcheck, hpayload, hfailure, hpadding, hlater⟩
    · cases hms
    · obtain ⟨hlayout, hsigned⟩ := ih hlater
      obtain ⟨hsign, hsize, -⟩ := checkHeader_eq_ok.1 hcheck
      rw [hbytes]
      refine ⟨.member hlen hzero hsize hpayload hfailure hpadding hlayout, fun m' hm' => ?_⟩
      rcases List.mem_cons.1 hm' with rfl | hm'
      · exact hsign
      · exact hsigned m' hm'

/-- No bytes are laid out in two ways. -/
theorem Layout.unique (hl : Layout failure bytes ms) (hl' : Layout failure bytes ms') :
    ms' = ms := by
  -- The first block tells which form the layout has.
  have hfirst {b : Bytes} {ns : List Member} (hb : Layout failure b ns) :
      (ns = [] ∧ readHeader ⟨b, failure⟩ = .ok none) ∨
        ∃ m, ns.head? = some m ∧ readHeader ⟨b, failure⟩ = .ok (some m.header) := by
    cases hb with
    | ended hf =>
      subst hf
      exact .inl ⟨rfl, rfl⟩
    | marked rest => exact .inl ⟨rfl, readHeader_marked⟩
    | @member m padding rest ns hlen hzero =>
      refine .inr ⟨m, rfl, ?_⟩
      rw [readHeader_append hlen, hzero]
      rfl
  induction hl generalizing ms' with
  | ended hf =>
    rcases hfirst hl' with ⟨hms, -⟩ | ⟨m, -, hread⟩
    · exact hms
    · subst hf
      cases hread
  | marked rest =>
    rcases hfirst hl' with ⟨hms, -⟩ | ⟨m, -, hread⟩
    · exact hms
    · rw [readHeader_marked] at hread
      cases hread
  | @member m padding rest ms hlen hzero hsize hpayload hfailure hpadding hrest ih =>
    have hread : readHeader ⟨m.header.bytes ++ (m.payload ++ (padding ++ rest)), failure⟩ =
        .ok (some m.header) := by
      rw [readHeader_append hlen, hzero]
      rfl
    generalize hb : m.header.bytes ++ (m.payload ++ (padding ++ rest)) = b at hl' hread
    rcases hfirst hl' with ⟨-, hread'⟩ | ⟨m', hm', hread'⟩
    · rw [hread'] at hread
      cases hread
    · cases hl' with
      | ended => cases hm'
      | marked => cases hm'
      | @member m'' padding' rest' ms' hlen' hzero' hsize' hpayload' hfailure' hpadding' hrest' =>
        cases hm'
        -- One header states one size, so payload, padding and rest start at the same places.
        have hheader : m'.header = m.header := by
          have := hread'.symm.trans hread
          simpa using this
        have hsizes : m'.size = m.size := by
          have := hsize'.symm.trans (hheader ▸ hsize)
          simpa using this
        rw [hheader] at hb
        have hb := List.append_cancel_left hb
        obtain ⟨hpay, hb⟩ := List.append_inj hb (by omega)
        obtain ⟨-, hb⟩ := List.append_inj hb (by rw [hpadding, hpadding', hsizes])
        subst hb
        rw [ih hrest']
        congr 1
        obtain ⟨header, size, payload, fault⟩ := m
        obtain ⟨header', size', payload', fault'⟩ := m'
        simp_all

/-- Members that are laid out with right checksums are read, unless the archive is longer than any
position in it can be. -/
theorem Layout.membersFrom_eq (hl : Layout failure bytes ms)
    (hsigned : ∀ m ∈ ms, m.header.IsSigned)
    (hlen : position + bytes.length + blockSize ≤ lastPosition) :
    membersFrom position ⟨bytes, failure⟩ = (ms, none) := by
  induction hl generalizing position with
  | ended hf =>
    subst hf
    exact membersFrom_of_readHeader rfl
  | marked rest => exact membersFrom_of_readHeader readHeader_marked
  | @member m padding rest ms hblock hzero hsize hpayload hfailure hpadding hrest ih =>
    simp only [List.length_append] at hlen
    have hcheck : checkHeader m.header (position + blockSize) = .ok m.size :=
      checkHeader_eq_ok.2 ⟨hsigned m List.mem_cons_self, hsize, by omega, by omega⟩
    rw [membersFrom_append hblock hzero hcheck hpayload hfailure hpadding,
      ih (fun m' hm' => hsigned m' (List.mem_cons_of_mem _ hm')) (by omega)]

/-- Members that are laid out are whole. -/
theorem Layout.isWhole (hl : Layout failure bytes ms) :
    ∀ m ∈ ms, m.isWhole = true ∧ m.failure = none := by
  induction hl with
  | ended => simp
  | marked => simp
  | @member m padding rest ms hlen hzero hsize hpayload hfailure hpadding hrest ih =>
    intro m' hm'
    rcases List.mem_cons.1 hm' with rfl | hm'
    · exact ⟨by simpa [Member.isWhole] using hpayload, hfailure⟩
    · exact ih m' hm'

/-- The header of a member that is laid out is a block. -/
theorem Layout.length_header (hl : Layout failure bytes ms) :
    ∀ m ∈ ms, m.header.bytes.length = blockSize := by
  induction hl with
  | ended => simp
  | marked => simp
  | @member m padding rest ms hlen hzero hsize hpayload hfailure hpadding hrest ih =>
    intro m' hm'
    rcases List.mem_cons.1 hm' with rfl | hm'
    · exact hlen
    · exact ih m' hm'

/-- No bytes are an archive only if nothing ended them early. -/
theorem Layout.failure_of_nil (hl : Layout failure [] ms) : failure = none := by
  generalize hb : ([] : Bytes) = bytes at hl
  cases hl with
  | ended hf => exact hf
  | marked rest =>
    have hblock := (List.append_eq_nil_iff.1 hb.symm).1
    rw [List.replicate_eq_nil_iff] at hblock
    cases hblock
  | @member m padding rest ms hlen =>
    rw [(List.append_eq_nil_iff.1 hb.symm).1] at hlen
    cases hlen

/-! ## Written archives -/

theorem bytesOf_cons (m : Member) (ms : List Member) :
    bytesOf (m :: ms) = m.bytes ++ bytesOf ms := by
  simp [bytesOf]

/-- What was read from one archive is read again from the archive that is written from it: every
block of the second lies where it lay in the first. -/
theorem membersFrom_bytesOf (hm : membersFrom position s = (ms, none)) :
    membersFrom position ⟨bytesOf ms, none⟩ = (ms, none) := by
  induction ms generalizing position s with
  | nil =>
    -- The first of the two blocks of zeros ends the reading.
    have hending : bytesOf [] = List.replicate blockSize 0 ++ List.replicate blockSize 0 := by
      simp [bytesOf, ending, Nat.two_mul]
    rw [hending]
    exact membersFrom_of_readHeader readHeader_marked
  | cons m ms ih =>
    rcases membersFrom_eq_none hm with ⟨hms, -⟩ | ⟨m, padding, rest, ms', ⟨⟩, -, hlen, hzero,
      hcheck, hpayload, hfailure, -, hlater⟩
    · cases hms
    · -- The position is that in the first archive, so its checks are passed here too.
      have hbytes : bytesOf (m :: ms) = m.header.bytes ++ (m.payload ++
          (List.replicate (Member.paddingOf m.payload.length) 0 ++ bytesOf ms)) := by
        simp [bytesOf_cons, Member.bytes]
      rw [hbytes, membersFrom_append hlen hzero hcheck hpayload hfailure
        (by rw [List.length_replicate, hpayload]), ih hlater]

/-! ## Members of few bytes -/

/-- A header that states a name, a size and a checksum, the numbers by their digits. -/
def briefHeader (name size sum : Bytes) : Header :=
  ⟨name ++ List.replicate (124 - name.length) 0 ++ size ++ List.replicate (24 - size.length) 0 ++
    sum ++ List.replicate (364 - sum.length) 0⟩

/-- A header that states no payload. -/
def emptyHeader (name sum : Bytes) : Header := briefHeader name [0x30] sum

/-- A member without payload. -/
def emptyMember (name sum : Bytes) : Member := ⟨emptyHeader name sum, 0, [], none⟩

theorem layout_emptyMember (name sum : Bytes)
    (hlen : (emptyHeader name sum).bytes.length = blockSize)
    (hzero : (emptyHeader name sum).isZero = false)
    (hsize : (emptyHeader name sum).size = .ok 0) (hrest : Layout failure rest ms) :
    Layout failure ((emptyHeader name sum).bytes ++ rest) (emptyMember name sum :: ms) := by
  have hpadding : ([] : Bytes).length = Member.paddingOf 0 := by decide
  exact Layout.member (m := emptyMember name sum) hlen hzero hsize rfl rfl hpadding hrest

end FileListCache.Archive
