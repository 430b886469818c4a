/-
  FileListCache.Proofs.Courses

  How a source is read for a copy, told without a reader (`Archive.Course`): the pieces that it
  gives, in order, and the failure that is met behind them. Whatever a source gives and whenever it
  fails, it is read in such a way (`Archive.exists_course`), and its failure is met as it is
  (`Archive.Course.fault_eq`).
-/

import FileListCache.Proofs.Layout

namespace FileListCache.Archive

/-! ## Courses -/

/-- The zeros that fill up the last block of a payload. -/
def filling (length : Nat) : Bytes := List.replicate (Member.paddingOf length) 0

/-- How an archive is read from byte `position` on, if it gives some bytes and then ends or, with
`failure`, fails: the pieces that are made of it for a copy, and the failure that is met behind
them. Reading ends well at a block of zeros and at the end of the bytes only. -/
inductive Course (arrival : Bytes.Arrival) (failure : Option IoError) :
    Nat → Bytes → List Bytes → Option IoError → Prop
  | ended {position : Nat} (hfailure : failure = none) : Course arrival failure position [] [] none
  | marked {position : Nat} (rest : Bytes) :
      Course arrival failure position (List.replicate blockSize 0 ++ rest) [] none
  /-- Reading fails in a header. -/
  | headerLost {position : Nat} {bytes : Bytes} {e : IoError} (hfailure : failure = some e)
      (hshort : bytes.length < blockSize) : Course arrival failure position bytes [] (some e)
  /-- The bytes end in a header. -/
  | headerCutShort {position : Nat} {bytes : Bytes} (hfailure : failure = none)
      (hsome : bytes ≠ []) (hshort : bytes.length < blockSize) :
      Course arrival failure position bytes [] (some (.archive .headerCutShort))
  /-- A header is malformed. -/
  | malformed {position : Nat} {header : Header} {rest : Bytes} {e : IoError}
      (hlength : header.bytes.length = blockSize) (hzero : header.isZero = false)
      (hcheck : checkHeader header (position + blockSize) = .error e) :
      Course arrival failure position (header.bytes ++ rest) [] (some e)
  /-- Reading fails in a payload. -/
  | payloadLost {position size : Nat} {header : Header} {payload : Bytes} {e : IoError}
      (hlength : header.bytes.length = blockSize) (hzero : header.isZero = false)
      (hcheck : checkHeader header (position + blockSize) = .ok size)
      (hshort : payload.length < size) (hfailure : failure = some e) :
      Course arrival failure position (header.bytes ++ payload)
        (header.bytes :: arrival.pieces payload) (some e)
  /-- The bytes end in a payload; this is noticed once what is there was copied and filled up. -/
  | payloadCutShort {position size : Nat} {header : Header} {payload : Bytes}
      (hlength : header.bytes.length = blockSize) (hzero : header.isZero = false)
      (hcheck : checkHeader header (position + blockSize) = .ok size)
      (hshort : payload.length < size) (hfailure : failure = none) :
      Course arrival failure position (header.bytes ++ payload)
        (header.bytes :: (arrival.pieces payload ++ [filling payload.length]))
        (some (.memberCutShort payload.length size))
  /-- Reading fails, or the bytes end, behind a payload and in front of the next block. -/
  | paddingLost {position : Nat} {header : Header} {payload padding : Bytes}
      (hlength : header.bytes.length = blockSize) (hzero : header.isZero = false)
      (hcheck : checkHeader header (position + blockSize) = .ok payload.length)
      (hshort : padding.length < Member.paddingOf payload.length) :
      Course arrival failure position (header.bytes ++ (payload ++ padding))
        (header.bytes :: (arrival.pieces payload ++ [filling payload.length]))
        (some (failure.getD (.archive .gap)))
  | member {position : Nat} {header : Header} {payload padding rest : Bytes}
      {pieces : List Bytes} {fault : Option IoError}
      (hlength : header.bytes.length = blockSize) (hzero : header.isZero = false)
      (hcheck : checkHeader header (position + blockSize) = .ok payload.length)
      (hpadding : padding.length = Member.paddingOf payload.length)
      (hrest : Course arrival failure
        (position + blockSize + (payload.length + Member.paddingOf payload.length)) rest pieces
          fault) :
      Course arrival failure position (header.bytes ++ (payload ++ (padding ++ rest)))
        (header.bytes :: (arrival.pieces payload ++ filling payload.length :: pieces)) fault

/-- Only faults of the archive are found. -/
def Faults {α : Type} (x : Except IoError α) : Prop := ∀ e, x = .error e → ∃ a, e = .archive a

namespace Faults

variable {α β : Type}

theorem ok (a : α) : Faults (.ok a) := by
  rintro _ ⟨⟩

theorem fault (a : ArchiveFault) : Faults (.error (.archive a) : Except IoError α) := by
  rintro _ ⟨⟩
  exact ⟨a, rfl⟩

theorem bind {x : Except IoError α} {f : α → Except IoError β} (hx : Faults x)
    (hf : ∀ a, Faults (f a)) : Faults (x >>= f) := by
  cases x with
  | error e =>
    rintro _ ⟨⟩
    exact hx e rfl
  | ok a => exact hf a

theorem octalField (header : Header) (label : String) (start count : Nat) :
    Faults (header.octalField label start count) := by
  unfold Header.octalField
  dsimp only
  split
  · exact fault _
  · split
    · exact fault _
    · exact ok _

theorem size (header : Header) : Faults header.size := by
  unfold Header.size
  split
  · split
    · exact ok _
    · exact octalField _ _ _ _
  · exact octalField _ _ _ _

theorem checkHeader (header : Header) (position : Nat) : Faults (checkHeader header position) := by
  refine bind (bind (octalField _ _ _ _) fun _ => ok _) fun sum => ?_
  split
  · exact fault _
  · refine bind (size header) fun size => ?_
    dsimp only
    split
    · exact fault _
    · split
      · exact fault _
      · exact ok _

end Faults

variable {arrival : Bytes.Arrival} {failure fault : Option IoError} {position size : Nat}
  {bytes body payload : Bytes} {pieces : List Bytes} {header : Header} {s : Stream} {e : IoError}

/-- Enough bytes begin with as many as are asked for. -/
theorem exists_start {count : Nat} (hcount : count ≤ bytes.length) :
    ∃ start rest : Bytes, start.length = count ∧ bytes = start ++ rest := by
  refine ⟨bytes.take count, bytes.drop count, ?_, (List.take_append_drop count bytes).symm⟩
  rw [List.length_take, Nat.min_eq_left hcount]

/-- Whatever a source gives is read in one of these ways. -/
theorem exists_course (arrival : Bytes.Arrival) (failure : Option IoError) (position : Nat)
    (bytes : Bytes) : ∃ pieces fault, Course arrival failure position bytes pieces fault := by
  -- What is left behind a member is shorter by its header at least.
  induction hn : bytes.length using Nat.strongRecOn generalizing position bytes with
  | ind n ih =>
    subst hn
    rcases Nat.lt_or_ge bytes.length blockSize with hshort | hblock
    · cases hfailure : failure with
      | some e => exact ⟨_, _, .headerLost rfl hshort⟩
      | none =>
        rcases eq_or_ne bytes [] with rfl | hsome
        · exact ⟨_, _, .ended rfl⟩
        · exact ⟨_, _, .headerCutShort rfl hsome hshort⟩
    · obtain ⟨start, body, hlength, rfl⟩ := exists_start hblock
      obtain ⟨header, rfl⟩ : ∃ header : Header, header.bytes = start := ⟨⟨start⟩, rfl⟩
      cases hzero : header.isZero with
      | true =>
        rw [Header.eq_of_isZero hlength hzero]
        exact ⟨_, _, .marked body⟩
      | false =>
        cases hcheck : checkHeader header (position + blockSize) with
        | error e => exact ⟨_, _, .malformed hlength hzero hcheck⟩
        | ok size =>
          rcases Nat.lt_or_ge body.length size with hpayload | hpayload
          · cases hfailure : failure with
            | some e => exact ⟨_, _, .payloadLost hlength hzero hcheck hpayload rfl⟩
            | none => exact ⟨_, _, .payloadCutShort hlength hzero hcheck hpayload rfl⟩
          · obtain ⟨payload, later, rfl, rfl⟩ := exists_start hpayload
            rcases Nat.lt_or_ge later.length (Member.paddingOf payload.length) with hpad | hpad
            · exact ⟨_, _, .paddingLost hlength hzero hcheck hpad⟩
            · obtain ⟨padding, rest, hpadding, rfl⟩ := exists_start hpad
              have hrest : rest.length <
                  (header.bytes ++ (payload ++ (padding ++ rest))).length := by
                have hpositive : 0 < blockSize := by decide
                simp only [List.length_append]
                omega
              obtain ⟨pieces, fault, hcourse⟩ := ih rest.length hrest (position + blockSize +
                (payload.length + Member.paddingOf payload.length)) rest rfl
              exact ⟨_, _, .member hlength hzero hcheck hpadding hcourse⟩

/-- The failure that is met is the one that ended the bytes, or it was found in them. -/
theorem Course.fault_eq (hcourse : Course arrival failure position bytes pieces fault)
    (hfault : fault = some e) :
    failure = some e ∨ (∃ a, e = .archive a) ∨ ∃ count size, e = .memberCutShort count size := by
  induction hcourse with
  | ended => cases hfault
  | marked => cases hfault
  | headerLost hfailure => exact .inl (hfailure.trans hfault)
  | headerCutShort =>
    cases hfault
    exact .inr (.inl ⟨_, rfl⟩)
  | malformed hlength hzero hcheck =>
    cases hfault
    exact .inr (.inl (Faults.checkHeader _ _ _ hcheck))
  | payloadLost hlength hzero hcheck hshort hfailure => exact .inl (hfailure.trans hfault)
  | payloadCutShort =>
    cases hfault
    exact .inr (.inr ⟨_, _, rfl⟩)
  | paddingLost =>
    cases hfault
    cases failure with
    | some e => exact .inl rfl
    | none => exact .inr (.inl ⟨_, rfl⟩)
  | member hlength hzero hcheck hpadding hrest ih => exact ih hfault

/-! ## Members -/

/-- What a member gives for a copy. -/
def Member.parts (arrival : Bytes.Arrival) (m : Member) : List Bytes :=
  m.header.bytes :: (arrival.pieces m.payload ++
    if m.failure.isSome then [] else [filling m.payload.length])

/-- The failure that a copy of the member meets behind that. -/
def Member.fault? (m : Member) : Option IoError :=
  match m.failure with
  | some e => some e
  | none => if m.isWhole then none else some (.memberCutShort m.payload.length m.size)

theorem Member.fault?_whole (header : Header) (payload : Bytes) :
    Member.fault? ⟨header, payload.length, payload, none⟩ = none :=
  if_pos (by simp [Member.isWhole])

theorem membersFrom_malformed (hlength : header.bytes.length = blockSize)
    (hzero : header.isZero = false)
    (hcheck : checkHeader header (position + blockSize) = .error e) :
    membersFrom position ⟨header.bytes ++ body, failure⟩ = ([], some e) := by
  rw [membersFrom_header hlength hzero, hcheck]

/-- A member is given even if what follows its header does not fill its blocks. -/
theorem membersFrom_broken (hlength : header.bytes.length = blockSize)
    (hzero : header.isZero = false)
    (hcheck : checkHeader header (position + blockSize) = .ok size)
    (hshort : body.length < size + Member.paddingOf size) :
    membersFrom position ⟨header.bytes ++ body, failure⟩ =
      ([memberOf header size ⟨body, failure⟩], some (failure.getD (.archive .gap))) := by
  have hskip : Stream.skip ⟨body, failure⟩ (size + Member.paddingOf size) =
      .error (failure.getD (.archive .gap)) := if_neg (Nat.not_le.2 hshort)
  rw [membersFrom_header hlength hzero, hcheck]
  dsimp only
  rw [hskip]

theorem membersFrom_unread (hr : readHeader s = .error e) :
    membersFrom position s = ([], some e) := by
  rw [membersFrom]
  split <;> simp_all

theorem readHeader_lost (hshort : bytes.length < blockSize) :
    readHeader ⟨bytes, some e⟩ = .error e := if_neg (Nat.not_le.2 hshort)

theorem readHeader_cutShort (hsome : bytes ≠ []) (hshort : bytes.length < blockSize) :
    readHeader ⟨bytes, none⟩ = .error (.archive .headerCutShort) := by
  unfold readHeader
  rw [if_neg (Nat.not_le.2 hshort)]
  exact if_neg (mt List.isEmpty_iff.1 hsome)

theorem memberOf_short (hshort : payload.length < size) :
    memberOf header size ⟨payload, failure⟩ = ⟨header, size, payload, failure⟩ := by
  rw [memberOf, List.take_of_length_le (Nat.le_of_lt hshort), if_pos hshort]

theorem memberOf_whole (header : Header) (payload later : Bytes) (failure : Option IoError) :
    memberOf header payload.length ⟨payload ++ later, failure⟩ =
      ⟨header, payload.length, payload, none⟩ := by
  have hlong : ¬ (payload ++ later).length < payload.length := by
    rw [List.length_append]
    omega
  rw [memberOf, List.take_left, if_neg hlong]

end FileListCache.Archive
