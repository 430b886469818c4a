/-
  FileListCache.Proofs.Blame

  Which side is blamed when a copy of an archive fails. The way in which the source is read
  (`Archive.Course`) tells what is written and which failure is met behind it, and from the lengths
  of what is written it is known when an error of the destination surfaces
  (`Disk.Writer.foldlM_pushing`). The copy ends with whichever comes first, and with that error
  itself (`Transcode.copyFrom_blames`).

    * Copying the members comes to what writing the pieces comes to, up to the failure of the source
      (`Transcode.copiedMembers_membersFrom`), in every world alike.
    * What stands for the error of a payload while a member is copied never leaves this work
      (`Transcode.copyMember_eq`).
-/

import FileListCache.Proofs.Courses
import FileListCache.Proofs.Repetition
import FileListCache.Proofs.Surfacing

namespace FileListCache

open Disk (Sink Writer)

/-! ## Outcomes that are known -/

/-- The attempt comes to this in every world. -/
def Comes {ε α : Type} (x : Attempt ε α) (r : Except ε α) : Prop :=
  ∀ w : World, (w.attempt x).1 = r

namespace Comes

variable {ε α β : Type}

theorem pure (a : α) : Comes (pure a : Attempt ε α) (.ok a) := fun _ => rfl

theorem throw (e : ε) : Comes (throw e : Attempt ε α) (.error e) := fun _ => rfl

theorem tell_bind {x : Run Unit} {f : Unit → Attempt ε α} {r : Except ε α} (hf : Comes (f ()) r) :
    Comes (liftM x >>= f) r := fun w => hf (x.run w).2

theorem bind {x : Attempt ε β} {f : β → Attempt ε α} {r : Except ε β} {g : β → Except ε α}
    (hx : Comes x r) (hf : ∀ b, Comes (f b) (g b)) : Comes (x >>= f) (r >>= g) := by
  intro w
  rw [World.attempt_bind, ← Prod.eta (w.attempt x), hx w]
  cases r with
  | error e => rfl
  | ok b => exact hf b _

theorem foldlM {f : β → α → Attempt ε β} {g : β → α → Except ε β}
    (hf : ∀ b a, Comes (f b a) (g b a)) (l : List α) (b : β) :
    Comes (l.foldlM f b) (l.foldlM g b) := by
  induction l generalizing b with
  | nil => exact pure b
  | cons a l ih =>
    rw [List.foldlM_cons, List.foldlM_cons]
    exact bind (hf b a) ih

end Comes

namespace Transcode

open Archive (Course Header Member)

variable {arrival : Bytes.Arrival} {failure fault : Option IoError} {position : Nat}
  {bytes : Bytes} {pieces : List Bytes} {m : Member} {wr : Writer} {s : Archive.Stream}

/-! ## Work on the members -/

/-- What comes of giving one piece to the writer of a copy. -/
def putting (wr : Writer) (piece : Bytes) : Except Failure Writer :=
  (wr.pushing piece).mapError Failure.destination

/-- What comes of the failure of a source, if there is one. -/
def ended (fault : Option IoError) (wr : Writer) : Except Failure Writer :=
  match fault with
  | some e => .error (.source e wr)
  | none => .ok wr

/-- What comes of copying a member. -/
def copied (arrival : Bytes.Arrival) (wr : Writer) (m : Member) : Except Failure Writer :=
  (m.parts arrival).foldlM putting wr >>= ended m.fault?

theorem comes_put (wr : Writer) (piece : Bytes) : Comes (put wr piece) (putting wr piece) :=
  fun w => congrArg (Except.mapError Failure.destination) (wr.push_pushing piece w)

theorem copied_eq (wr : Writer) (m : Member) :
    copied arrival wr m = (do
      let wr ← putting wr m.header.bytes
      let wr ← (arrival.pieces m.payload).foldlM putting wr
      match m.failure with
      | some e => .error (.source e wr)
      | none => do
        let wr ← putting wr (Archive.filling m.payload.length)
        if m.isWhole then .ok wr
        else .error (.source (.memberCutShort m.payload.length m.size) wr)) := by
  unfold copied Member.parts Member.fault?
  rw [List.foldlM_cons, bind_assoc]
  refine bind_congr fun wr₁ => ?_
  rw [List.foldlM_append, bind_assoc]
  refine bind_congr fun wr₂ => ?_
  cases m.failure with
  | some e => rfl
  | none =>
    dsimp only
    rw [if_neg (by simp), List.foldlM_cons, bind_assoc]
    refine bind_congr fun wr₃ => ?_
    cases m.isWhole <;> rfl

theorem comes_copyMember (wr : Writer) (m : Member) :
    Comes (copyMember arrival wr m) (copied arrival wr m) := by
  rw [copyMember_eq, copied_eq]
  refine .tell_bind (.bind (comes_put _ _) fun wr₁ => .bind (.foldlM comes_put _ _) fun wr₂ => ?_)
  cases m.failure with
  | some e => exact .throw _
  | none =>
    refine .bind (comes_put _ _) fun wr₃ => ?_
    cases m.isWhole
    · exact .throw _
    · exact .pure _

/-- What comes of copying the members of a source, of which reading found so much. -/
def copiedMembers (arrival : Bytes.Arrival) (read : List Member × Option IoError) (wr : Writer) :
    Except Failure Writer :=
  read.1.foldlM (copied arrival) wr >>= ended read.2

theorem copiedMembers_cons (m : Member) (ms : List Member) (stop : Option IoError) (wr : Writer) :
    copiedMembers arrival (m :: ms, stop) wr = (m.parts arrival).foldlM putting wr >>= fun wr =>
      ended m.fault? wr >>= copiedMembers arrival (ms, stop) := by
  unfold copiedMembers
  rw [List.foldlM_cons, bind_assoc, copied, bind_assoc]

/-- Copying the members of a source comes to what writing its pieces comes to, up to its failure. -/
theorem copiedMembers_membersFrom (wr : Writer)
    (hcourse : Course arrival failure position bytes pieces fault) :
    copiedMembers arrival (Archive.membersFrom position ⟨bytes, failure⟩) wr =
      pieces.foldlM putting wr >>= ended fault := by
  induction hcourse generalizing wr with
  | ended hfailure =>
    subst hfailure
    rw [Archive.membersFrom_of_readHeader rfl]
    rfl
  | marked rest =>
    rw [Archive.membersFrom_of_readHeader Archive.readHeader_marked]
    rfl
  | headerLost hfailure hshort =>
    subst hfailure
    rw [Archive.membersFrom_unread (Archive.readHeader_lost hshort)]
    rfl
  | headerCutShort hfailure hsome hshort =>
    subst hfailure
    rw [Archive.membersFrom_unread (Archive.readHeader_cutShort hsome hshort)]
    rfl
  | malformed hlength hzero hcheck =>
    rw [Archive.membersFrom_malformed hlength hzero hcheck]
    rfl
  | @payloadLost position size header payload e hlength hzero hcheck hshort hfailure =>
    subst hfailure
    have hparts : Member.parts arrival ⟨header, size, payload, some e⟩ =
        header.bytes :: arrival.pieces payload := congrArg _ (List.append_nil _)
    rw [Archive.membersFrom_broken hlength hzero hcheck (by omega),
      Archive.memberOf_short hshort, copiedMembers_cons, hparts]
    rfl
  | @payloadCutShort position size header payload hlength hzero hcheck hshort hfailure =>
    subst hfailure
    have hfault : Member.fault? ⟨header, size, payload, none⟩ =
        some (.memberCutShort payload.length size) :=
      if_neg (by simpa [Member.isWhole] using hshort.ne)
    rw [Archive.membersFrom_broken hlength hzero hcheck (by omega),
      Archive.memberOf_short hshort, copiedMembers_cons, hfault]
    rfl
  | @paddingLost position header payload padding hlength hzero hcheck hshort =>
    rw [Archive.membersFrom_broken hlength hzero hcheck (by simpa using hshort),
      Archive.memberOf_whole, copiedMembers_cons, Member.fault?_whole]
    rfl
  | @member position header payload padding rest pieces fault hlength hzero hcheck hpadding
      hrest ih =>
    let m : Member := ⟨header, payload.length, payload, none⟩
    have hpieces : header.bytes :: (arrival.pieces payload ++
        Archive.filling payload.length :: pieces) = m.parts arrival ++ pieces := by
      simp [m, Member.parts]
    have hread : Archive.membersFrom position
        ⟨header.bytes ++ (payload ++ (padding ++ rest)), failure⟩ = _ :=
      Archive.membersFrom_append (m := m) hlength hzero hcheck rfl rfl hpadding
    rw [hread, copiedMembers_cons, hpieces, List.foldlM_append, bind_assoc, Member.fault?_whole]
    exact bind_congr fun wr' => ih wr'

/-! ## Whole copies -/

theorem comes_copyMembers (arrival : Bytes.Arrival) (read : List Member × Option IoError)
    (wr : Writer) :
    Comes (do
      let wr ← read.1.foldlM (copyMember arrival) wr
      if let some e := read.2 then throw (.source e wr)
      return wr) (copiedMembers arrival read wr) := by
  refine .bind (.foldlM comes_copyMember _ _) fun wr => ?_
  cases read.2 with
  | some e => exact .throw _
  | none => exact .pure wr

theorem foldlM_putting (pieces : List Bytes) (wr : Writer) :
    pieces.foldlM putting wr = (pieces.foldlM Writer.pushing wr).mapError Failure.destination := by
  induction pieces generalizing wr with
  | nil => rfl
  | cons piece pieces ih =>
    rw [List.foldlM_cons, List.foldlM_cons, putting]
    cases wr.pushing piece with
    | error e => rfl
    | ok wr' => exact ih wr'

/-- The error that a failure of a copy is reported as. -/
def Failure.blame (source target : String) : Failure → ArchiveError
  | .source e _ => .read source e
  | .destination e => .write target e

/-- The error that a copy to the sink ends with, if any. That of the sink counts if it surfaces
while the pieces are written, next the failure behind them, and last an error that surfaces when the
copy is ended. -/
def verdict? (source target : String) (sink : Sink) (pieces : List Bytes)
    (fault : Option IoError) : Option ArchiveError :=
  match sink.refusal? (Writer.passedOn pieces), fault with
  | some e, _ => some (.write target e)
  | none, some e => some (.read source e)
  | none, none =>
    (sink.refusal? (pieces.flatten.length + 2 * Archive.blockSize)).map (.write target)

theorem verdict?_read {source target path : String} {sink : Sink} {e : IoError}
    (hv : verdict? source target sink pieces fault = some (.read path e)) : fault = some e := by
  unfold verdict? at hv
  split at hv
  · cases hv
  · cases hv
    rfl
  · obtain ⟨e', -, he⟩ := Option.map_eq_some_iff.1 hv
    cases he

theorem verdict?_write {source target path : String} {sink : Sink} {e : IoError}
    (hv : verdict? source target sink pieces fault = some (.write path e)) :
    ∃ room, sink.room = some (room, e) := by
  unfold verdict? at hv
  split at hv
  · rename_i hfull
    cases hv
    exact Sink.room_of_refusal? hfull
  · cases hv
  · obtain ⟨e', hfull, he⟩ := Option.map_eq_some_iff.1 hv
    cases he
    exact Sink.room_of_refusal? hfull

/-- What stands for the error of a payload ends a copy only if a side fails so. -/
theorem readFailed_of_verdict {source target : String} {sink : Sink} {report : Report}
    {r : Except ArchiveError Report}
    (hcourse : Course arrival failure position bytes pieces fault)
    (hr : r = match verdict? source target sink pieces fault with
      | some e => .error e
      | none => .ok report) :
    (r = .error (.read source readFailed) → failure = some readFailed) ∧
      (r = .error (.write target readFailed) → ∃ room, sink.room = some (room, readFailed)) := by
  have herror {e : ArchiveError} (he : r = .error e) :
      verdict? source target sink pieces fault = some e := by
    rw [he] at hr
    split at hr
    · cases hr
      assumption
    · cases hr
  refine ⟨fun hread => ?_, fun hwrite => verdict?_write (herror hwrite)⟩
  -- Neither a fault of the archive nor a member that is cut short is taken for it.
  rcases hcourse.fault_eq (verdict?_read (herror hread)) with hfailure | ⟨a, ha⟩ | ⟨n, size, hcut⟩
  · exact hfailure
  · cases ha
  · cases hcut

/-- The end of a copy goes through the buffer too, which is then emptied. -/
theorem finish_passes {sink : Sink} {passed held : Nat} {w : World}
    (hw : Writer.Passes sink passed held (.ok wr)) :
    Ends w (finish wr) fun r _ =>
      (∀ u, r = .ok u → sink.refusal? (passed + held + 2 * Archive.blockSize) = none) ∧
      ∀ f, r = .error f → ∃ e, f = .destination e ∧
        sink.refusal? (passed + held + 2 * Archive.blockSize) = some e := by
  have hlength : Archive.ending.length = 2 * Archive.blockSize := List.length_replicate
  unfold finish put
  generalize Archive.ending = bytes at hlength ⊢
  rw [← hlength]
  have hheld := Writer.heldAfter_le held bytes.length
  apply ends_adapt_bind (Writer.push_passes hw bytes)
  · intro wr₁ w₁ hpush
    have hflush := Writer.flush_passes (w := w₁) hpush
    rw [Nat.sub_add_cancel (by omega)] at hflush
    apply ends_adapt_bind hflush
    · intro wr₂ w₂ hr
      exact ends_pure ⟨fun _ _ => hr.1, by rintro _ ⟨⟩⟩
    · intro e w₂ hr
      refine ⟨by rintro _ ⟨⟩, ?_⟩
      rintro _ ⟨⟩
      exact ⟨e, rfl, hr⟩
  · intro e w₁ hpush
    refine ⟨by rintro _ ⟨⟩, ?_⟩
    rintro _ ⟨⟩
    exact ⟨e, rfl, Sink.refusal?_mono (Nat.sub_le _ _) hpush⟩

theorem copyStream_eq (arrival : Bytes.Arrival) (s : Archive.Stream) (wr : Writer) :
    copyStream arrival s wr = (do
      let wr ← (Archive.members s).1.foldlM (copyMember arrival) wr
      if let some e := (Archive.members s).2 then throw (.source e wr)
      return wr) >>= fun wr => finish wr >>= fun _ =>
        pure (.ofMembers (Archive.members s).1) := by
  unfold copyStream
  rcases Archive.members s with ⟨ms, stop⟩
  rw [bind_assoc]
  refine bind_congr fun wr' => ?_
  cases stop with
  | some e => rfl
  | none => simp only [pure_bind]

/-- Copying a stream ends with the failure that is met first. -/
theorem copyStream_blames (source target : String) (sink : Sink) (w : World)
    (hcourse : Course arrival s.failure 0 s.bytes pieces fault) :
    Ends w (copyStream arrival s { sink }) fun r _ =>
      r.mapError (Failure.blame source target) =
        match verdict? source target sink pieces fault with
        | some e => .error e
        | none => .ok (.ofMembers (Archive.members s).1) := by
  have hmembers : Ends w (do
      let wr ← (Archive.members s).1.foldlM (copyMember arrival) { sink }
      if let some e := (Archive.members s).2 then throw (.source e wr)
      return wr) fun r _ => r = pieces.foldlM putting { sink } >>= ended fault := by
    have hcomes := comes_copyMembers arrival (Archive.members s) { sink } w
    exact hcomes.trans (copiedMembers_membersFrom _ hcourse)
  have hpasses := Writer.foldlM_pushing sink pieces
  have htotal : Writer.passedOn pieces + Writer.heldBack pieces = pieces.flatten.length := by
    have hheld := Writer.heldFrom_le 0 pieces
    rw [Nat.zero_add] at hheld
    exact Nat.sub_add_cancel hheld
  rw [foldlM_putting] at hmembers
  rw [copyStream_eq]
  unfold verdict?
  cases hpush : pieces.foldlM Writer.pushing { sink } with
  | error e =>
    rw [hpush] at hmembers hpasses
    have hfull : sink.refusal? (Writer.passedOn pieces) = some e := hpasses
    rw [hfull]
    refine ends_bind hmembers (by rintro _ _ ⟨⟩) ?_
    rintro _ _ ⟨⟩
    rfl
  | ok wr =>
    rw [hpush] at hmembers hpasses
    rw [hpasses.1]
    cases fault with
    | some e =>
      refine ends_bind hmembers (by rintro _ _ ⟨⟩) ?_
      rintro _ _ ⟨⟩
      rfl
    | none =>
      refine ends_bind hmembers ?_ (by rintro _ _ ⟨⟩)
      rintro _ w₁ ⟨⟩
      have hfinish := finish_passes (w := w₁) hpasses
      rw [htotal] at hfinish
      apply ends_bind hfinish
      · intro u w₂ hr
        refine ends_pure ?_
        rw [hr.1 u rfl]
        rfl
      · intro f w₂ hr
        obtain ⟨e, rfl, hfull⟩ := hr.2 f rfl
        rw [hfull]
        rfl

/-! ## Archives -/

/-- Copies the archive at `source` to a new file at `target`, where `decode` is how an open archive
is read. -/
def copyFrom (decode : Archive.Opened → Tree → Archive.Stream) (h : Host)
    (source target : String) : Attempt ArchiveError Report := do
  let opened ← Archive.openAt h source
  let sink ← (Disk.create h target).adapt (ArchiveError.write target)
  match ← (copyStream h.arrival (decode opened (← get).tree) { sink }).run with
  | .ok report => return report
  | .error (.destination e) => throw (.write target e)
  | .error (.source e w) => do
    discard (finish w).run
    throw (.read source e)

/-- The failure of a copy is reported as what it is, whatever comes of ending the copy. -/
theorem report_ends (source target : String) (r : Except Failure Report) {w : World} :
    Ends w (match r with
      | .ok report => return report
      | .error (.destination e) => throw (.write target e)
      | .error (.source e wr) => do
        discard (finish wr).run
        throw (.read source e) : Attempt ArchiveError Report) fun r' _ =>
      r' = r.mapError (Failure.blame source target) := by
  rcases r with (⟨e, wr⟩ | e) | report
  · apply ends_discard_bind
    apply ends_outcome_bind
    refine ends_imp (R := fun _ _ => True) trivial fun _ w' _ => ?_
    exact ends_throw rfl
  · exact ends_throw rfl
  · exact ends_pure rfl

/-- A host whose disk is full. -/
def fullHost : Host := { room := fun _ => some (0, .system .full) }

/-- A member without payload, and what follows it. -/
theorem course_letter {rest : Bytes}
    (hrest : Course arrival failure Archive.blockSize rest pieces fault) :
    Course arrival failure 0 (letterArchive ++ rest) (letterArchive :: [] :: pieces) fault := by
  have hlength : letter.header.bytes.length = Archive.blockSize := by decide +kernel
  have hzero : letter.header.isZero = false := by decide +kernel
  have hcheck : Archive.checkHeader letter.header (0 + Archive.blockSize) = .ok 0 := by
    decide +kernel
  have hcourse : Course arrival failure 0 (letter.header.bytes ++ ([] ++ ([] ++ rest)))
      (letter.header.bytes :: (arrival.pieces [] ++ Archive.filling 0 :: pieces)) fault :=
    .member hlength hzero hcheck rfl hrest
  rwa [Bytes.Arrival.pieces_nil] at hcourse

end Transcode

end FileListCache
