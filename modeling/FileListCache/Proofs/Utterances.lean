/-
  FileListCache.Proofs.Utterances

  Who tells watchers what. `Utters P x` says that whatever world the attempt `x` starts in, it
  tells those who watch only of events that `P` admits, and takes nothing back that servers were
  asked. There is one rule for each way of putting attempts together, so what a part of the program
  utters is read off its text: work on the disk and on archives is silent, and a transfer tells of
  its own progress.
-/

import FileListCache.Sync
import FileListCache.Proofs.Appending

namespace FileListCache

variable {ε ε' α β : Type} {P : Event → Prop} {h : Host}

/-- Between the two worlds those who watch were told only of what `P` admits. -/
def World.Heard (w : World) (P : Event → Prop) (w' : World) : Prop :=
  ∃ es, w'.events = w.events ++ es ∧ ∀ e ∈ es, P e

/-- The same, and what servers were asked before is still on record. -/
structure World.Uttered (w : World) (P : Event → Prop) (w' : World) : Prop where
  heard : w.Heard P w'
  asked : w.requests <+: w'.requests

/-- Whatever the world, the attempt tells those who watch only of what `P` admits, and forgets
nothing that servers were asked. -/
def Utters (P : Event → Prop) (x : Attempt ε α) : Prop := ∀ w, Ends w x fun _ w' => w.Uttered P w'

namespace World

variable {w w' w'' : World}

theorem Heard.of_eq (he : w'.events = w.events) : w.Heard P w' :=
  ⟨[], by rw [he, List.append_nil], by simp⟩

theorem Heard.trans (h : w.Heard P w') (h' : w'.Heard P w'') : w.Heard P w'' := by
  obtain ⟨es, hes, hP⟩ := h
  obtain ⟨es', hes', hP'⟩ := h'
  refine ⟨es ++ es', by rw [hes', hes, List.append_assoc], fun e he => ?_⟩
  exact (List.mem_append.1 he).elim (hP e) (hP' e)

theorem Uttered.of_eq (he : w'.events = w.events) (hr : w'.requests = w.requests) :
    w.Uttered P w' :=
  ⟨.of_eq he, hr ▸ List.prefix_rfl⟩

theorem Uttered.trans (h : w.Uttered P w') (h' : w'.Uttered P w'') : w.Uttered P w'' :=
  ⟨h.heard.trans h'.heard, h.asked.trans h'.asked⟩

/-- Where nothing is admitted nothing was told. -/
theorem Uttered.events_eq (h : w.Uttered (fun _ => False) w') : w'.events = w.events := by
  obtain ⟨es, hes, hnone⟩ := h.heard
  rw [hes, List.eq_nil_iff_forall_not_mem.2 hnone, List.append_nil]

end World

/-! ## Ways of putting attempts together -/

namespace Utters

theorem pure (a : α) : Utters P (pure a : Attempt ε α) := fun _ => ends_pure (.of_eq rfl rfl)

theorem throw (e : ε) : Utters P (throw e : Attempt ε α) := fun _ => ends_throw (.of_eq rfl rfl)

theorem except (x : Except ε α) : Utters P (liftM x : Attempt ε α) := fun _ =>
  ends_except (.of_eq rfl rfl)

/-- Nothing comes after a failure. -/
theorem throw_bind (e : ε) (f : β → Attempt ε α) : Utters P (MonadExcept.throw e >>= f) :=
  fun _ => World.Uttered.of_eq rfl rfl

/-- A check that fails or lets the rest go on. -/
theorem check {c : Prop} [Decidable c] {e : ε} {f : Unit → Attempt ε α} (hf : Utters P (f ())) :
    Utters P (if c then MonadExcept.throw e >>= f else f ()) := by
  split
  · exact throw_bind e f
  · exact hf

theorem get : Utters P (get : Attempt ε World) := fun _ => World.Uttered.of_eq rfl rfl

theorem tell {x : Run α} (hx : ∀ w : World, w.Uttered P (x.run w).2) :
    Utters P (liftM x : Attempt ε α) := fun w => ends_tell (hx w)

theorem note (level : Level) (topic : Topic) (message : String) :
    Utters P (liftM (World.note level topic message) : Attempt ε Unit) :=
  tell fun _ => .of_eq rfl rfl

theorem take (s : Tree.Step) : Utters P (liftM (World.take s) : Attempt ε Unit) :=
  tell fun _ => .of_eq rfl rfl

theorem bind {x : Attempt ε β} {f : β → Attempt ε α} (hx : Utters P x)
    (hf : ∀ b, Utters P (f b)) : Utters P (x >>= f) := fun w =>
  ends_bind (hx w) (fun b w' hb => ends_imp (hf b w') fun _ _ hr => hb.trans hr) fun _ _ he => he

theorem adapt {x : Attempt ε' α} {f : ε' → ε} (hx : Utters P x) : Utters P (x.adapt f) :=
  fun w => ends_adapt (hx w)

/-- A failure that is looked at and not passed on. -/
theorem outcome {x : Attempt ε' α} (hx : Utters P x) :
    Utters P (liftM x.run : Attempt ε (Except ε' α)) := fun w => ends_tell (hx w)

theorem tryCatch {x : Attempt ε α} {f : ε → Attempt ε α} (hx : Utters P x)
    (hf : ∀ e, Utters P (f e)) : Utters P (MonadExcept.tryCatch x f) := fun w =>
  ends_catch (hx w) (fun _ _ ha => ha) fun e w' he => ends_imp (hf e w') fun _ _ hr => he.trans hr

theorem discard {x : Attempt ε α} (hx : Utters P x) : Utters P (discard x) := by
  rw [show Functor.discard x = x >>= fun _ => Pure.pure () from map_eq_pure_bind _ x]
  exact hx.bind fun _ => .pure ()

theorem foldlM {f : β → α → Attempt ε β} (hf : ∀ b a, Utters P (f b a)) (l : List α) (b : β) :
    Utters P (l.foldlM f b) := by
  induction l generalizing b with
  | nil => exact .pure b
  | cons a l ih =>
    rw [List.foldlM_cons]
    exact (hf b a).bind ih

theorem forM {f : α → Attempt ε Unit} (hf : ∀ a, Utters P (f a)) (l : List α) :
    Utters P (l.forM f) := by
  induction l with
  | nil => exact .pure ()
  | cons a l ih => exact (hf a).bind fun _ => ih

/-- What is told of a removal is a message at most. -/
theorem noted {x : Attempt FileError Unit} {level : Level} {topic : Topic} {rest : Attempt ε α}
    (hx : Utters P x) (hrest : Utters P rest) :
    Utters P (do
      if let .error e ← x.run then
        World.note level topic e.message
      rest : Attempt ε α) := by
  refine hx.outcome.bind fun r => ?_
  cases r with
  | ok u => exact hrest
  | error e => exact (note level topic e.message).bind fun _ => hrest

end Utters

/-! ## Work on the disk -/

namespace Disk

theorem utters_openRead (p : String) : Utters P (openRead h p) := by
  unfold openRead
  refine .bind .get fun w => .bind (.except _) fun place => ?_
  split
  · exact .throw _
  · rename_i content opens fate _
    -- What the other process does is told no more than what the program does.
    split
    · exact .bind (.take _) fun _ => .pure _
    · cases fate with
      | gone => exact .bind (.take _) fun _ => .pure _
      | directory => exact .bind (.take _) fun _ => .pure _
  · exact .pure _

theorem utters_create (p : String) : Utters P (create h p) := by
  unfold create
  refine .bind .get fun w => .bind (.except _) fun place =>
    .check (.bind (.except _) fun _ => ?_)
  split
  · exact .throw _
  · exact .pure _
  · exact .bind (.take _) fun _ => .pure _

theorem utters_grow (s : Sink) (bytes : Bytes) :
    Utters P (liftM (s.grow bytes) : Attempt ε Unit) := by
  refine .tell fun w => ?_
  unfold Sink.grow
  split
  · split <;> exact .of_eq rfl rfl
  · exact .of_eq rfl rfl

theorem utters_write (s : Sink) (bytes : Bytes) : Utters P (write s bytes) := by
  unfold write
  split
  · exact .bind (utters_grow s bytes) fun _ => .pure s
  · split
    · exact .bind (utters_grow s bytes) fun _ => .pure _
    · exact .bind (utters_grow s _) fun _ => .throw _

theorem Writer.utters_flush (w : Writer) : Utters P w.flush :=
  .bind (utters_write _ _) fun _ => .pure _

theorem Writer.utters_close (w : Writer) : Utters P w.close := by
  refine .bind w.utters_flush fun w' => ?_
  unfold sync
  split
  · exact .pure _
  · exact .throw _

theorem Writer.utters_push (w : Writer) (bytes : Bytes) : Utters P (w.push bytes) := by
  unfold push
  have hrest (w : Writer) : Utters P (if capacity ≤ bytes.length then do
      return { w with sink := ← write w.sink bytes }
      else return { w with waiting := w.waiting ++ bytes } : Attempt IoError Writer) := by
    split
    · exact .bind (utters_write _ _) fun _ => .pure _
    · exact .pure _
  dsimp only
  split
  · exact .bind w.utters_flush hrest
  · exact .bind (.pure w) hrest

theorem utters_move (source target : Location) : Utters P (move h source target) := by
  unfold move
  split
  · exact .throw _
  · exact .take _

theorem utters_unlink (l : Location) : Utters P (unlink h l) :=
  .bind (.except _) fun _ => .take _

theorem utters_rename (source target : String) : Utters P (rename h source target) := by
  unfold rename
  refine .bind .get fun w => .bind (.except _) fun s => .bind (.except _) fun d =>
    .bind (.except _) fun _ => ?_
  split
  · exact .throw _
  · refine .bind (.except _) fun _ => ?_
    split
    · split
      · exact utters_move s d
      · split
        · exact .pure ()
        · split
          · exact utters_move s d
          · exact .throw _
      · exact .throw _
    · split
      · exact .throw _
      · split
        · exact .throw _
        · split
          · exact .pure ()
          · exact utters_move s d

theorem utters_removeFile (p : String) : Utters P (removeFile h p) := by
  unfold removeFile
  refine .bind .get fun w => .bind (.except _) fun place => .bind (.except _) fun _ => ?_
  split
  · exact .throw _
  · exact .check (.bind (.except _) fun _ => .check (.take _))

theorem utters_removeDirectory (p : String) : Utters P (removeDirectory h p) := by
  unfold removeDirectory
  refine .bind .get fun w => .bind (.except _) fun place => ?_
  split
  · exact .throw _
  · exact .bind (.forM utters_unlink _) fun _ => .check (.check (.check (utters_unlink _)))
  · exact utters_unlink _

end Disk

theorem Files.utters_remove (p : String) : Utters P (remove h p) := by
  unfold remove
  refine .bind .get fun w => ?_
  have hremoval : Utters P (if Disk.isDirectory h w.tree p then Disk.removeDirectory h p
      else Disk.removeFile h p) := by
    split
    · exact Disk.utters_removeDirectory p
    · exact Disk.utters_removeFile p
  refine .bind (.outcome hremoval) fun r => ?_
  cases r with
  | ok u => exact .pure ()
  | error e =>
    dsimp only
    split
    · exact .pure ()
    · split
      · exact .throw _
      · exact .throw _

theorem Files.utters_signature (p : String) (count : Nat) : Utters P (signature h p count) := by
  unfold signature
  refine .bind (.adapt (Disk.utters_openRead p)) fun source => ?_
  split
  · exact .pure []
  · exact .bind .get fun w => .bind (.except _) fun _ => .pure _

/-! ## Work on archives -/

theorem Archive.utters_openAt (p : String) : Utters P (openAt h p) := by
  unfold openAt
  refine .bind (.adapt (Files.utters_signature p _)) fun start => .check ?_
  exact .bind (.note _ _ _) fun _ => .bind (.adapt (Disk.utters_openRead p)) fun _ => .pure _

namespace Transcode

theorem utters_put (w : Disk.Writer) (bytes : Bytes) : Utters P (put w bytes) :=
  .adapt (w.utters_push bytes)

theorem utters_copyMember (arrival : Bytes.Arrival) (w : Disk.Writer) (m : Archive.Member) :
    Utters P (copyMember arrival w m) := by
  rw [copyMember_eq]
  refine .bind (.note _ _ _) fun _ => .bind (utters_put w _) fun w₁ =>
    .bind (.foldlM utters_put _ w₁) fun w₂ => ?_
  have hpadding : Utters P (do
      let w ← put w₂ (List.replicate (Archive.Member.paddingOf m.payload.length) 0)
      if m.isWhole then return w
      else throw (.source (.memberCutShort m.payload.length m.size) w)) := by
    refine .bind (utters_put w₂ _) fun w₃ => ?_
    split
    · exact .pure _
    · exact .throw _
  cases m.failure with
  | some e => exact .throw_bind _ _
  | none => exact hpadding

theorem utters_finish (w : Disk.Writer) : Utters P (finish w) :=
  .bind (utters_put w _) fun w => .discard (.adapt w.utters_flush)

theorem utters_copyStream (arrival : Bytes.Arrival) (s : Archive.Stream) (w : Disk.Writer) :
    Utters P (copyStream arrival s w) := by
  unfold copyStream
  rcases Archive.members s with ⟨ms, stop⟩
  refine .bind (.foldlM (utters_copyMember arrival) ms w) fun w₁ => ?_
  cases stop with
  | some e => exact .throw_bind _ _
  | none => exact .bind (utters_finish w₁) fun _ => .pure _

theorem utters_copyArchive (source target : String) :
    Utters P (copyArchive h source target) := by
  unfold copyArchive
  refine .bind (Archive.utters_openAt source) fun opened =>
    .bind (.adapt (Disk.utters_create target)) fun sink => .bind .get fun w =>
    .bind (.outcome (utters_copyStream _ _ _)) fun r => ?_
  rcases r with (⟨e, w⟩ | e) | report
  · exact .bind (.discard (.outcome (utters_finish w))) fun _ => .throw _
  · exact .throw _
  · exact .pure report

/-- Rewriting an archive is silent. -/
theorem utters_inPlace (path : String) : Utters P (inPlace h path) := by
  unfold inPlace
  refine .bind (.tryCatch (utters_copyArchive _ _) fun e => ?_) fun report => ?_
  · exact .noted (Files.utters_remove _) (.throw e)
  · exact .bind (.adapt (Disk.utters_rename _ _)) fun _ => .bind (.note _ _ _) fun _ => .pure report

end Transcode

theorem Sync.utters_entriesOf (path : String) : Utters P (entriesOf h path) := by
  unfold entriesOf
  refine .bind (.outcome (Transcode.utters_inPlace path)) fun r => ?_
  cases r with
  | ok report => exact .pure _
  | error e =>
    cases e with
    | rename source target entries reason => exact .bind (.note _ _ _) fun _ => .pure _
    | unopened | empty | read | write | badFile => exact .throw _

/-! ## Transfers -/

theorem Http.Client.utters_send (c : Http.Client) (left : Nat) (u : Url) :
    Utters P (c.send h left u) := by
  have hask (r : Http.Request) : Utters P (liftM (World.ask h r) :
      Attempt Http.NetworkError (Option Http.Reply)) :=
    .tell fun _ => ⟨.of_eq rfl, List.prefix_append _ _⟩
  induction left generalizing c u with
  | zero =>
    unfold send
    refine .bind (.except _) fun _ => .bind (hask _) fun reply => ?_
    cases reply with
    | none => exact .throw _
    | some reply =>
      dsimp only
      split
      · split
        · exact .throw _
        · exact .throw _
      · exact .pure reply
  | succ left ih =>
    unfold send
    refine .bind (.except _) fun _ => .bind (hask _) fun reply => ?_
    cases reply with
    | none => exact .throw _
    | some reply =>
      dsimp only
      split
      · split
        · exact .throw _
        · split
          · exact .throw _
          · exact ih _ _
      · exact .pure reply

namespace Fetcher

variable {f : Fetcher}

theorem utters_openUrl (u : Url) : Utters P (f.openUrl h u) := by
  unfold openUrl
  split
  · split
    · exact .throw _
    · exact .bind (.adapt (Disk.utters_openRead _)) fun source => .bind .get fun w => .pure _
  · exact .bind (.adapt (f.client.utters_send _ u)) fun reply => .bind (.except _) fun body =>
      .check (.pure _)

variable {filename : String}
  (hf : ∀ current total, ∀ w : World,
    w.Uttered P ((f.onProgress ⟨filename, current, total⟩).run w).2)
include hf

theorem utters_takeChunk (part : String) (total : Nat) (state : Disk.Writer × Nat)
    (chunk : Bytes) : Utters P (f.takeChunk part filename total state chunk) :=
  .bind (.adapt (state.1.utters_push chunk)) fun _ => .bind (.tell (hf _ _)) fun _ => .pure _

theorem utters_receive (u : Url) (part : String) : Utters P (f.receive h u filename part) := by
  unfold receive
  refine .bind (f.utters_openUrl u) fun opened => .bind (.adapt (Disk.utters_create part))
    fun sink => .bind (.tell (hf _ _)) fun _ => .bind .get fun w =>
    .bind (.foldlM (utters_takeChunk hf part _) _ _) ?_
  rintro ⟨wr, size⟩
  dsimp only
  split
  · exact .bind (.discard (.outcome wr.utters_flush)) fun _ => .throw _
  · exact .bind (.adapt wr.utters_close) fun _ => .pure _

/-- A transfer tells only what its reports of progress tell. -/
theorem utters_fetch (url : String) : Utters P (f.fetch h url filename) := by
  unfold fetch
  split
  · exact .throw _
  · refine .bind (.note _ _ _) fun _ => .bind (.tryCatch (utters_receive hf _ _) fun e => ?_)
      fun size => ?_
    · exact .noted (Files.utters_remove _) (.throw e)
    · exact .bind (.note _ _ _) fun _ => .bind (.adapt (Disk.utters_rename _ _)) fun _ => .pure _

end Fetcher

end FileListCache
