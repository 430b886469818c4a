/-
  FileListCache.Proofs.Handing

  How a document is handed over chunk by chunk. What a writer has taken is in its file or waits in
  its buffer (`Disk.Writer.push_keeps`), and whether it takes more is foregone: the world has no
  part in it. A fetcher whose reports are kept tells of all of them (`Fetcher.KeepsDiary`); there
  is one for each chunk that is taken, and none for the one that is refused or for any after it
  (`Fetcher.foldlM_takeChunk_reports`).
-/

import FileListCache.Proofs.Footprints
import FileListCache.Proofs.Utterances

namespace FileListCache

open Disk (Sink Writer)
open FileListCache.Tree (Step)
open World (Works)

variable {ε α β : Type}

/-! ## Outcomes that are foregone -/

/-- What the attempt comes to does not depend on the world. -/
def Foregone (x : Attempt ε α) : Prop := ∃ r, ∀ w : World, (w.attempt x).1 = r

namespace Foregone

theorem pure (a : α) : Foregone (pure a : Attempt ε α) := ⟨.ok a, fun _ => rfl⟩

theorem throw (e : ε) : Foregone (throw e : Attempt ε α) := ⟨.error e, fun _ => rfl⟩

theorem tell_bind {x : Run Unit} {f : Unit → Attempt ε α} (hf : Foregone (f ())) :
    Foregone (liftM x >>= f) := by
  obtain ⟨r, hr⟩ := hf
  exact ⟨r, fun w => hr (x.run w).2⟩

theorem bind {x : Attempt ε β} {f : β → Attempt ε α} (hx : Foregone x)
    (hf : ∀ b, Foregone (f b)) : Foregone (x >>= f) := by
  obtain ⟨r, hr⟩ := hx
  cases r with
  | error e =>
    refine ⟨.error e, fun w => ?_⟩
    rw [World.attempt_bind, ← Prod.eta (w.attempt x), hr w]
  | ok b =>
    obtain ⟨r', hr'⟩ := hf b
    refine ⟨r', fun w => ?_⟩
    rw [World.attempt_bind, ← Prod.eta (w.attempt x), hr w]
    exact hr' _

end Foregone

/-! ## Writers -/

namespace Disk

theorem write_foregone (s : Sink) (bytes : Bytes) : Foregone (write s bytes) := by
  unfold write
  split
  · exact .tell_bind (.pure s)
  · split
    · exact .tell_bind (.pure _)
    · exact .tell_bind (.throw _)

namespace Writer

variable {w : World} {wr : Writer} {place : Option Location} {bs : Bytes}

theorem push_foregone (wr : Writer) (bytes : Bytes) : Foregone (wr.push bytes) := by
  rw [push_eq]
  refine .bind ?_ fun wr' => ?_
  · split
    · exact .bind (write_foregone _ _) fun _ => .pure _
    · exact .pure wr
  · split
    · exact .bind (write_foregone _ _) fun _ => .pure _
    · exact .pure _

/-- What comes of giving the writer more bytes. -/
def pushing (wr : Writer) (bytes : Bytes) : Except IoError Writer :=
  (({} : World).attempt (wr.push bytes)).1

theorem push_pushing (wr : Writer) (bytes : Bytes) (w : World) :
    Ends w (wr.push bytes) fun r _ => r = wr.pushing bytes := by
  obtain ⟨r, hr⟩ := wr.push_foregone bytes
  exact (hr w).trans (hr {}).symm

/-- The buffer never holds more than it can. -/
theorem push_waiting (hw : wr.waiting.length ≤ capacity) (bytes : Bytes) :
    Gives w (wr.push bytes) fun wr' _ => wr'.waiting.length ≤ capacity := by
  have hready : Gives w
      (if capacity < wr.waiting.length + bytes.length then wr.flush else Pure.pure wr)
      fun wr' _ => wr'.waiting.length ≤ capacity ∧
        (bytes.length < capacity → wr'.waiting.length + bytes.length ≤ capacity) := by
    split
    · unfold flush
      refine ends_bind (R := fun _ _ => True) trivial (fun s w' _ => gives_pure ?_) fun _ _ _ => ?_
      · exact ⟨Nat.zero_le _, fun hshort => by simpa using hshort.le⟩
      · rintro _ ⟨⟩
    · rename_i hfits
      exact gives_pure ⟨hw, fun _ => Nat.not_lt.1 hfits⟩
  rw [push_eq]
  refine gives_bind hready fun wr₁ w₁ hr => ?_
  obtain ⟨hwait, hshort⟩ := hr
  split
  · refine ends_bind (R := fun _ _ => True) trivial (fun s w' _ => gives_pure hwait) ?_
    rintro _ _ - _ ⟨⟩
  · rename_i hlong
    exact gives_pure (by simpa using hshort (Nat.not_le.1 hlong))

/-- The writer writes to the place and has taken the bytes: they are in its file, but for those
that wait in its buffer. -/
structure Keeps (wr : Writer) (place : Option Location) (t : Tree) (bs : Bytes) : Prop where
  isAt : wr.sink.place = place
  waiting : wr.waiting.length ≤ capacity
  file : ∀ l, place = some l → wr.Holds t l bs

theorem push_keeps (hw : wr.Keeps place w.tree bs) (bytes : Bytes) :
    Ends w (wr.push bytes) fun r w' => Works (Step.Adds place) w w' ∧ w'.events = w.events ∧
      r = wr.pushing bytes ∧ ∀ wr', r = .ok wr' → wr'.Keeps place w'.tree (bs ++ bytes) := by
  have htreads := push_treads hw.isAt bytes w
  have hquiet := wr.utters_push (P := fun _ => False) bytes w
  have hwaiting := push_waiting (w := w) hw.waiting bytes
  refine ⟨htreads.1, hquiet.events_eq, wr.push_pushing bytes w, fun wr' hr => ?_⟩
  refine ⟨htreads.2 wr' hr, hwaiting wr' hr, fun l hl => ?_⟩
  have hpush := push_ends (hw.file l hl) bytes
  exact (hpush.2.1 wr' hr).1

/-- A writer that is closed has all it has taken in its file. -/
theorem close_keeps (hw : wr.Keeps place w.tree bs) :
    Ends w wr.close fun r w' => Works (Step.Adds place) w w' ∧ w'.events = w.events ∧
      ∀ u, r = .ok u → ∃ l, place = some l ∧ w'.tree.find? l = some (.file bs) := by
  have htreads := close_treads hw.isAt w
  have hquiet := wr.utters_close (P := fun _ => False) w
  refine ⟨htreads.1, hquiet.events_eq, fun u hr => ?_⟩
  obtain ⟨l, hl⟩ := Option.ne_none_iff_exists'.1 (htreads.2 u hr)
  have hclose := close_ends (hw.file l hl)
  exact ⟨l, hl, hclose.2.1 u hr⟩

end Writer

end Disk

/-! ## Reports -/

namespace Progress

variable {p q : Progress} {chunks : List Bytes}

/-- The reports that follow when chunks are taken: each is ahead by the length of its chunk. -/
def onward (p : Progress) : List Bytes → List Progress
  | [] => []
  | chunk :: chunks =>
    { p with current := p.current + chunk.length } ::
      onward { p with current := p.current + chunk.length } chunks

theorem getLast?_onward (p : Progress) (chunks : List Bytes) :
    (p :: p.onward chunks).getLast?.map (·.current) = some (p.current + chunks.flatten.length) := by
  induction chunks generalizing p with
  | nil => rfl
  | cons chunk chunks ih =>
    rw [onward, List.getLast?_cons_cons, ih, List.flatten_cons, List.length_append]
    simp only [Nat.add_assoc]

theorem lt_of_mem_onward (hchunks : ∀ chunk ∈ chunks, chunk ≠ []) (hq : q ∈ p.onward chunks) :
    p.current < q.current := by
  induction chunks generalizing p with
  | nil => cases hq
  | cons chunk chunks ih =>
    have hchunk := List.length_pos_of_ne_nil (hchunks chunk List.mem_cons_self)
    rcases List.mem_cons.1 hq with rfl | hq
    · exact Nat.lt_add_of_pos_right hchunk
    · have hnext := ih (fun c hc => hchunks c (List.mem_cons_of_mem _ hc)) hq
      exact (Nat.lt_add_of_pos_right hchunk).trans hnext

/-- No report is repeated, and none goes back. -/
theorem pairwise_onward (hchunks : ∀ chunk ∈ chunks, chunk ≠ []) (p : Progress) :
    (p :: p.onward chunks).Pairwise fun p q => p.current < q.current := by
  induction chunks generalizing p with
  | nil => exact List.pairwise_singleton _ _
  | cons chunk chunks ih =>
    exact List.pairwise_cons.2 ⟨fun q hq => lt_of_mem_onward hchunks hq,
      ih (fun c hc => hchunks c (List.mem_cons_of_mem _ hc)) _⟩

end Progress

/-- A report of progress and the tree at its time. -/
structure Moment where
  report : Progress
  tree : Tree

namespace Moment

/-- So much of the document as the report says is in the file at the place, but for what waits in
the buffer of its writer. -/
def IsTrue (place : Option Location) (bytes : Bytes) (m : Moment) : Prop :=
  ∀ l, place = some l → ∃ done waiting, m.tree.find? l = some (.file done) ∧
    waiting.length ≤ Writer.capacity ∧ done ++ waiting = bytes.take m.report.current

end Moment

/-- What is told of some moments. -/
def diary (entry : Progress → Tree → List Event) (moments : List Moment) : List Event :=
  moments.flatMap fun m => entry m.report m.tree

/-- What the writer has taken is what the report says. -/
theorem Disk.Writer.Keeps.isTrue {wr : Writer} {place : Option Location} {t : Tree}
    {bs rest : Bytes} (hw : wr.Keeps place t bs) (filename : String) (total : Nat) :
    Moment.IsTrue place (bs ++ rest) ⟨⟨filename, bs.length, total⟩, t⟩ := by
  intro l hl
  obtain ⟨-, done, hdone, hbytes⟩ := hw.file l hl
  exact ⟨done, wr.waiting, hdone, hw.waiting, by rw [hbytes, List.take_left]⟩

namespace Fetcher

variable {f : Fetcher} {entry : Progress → Tree → List Event} {R : Tree → Prop} {w : World}
  {wr : Writer} {place : Option Location} {bs : Bytes} {part filename : String} {total : Nat}

/-- Each report is told in the words of `entry`, which may look at the tree, and nothing else comes
of it. -/
def KeepsDiary (f : Fetcher) (entry : Progress → Tree → List Event) : Prop :=
  ∀ p (w : World), ((f.onProgress p).run w).2.tree = w.tree ∧
    ((f.onProgress p).run w).2.events = w.events ++ entry p w.tree

/-- A chunk that is taken is reported then, and one that the writer refuses is not. -/
theorem takeChunk_reports (hf : f.KeepsDiary entry)
    (hR : ∀ t s, R t → s.Adds place → R (t.apply s)) (hw : R w.tree)
    (hwr : wr.Keeps place w.tree bs) (chunk : Bytes) :
    Ends w (f.takeChunk part filename total (wr, bs.length) chunk) fun r w' => R w'.tree ∧
      (∀ state, r = .ok state → ∃ wr', state = (wr', (bs ++ chunk).length) ∧
        wr.pushing chunk = .ok wr' ∧ wr'.Keeps place w'.tree (bs ++ chunk) ∧
        w'.events = w.events ++ entry ⟨filename, (bs ++ chunk).length, total⟩ w'.tree) ∧
      ∀ e, r = .error e → w'.events = w.events ∧ ∃ e', wr.pushing chunk = .error e' ∧
        e = .write part e' := by
  unfold takeChunk
  apply ends_adapt_bind (Writer.push_keeps hwr chunk)
  · intro wr₁ w₁ hr
    obtain ⟨hworks, hevents, hpush, hkeeps⟩ := hr
    have hkeeps := hkeeps wr₁ rfl
    have hw₁ := hworks.induct hR hw
    apply ends_tell_bind
    rw [← List.length_append]
    -- The report is made in this world, whose tree it leaves as it is.
    obtain ⟨htree, htold⟩ := hf ⟨filename, (bs ++ chunk).length, total⟩ w₁
    generalize ((f.onProgress ⟨filename, (bs ++ chunk).length, total⟩).run w₁).2 = w₂
      at htree htold
    rw [← htree] at hkeeps hw₁ htold
    refine ends_pure ⟨hw₁, fun state hstate => ?_, by rintro _ ⟨⟩⟩
    cases hstate
    exact ⟨wr₁, rfl, hpush.symm, hkeeps, by rw [htold, hevents]⟩
  · intro e w₁ hr
    obtain ⟨hworks, hevents, hpush, -⟩ := hr
    refine ⟨hworks.induct hR hw, by rintro _ ⟨⟩, ?_⟩
    rintro _ ⟨⟩
    exact ⟨hevents, e, hpush.symm, rfl⟩

/-- One report for each chunk that is taken. Where the writer refuses one, neither that chunk nor
any after it is reported. -/
theorem foldlM_takeChunk_reports (hf : f.KeepsDiary entry)
    (hR : ∀ t s, R t → s.Adds place → R (t.apply s)) (chunks : List Bytes) (wr : Writer)
    (bs : Bytes) (w : World) (hwr : wr.Keeps place w.tree bs) (hw : R w.tree) :
    Ends w (chunks.foldlM (f.takeChunk part filename total) (wr, bs.length)) fun r w' =>
      R w'.tree ∧ ∃ handed moments, handed <+: chunks ∧
        w'.events = w.events ++ diary entry moments ∧
        moments.map Moment.report = Progress.onward ⟨filename, bs.length, total⟩ handed ∧
        (∀ m ∈ moments, m.IsTrue place (bs ++ chunks.flatten)) ∧
        ∃ wr', handed.foldlM Writer.pushing wr = .ok wr' ∧
          ((handed = chunks ∧ r = .ok (wr', (bs ++ chunks.flatten).length) ∧
              wr'.Keeps place w'.tree (bs ++ chunks.flatten)) ∨
            ∃ chunk e, handed ++ [chunk] <+: chunks ∧ wr'.pushing chunk = .error e ∧
              r = .error (.write part e)) := by
  induction chunks generalizing wr bs w with
  | nil =>
    refine ends_pure ⟨hw, [], [], List.prefix_rfl, by simp [diary], rfl, by simp, wr, rfl, ?_⟩
    rw [List.flatten_nil, List.append_nil]
    exact .inl ⟨rfl, rfl, hwr⟩
  | cons chunk chunks ih =>
    rw [List.foldlM_cons]
    apply ends_bind (takeChunk_reports hf hR hw hwr chunk)
    · intro state w₁ hr
      obtain ⟨hw₁, htaken, -⟩ := hr
      obtain ⟨wr₁, rfl, hpush, hkeeps, hevents⟩ := htaken state rfl
      have hnow : Moment.IsTrue place (bs ++ (chunk :: chunks).flatten)
          ⟨⟨filename, (bs ++ chunk).length, total⟩, w₁.tree⟩ := by
        rw [List.flatten_cons, ← List.append_assoc]
        exact hkeeps.isTrue filename total
      refine ends_imp (ih wr₁ (bs ++ chunk) w₁ hkeeps hw₁) fun r w' hr => ?_
      obtain ⟨hw', handed, moments, hgiven, hevents', hreports, htrue, wr', htaken, hend⟩ := hr
      rw [List.append_assoc, ← List.flatten_cons] at htrue hend
      refine ⟨hw', chunk :: handed, ⟨⟨filename, (bs ++ chunk).length, total⟩, w₁.tree⟩ :: moments,
        List.cons_prefix_cons.2 ⟨rfl, hgiven⟩, ?_, ?_, List.forall_mem_cons.2 ⟨hnow, htrue⟩, wr',
        ?_, ?_⟩
      · rw [hevents', hevents, List.append_assoc]
        rfl
      · rw [List.map_cons, hreports, Progress.onward, List.length_append]
      · rw [List.foldlM_cons, hpush]
        exact htaken
      · rcases hend with ⟨rfl, hok, hall⟩ | ⟨next, e, hnext, hrefused, herr⟩
        · exact .inl ⟨rfl, hok, hall⟩
        · exact .inr ⟨next, e, List.cons_prefix_cons.2 ⟨rfl, hnext⟩, hrefused, herr⟩
    · intro e w₁ hr
      obtain ⟨hw₁, -, hrefused⟩ := hr
      obtain ⟨hevents, e', hpush, rfl⟩ := hrefused e rfl
      refine ⟨hw₁, [], [], List.nil_prefix, ?_, rfl, by simp, wr, rfl, .inr ?_⟩
      · rw [hevents, diary, List.flatMap_nil, List.append_nil]
      · exact ⟨chunk, e', List.prefix_append [chunk] chunks, hpush, rfl⟩

end Fetcher

end FileListCache
