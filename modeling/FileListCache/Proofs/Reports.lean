/-
  FileListCache.Proofs.Reports

  What the reports of progress say of a fetch, whatever it comes to (`Fetcher.fetch_reports`). A
  fetch has three stages: the document is opened and its file is made (`Fetcher.opening`), what
  arrives is written (`Fetcher.transfer`), and the file gets its name or is removed
  (`Fetcher.ends_fetch`). Only the second one reports.
-/

import FileListCache.Proofs.Handing
import FileListCache.Proofs.Requests
import FileListCache.Proofs.Servers

namespace FileListCache

open Disk (Sink Writer locate look)
open FileListCache.Tree (Step)

namespace Fetcher

variable {h : Host} {w : World} {f : Fetcher} {entry : Progress → Tree → List Event}
  {R : Tree → Prop} {place : Option Location} {wr : Writer} {sink : Sink}
  {bs bytes : Bytes} {part filename url : String} {u : Url} {total : Nat} {incoming : Incoming}

/-! ## Stages -/

/-- The first stage: the document is opened and its file is made. -/
def opening (h : Host) (f : Fetcher) (u : Url) (part : String) :
    Attempt DownloadError (Incoming × Nat × Sink) := do
  let (incoming, total) ← f.openUrl h u
  let sink ← (Disk.create h part).adapt (DownloadError.write part)
  return (incoming, total, sink)

/-- The end of a transfer: what waits is written, also where the rest of the document is missing. -/
def closing (part : String) (wr : Writer) (size : Nat) :
    Option IoError → Attempt DownloadError Nat
  | some e => do
    discard wr.flush.run
    throw (.io e)
  | none => do
    wr.close.adapt (DownloadError.write part)
    return size

/-- The second stage: what arrives is written. -/
def transfer (h : Host) (f : Fetcher) (filename part : String) (incoming : Incoming)
    (total : Nat) (sink : Sink) : Attempt DownloadError Nat := do
  f.onProgress ⟨filename, 0, total⟩
  let content := incoming.content (← get).tree
  let (w, size) ← (h.arrival.pieces content.bytes).foldlM (f.takeChunk part filename total)
    ({ sink }, 0)
  closing part w size content.failure

theorem receive_eq (h : Host) (f : Fetcher) (u : Url) (filename part : String) :
    f.receive h u filename part = f.opening h u part >>= fun opened =>
      f.transfer h filename part opened.1 opened.2.1 opened.2.2 := by
  rw [opening, bind_assoc]
  refine bind_congr fun opened => ?_
  rw [bind_assoc]
  refine bind_congr fun sink => ?_
  rw [pure_bind]
  rfl

/-- The beginning of a fetch, as far as the making of the file for what arrives. -/
def start (h : Host) (f : Fetcher) (url filename : String) :
    Attempt DownloadError (Incoming × Nat × Sink) :=
  match Url.ofText url with
  | .error e => throw (.invalidUrl url e)
  | .ok u => do
    World.note .debug .fetch ("fetching " ++ url ++ " into " ++ f.outputPath filename)
    f.opening h u (f.partPath filename)

/-- The address is that of a local file, which consists of `bytes` and is not the one at the
place. -/
def NamesFile (h : Host) (t : Tree) (url : String) (place : Option Location) (bytes : Bytes) :
    Prop :=
  ∃ u path, Url.ofText url = .ok u ∧ u.scheme = "file" ∧ u.filePath? = some path ∧
    Disk.reading h t path = .ok bytes ∧ ∀ l, locate h t true path = .ok l → place ≠ some l

/-- What the first stage leaves in the tree. -/
structure Opened (h : Host) (u : Url) (part : String) (t t' : Tree) (incoming : Incoming)
    (total : Nat) (sink : Sink) : Prop where
  rooted : t'.IsRooted
  file : ∀ l, sink.place = some l → locate h t' true part = .ok l ∧ t'.find? l = some (.file [])
  announced : ∀ path bytes, u.scheme = "file" → u.filePath? = some path →
    Disk.reading h t path = .ok bytes →
    (∀ l, locate h t true path = .ok l → sink.place ≠ some l) →
      total = bytes.length ∧ incoming.content t' = ⟨bytes, none⟩

/-- A local document can be read while anything else changes. -/
theorem openUrl_opens (hroot : w.tree.IsRooted) :
    Gives w (f.openUrl h u) fun opened w' => w'.tree.IsRooted ∧
      ∀ path bytes, u.scheme = "file" → u.filePath? = some path →
        Disk.reading h w.tree path = .ok bytes → opened.2 = bytes.length ∧ ∀ t,
          (∀ l, locate h w.tree true path = .ok l → t.find? l = w'.tree.find? l) →
            opened.1.content t = ⟨bytes, none⟩ := by
  by_cases hu : u.scheme = "file"
  · unfold openUrl
    rw [if_pos hu]
    cases hpath : u.filePath? with
    | none => exact gives_throw
    | some path =>
      have hrooted := Disk.openRead_rooted (h := h) (p := path) hroot
      have hlasting (bytes : Bytes) (hread : Disk.reading h w.tree path = .ok bytes) :=
        Disk.openRead_lasting hread
      refine gives_bind (R := fun source w' => w'.tree.IsRooted ∧ ∀ bytes,
        Disk.reading h w.tree path = .ok bytes → ∀ t,
          (∀ l, locate h w.tree true path = .ok l → t.find? l = w'.tree.find? l) →
            Disk.contentOf t source = .ok bytes) (gives_adapt fun source hs => ⟨hrooted,
          fun bytes hread => hlasting bytes hread source hs⟩) fun source w' hr => ?_
      obtain ⟨hrooted', hcontent⟩ := hr
      refine ends_get_bind (gives_pure ⟨hrooted', fun path' bytes _ hpath' hread => ?_⟩)
      cases hpath'
      have hcontent := hcontent bytes hread
      refine ⟨?_, fun t ht => ?_⟩
      · rw [Disk.sizeOf, hcontent w'.tree fun _ _ => rfl]
      · rw [Incoming.content, hcontent t ht]
  · obtain ⟨r, hr⟩ := f.isBlind_openUrl (h := h) hu
    refine gives_of_ends (hr w) fun opened w' hr => ⟨?_, fun _ _ hscheme => absurd hscheme hu⟩
    rw [hr.2.tree]
    exact hroot

theorem opening_opens (hroot : w.tree.IsRooted) :
    Ends w (f.opening h u part) fun r w' => w'.events = w.events ∧
      ∀ incoming total sink, r = .ok (incoming, total, sink) →
        Opened h u part w.tree w'.tree incoming total sink := by
  have hquiet : Utters (fun _ => False) (f.opening h u part) :=
    .bind (f.utters_openUrl u) fun _ => .bind (.adapt (Disk.utters_create part)) fun _ => .pure _
  refine ⟨(hquiet w).events_eq, ?_⟩
  have hgives : Gives w (f.opening h u part) fun opened w' =>
      Opened h u part w.tree w'.tree opened.1 opened.2.1 opened.2.2 := by
    unfold opening
    refine gives_bind (openUrl_opens hroot) fun opened w₁ hr => ?_
    obtain ⟨hroot₁, hlocal⟩ := hr
    refine gives_bind (gives_adapt (Disk.create_makes hroot₁)) fun sink w₂ hmade => ?_
    refine gives_pure ⟨hmade.rooted, hmade.file, fun path bytes hscheme hpath hread hother => ?_⟩
    obtain ⟨htotal, hcontent⟩ := hlocal path bytes hscheme hpath hread
    exact ⟨htotal, hcontent _ fun l hl => hmade.others l (hother l hl)⟩
  exact fun incoming total sink hr => hgives _ hr

/-! ## Whole transfers -/

/-- What was reported of a transfer of `body` through `sink`, which is said to be of `total` bytes,
and what it came to when the chunks `handed` were taken. -/
structure Reported {α : Type} (h : Host) (filename part : String) (total : Nat) (sink : Sink)
    (body : Http.Body) (handed : List Bytes) (moments : List Moment)
    (r : Except DownloadError α) : Prop where
  /-- The chunks are the first ones that arrived. -/
  arrived : handed <+: h.arrival.pieces body.bytes
  sizes : ∀ chunk ∈ handed, chunk ≠ [] ∧ chunk.length ≤ Bytes.chunkSize
  /-- The first report is that nothing has arrived; there is one more for each chunk. -/
  reports : moments.map Moment.report =
    ⟨filename, 0, total⟩ :: Progress.onward ⟨filename, 0, total⟩ handed
  increasing : (moments.map fun m => m.report.current).Pairwise (· < ·)
  written : ∀ m ∈ moments, m.IsTrue sink.place body.bytes
  taken : ∃ wr, handed.foldlM Writer.pushing { sink } = .ok wr
  /-- Where not all is taken the next chunk was refused, and that is how the transfer ended. -/
  stopped : handed ≠ h.arrival.pieces body.bytes → ∃ wr chunk e,
    handed.foldlM Writer.pushing { sink } = .ok wr ∧
    handed ++ [chunk] <+: h.arrival.pieces body.bytes ∧ wr.pushing chunk = .error e ∧
    r = .error (.write part e)
  /-- An error on the way is met behind the last chunk. -/
  broken : handed = h.arrival.pieces body.bytes → ∀ e, body.failure = some e → r = .error (.io e)
  whole : ∀ a, r = .ok a → handed = h.arrival.pieces body.bytes ∧ body.failure = none

/-- The last report of a transfer that succeeds is that all has arrived. -/
theorem Reported.last {α : Type} {body : Http.Body} {handed : List Bytes} {moments : List Moment}
    {r : Except DownloadError α} (hr : Reported h filename part total sink body handed moments r)
    {a : α} (ha : r = .ok a) :
    moments.getLast?.map (fun m => m.report.current) = some body.bytes.length := by
  have hlast := Progress.getLast?_onward ⟨filename, 0, total⟩ handed
  rw [← hr.reports, (hr.whole a ha).1, h.arrival.flatten_pieces, List.getLast?_map,
    Option.map_map, Nat.zero_add] at hlast
  exact hlast

/-- The chunks that were taken, as far as they go, and a first report before them make up a
transfer. -/
theorem Reported.of_handed {α : Type} {body : Http.Body} {handed : List Bytes}
    {moments : List Moment} {t : Tree} {r : Except DownloadError α}
    (hgiven : handed <+: h.arrival.pieces body.bytes)
    (hreports : moments.map Moment.report = Progress.onward ⟨filename, 0, total⟩ handed)
    (htrue : ∀ m ∈ (⟨⟨filename, 0, total⟩, t⟩ :: moments : List Moment),
      m.IsTrue sink.place body.bytes)
    (htaken : ∃ wr, handed.foldlM Writer.pushing { sink } = .ok wr)
    (hstopped : handed ≠ h.arrival.pieces body.bytes → ∃ wr chunk e,
      handed.foldlM Writer.pushing { sink } = .ok wr ∧
      handed ++ [chunk] <+: h.arrival.pieces body.bytes ∧ wr.pushing chunk = .error e ∧
      r = .error (.write part e))
    (hbroken : handed = h.arrival.pieces body.bytes → ∀ e, body.failure = some e →
      r = .error (.io e))
    (hwhole : ∀ a, r = .ok a → handed = h.arrival.pieces body.bytes ∧ body.failure = none) :
    Reported h filename part total sink body handed (⟨⟨filename, 0, total⟩, t⟩ :: moments) r := by
  have hsizes (chunk : Bytes) (hchunk : chunk ∈ handed) :
      chunk ≠ [] ∧ chunk.length ≤ Bytes.chunkSize :=
    h.arrival.bounds body.bytes chunk (hgiven.subset hchunk)
  refine ⟨hgiven, hsizes, by rw [List.map_cons, hreports], ?_, htrue, htaken, hstopped, hbroken,
    hwhole⟩
  have hpairwise := Progress.pairwise_onward (fun c hc => (hsizes c hc).1) ⟨filename, 0, total⟩
  rw [← hreports] at hpairwise
  simpa [Function.comp_def] using hpairwise.map Progress.current fun _ _ hlt => hlt

/-- The end of a transfer is silent. -/
theorem closing_keeps {size : Nat} {failure : Option IoError} (hwr : wr.Keeps place w.tree bs)
    (hR : ∀ t s, R t → s.Adds place → R (t.apply s)) (hw : R w.tree) :
    Ends w (closing part wr size failure) fun r w' => R w'.tree ∧ w'.events = w.events ∧
      (∀ e, failure = some e → r = .error (.io e)) ∧
      ∀ n, r = .ok n → failure = none ∧
        ∃ l, place = some l ∧ w'.tree.find? l = some (.file bs) := by
  cases failure with
  | some e =>
    apply ends_discard_bind
    apply ends_outcome_bind
    have htreads := Writer.flush_treads hwr.isAt w
    have hquiet := wr.utters_flush (P := fun _ => False) w
    refine ends_imp (ends_and htreads hquiet) fun r w' hr => ?_
    refine ends_throw ⟨hr.1.1.induct hR hw, hr.2.events_eq, ?_, by rintro _ ⟨⟩⟩
    rintro _ ⟨⟩
    rfl
  | none =>
    apply ends_adapt_bind (Writer.close_keeps hwr)
    · intro u w' hr
      obtain ⟨hworks, hevents, hfile⟩ := hr
      exact ends_pure ⟨hworks.induct hR hw, hevents, by rintro _ ⟨⟩, fun _ _ => ⟨rfl, hfile u rfl⟩⟩
    · intro e w' hr
      exact ⟨hr.1.induct hR hw, hr.2.1, by rintro _ ⟨⟩, by rintro _ ⟨⟩⟩

theorem transfer_reports (hf : f.KeepsDiary entry)
    (hR : ∀ t s, R t → s.Adds sink.place → R (t.apply s)) (hw : R w.tree)
    (hfile : ∀ l, sink.place = some l → w.tree.find? l = some (.file [])) :
    Ends w (f.transfer h filename part incoming total sink) fun r w' => R w'.tree ∧
      (∀ n, r = .ok n → ∃ l, sink.place = some l ∧
        w'.tree.find? l = some (.file (incoming.content w.tree).bytes)) ∧
      ∃ handed moments, w'.events = w.events ++ diary entry moments ∧
        Reported h filename part total sink (incoming.content w.tree) handed moments r := by
  have hkeeps : Writer.Keeps { sink } sink.place w.tree [] :=
    ⟨rfl, Nat.zero_le _, fun l hl => ⟨hl, [], hfile l hl, rfl⟩⟩
  unfold transfer
  apply ends_tell_bind
  obtain ⟨htree, htold⟩ := hf ⟨filename, 0, total⟩ w
  generalize ((f.onProgress ⟨filename, 0, total⟩).run w).2 = w₁ at htree htold
  rw [← htree] at hkeeps hw
  have hfirst : Moment.IsTrue sink.place (incoming.content w.tree).bytes
      ⟨⟨filename, 0, total⟩, w.tree⟩ := by
    rw [← htree]
    exact hkeeps.isTrue filename total
  apply ends_get_bind
  rw [htree]
  generalize incoming.content w.tree = body at *
  have hflatten := h.arrival.flatten_pieces body.bytes
  apply ends_bind (foldlM_takeChunk_reports hf hR (h.arrival.pieces body.bytes) { sink } [] w₁
    hkeeps hw)
  · intro state w₂ hr
    obtain ⟨hw₂, handed, moments, hgiven, hevents, hreports, htrue, wr, htaken, hend⟩ := hr
    rw [List.nil_append, hflatten] at htrue hend
    -- Nothing was refused, so all that arrived was taken.
    rcases hend with ⟨rfl, hstate, hall⟩ | ⟨chunk, e, -, -, ⟨⟩⟩
    cases hstate
    refine ends_imp (closing_keeps hall hR hw₂) fun r w₃ hr => ?_
    obtain ⟨hw₃, hevents₃, hbroken, hwhole⟩ := hr
    refine ⟨hw₃, fun n hn => (hwhole n hn).2, _, ⟨⟨filename, 0, total⟩, w.tree⟩ :: moments, ?_,
      .of_handed hgiven hreports (List.forall_mem_cons.2 ⟨hfirst, htrue⟩) ⟨wr, htaken⟩
        (fun hne => absurd rfl hne) (fun _ => hbroken) fun n hn => ⟨rfl, (hwhole n hn).1⟩⟩
    rw [hevents₃, hevents, htold, List.append_assoc]
    rfl
  · intro e w₂ hr
    obtain ⟨hw₂, handed, moments, hgiven, hevents, hreports, htrue, wr, htaken, hend⟩ := hr
    rw [List.nil_append, hflatten] at htrue hend
    rcases hend with ⟨-, ⟨⟩, -⟩ | ⟨chunk, e', hnext, hrefused, herr⟩
    cases herr
    refine ⟨hw₂, by rintro _ ⟨⟩, handed, ⟨⟨filename, 0, total⟩, w.tree⟩ :: moments, ?_,
      .of_handed hgiven hreports (List.forall_mem_cons.2 ⟨hfirst, htrue⟩) ⟨wr, htaken⟩
        (fun _ => ⟨wr, chunk, e', htaken, hnext, hrefused, rfl⟩) (fun hall => ?_)
        (by rintro _ ⟨⟩)⟩
    · rw [hevents, htold, List.append_assoc]
      rfl
    · -- A chunk that was refused was not the last to be taken.
      have hlength := hnext.length_le
      rw [hall, List.length_append, List.length_singleton] at hlength
      omega

/-! ## Whole fetches -/

/-- What comes after a transfer passes its errors on. -/
theorem Reported.trans {α β : Type} {body : Http.Body} {handed : List Bytes}
    {moments : List Moment} {r : Except DownloadError α} {r' : Except DownloadError β}
    (hr : Reported h filename part total sink body handed moments r)
    (herr : ∀ e, r = .error e → r' = .error e) (hok : ∀ b, r' = .ok b → ∃ a, r = .ok a) :
    Reported h filename part total sink body handed moments r' where
  arrived := hr.arrived
  sizes := hr.sizes
  reports := hr.reports
  increasing := hr.increasing
  written := hr.written
  taken := hr.taken
  stopped hne := by
    obtain ⟨wr, chunk, e, htaken, hnext, hrefused, he⟩ := hr.stopped hne
    exact ⟨wr, chunk, e, htaken, hnext, hrefused, herr _ he⟩
  broken hall e he := herr _ (hr.broken hall e he)
  whole b hb := by
    obtain ⟨a, ha⟩ := hok b hb
    exact hr.whole a ha

theorem partPath_eq (f : Fetcher) (filename : String) :
    f.partPath filename = f.outputPath filename ++ ".part" := by
  have habsolute : Path.isAbsolute (filename ++ ".part") = Path.isAbsolute filename := by
    by_cases hempty : filename.toList = []
    · rw [String.toList_eq_nil_iff.1 hempty]
      decide
    · simp [Path.isAbsolute, List.head?_append_of_ne_nil _ hempty]
  unfold partPath outputPath Path.join
  rw [habsolute]
  split
  · rfl
  · split <;> simp only [String.append_assoc]

/-- What a fetch has stored that went on in the tree `t` from the making of its file at `place`:
the bytes have the final name, if the other name was not that of a link. Where it was, nothing
else is found there. -/
structure Stored (h : Host) (part output : String) (t t' : Tree) (place : Option Location)
    (bytes : Bytes) : Prop where
  file : ∃ l, place = some l ∧ (locate h t false part = .ok l →
    ∃ lo, locate h t false output = .ok lo ∧ t'.find? lo = some (.file bytes))
  found : ∀ bytes', look h t' output = .ok (.file bytes') → bytes' = bytes

/-- The tree `t₀` has grown at the place at most, so that paths lead where they led. -/
structure Grown (place : Option Location) (t₀ t : Tree) : Prop where
  rooted : t.IsRooted
  alike : t₀.Alike t
  deadEnd : ∀ l, place = some l → l ≠ [] ∧ t.IsDeadEnd l

theorem Grown.adds {t₀ t : Tree} (ht : Grown place t₀ t) {s : Step} (hs : s.Adds place) :
    Grown place t₀ (t.apply s) := by
  obtain ⟨l, bytes, hl, rfl⟩ := hs.exists_extend
  obtain ⟨hne, hdead⟩ := ht.deadEnd l hl
  have hfills : (Step.extend l bytes).Fills l := rfl
  refine ⟨ht.rooted.extend, ht.alike.trans (hfills.alike hne hdead), fun l' hl' => ?_⟩
  cases hl.symm.trans hl'
  exact ⟨hne, (hfills.fades hne).isDeadEnd hdead⟩

theorem Opened.grown {t t' : Tree} (ho : Opened h u part t t' incoming total sink) :
    Grown sink.place t' t' := by
  refine ⟨ho.rooted, .refl t', fun l hl => ?_⟩
  have hfile := (ho.file l hl).2
  refine ⟨?_, Tree.isDeadEnd_of_file hfile⟩
  rintro rfl
  simp at hfile

/-- A document that has arrived is stored if it gets its name. -/
theorem rename_stored {t₀ : Tree} {l : Location} {output : String}
    (ht : Grown (some l) t₀ w.tree) (hl : locate h t₀ true (output ++ ".part") = .ok l)
    (hfile : w.tree.find? l = some (.file bytes)) :
    Gives w (Disk.rename h (output ++ ".part") output) fun _ w' =>
      Stored h (output ++ ".part") output t₀ w'.tree (some l) bytes := by
  have hstores := Disk.rename_stores ht.rooted ((Disk.locate_alike ht.alike).2 hl) hfile
  refine gives_imp hstores fun _ w' hr => ⟨⟨l, rfl, fun hpart => ?_⟩, hr.2⟩
  obtain ⟨lo, hlo, hstored⟩ := hr.1 ((Disk.locate_alike ht.alike).2 hpart)
  exact ⟨lo, (Disk.locate_alike ht.alike).1 hlo, hstored⟩

/-- The world in which a fetch begins, after a message. -/
def starting (f : Fetcher) (url filename : String) (w : World) : World :=
  ((World.note .debug .fetch ("fetching " ++ url ++ " into " ++ f.outputPath filename)).run w).2

/-- A fetch by its stages: what the transfer comes to, what is left of it after an error, and what
the renaming comes to. -/
theorem ends_fetch {R : Except DownloadError Nat → World → Prop}
    {Q : Except DownloadError String → World → Prop} (hu : Url.ofText url = .ok u)
    (hreceived : Ends (f.starting url filename w) (f.receive h u filename (f.partPath filename)) R)
    (herr : ∀ e w₁, R (.error e) w₁ → Ends w₁ (Files.remove h (f.partPath filename)) fun _ w₂ =>
      ∀ w₃, World.Same w₂ w₃ → Q (.error e) w₃)
    (hok : ∀ n w₁, R (.ok n) w₁ → ∀ w₂, World.Same w₁ w₂ →
      Ends w₂ (Disk.rename h (f.partPath filename) (f.outputPath filename)) fun r w₃ =>
        (r = .ok () → Q (.ok (f.outputPath filename)) w₃) ∧
        ∀ e, r = .error e → Q (.error (.write (f.outputPath filename) e)) w₃) :
    Ends w (f.fetch h url filename) Q := by
  unfold fetch
  rw [hu]
  dsimp only
  apply ends_tell_bind
  apply ends_bind (R := fun r w₁ => (∀ n, r = .ok n → R (.ok n) w₁) ∧ ∀ e, r = .error e →
    Q (.error e) w₁)
  · apply ends_catch hreceived
    · intro n w₁ hr
      refine ⟨fun n' hn => ?_, by rintro _ ⟨⟩⟩
      cases hn
      exact hr
    · intro e w₁ hr
      apply Files.ends_noted
      refine ends_imp (herr e w₁ hr) fun _ w₂ hr w₃ hsame => ends_throw ⟨by rintro _ ⟨⟩, ?_⟩
      intro e' he
      cases he
      exact hr w₃ hsame.toSame
  · intro n w₁ hr
    apply ends_note_bind
    intro w₂ hsame
    apply ends_adapt_bind (hok n w₁ (hr.1 n rfl) w₂ hsame.toSame)
    · exact fun _ w₃ hr => ends_pure (hr.1 rfl)
    · exact fun e w₃ hr => hr.2 e rfl
  · exact fun e w₁ hr => hr.2 e rfl

/-- The events between the two worlds are the reports of a transfer of the document, of which the
fetch has stored all if it succeeded. -/
def Tells (h : Host) (f : Fetcher) (entry : Progress → Tree → List Event) (filename : String)
    (total : Nat) (sink : Sink) (t : Tree) (body : Http.Body) (w : World)
    (r : Except DownloadError String) (w' : World) : Prop :=
  ∃ handed moments, w'.events = w.events ++ diary entry moments ∧
    Reported h filename (f.partPath filename) total sink body handed moments r ∧
    ∀ path, r = .ok path → path = f.outputPath filename ∧
      moments.getLast?.map (fun m => m.report.current) = some body.bytes.length ∧
      Stored h (f.partPath filename) path t w'.tree sink.place body.bytes

/-- A fetch tells what its transfer told. -/
theorem tells_of_transfer {body : Http.Body} {t : Tree} {w' w'' : World}
    {r : Except DownloadError Nat} {r' : Except DownloadError String}
    (hr : ∃ handed moments, w'.events = w.events ++ diary entry moments ∧
      Reported h filename (f.partPath filename) total sink body handed moments r)
    (hevents : w''.events = w'.events) (herr : ∀ e, r = .error e → r' = .error e)
    (hok : ∀ path, r' = .ok path → (∃ n, r = .ok n) ∧ path = f.outputPath filename ∧
      Stored h (f.partPath filename) path t w''.tree sink.place body.bytes) :
    f.Tells h entry filename total sink t body w r' w'' := by
  obtain ⟨handed, moments, htold, hreported⟩ := hr
  have hreported' := hreported.trans herr fun path hpath => (hok path hpath).1
  refine ⟨handed, moments, by rw [hevents, htold], hreported', fun path hpath => ?_⟩
  obtain ⟨-, houtput, hstored⟩ := hok path hpath
  exact ⟨houtput, hreported'.last hpath, hstored⟩

theorem attempt_start (hu : Url.ofText url = .ok u) :
    w.attempt (f.start h url filename) =
      (f.starting url filename w).attempt (f.opening h u (f.partPath filename)) := by
  unfold start
  rw [hu]
  rfl

/-- A fetch for which no file was made fails in silence. -/
theorem fetch_unopened {e : DownloadError} {w₁ : World} (hu : Url.ofText url = .ok u)
    (hopened : (f.starting url filename w).attempt (f.opening h u (f.partPath filename)) =
      (.error e, w₁)) :
    Ends w (f.fetch h url filename) fun r w' => r = .error e ∧ w'.events = w₁.events := by
  apply ends_fetch hu (R := fun r w' => r = .error e ∧ w'.events = w₁.events)
  · rw [receive_eq, Ends, World.attempt_bind, hopened]
    exact ⟨rfl, rfl⟩
  · rintro e' w₂ ⟨⟨⟩, hevents⟩
    refine ends_imp (Files.utters_remove (P := fun _ => False) _ w₂) fun _ w₃ hquiet w₄ hsame => ?_
    exact ⟨rfl, by rw [hsame.events, hquiet.events_eq, hevents]⟩
  · rintro n w₂ ⟨⟨⟩, -⟩

/-- A fetch for which a file was made tells of the transfer, and of nothing behind it. -/
theorem fetch_tells {t : Tree} {w₁ : World} (hf : f.KeepsDiary entry)
    (hu : Url.ofText url = .ok u)
    (hopened : (f.starting url filename w).attempt (f.opening h u (f.partPath filename)) =
      (.ok (incoming, total, sink), w₁))
    (hopens : Opened h u (f.partPath filename) t w₁.tree incoming total sink) :
    Ends w (f.fetch h url filename) fun r w' =>
      f.Tells h entry filename total sink w₁.tree (incoming.content w₁.tree) w₁ r w' := by
  apply ends_fetch hu (R := fun r w' => Grown sink.place w₁.tree w'.tree ∧
    (∀ n, r = .ok n → ∃ l, sink.place = some l ∧
      w'.tree.find? l = some (.file (incoming.content w₁.tree).bytes)) ∧
    ∃ handed moments, w'.events = w₁.events ++ diary entry moments ∧
      Reported h filename (f.partPath filename) total sink (incoming.content w₁.tree) handed
        moments r)
  · rw [receive_eq, Ends, World.attempt_bind, hopened]
    exact transfer_reports hf (fun t s ht hs => ht.adds hs) hopens.grown
      fun l hl => (hopens.file l hl).2
  · rintro e w₂ ⟨-, -, hreported⟩
    refine ends_imp (Files.utters_remove (P := fun _ => False) _ w₂) fun _ w₃ hquiet w₄ hsame => ?_
    refine tells_of_transfer hreported (by rw [hsame.events, hquiet.events_eq]) (fun _ he => ?_)
      (by rintro _ ⟨⟩)
    cases he
    rfl
  · rintro n w₂ ⟨hgrown, hwhole, hreported⟩ w₃ hsame
    obtain ⟨l, hl, hfile⟩ := hwhole n rfl
    have hpart := (hopens.file l hl).1
    rw [hl, ← hsame.tree] at hgrown
    rw [← hsame.tree] at hfile
    rw [partPath_eq] at hpart
    have hrename := ends_and (rename_stored hgrown hpart hfile)
      (Disk.utters_rename (P := fun _ => False) (h := h) (f.outputPath filename ++ ".part")
        (f.outputPath filename) w₃)
    rw [← partPath_eq, ← hl] at hrename
    refine ends_imp hrename fun r w₄ hr => ?_
    obtain ⟨hstored, hquiet⟩ := hr
    have hevents : w₄.events = w₂.events := by rw [hquiet.events_eq, hsame.events]
    refine ⟨fun hr => tells_of_transfer hreported hevents (by rintro _ ⟨⟩) fun path hpath => ?_,
      fun e hr => tells_of_transfer hreported hevents (by rintro _ ⟨⟩) (by rintro _ ⟨⟩)⟩
    cases hpath
    exact ⟨⟨n, rfl⟩, rfl, hstored () hr⟩

/-- Progress is reported consistently, whatever the document is, in whichever chunks it arrives and
wherever it breaks off. A fetch that does not come as far as the making of a file reports nothing.
From then on there is one report before the first chunk and one after each that is taken; the
total is always the same, and each report says how much of the document was handed over
(`Reported`). Nothing is reported after an error. The last report of a fetch that succeeds is the
length of the file that it has stored, and if that was a local file the total is the same. -/
theorem fetch_reports (hf : f.KeepsDiary entry) (hroot : w.tree.IsRooted) (url filename : String) :
    Ends w (f.fetch h url filename) fun r w' =>
      (∀ e w₁, w.attempt (f.start h url filename) = (.error e, w₁) →
        r = .error e ∧ w'.events = w.events) ∧
      ∀ incoming total sink w₁,
        w.attempt (f.start h url filename) = (.ok (incoming, total, sink), w₁) →
          f.Tells h entry filename total sink w₁.tree (incoming.content w₁.tree) w r w' ∧
          ∀ bytes, NamesFile h w.tree url sink.place bytes →
            total = bytes.length ∧ incoming.content w₁.tree = ⟨bytes, none⟩ := by
  cases hu : Url.ofText url with
  | error e =>
    have hstart : w.attempt (f.start h url filename) = (.error (.invalidUrl url e), w) := by
      unfold start
      rw [hu]
      rfl
    rw [hstart]
    unfold fetch
    rw [hu]
    refine ends_throw ⟨fun e' w₁ he => ?_, by rintro _ _ _ _ ⟨⟩⟩
    cases he
    exact ⟨rfl, rfl⟩
  | ok u =>
    rw [attempt_start hu]
    have hopening : Ends (f.starting url filename w) (f.opening h u (f.partPath filename)) _ :=
      opening_opens hroot
    rcases hopened : (f.starting url filename w).attempt (f.opening h u (f.partPath filename))
      with ⟨e | ⟨incoming, total, sink⟩, w₁⟩ <;> rw [ends_iff hopened] at hopening <;>
      obtain ⟨hevents, hopens⟩ := hopening
    · refine ends_imp (fetch_unopened hu hopened) fun r w' hr =>
        ⟨fun e' w₂ he => ?_, by rintro _ _ _ _ ⟨⟩⟩
      cases he
      exact ⟨hr.1, hr.2.trans hevents⟩
    · have hopens := hopens incoming total sink rfl
      refine ends_imp (fetch_tells hf hu hopened hopens) fun r w' htells =>
        ⟨by rintro _ _ ⟨⟩, fun incoming' total' sink' w₂ he => ?_⟩
      cases he
      rw [Tells, show w₁.events = w.events from hevents] at htells
      refine ⟨htells, fun bytes hnames => ?_⟩
      obtain ⟨u', path, hu', hscheme, hpath, hread, hother⟩ := hnames
      cases hu.symm.trans hu'
      exact hopens.announced path bytes hscheme hpath hread hother

/-! ## A local document -/

theorem start_local {path : String} {l lp : Location} (hu : Url.ofText url = .ok u)
    (hscheme : u.scheme = "file") (hpath : u.filePath? = some path)
    (hl : locate h w.tree true path = .ok l) (hfile : w.tree.find? l = some (.file bytes))
    (hpart : locate h w.tree true (f.partPath filename) = .ok lp)
    (hslash : Path.endsInSlash (f.partPath filename) = false) (hnone : w.tree.find? lp = none)
    (hunlocked : h.locked lp.dropLast = none) :
    Ends w (f.start h url filename) fun r w' =>
      r = .ok (.file (.place l), bytes.length, ⟨some lp, h.room lp⟩) ∧
        w'.tree = w.tree.apply (.put lp (.file [])) := by
  unfold start
  rw [hu]
  apply ends_note_bind
  intro w₁ hsame
  rw [← hsame.tree] at hl hfile hpart hnone ⊢
  unfold opening openUrl
  rw [if_pos hscheme, hpath]
  dsimp only
  apply ends_bind (R := fun r w' => r = .ok (.file (.place l), bytes.length) ∧ w' = w₁)
  · apply ends_adapt_bind (Disk.openRead_file hl hfile)
    · rintro source w₂ ⟨⟨⟩, rfl⟩
      exact ends_get_bind (ends_pure ⟨by simp [Disk.sizeOf, Disk.contentOf, hfile], rfl⟩)
    · rintro e w₂ ⟨⟨⟩, -⟩
  · rintro opened w₂ ⟨⟨⟩, rfl⟩
    apply ends_adapt_bind (Disk.create_new hpart hslash hnone hunlocked)
    · rintro sink w₃ ⟨⟨⟩, htree⟩
      exact ends_pure ⟨rfl, htree⟩
    · rintro e w₃ ⟨⟨⟩, -⟩
  · rintro e w₂ ⟨⟨⟩, -⟩

end Fetcher

/-- What the fetcher of a run tells of a report. -/
def Sync.telling (interactive : Bool) (p : Progress) (_ : Tree) : List Event :=
  if interactive then [.progress (repositoryOf p.filename) p.filename p.current p.total] else []

theorem Sync.fetcher_keepsDiary (client : Http.Client) (g : Download.Goal) (interactive : Bool) :
    (fetcher client g interactive).KeepsDiary (telling interactive) := by
  intro p w
  cases interactive with
  | true => exact ⟨rfl, rfl⟩
  | false => exact ⟨rfl, (List.append_nil _).symm⟩

namespace Fetcher

/-- A mirror on the disk that has one list. -/
def localMirror : World where
  tree := ⟨[(["cache"], .directory), (["mirror"], .directory),
    (["mirror", "core.files"], .file [1, 2, 3])]⟩

theorem fetch_reports_local : ∃ r w',
    localMirror.attempt ((Sync.fetcher {} ⟨"/cache", "x86_64"⟩ true).fetch {}
      "file:///mirror/core.files" "core.files") = (r, w') ∧
    w'.events = [.progress "core" "core.files" 0 3, .progress "core" "core.files" 3 3] := by
  have hroot : localMirror.tree.IsRooted := Tree.isRooted_of_entries (by decide)
  have hu : Url.ofText "file:///mirror/core.files" =
      .ok { scheme := "file", path := "/mirror/core.files" } := by decide +kernel
  have hmirror : locate {} localMirror.tree true "/mirror/core.files" =
      .ok ["mirror", "core.files"] :=
    Disk.locate_of_names (by decide) (by decide) (by decide) (by decide) (by decide)
      (by rintro _ ⟨⟩)
  have hcore : localMirror.tree.find? ["mirror", "core.files"] = some (.file [1, 2, 3]) := by
    decide
  have hpart : locate {} localMirror.tree true "/cache/core.files.part" =
      .ok ["cache", "core.files.part"] :=
    Disk.locate_of_names (by decide) (by decide) (by decide) (by decide) (by decide)
      (by rintro _ ⟨⟩)
  have hstart : Ends localMirror ((Sync.fetcher {} ⟨"/cache", "x86_64"⟩ true).start {}
      "file:///mirror/core.files" "core.files") _ :=
    start_local hu rfl (by decide) hmirror hcore hpart (by decide) (by decide) rfl
  obtain ⟨hopened, htree⟩ := hstart
  obtain ⟨-, hreports⟩ := fetch_reports (Sync.fetcher_keepsDiary {} ⟨"/cache", "x86_64"⟩ true) hroot
    (h := {}) "file:///mirror/core.files" "core.files"
  obtain ⟨⟨handed, moments, htold, hreported, -⟩, -⟩ := hreports _ _ _ _ (Prod.ext hopened rfl)
  have hcontent : Incoming.content (localMirror.tree.apply (.put ["cache", "core.files.part"]
      (.file []))) (.file (.place ["mirror", "core.files"])) = ⟨[1, 2, 3], none⟩ := by decide
  have hpieces : ({} : Host).arrival.pieces [1, 2, 3] = [[1, 2, 3]] := by decide +kernel
  rw [htree, hcontent] at hreported
  -- The one chunk is taken, so there is a report after the first.
  have hall : handed = [[1, 2, 3]] := by
    by_contra hne
    obtain ⟨wr, chunk, e, htaken, hnext, hrefused, -⟩ := hreported.stopped (by rwa [hpieces])
    rw [hpieces] at hnext
    obtain rfl : handed = [] := by
      have hlength := hnext.length_le
      simp only [List.length_append, List.length_cons, List.length_nil] at hlength
      exact List.length_eq_zero_iff.1 (by omega)
    obtain rfl : chunk = [1, 2, 3] := by simpa using hnext
    cases htaken
    cases hrefused
  have hdiary : diary (Sync.telling true) moments = (moments.map Moment.report).flatMap fun p =>
      [.progress (Sync.repositoryOf p.filename) p.filename p.current p.total] := by
    rw [List.flatMap_map]
    rfl
  rw [hdiary, hreported.reports, hall] at htold
  refine ⟨_, _, rfl, htold.trans ?_⟩
  decide

end Fetcher

end FileListCache
