/-
  FileListCache.Proofs.Parallels

  One repository, synced side by side in two caches. As long as the servers reply alike to both
  (`Fetcher.RepliesAlike`), the two syncs come to the same, tell the same and ask for the same,
  whatever was left at the places of the repository: a list is removed before servers are asked, a
  file is emptied before it is written to, and nothing else of a file is read than what was
  written a moment ago. So each part of the sync starts and ends with a pair of `Sync.Twins`.
-/

import FileListCache.Sync
import FileListCache.Proofs.Servers
import FileListCache.Proofs.Twins

namespace FileListCache

open World (Same)

variable {h : Host} {P : Tree → Tree → Prop} {R : Tree → Prop}

/-! ## Servers that reply alike -/

namespace Fetcher

variable {f : Fetcher} {u : Url} {url : String} {requests : List Http.Request}
  {reply : Except DownloadError (Incoming × Nat)}

/-- The reply to a request, in whichever of the trees it is made: what is asked for on the way,
and what is opened in the end or why nothing can be. Asking leaves no trace in the tree, and what
was opened is the same in all of the trees. -/
structure Replies (h : Host) (f : Fetcher) (R : Tree → Prop) (u : Url)
    (requests : List Http.Request) (reply : Except DownloadError (Incoming × Nat)) : Prop where
  opens : ∀ w : World, R w.tree → Ends w (f.openUrl h u) fun r w' =>
    r = reply ∧ Same w w' ∧ w'.requests = w.requests ++ requests
  content : ∀ incoming total, reply = .ok (incoming, total) →
    ∃ body, ∀ t, R t → incoming.content t = body

/-- What is got for an address depends on the address alone. -/
def RepliesAlike (h : Host) (f : Fetcher) (R : Tree → Prop) (url : String) : Prop :=
  ∀ u, Url.ofText url = .ok u → ∃ requests reply, f.Replies h R u requests reply

theorem RepliesAlike.mono {R' : Tree → Prop} (hr : f.RepliesAlike h R url)
    (hR : ∀ t, R' t → R t) : f.RepliesAlike h R' url := by
  intro u hu
  obtain ⟨requests, reply, hopens, hcontent⟩ := hr u hu
  refine ⟨requests, reply, fun w hw => hopens w (hR _ hw), fun incoming total he => ?_⟩
  obtain ⟨body, hbody⟩ := hcontent incoming total he
  exact ⟨body, fun t ht => hbody t (hR t ht)⟩

/-- Reports of progress look at nothing and change nothing. -/
def ReportsAlike (f : Fetcher) : Prop :=
  ∀ (P : Tree → Tree → Prop) (p : Progress), Coupled P (f.onProgress p) (f.onProgress p) fun _ => P

theorem openUrl_coupled (hr : f.Replies h R u requests reply) (hP : ∀ t t', P t t' → R t ∧ R t') :
    InStep P (f.openUrl h u) fun r t t' => P t t' ∧ r = reply := by
  refine coupled_of_ends fun w w' hw => ends_imp (hr.opens w (hP _ _ hw).1) fun r v hv => ?_
  refine ends_imp (hr.opens w' (hP _ _ hw).2) fun r' v' hv' => ?_
  obtain ⟨rfl, hsame, hrequests⟩ := hv
  obtain ⟨rfl, hsame', hrequests'⟩ := hv'
  refine ⟨rfl, ⟨⟨[], ?_, ?_⟩, requests, hrequests, hrequests'⟩, ?_, rfl⟩
  · rw [hsame.events, List.append_nil]
  · rw [hsame'.events, List.append_nil]
  · rw [hsame.tree, hsame'.tree]
    exact hw

end Fetcher

/-! ## Servers on the web -/

/-- It does not matter to the servers what they were asked before. -/
def Http.Servers.IsSteady (s : Http.Servers) : Prop :=
  ∀ before before' r, s.reply before r = s.reply before' r

theorem Http.Servers.isSteady_steady (f : Http.Request → Option Http.Reply) :
    (Http.Servers.steady f).IsSteady := fun _ _ _ => rfl

theorem coupled_ask (hh : h.answer.IsSteady) (r : Http.Request) :
    Coupled P (World.ask h r) (World.ask h r) fun _ => P :=
  fun _ _ hw => ⟨hh _ _ r,
    ⟨⟨[], (List.append_nil _).symm, (List.append_nil _).symm⟩, [r], rfl, rfl⟩, hw⟩

/-- A request leads to the same requests at any time, however often it is sent on. -/
theorem Http.Client.send_coupled (hh : h.answer.IsSteady) (c : Http.Client) (left : Nat)
    (u : Url) : InStep P (c.send h left u) fun _ => P := by
  have hthrow (e : Http.NetworkError) : InStep P (throw e : Attempt _ Http.Reply) fun _ => P :=
    coupled_throw fun _ _ ht => ht
  induction left generalizing c u with
  | zero =>
    unfold send
    refine coupled_except_bind rfl (fun _ _ => ?_) fun _ _ _ _ ht => ht
    refine coupled_tell_bind (coupled_ask hh _) fun reply => ?_
    cases reply with
    | none => exact hthrow _
    | some reply =>
      dsimp only
      split
      · split
        · exact hthrow _
        · exact hthrow _
      · exact coupled_return fun _ _ ht => ht
  | succ left ih =>
    unfold send
    refine coupled_except_bind rfl (fun _ _ => ?_) fun _ _ _ _ ht => ht
    refine coupled_tell_bind (coupled_ask hh _) fun reply => ?_
    cases reply with
    | none => exact hthrow _
    | some reply =>
      dsimp only
      split
      · split
        · exact hthrow _
        · split
          · exact hthrow _
          · exact ih _ _
      · exact coupled_return fun _ _ ht => ht

namespace Fetcher

variable {f : Fetcher} {u : Url} {url : String}

theorem openUrl_web_coupled (hh : h.answer.IsSteady) (hu : u.scheme ≠ "file") :
    InStep P (f.openUrl h u) fun _ => P := by
  unfold openUrl
  rw [if_neg hu]
  refine coupled_adapt_bind (f.client.send_coupled hh _ u) (fun reply => ?_) fun _ _ _ ht => ht
  refine coupled_except_bind rfl (fun body _ => ?_) fun _ _ _ _ ht => ht
  split
  · exact coupled_throw fun _ _ ht => ht
  · exact coupled_return fun _ _ ht => ht

/-- Outside of local files the reply depends on the address alone, if the servers do not mind what
they were asked before. -/
theorem repliesAlike_of_web (hh : h.answer.IsSteady)
    (hurl : ∀ u, Url.ofText url = .ok u → u.scheme ≠ "file") : f.RepliesAlike h R url := by
  intro u hu
  have hscheme := hurl u hu
  obtain ⟨reply, hreply⟩ := f.isBlind_openUrl (h := h) hscheme
  -- The reply and the requests are those of a world of which nothing is known.
  refine ⟨(({} : World).attempt (f.openUrl h u)).2.requests,
    (({} : World).attempt (f.openUrl h u)).1, fun w _ => ?_, fun incoming total he => ?_⟩
  · obtain ⟨hsame, ⟨-, rs, hrs, hrs'⟩, -⟩ :=
      openUrl_web_coupled (P := fun _ _ => True) (f := f) hh hscheme {} w trivial
    have hfirst : (({} : World).attempt (f.openUrl h u)).2.requests = rs := hrs
    rw [hfirst]
    exact ⟨hsame, (hreply w).2, hrs'⟩
  · obtain ⟨body, hincoming⟩ := openUrl_body (f := f) (h := h) hscheme {} (incoming, total) he
    obtain rfl : incoming = .body body := hincoming
    exact ⟨body, fun _ _ => rfl⟩

end Fetcher

namespace Sync

variable {t₀ t₀' t t' : Tree} {g : Download.Goal} {c l : Location} {repo : Repository}
  {a : Role} {K : Set Role} {f : Fetcher} {u : Url} {url : String}

/-! ## Transfers -/

/-- The reports of a run are alike. -/
theorem fetcher_reportsAlike (client : Http.Client) (g : Download.Goal) (interactive : Bool) :
    (fetcher client g interactive).ReportsAlike := by
  intro P p
  cases interactive with
  | false => exact coupled_pure fun _ _ ht => ht
  | true => exact coupled_emit

section Transfers

variable (hslash : '/' ∉ repo.name.toList) (hf : f.ReportsAlike)

include hf in
theorem takeChunk_coupled {part filename : String} {total : Nat} {state : Disk.Writer × Nat}
    {chunk : Bytes} (hstate : state.1.sink.place = some (a.place c repo.name)) :
    InStep (Twins h g c repo t₀ t₀' K) (f.takeChunk part filename total state chunk)
      fun
        | .ok state' => fun t t' => state'.1.sink.place = some (a.place c repo.name) ∧
            Twins h g c repo t₀ t₀' K t t'
        | .error _ => Twins h g c repo t₀ t₀' K := by
  unfold Fetcher.takeChunk
  refine coupled_adapt_bind (push_coupled hstate chunk) (fun wr => ?_) fun _ _ _ ht => ht
  refine coupled_and fun hwr => coupled_tell_bind (hf _ _) fun _ => ?_
  exact coupled_return fun _ _ ht => ⟨hwr, ht⟩

/-- The end of a transfer, after which nothing more is written. -/
theorem closing_coupled {wr : Disk.Writer} {part : String} {size : Nat} {failure : Option IoError}
    (hwr : wr.sink.place = some (a.place c repo.name)) :
    InStep (Twins h g c repo t₀ t₀' K)
      (match failure with
        | some e => do
          discard wr.flush.run
          throw (.io e)
        | none => do
          wr.close.adapt (DownloadError.write part)
          return size : Attempt DownloadError Nat)
      fun _ => Twins h g c repo t₀ t₀' K := by
  have hflush : InStep (Twins h g c repo t₀ t₀' K) wr.flush fun _ => Twins h g c repo t₀ t₀' K := by
    refine coupled_imp (flush_coupled hwr) (fun _ _ ht => ht) fun r t t' ht => ?_
    cases r with
    | ok wr' => exact ht.2
    | error e => exact ht
  cases failure with
  | some e =>
    refine coupled_discard_bind (coupled_outcome_bind hflush fun _ => ?_)
    exact coupled_throw fun _ _ ht => ht
  | none =>
    have hclose : InStep (Twins h g c repo t₀ t₀' K) wr.close
        fun _ => Twins h g c repo t₀ t₀' K := by
      unfold Disk.Writer.close
      refine coupled_run_bind hflush (fun wr' => ?_) fun _ _ _ ht => ht
      unfold Disk.sync
      split
      · exact coupled_return fun _ _ ht => ht
      · exact coupled_throw fun _ _ ht => ht
    refine coupled_adapt_bind hclose (fun _ => ?_) fun _ _ _ ht => ht
    exact coupled_return fun _ _ ht => ht

variable (hR : ∀ t, AgreesOff c [repo] t₀ t → R t) (hR' : ∀ t, AgreesOff c [repo] t₀' t → R t)
include hslash hf hR hR'

/-- A document that is received in both is known then. -/
theorem receive_coupled {requests : List Http.Request}
    {reply : Except DownloadError (Incoming × Nat)} (hr : f.Replies h R u requests reply)
    (filename : String) :
    InStep (Twins h g c repo t₀ t₀' K)
      (f.receive h u filename (Role.part.path g.cache repo.name))
      (Gained h g c repo t₀ t₀' K .part) := by
  have hsides {K : Set Role} (t t' : Tree) (ht : Twins h g c repo t₀ t₀' K t t') : R t ∧ R t' :=
    ⟨hR t ht.left.frame, hR' t' ht.right.frame⟩
  unfold Fetcher.receive
  refine coupled_run_bind (Fetcher.openUrl_coupled hr hsides) (fun opened => ?_)
    fun _ _ _ ht => ht.1
  obtain ⟨incoming, total⟩ := opened
  -- What was opened gives the same bytes whichever tree it is read in.
  refine coupled_imp (P := fun t t' => (∃ body, ∀ t, R t → incoming.content t = body) ∧
    Twins h g c repo t₀ t₀' K t t') (coupled_and fun hbody => ?_)
    (fun _ _ ht => ⟨hr.content incoming total ht.2.symm, ht.1⟩) fun _ _ _ ht => ht
  obtain ⟨body, hbody⟩ := hbody
  refine coupled_adapt_bind (create_coupled hslash .part) (fun sink => ?_) fun _ _ _ ht => ht
  refine coupled_and fun hsink => coupled_tell_bind (hf _ _) fun _ => ?_
  apply coupled_get_bind
  intro w w' hw
  obtain ⟨hleft, hright⟩ := hsides _ _ hw
  rw [hbody _ hleft, hbody _ hright]
  have hchunks := coupled_foldlM (Q := fun
      | .ok state => fun t t' => state.1.sink.place = some (Role.part.place c repo.name) ∧
          Twins h g c repo t₀ t₀' (insert .part K) t t'
      | .error _ => Twins h g c repo t₀ t₀' (insert .part K))
    (fun state chunk => coupled_and fun hstate => takeChunk_coupled hf hstate)
    (f := f.takeChunk (Role.part.path g.cache repo.name) filename total)
    (h.arrival.pieces body.bytes) ({ sink }, 0)
  refine coupled_run_bind (coupled_imp hchunks (fun _ _ ht => ⟨hsink, ht.1⟩) fun _ _ _ ht => ht)
    (fun state => ?_) fun _ _ _ ht => ht.mono (Set.subset_insert _ _)
  obtain ⟨wr, size⟩ := state
  refine coupled_and fun hwr => coupled_imp (closing_coupled hwr) (fun _ _ ht => ht) ?_
  intro r t t' ht
  cases r with
  | ok n => exact ht
  | error e => exact ht.mono (Set.subset_insert _ _)

/-- A document that is fetched in both is in the list of both. -/
theorem fetch_coupled (hcache : f.cache = g.cache) (hr : f.RepliesAlike h R url) :
    InStep (Twins h g c repo t₀ t₀' K) (f.fetch h url repo.fileName)
      fun r t t' => Gained h g c repo t₀ t₀' K .list r t t' ∧ ∀ path, r = .ok path →
        path = g.path repo := by
  unfold Fetcher.fetch
  cases hu : Url.ofText url with
  | error e => exact coupled_throw fun _ _ ht => ⟨ht, by rintro _ ⟨⟩⟩
  | ok u =>
    obtain ⟨requests, reply, hr⟩ := hr u hu
    dsimp only
    rw [Role.path_output, Role.path_part, hcache]
    refine coupled_note_bind (coupled_run_bind (M := Gained h g c repo t₀ t₀' K .part) ?_
      (fun size => ?_) fun _ _ _ ht => ⟨ht, by rintro _ ⟨⟩⟩)
    · refine coupled_catch (receive_coupled hslash hf hR hR' hr repo.fileName)
        (fun _ _ _ ht => ht) fun e => coupled_noted (remove_coupled hslash .part) ?_
      exact coupled_throw fun _ _ ht => ht.mono fun _ => .inl
    · refine coupled_note_bind (coupled_adapt_bind
        (rename_coupled hslash (by decide) (Set.mem_insert _ _)) (fun _ => ?_)
        fun _ _ _ ht => ⟨ht.mono (Set.subset_insert _ _), by rintro _ ⟨⟩⟩)
      refine coupled_return fun _ _ ht => ⟨ht.mono ?_, ?_⟩
      · exact Set.insert_subset_insert (Set.subset_insert _ _)
      · rintro _ ⟨⟩
        rfl

end Transfers

/-! ## Rewriting -/

section Rewriting

/-- What holds of the two trees after a part of an archive was copied, of the result, and of the
writer that is left when the source has failed. -/
def Copied (h : Host) (g : Download.Goal) (c : Location) (repo : Repository) (t₀ t₀' : Tree)
    (K : Set Role) (a : Role) {α : Type} (p : α → Prop) :
    Except Transcode.Failure α → Tree → Tree → Prop
  | .ok x => fun t t' => p x ∧ Twins h g c repo t₀ t₀' K t t'
  | .error (.source _ wr) => fun t t' => wr.sink.place = some (a.place c repo.name) ∧
      Twins h g c repo t₀ t₀' K t t'
  | .error (.destination _) => Twins h g c repo t₀ t₀' K

/-- A failure says the same whatever was to be the result. -/
theorem Copied.of_error {α β : Type} {p : α → Prop} {q : β → Prop} {e : Transcode.Failure}
    (he : Copied h g c repo t₀ t₀' K a p (.error e) t t') :
    Copied h g c repo t₀ t₀' K a q (.error e) t t' := by
  cases e with
  | source e wr => exact he
  | destination e => exact he

/-- The writer goes on writing to the file. -/
def Stays (c : Location) (repo : Repository) (a : Role) (wr : Disk.Writer) : Prop :=
  wr.sink.place = some (a.place c repo.name)

section Writers

variable {wr : Disk.Writer} (hwr : Stays c repo a wr)
include hwr

theorem put_coupled (bytes : Bytes) : InStep (Twins h g c repo t₀ t₀' K) (Transcode.put wr bytes)
    (Copied h g c repo t₀ t₀' K a (Stays c repo a)) := by
  refine coupled_adapt (coupled_imp (push_coupled hwr bytes) (fun _ _ ht => ht) ?_)
  intro r t t' ht
  cases r with
  | ok wr' => exact ht
  | error e => exact ht

theorem copyMember_coupled (arrival : Bytes.Arrival) (m : Archive.Member) :
    InStep (Twins h g c repo t₀ t₀' K) (Transcode.copyMember arrival wr m)
      (Copied h g c repo t₀ t₀' K a (Stays c repo a)) := by
  rw [Transcode.copyMember_eq]
  refine coupled_note_bind (coupled_run_bind (put_coupled hwr _) (fun wr₁ => ?_) fun _ _ _ ht => ht)
  have hpayload := coupled_foldlM (Q := Copied h g c repo t₀ t₀' K a (Stays c repo a))
    (fun wr bytes => coupled_and fun hwr => put_coupled hwr bytes) (arrival.pieces m.payload) wr₁
  refine coupled_run_bind hpayload (fun wr₂ => coupled_and fun hwr₂ => ?_) fun _ _ _ ht => ht
  have hpadding : InStep (Twins h g c repo t₀ t₀' K)
      (do
        let w ← Transcode.put wr₂ (List.replicate (Archive.Member.paddingOf m.payload.length) 0)
        if m.isWhole then return w
        else throw (.source (.memberCutShort m.payload.length m.size) w) :
        Attempt Transcode.Failure Disk.Writer)
      (Copied h g c repo t₀ t₀' K a (Stays c repo a)) := by
    refine coupled_run_bind (put_coupled hwr₂ _) (fun wr₃ => ?_) fun _ _ _ ht => ht
    split
    · exact coupled_return fun _ _ ht => ht
    · exact coupled_throw fun _ _ ht => ht
  cases m.failure with
  | some e => exact coupled_throw_bind fun _ _ ht => ⟨hwr₂, ht⟩
  | none => exact hpadding

theorem finish_coupled : InStep (Twins h g c repo t₀ t₀' K) (Transcode.finish wr)
    (Copied h g c repo t₀ t₀' K a fun _ => True) := by
  unfold Transcode.finish
  refine coupled_run_bind (put_coupled hwr _) (fun wr' => coupled_and fun hwr' => ?_)
    fun _ _ _ ht => ht.of_error
  rw [← bind_pure (discard _)]
  refine coupled_discard_bind (coupled_adapt_bind (flush_coupled hwr') (fun _ => ?_)
    fun _ _ _ ht => ht)
  exact coupled_return fun _ _ ht => ⟨trivial, ht.2⟩

/-- A stream is copied the same in both. -/
theorem copyStream_coupled (arrival : Bytes.Arrival) (s : Archive.Stream) :
    InStep (Twins h g c repo t₀ t₀' K) (Transcode.copyStream arrival s wr)
      (Copied h g c repo t₀ t₀' K a fun _ => True) := by
  unfold Transcode.copyStream
  rcases Archive.members s with ⟨ms, stop⟩
  have hmembers := coupled_foldlM (Q := Copied h g c repo t₀ t₀' K a (Stays c repo a))
    (fun wr m => coupled_and fun hwr => copyMember_coupled hwr arrival m) ms wr
  refine coupled_run_bind (coupled_imp hmembers (fun _ _ ht => ⟨hwr, ht⟩) fun _ _ _ ht => ht)
    (fun wr₁ => coupled_and fun hwr₁ => ?_) fun _ _ _ ht => ht.of_error
  cases stop with
  | some e => exact coupled_throw_bind fun _ _ ht => ⟨hwr₁, ht⟩
  | none =>
    refine coupled_run_bind (finish_coupled hwr₁) (fun _ => ?_) fun _ _ _ ht => ht.of_error
    exact coupled_return fun _ _ ht => ht

end Writers

variable (hslash : '/' ∉ repo.name.toList)
include hslash

theorem signature_coupled (ha : a ∈ K) (count : Nat) : InStep (Twins h g c repo t₀ t₀' K)
    (Files.signature h (a.path g.cache repo.name) count)
    fun _ => Twins h g c repo t₀ t₀' K := by
  unfold Files.signature
  refine coupled_adapt_bind (openRead_coupled hslash ha) (fun source => ?_) fun _ _ _ ht => ht.1
  split
  · exact coupled_return fun _ _ ht => ht.1
  · apply coupled_get_bind
    intro w w' hw
    obtain rfl := hw.2 source rfl
    refine coupled_except_bind ?_ (fun _ _ => coupled_return fun _ _ ht => ht.1.1)
      fun _ _ _ _ ht => ht.1.1
    rw [hw.1.contentOf_eq ha]

/-- A known archive is opened in both or in neither. -/
theorem openAt_coupled (ha : a ∈ K) : InStep (Twins h g c repo t₀ t₀' K)
    (Archive.openAt h (a.path g.cache repo.name))
    fun r t t' => Twins h g c repo t₀ t₀' K t t' ∧
      ∀ opened, r = .ok opened → opened.source = .place (a.place c repo.name) := by
  unfold Archive.openAt
  refine coupled_adapt_bind (signature_coupled hslash ha _) (fun start => ?_)
    fun _ _ _ ht => ⟨ht, by rintro _ ⟨⟩⟩
  split
  · exact coupled_throw_bind fun _ _ ht => ⟨ht, by rintro _ ⟨⟩⟩
  · refine coupled_note_bind (coupled_adapt_bind (openRead_coupled hslash ha) (fun source => ?_)
      fun _ _ _ ht => ⟨ht.1, by rintro _ ⟨⟩⟩)
    refine coupled_return fun _ _ ht => ⟨ht.1, ?_⟩
    rintro _ ⟨⟩
    exact ht.2 source rfl

/-- The list is copied the same in both, if it is the same. -/
theorem copyArchive_coupled (ha : Role.list ∈ K) : InStep (Twins h g c repo t₀ t₀' K)
    (Transcode.copyArchive h (Role.list.path g.cache repo.name)
      (Role.copy.path g.cache repo.name))
    (Gained h g c repo t₀ t₀' K .copy) := by
  unfold Transcode.copyArchive
  refine coupled_run_bind (openAt_coupled hslash ha) (fun opened => ?_) fun _ _ _ ht => ht.1
  refine coupled_imp (P := fun t t' => opened.source = .place (Role.list.place c repo.name) ∧
    Twins h g c repo t₀ t₀' K t t') (coupled_and fun hsource => ?_)
    (fun _ _ ht => ⟨ht.2 opened rfl, ht.1⟩) fun _ _ _ ht => ht
  refine coupled_adapt_bind (create_coupled hslash .copy) (fun sink => ?_) fun _ _ _ ht => ht
  refine coupled_and fun hsink => ?_
  apply coupled_get_bind
  intro w w' hw
  have hstream : opened.stream w'.tree = opened.stream w.tree := by
    unfold Archive.Opened.stream
    rw [hsource, hw.contentOf_eq (Set.mem_insert_of_mem _ ha)]
  rw [hstream]
  have hwriter : Stays c repo .copy { sink } := hsink
  refine coupled_outcome_bind (coupled_imp (copyStream_coupled hwriter _ _) (fun _ _ ht => ht.1)
    fun _ _ _ ht => ht) fun r => ?_
  have hgiven {t t' : Tree} (ht : Twins h g c repo t₀ t₀' (insert .copy K) t t') :
      Twins h g c repo t₀ t₀' K t t' := ht.mono (Set.subset_insert _ _)
  rcases r with (⟨e, wr⟩ | e) | report
  · -- What could be read is still ended like an archive, which may fail without notice.
    refine coupled_and fun hwr => coupled_discard_bind
      (coupled_outcome_bind (finish_coupled hwr) fun r => coupled_throw fun _ _ ht => hgiven ?_)
    rcases r with (⟨_, _⟩ | _) | _
    · exact ht.2
    · exact ht
    · exact ht.2
  · exact coupled_throw fun _ _ ht => hgiven ht
  · exact coupled_return fun _ _ ht => ht.2

/-- A list that is the same in both is rewritten the same. -/
theorem inPlace_coupled (ha : Role.list ∈ K) : InStep (Twins h g c repo t₀ t₀' K)
    (Transcode.inPlace h (g.path repo))
    fun _ => Twins h g c repo t₀ t₀' K := by
  unfold Transcode.inPlace
  dsimp only
  rw [Role.path_copy]
  refine coupled_run_bind (M := Gained h g c repo t₀ t₀' K .copy) ?_ (fun report => ?_)
    fun _ _ _ ht => ht
  · refine coupled_catch (copyArchive_coupled hslash ha) (fun _ _ _ ht => ht) fun e => ?_
    refine coupled_noted (remove_coupled hslash .copy) ?_
    exact coupled_throw fun _ _ ht => ht.mono fun _ => .inl
  · refine coupled_adapt_bind (rename_coupled (b := .list) hslash (by decide) (Set.mem_insert _ _))
      (fun _ => ?_) fun _ _ _ ht => ht.mono (Set.subset_insert _ _)
    refine coupled_note_bind (coupled_return fun _ _ ht => ht.mono ?_)
    exact (Set.subset_insert _ _).trans (Set.subset_insert _ _)

theorem entriesOf_coupled (ha : Role.list ∈ K) : InStep (Twins h g c repo t₀ t₀' K)
    (entriesOf h (g.path repo))
    fun _ => Twins h g c repo t₀ t₀' K := by
  unfold entriesOf
  refine coupled_outcome_bind (inPlace_coupled hslash ha) fun r => ?_
  cases r with
  | ok report => exact coupled_return fun _ _ ht => ht
  | error e =>
    cases e with
    | rename source target entries reason =>
      exact coupled_note_bind (coupled_return fun _ _ ht => ht)
    | unopened | empty | read | write | badFile => exact coupled_throw fun _ _ ht => ht

end Rewriting

/-! ## Rounds -/

/-- The files that are known once servers were asked: the list was removed before that, if there
was a server to ask. -/
def AskedOf (g : Download.Goal) (repo : Repository) (servers : List String) (K : Set Role) :
    Set Role :=
  if servers = [] then K else Known g repo .list K

theorem askedOf_cons (server : String) (servers : List String) :
    AskedOf g repo (server :: servers) K = Known g repo .list K :=
  if_neg (List.cons_ne_nil server servers)

theorem subset_askedOf (servers : List String) : K ⊆ AskedOf g repo servers K := by
  unfold AskedOf
  split
  · exact Set.Subset.rfl
  · exact fun _ => .inl

theorem askedOf_subset (servers : List String) : AskedOf g repo servers K ⊆ insert .list K := by
  unfold AskedOf
  split
  · exact Set.subset_insert _ _
  · intro b hb
    exact hb.elim (Set.mem_insert_of_mem _) fun he => .inl he.1

section Rounds

variable (hslash : '/' ∉ repo.name.toList) (hf : f.ReportsAlike) (hcache : f.cache = g.cache)
  (hR : ∀ t, AgreesOff c [repo] t₀ t → R t) (hR' : ∀ t, AgreesOff c [repo] t₀' t → R t)
include hslash hf hcache hR hR'

/-- Whichever server delivers, it delivers to both. -/
theorem fromServers_together (servers : List String)
    (hreplies : ∀ server ∈ servers, f.RepliesAlike h R (g.url repo server)) :
    Together (Twins h g c repo t₀ t₀' K)
      (Download.fromServers h (f.toFetch h) g repo servers).run
      fun r t t' => Twins h g c repo t₀ t₀' (AskedOf g repo servers K) t t' ∧
        ∀ path, r = .ok path → path = g.path repo ∧
          Twins h g c repo t₀ t₀' (insert .list K) t t' := by
  induction servers generalizing K with
  | nil => exact together_pure fun _ _ ht => ⟨ht, by rintro _ ⟨⟩⟩
  | cons server servers ih =>
    have hknown : K ⊆ Known g repo .list K := fun _ => .inl
    unfold Download.fromServers
    dsimp only
    refine together_noted (remove_coupled hslash .list) ?_
    refine together_run_tell_bind coupled_note fun _ => ?_
    have hreply := hreplies server List.mem_cons_self
    refine together_run_lift_bind (together_attempt
      (fetch_coupled hslash hf hR hR' hcache hreply)) fun r => ?_
    rw [askedOf_cons]
    cases r with
    | ok path =>
      refine together_run_tell_bind coupled_emit fun _ => together_pure fun t t' ht => ?_
      obtain ⟨ht, hpath⟩ := ht
      refine ⟨ht.mono (Set.subset_insert _ _), fun _ he => ?_⟩
      cases he
      exact ⟨hpath path rfl, ht.mono (Set.insert_subset_insert hknown)⟩
    | error e =>
      refine together_run_tell_bind coupled_note fun _ => together_run_tell_bind coupled_note
        fun _ => together_run_tell_bind coupled_emit fun _ => ?_
      have hrest := ih (K := Known g repo .list K)
        fun server hserver => hreplies server (List.mem_cons_of_mem _ hserver)
      refine coupled_imp hrest (fun _ _ ht => ht.1) fun r t t' ht => ?_
      refine ⟨ht.1.mono (subset_askedOf servers), fun path he => ?_⟩
      exact ⟨(ht.2 path he).1, (ht.2 path he).2.mono (Set.insert_subset_insert hknown)⟩

/-- A round goes the same in both, and of its list is known what it came to. -/
theorem repository_together
    (hreplies : ∀ server ∈ repo.servers, f.RepliesAlike h R (g.url repo server)) :
    Together (Twins h g c repo t₀ t₀' K) (repository h (f.toFetch h) g repo).run
      fun _ => Twins h g c repo t₀ t₀' (AskedOf g repo repo.servers K) := by
  unfold repository
  have hdownload : Together (Twins h g c repo t₀ t₀' K)
      (Download.run h (f.toFetch h) g repo).run
      fun r t t' => Twins h g c repo t₀ t₀' (AskedOf g repo repo.servers K) t t' ∧
        ∀ path, r = .ok path → path = g.path repo ∧
          Twins h g c repo t₀ t₀' (insert .list K) t t' := by
    unfold Download.run
    refine together_run_tell_bind coupled_emit fun _ => ?_
    by_cases hservers : repo.servers = []
    · rw [if_pos (by simp [hservers]), AskedOf, if_pos hservers]
      exact together_pure fun _ _ ht => ⟨ht, by rintro _ ⟨⟩⟩
    · rw [if_neg (by simpa using hservers)]
      exact fromServers_together hslash hf hcache hR hR' repo.servers hreplies
  refine together_run_bind hdownload (fun path => ?_) fun _ _ _ ht => ht.1
  refine together_run_tell_bind coupled_emit fun _ => ?_
  have hrewriting (hpath : path = g.path repo) : Together (Twins h g c repo t₀ t₀' (insert .list K))
      (StateT.lift (entriesOf h path).run) fun _ => Twins h g c repo t₀ t₀' (insert .list K) := by
    rw [hpath]
    exact together_attempt (entriesOf_coupled hslash (Set.mem_insert _ _))
  refine coupled_imp (coupled_and hrewriting) (fun _ _ ht => ht.2 path rfl) fun _ _ _ ht => ?_
  exact ht.mono (askedOf_subset _)

end Rounds

end Sync

end FileListCache
