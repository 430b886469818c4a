/-
  FileListCache.Proofs.Rendering

  What a user is shown of a run. The events of a run come in blocks, one for each repository
  (`Sync.Block`), and each block is shown by itself: it finds the board empty and leaves it empty,
  it announces its download at most, and its last event gives the one line that concludes it.

    * `Board.step_clear` — an event touches no bar but that of its repository.
    * `Board.Along` — wherever the rewriting of an archive is to be shown, no bar is in its place.
    * `Sync.shown_of_blocks` — a run of blocks is of that kind, and its board ends empty.
    * `Sync.runWith_rendered` — the lines and the bars of a run, and its report.
-/

import FileListCache.Terminal.Board
import FileListCache.Proofs.Stories

namespace FileListCache

/-- The event takes away the bar of its repository. -/
def Event.endsBar : Event → Bool
  | .mirrorFailed .. | .downloaded .. | .synced .. | .failed .. => true
  | _ => false

namespace Terminal

variable {colors shown : Bool} {b : Board} {name : String} {e : Event} {es es' : List Event}

/-! ## Boards -/

/-- The bar is the same as before, but that it may have moved on. -/
def Bar.Continues (bar' bar : Bar) : Prop :=
  bar' = bar ∨ ∃ current total, bar' = bar.advance current total

namespace Board

theorem find?_clear (b : Board) (repo name : String) :
    (b.clear repo).find? name = if name = repo then none else b.find? name := by
  obtain ⟨bars⟩ := b
  simp only [clear, find?]
  induction bars with
  | nil => simp
  | cons x bars ih =>
    obtain ⟨title, bar⟩ := x
    -- The first bar may be the one that is taken away, and it may be the one that is looked for.
    by_cases htitle : title = repo
    · rw [List.filter_cons_of_neg (by simp [htitle]), ih, List.lookup_cons, htitle]
      by_cases hname : name = repo
      · simp [hname]
      · simp [hname, beq_false_of_ne hname]
    · rw [List.filter_cons_of_pos (by simp [htitle]), List.lookup_cons, List.lookup_cons, ih]
      by_cases hname : name = title
      · simp [hname, htitle]
      · simp [beq_false_of_ne hname]

theorem find?_put (b : Board) (repo name : String) (bar : Bar) :
    (b.put repo bar).find? name = if name = repo then some bar else b.find? name := by
  have hclear := find?_clear b repo name
  simp only [put, find?] at hclear ⊢
  rw [List.lookup_append, hclear, List.lookup_cons]
  by_cases hname : name = repo
  · simp [hname]
  · simp [hname, beq_false_of_ne hname]

theorem clear_clear (b : Board) (repo : String) : (b.clear repo).clear repo = b.clear repo := by
  simp [clear]

theorem clear_put (b : Board) (repo : String) (bar : Bar) :
    (b.put repo bar).clear repo = b.clear repo := by
  simp [clear, put]

/-- An event touches no bar but that of its repository. -/
theorem step_clear (shown : Bool) (b : Board) (e : Event) :
    (b.step shown e).clear e.repo = b.clear e.repo := by
  cases e with
  | downloading repo => rfl
  | progress repo file current total => exact clear_put b repo _
  | mirrorFailed | downloaded | synced | failed => exact clear_clear b _
  | transcoding repo =>
    cases shown with
    | false => rfl
    | true => exact clear_put b repo _

theorem step_of_endsBar (he : e.endsBar = true) : b.step shown e = b.clear e.repo := by
  cases e with
  | mirrorFailed | downloaded | synced | failed => rfl
  | downloading | progress | transcoding => cases he

/-- Events of one repository touch no bar but its own. -/
theorem foldl_clear (habout : ∀ e ∈ es, e.repo = name) (b : Board) :
    (es.foldl (step shown) b).clear name = b.clear name := by
  induction es generalizing b with
  | nil => rfl
  | cons e es ih =>
    rw [List.foldl_cons, ih (fun e' he' => habout e' (List.mem_cons_of_mem _ he'))]
    rw [← habout e List.mem_cons_self, step_clear]

/-- Once the last of them takes that bar away, all is as it was without it. -/
theorem foldl_of_getLast? (habout : ∀ e ∈ es, e.repo = name) (hlast : es.getLast? = some e)
    (he : e.endsBar = true) (b : Board) : es.foldl (step shown) b = b.clear name := by
  obtain ⟨front, rfl⟩ := List.getLast?_eq_some_iff.1 hlast
  rw [List.foldl_concat, step_of_endsBar he, habout e (by simp)]
  exact foldl_clear (fun e' he' => habout e' (List.mem_append_left _ he')) b

/-! ## Room for the next bar -/

/-- Nothing stands in the way of the event: the rewriting of an archive is shown by a new bar. -/
def Admits (b : Board) (e : Event) : Prop := ∀ repo, e = .transcoding repo → b.find? repo = none

/-- Nothing stands in the way of any of the events when its turn comes. -/
def Along (shown : Bool) : Board → List Event → Prop
  | _, [] => True
  | b, e :: es => b.Admits e ∧ Along shown (b.step shown e) es

theorem along_append :
    Along shown b (es ++ es') ↔ Along shown b es ∧ Along shown (es.foldl (step shown) b) es' := by
  induction es generalizing b with
  | nil => simp [Along]
  | cons e es ih => simp [Along, ih, and_assoc]

theorem along_of_forall_admits (hes : ∀ e ∈ es, ∀ b : Board, b.Admits e) : Along shown b es := by
  induction es generalizing b with
  | nil => trivial
  | cons e es ih =>
    exact ⟨hes e List.mem_cons_self b, ih fun e' he' => hes e' (List.mem_cons_of_mem _ he')⟩

theorem admits_of_endsBar (he : e.endsBar = true) (b : Board) : b.Admits e := by
  rintro repo rfl
  cases he

/-- Where nothing stands in the way, a bar that is there before and after goes on. -/
theorem Admits.continues {bar bar' : Bar} (ha : b.Admits e) (hbar : b.find? name = some bar)
    (hbar' : (b.step shown e).find? name = some bar') : bar'.Continues bar := by
  have hcleared (repo : String) (h : (b.clear repo).find? name = some bar') :
      bar'.Continues bar := by
    rw [find?_clear] at h
    split at h
    · cases h
    · exact .inl (Option.some.inj (h.symm.trans hbar))
  cases e with
  | downloading repo => exact .inl (Option.some.inj (hbar'.symm.trans hbar))
  | mirrorFailed repo | downloaded repo | synced repo | failed repo => exact hcleared repo hbar'
  | progress repo file current total =>
    rw [step, find?_put] at hbar'
    split at hbar'
    · next hname =>
      subst hname
      rw [hbar] at hbar'
      exact .inr ⟨current, total, (Option.some.inj hbar').symm⟩
    · exact .inl (Option.some.inj (hbar'.symm.trans hbar))
  | transcoding repo =>
    have hfree := ha repo rfl
    cases shown with
    | false => exact .inl (Option.some.inj (hbar'.symm.trans hbar))
    | true =>
      simp only [step, if_true, find?_put] at hbar'
      split at hbar'
      · next hname => simp [← hname, hbar] at hfree
      · exact .inl (Option.some.inj (hbar'.symm.trans hbar))

/-- The bars are kept in order: each is taken away when what it shows is over, none is replaced
while it is there, and none is left in the end. -/
structure Tidy (shown : Bool) (events : List Event) : Prop where
  cleared : ∀ front e back, events = front ++ e :: back → e.endsBar = true →
    (after shown (front ++ [e])).find? e.repo = none
  fresh : ∀ front repo back, events = front ++ .transcoding repo :: back →
    (after shown front).find? repo = none
  kept : ∀ front e back name bar bar', events = front ++ e :: back →
    (after shown front).find? name = some bar →
    (after shown (front ++ [e])).find? name = some bar' → bar'.Continues bar
  empty : (after shown events).bars = []

theorem after_concat (front : List Event) (e : Event) :
    after shown (front ++ [e]) = (after shown front).step shown e :=
  List.foldl_concat ..

theorem Tidy.of_along (ha : Along shown {} es) (hend : es.foldl (step shown) {} = {}) :
    Tidy shown es := by
  have hat (front : List Event) (e : Event) (back : List Event) (hes : es = front ++ e :: back) :
      (after shown front).Admits e := by
    rw [hes, along_append] at ha
    exact ha.2.1
  refine ⟨fun front e back _ he => ?_, fun front repo back hes => ?_,
    fun front e back name bar bar' hes hbar hbar' => ?_, by rw [after, hend]⟩
  · rw [after_concat, step_of_endsBar he, find?_clear, if_pos rfl]
  · exact hat front _ back hes repo rfl
  · rw [after_concat] at hbar'
    exact (hat front e back hes).continues hbar hbar'

end Board

/-! ## Lines -/

/-- The line says how the repository of the event came out, as the event has it. -/
inductive Concludes (colors : Bool) : Event → Line → Prop
  | synced (name : String) (entries : Nat) :
      Concludes colors (.synced name entries) ⟨.remarks, " " ++ paint colors .green "✓" ++ " " ++
        paint colors .cyan name ++ ": synced (" ++ toString entries ++ " entries)"⟩
  | failed (name error : String) :
      Concludes colors (.failed name error) ⟨.remarks, " " ++ paint colors .red "✗" ++ " " ++
        paint colors .cyan name ++ ": failed"⟩

/-- The output proper holds the announcements. -/
theorem runLines_output (colors shown : Bool) (es : List Event) :
    (runLines colors shown es).filter (·.stream = .output) =
      (es.filterMap (announcement? shown)).map (Line.mk .output) := by
  induction es with
  | nil => rfl
  | cons e es ih =>
    rw [runLines, List.flatMap_cons, List.filter_append, ← runLines, ih, eventLines,
      List.filterMap_cons]
    cases announcement? shown e <;> cases verdict? colors e <;> simp

/-- What is said about the run are the verdicts. -/
theorem runLines_remarks (colors shown : Bool) (es : List Event) :
    (runLines colors shown es).filter (·.stream = .remarks) =
      (es.filterMap (verdict? colors)).map (Line.mk .remarks) := by
  induction es with
  | nil => rfl
  | cons e es ih =>
    rw [runLines, List.flatMap_cons, List.filter_append, ← runLines, ih, eventLines,
      List.filterMap_cons]
    cases announcement? shown e <;> cases verdict? colors e <;> simp

/-- One line concludes each repository, and other events give none. -/
theorem concludes_runLines (colors shown : Bool) (es : List Event) :
    List.Forall₂ (Concludes colors) (es.filter Event.isTerminal)
      ((runLines colors shown es).filter (·.stream = .remarks)) := by
  rw [runLines_remarks]
  induction es with
  | nil => exact .nil
  | cons e es ih =>
    cases e with
    | synced name entries => exact .cons (.synced name entries) ih
    | failed name error => exact .cons (.failed name error) ih
    | downloading | progress | mirrorFailed | downloaded | transcoding => exact ih

theorem announcement?_of_endsBar (he : e.endsBar = true) : announcement? shown e = none := by
  cases e with
  | mirrorFailed | downloaded | synced | failed => rfl
  | downloading | progress | transcoding => cases he

end Terminal

theorem Event.endsBar_of_isTerminal {e : Event} (he : e.isTerminal = true) : e.endsBar = true := by
  cases e with
  | synced | failed => rfl
  | downloading | progress | mirrorFailed | downloaded | transcoding => cases he

namespace Sync

open Terminal (Board announcement? runLines Concludes)

variable {σ : Type} {h : Host} {g : Download.Goal} {interactive colors shown : Bool}
  {repo : Repository} {repos : List Repository} {fetch : Fetch σ} {w : World}
  {servers : List String} {isDelivered : Bool} {es : List Event} {last : Event}
  {blocks : List (List Event)}

/-! ## Blocks -/

/-- A file that is delivered takes the bar of its download away. -/
theorem Asking.foldl_of_delivered (ha : Asking g interactive repo servers true es) (b : Board) :
    es.foldl (Board.step shown) b = b.clear repo.name := by
  have hdelivered : ∃ last, es.getLast? = some last ∧ last.endsBar = true := by
    generalize htrue : true = isDelivered at ha
    induction ha with
    | exhausted => cases htrue
    | failed _ _ ih =>
      obtain ⟨last, hlast, hends⟩ := ih htrue
      exact ⟨last, by simp [List.getLast?_append, List.getLast?_cons, hlast], hends⟩
    | delivered => exact ⟨_, List.getLast?_concat, rfl⟩
  obtain ⟨last, hlast, hends⟩ := hdelivered
  exact Board.foldl_of_getLast? (fun e he => (ha.about e he).1) hlast hends b

/-- A block leaves the board as it is but for the bar of its repository, which is gone. -/
theorem Block.foldl_eq (hb : Block g interactive repo es last) (b : Board) :
    es.foldl (Board.step shown) b = b.clear repo.name := by
  obtain ⟨honce, hlast⟩ := hb.ends_once
  have hmem : last ∈ es.filter Event.isTerminal := by simp [honce]
  have hterminal : last.isTerminal = true := (List.mem_filter.1 hmem).2
  exact Board.foldl_of_getLast? hb.repo_eq hlast (Event.endsBar_of_isTerminal hterminal) b

theorem endsBar_ending (repo : Repository) (o : Except SyncError Nat) :
    (ending repo o).endsBar = true :=
  Event.endsBar_of_isTerminal (isTerminal_ending repo o)

/-- When a block comes to the rewriting of the archive, the bar of its download is gone. -/
theorem Block.along (hb : Block g interactive repo es last) (b : Board) :
    Board.Along shown b es := by
  have hasked {isDelivered : Bool} {asked : List Event} (b : Board)
      (ha : Asking g interactive repo repo.servers isDelivered asked) :
      Board.Along shown b asked :=
    Board.along_of_forall_admits
      (ha.forall_mem (fun _ _ _ => nofun) (fun _ _ _ => nofun) fun _ _ => nofun)
  have hdownloading (b : Board) : b.Admits (.downloading repo.name) := nofun
  cases hb with
  | undelivered hasking =>
    refine ⟨hdownloading b, Board.along_append.2 ⟨hasked _ hasking, ?_, trivial⟩⟩
    exact Board.admits_of_endsBar rfl _
  | @delivered asked o hasking =>
    refine ⟨hdownloading b, Board.along_append.2 ⟨hasked _ hasking, ?_, ?_, trivial⟩⟩
    · intro name hname
      cases hname
      rw [hasking.foldl_of_delivered, Board.find?_clear, if_pos rfl]
    · exact Board.admits_of_endsBar (endsBar_ending repo o) _

/-- A block announces the download of its repository unless bars are shown. -/
theorem Block.announced (hb : Block g interactive repo es last) :
    es.filterMap (announcement? shown) =
      if shown then [] else ["downloading " ++ repo.name ++ ".files..."] := by
  have hasked {isDelivered : Bool} {asked : List Event}
      (ha : Asking g interactive repo repo.servers isDelivered asked) :
      asked.filterMap (announcement? shown) = [] :=
    List.filterMap_eq_nil_iff.2 (ha.forall_mem (fun _ _ => rfl) (fun _ _ => rfl) fun _ => rfl)
  -- Nothing but the first event is announced.
  have hfirst (rest : List Event) (hrest : rest.filterMap (announcement? shown) = []) :
      (.downloading repo.name :: rest).filterMap (announcement? shown) =
        if shown then [] else ["downloading " ++ repo.name ++ ".files..."] := by
    rw [List.filterMap_cons, hrest]
    cases shown with
    | true => rfl
    | false => simp [announcement?, fileListSuffix, String.append_assoc]
  cases hb with
  | undelivered hasking =>
    exact hfirst _ (by rw [List.filterMap_append, hasked hasking]; rfl)
  | @delivered asked o hasking =>
    refine hfirst _ ?_
    rw [List.filterMap_append, hasked hasking, List.filterMap_cons, List.filterMap_cons,
      Terminal.announcement?_of_endsBar (endsBar_ending repo o)]
    rfl

/-! ## Runs of blocks -/

/-- Blocks find the board empty, one after the other, and leave it empty. -/
theorem shown_of_blocks
    (hblocks : List.Forall₂ (fun repo es => ∃ last, Block g interactive repo es last)
      repos blocks) :
    Board.Along shown {} blocks.flatten ∧ blocks.flatten.foldl (Board.step shown) {} = {} := by
  induction hblocks with
  | nil => exact ⟨trivial, rfl⟩
  | @cons repo es _ _ hblock _ ih =>
    obtain ⟨last, hb⟩ := hblock
    have hempty : es.foldl (Board.step shown) {} = {} := hb.foldl_eq {}
    rw [List.flatten_cons, Board.along_append, List.foldl_append, hempty]
    exact ⟨⟨hb.along {}, ih.1⟩, ih.2⟩

/-- Blocks are announced one after the other. -/
theorem announced_of_blocks
    (hblocks : List.Forall₂ (fun repo es => ∃ last, Block g interactive repo es last)
      repos blocks) :
    blocks.flatten.filterMap (announcement? shown) =
      if shown then [] else repos.map fun repo => "downloading " ++ repo.name ++ ".files..." := by
  induction hblocks with
  | nil => simp
  | cons hblock _ ih =>
    obtain ⟨last, hb⟩ := hblock
    rw [List.flatten_cons, List.filterMap_append, hb.announced, ih]
    cases shown <;> rfl

/-- Blocks end one after the other, each with an event of its repository. -/
theorem ends_of_blocks
    (hblocks : List.Forall₂ (fun repo es => ∃ last, Block g interactive repo es last)
      repos blocks) :
    List.Forall₂ (fun repo e => e.repo = repo.name) repos
      (blocks.flatten.filter Event.isTerminal) := by
  induction hblocks with
  | nil => exact .nil
  | cons hblock _ ih =>
    obtain ⟨last, hb⟩ := hblock
    obtain ⟨honce, hlast⟩ := hb.ends_once
    rw [List.flatten_cons, List.filter_append, honce]
    exact .cons (hb.repo_eq last (List.mem_of_getLast? hlast)) ih

/-! ## Whole runs -/

/-- What the lines of a run say of it. Where no bars are shown, the output proper announces each
repository once, in their order, and where they are it stays empty. Among the remarks one line
concludes each repository, again in their order; the names for which it says so are those that the
report has as synced, and those that it has as failed. -/
structure Rendered (colors shown : Bool) (repos : List Repository) (report : Report)
    (events : List Event) : Prop where
  output : (runLines colors shown events).filter (·.stream = .output) =
    if shown then []
    else repos.map fun repo => ⟨.output, "downloading " ++ repo.name ++ ".files..."⟩
  ends : List.Forall₂ (fun repo e => e.repo = repo.name) repos (events.filter Event.isTerminal)
  remarks : List.Forall₂ (Concludes colors) (events.filter Event.isTerminal)
    ((runLines colors shown events).filter (·.stream = .remarks))
  synced : report.synced = syncedIn (events.filter Event.isTerminal)
  failed : report.failed = failedIn (events.filter Event.isTerminal)

theorem Rendered.of_blocks {report : Report}
    (hblocks : List.Forall₂ (fun repo es => ∃ last, Block g interactive repo es last) repos blocks)
    (hsynced : report.synced = syncedIn blocks.flatten)
    (hfailed : report.failed = failedIn blocks.flatten) :
    Rendered colors shown repos report blocks.flatten := by
  refine ⟨?_, ends_of_blocks hblocks, Terminal.concludes_runLines colors shown _, ?_, ?_⟩
  · rw [Terminal.runLines_output, announced_of_blocks hblocks]
    cases shown with
    | true => rfl
    | false => simp
  · rw [syncedIn_filter, hsynced]
  · rw [failedIn_filter, hfailed]

/-- What is shown reflects the run. A run that cannot use its cache has no event. Any other gives a
report; its lines say what the report says, and its events keep the bars in order. This is so
whatever the repositories are and whatever the fetcher comes to, no matter how the lines look, and
whether or not bars are shown where the run itself tells of progress. -/
theorem runWith_rendered (h : Host) (g : Download.Goal) (repos : List Repository)
    (hfetch : KeepsToProgress interactive fetch) (w : World) (s : σ) (colors shown : Bool) :
    (∀ e, Files.ensureWritable h w.tree g.cache = .error e →
      ((runWith h fetch g repos).run.run s).run w = ((.error (.cacheAccess e), s), w)) ∧
    (Files.ensureWritable h w.tree g.cache = .ok () → ∃ report s' w' events,
      ((runWith h fetch g repos).run.run s).run w = ((.ok report, s'), w') ∧
      w'.events = w.events ++ events ∧
      Rendered colors shown repos report events ∧ Board.Tidy shown events) ∧
    ∀ client, KeepsToProgress (σ := Unit) interactive ((fetcher client g interactive).toFetch h) ∧
      w.attempt (run h client interactive g repos) =
        let ((outcome, _), w') :=
          ((runWith h ((fetcher client g interactive).toFetch h) g repos).run.run ()).run w
        (outcome, w') := by
  refine ⟨fun e hcheck => ?_, fun hcheck => ?_, fun client => ⟨?_, rfl⟩⟩
  · have hrefused : Settles w s (runWith h fetch g repos).run _ := runWith_refused s hcheck
    obtain ⟨hr, hs, hw⟩ := hrefused
    exact Prod.ext (Prod.ext hr hs) hw
  · have hall := runWith_admitted (Q := fun r _ w' => ∃ report events, r = .ok report ∧
        w'.events = w.events ++ events ∧
        Rendered colors shown repos report events ∧ Board.Tidy shown events) hcheck
      (settles_imp (all_story hfetch w s) fun report s' w' hr => by
        obtain ⟨blocks, hevents, hblocks, hsynced, hfailed⟩ := hr
        obtain ⟨halong, hempty⟩ := shown_of_blocks hblocks
        exact ⟨report, blocks.flatten, rfl, hevents, .of_blocks hblocks hsynced hfailed,
          .of_along halong hempty⟩)
    obtain ⟨report, events, hr, hrest⟩ := hall
    exact ⟨report, _, _, events, Prod.ext (Prod.ext hr rfl) rfl, hrest⟩
  · exact keepsToProgress_fetcher h client g interactive

/-- A repository whose one server has nothing, and one without servers: two announcements, two
lines that conclude them, and no bar in the end. -/
theorem runWith_rendered_refusing : ∃ report s' w',
    ((runWith {} refusing coreGoal [core, ⟨"extra", []⟩]).run.run 0).run oldCache =
      ((.ok report, s'), w') ∧
    (runLines false false w'.events).filter (·.stream = .output) =
      [⟨.output, "downloading core.files..."⟩, ⟨.output, "downloading extra.files..."⟩] ∧
    (∃ last last', w'.events.filter Event.isTerminal = [last, last'] ∧
      last.repo = "core" ∧ last'.repo = "extra") ∧
    Rendered false false [core, ⟨"extra", []⟩] report w'.events ∧
    (Board.after false w'.events).bars = [] := by
  obtain ⟨-, hshown, -⟩ := runWith_rendered {} coreGoal [core, ⟨"extra", []⟩]
    keepsToProgress_refusing oldCache 0 false false
  obtain ⟨report, s', w', events, hrun, hevents, hrendered, htidy⟩ :=
    hshown (ensureWritable_oldCache rfl)
  obtain rfl : w'.events = events := hevents
  refine ⟨report, s', w', hrun, hrendered.output, ?_, hrendered, htidy.empty⟩
  -- Two repositories, so two events that end a block.
  have hends := hrendered.ends
  generalize w'.events.filter Event.isTerminal = ends at hends
  cases hends with
  | @cons _ last _ _ hfirst hrest =>
    cases hrest with
    | @cons _ last' _ _ hsecond hnone =>
      cases hnone
      exact ⟨last, last', rfl, hfirst, hsecond⟩

end Sync

end FileListCache
