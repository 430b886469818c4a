/-
  FileListCache.Proofs.Replacement

  Rewriting in place, as its callers know it: by the path of the archive and the path beside it.
  A success is exact (`inPlace_exact`): the members stand in the new archive byte for byte, and are
  read from it again. A failure is as if nothing had been tried (`inPlace_atomic`), but for the
  complete copy that is left where the system refuses to exchange the two.
-/

import FileListCache.Proofs.Rewriting
import Mathlib.Algebra.GroupWithZero.Nat

namespace FileListCache

open Archive (Member Layout)
open Disk (Aims Removable locate look)
open FileListCache.Tree (Step)
open World (Works Same Takes)

/-- No other process is about to replace a file. -/
def Tree.IsQuiet (t : Tree) : Prop :=
  ∀ l content opens fate, t.find? l ≠ some (.contested content opens fate)

/-- The path leads to a link. -/
def Disk.NamesLink (h : Host) (t : Tree) (p : String) : Prop :=
  ∃ l target, locate h t false p = .ok l ∧ t.find? l = some (.link target)

namespace Transcode

variable {h : Host} {w : World} {p q path : String} {lp lq : Location}

/-! ## Paths beside each other -/

/-- The path of the copy is that of the archive with one more character in its last name. -/
theorem exists_aims {ns : List String} {name : String} (hn : Path.EndsIn path ns name) (h : Host)
    (t : Tree) : ∃ lp lq, Tree.Apart lp lq ∧ Aims h t path lp ∧ Aims h t (copyPath path) lq := by
  have hname : Path.IsName (name ++ "~") :=
    Path.isName_of_getLast? (c := '~') (by simp) (by decide)
  exact Disk.exists_siblings hn (by decide) hname (by decide) h t

/-- In a rooted tree a path that leads to a file, and not through a link, has a copy beside it. -/
theorem exists_beside {l : Location} {contents : Bytes} (hroot : w.tree.IsRooted)
    (hsource : ¬ Disk.NamesLink h w.tree path) (hl : locate h w.tree true path = .ok l)
    (hc : w.tree.find? l = some (.file contents)) :
    locate h w.tree false path = .ok l ∧ ∃ lq, Tree.Apart l lq ∧ Aims h w.tree path l ∧
      Aims h w.tree (copyPath path) lq := by
  have hfalse : locate h w.tree false path = .ok l := by
    obtain ⟨l', hl', he⟩ := Disk.locate_false_of_true hl
    rcases he with rfl | ⟨target, ht⟩
    · exact hl'
    · exact absurd ⟨l', target, hl', ht⟩ hsource
  obtain ⟨ns, name, hn⟩ := Disk.exists_endsIn hroot hfalse (by simp [hc])
  obtain ⟨lp, lq, hapart, hp, hq⟩ := exists_aims hn h w.tree
  obtain rfl := hp.eq_of_locate hfalse
  exact ⟨hfalse, lq, hapart, hp, hq⟩

/-- When a complete copy has taken the archive's place, paths lead where they led, and nothing
stands where it was made or below. -/
theorem Complete.moved {ms : List Member} {w₁ w' : World} (hb : Beside h w.tree p q lp lq)
    (hbare : w.tree.IsBare lq) (hc : Complete h w p q lp lq ms w₁)
    (hm : Takes (.move lq lp) w₁ w') (halike : w.tree.Alike w₁.tree) :
    w.tree.Alike w'.tree ∧ w'.tree.find? lp = some (.file (Archive.bytesOf ms)) ∧
      w'.tree.find? lq = none ∧ w'.tree.IsBare lq := by
  have hq₀ : lq ≠ [] := hb.apart.symm.ne_nil
  have hbare₁ : w₁.tree.IsBare lq := fun r hr => by
    rw [hc.works.find?_of_fills hq₀ (by simpa using hr), hbare r hr]
  obtain ⟨contents, hcontents, -⟩ := hc.ready.accepted
  have hsource₁ : w₁.tree.find? lp = some (.file contents) := by
    rw [hc.works.find?_of_fills hq₀ hb.apart.ne, hcontents]
  rw [hm.tree]
  refine ⟨?_, ?_, ?_, fun r _ => ?_⟩
  · -- The exchange touches nothing that paths lead through.
    exact halike.trans (Tree.alike_move hb.apart.symm hbare₁ hc.copy
      (Tree.isDeadEnd_of_file hsource₁))
  · rw [Tree.find?_move_target hb.apart.symm, hc.copy]
  · exact Tree.find?_move_source hb.apart.symm List.prefix_rfl
  · exact Tree.find?_move_source hb.apart.symm (List.prefix_append lq r)

/-- What is beside a file takes its place; nothing remains where it was. -/
theorem Complete.look_moved {ms : List Member} {w₁ w' : World} (hb : Beside h w.tree p q lp lq)
    (hbare : w.tree.IsBare lq) (hc : Complete h w p q lp lq ms w₁)
    (hm : Takes (.move lq lp) w₁ w') (halike : w.tree.Alike w₁.tree) :
    look h w'.tree p = .ok (.file (Archive.bytesOf ms)) ∧
      look h w'.tree q = .error (.system .missing) := by
  obtain ⟨halike', hp, hq, -⟩ := hc.moved hb hbare hm halike
  constructor
  · refine Disk.look_eq_ok.2 ⟨lp, ?_, hp⟩
    exact Disk.locate_true_of_false (hb.source.alike halike' hc.ready.source) (by simp [hp])
  · refine Disk.look_eq_missing (l := lq) ?_ hq
    exact Disk.locate_true_of_false (hb.copy.alike halike' hc.ready.copy.leads) (by simp [hq])

/-! ## What cannot succeed -/

/-- Without a copy there is nothing to take the archive's place. -/
theorem inPlace_of_copyArchive
    (hc : Gives w (copyArchive h path (copyPath path)) fun _ _ => False) :
    Gives w (inPlace h path) fun _ _ => False := by
  unfold inPlace
  refine gives_bind (R := fun _ _ => False) ?_ ?_
  · apply ends_catch hc
    · intro report w₁ hgiven
      exact (hgiven report rfl).elim
    · intro e w₁ _
      apply Files.ends_noted
      refine ends_imp (R := fun _ _ => True) trivial ?_
      intro r w₂ _ w₃ _
      exact gives_throw
  · intro report w₁ hfalse
    exact hfalse.elim

/-- Only a file that is not empty is copied. -/
theorem copyArchive_unopened (hu : Disk.Undisturbed h w.tree p)
    (hempty : ∀ l contents, locate h w.tree true p = .ok l →
      w.tree.find? l = some (.file contents) → contents = []) :
    Gives w (copyArchive h p q) fun _ _ => False := by
  unfold copyArchive
  refine gives_bind (R := fun _ _ => False) ?_ ?_
  · refine gives_of_ends (Archive.openAt_ends hu) ?_
    intro o w₁ hr
    obtain ⟨-, hok, -⟩ := hr
    obtain ⟨l, contents, hl, hc, hne, -⟩ := hok o rfl
    exact hne (hempty l contents hl hc)
  · intro o w₁ hfalse
    exact hfalse.elim

/-- Nothing is copied to a device that takes nothing. -/
theorem copyArchive_fullDevice (hu : Disk.Undisturbed h w.tree p) (hq : Aims h w.tree q lq)
    (hdevice : w.tree.find? lq = some .fullDevice) :
    Gives w (copyArchive h p q) fun _ _ => False := by
  unfold copyArchive
  have hopened : Gives w (Archive.openAt h p) fun _ w₁ => Same w w₁ :=
    gives_of_ends (Archive.openAt_ends hu) fun _ _ hr => hr.1
  refine gives_bind hopened fun o w₁ hsame => ?_
  have hq₁ : Aims h w₁.tree q lq := by rwa [hsame.tree]
  have hdevice₁ : w₁.tree.find? lq = some .fullDevice := by rw [hsame.tree, hdevice]
  refine gives_bind (gives_adapt (Disk.create_fullDevice hq₁ hdevice₁)) fun sink w₂ hsink => ?_
  have hstuck : Disk.Writer.IsStuck { sink } := ⟨_, hsink⟩
  apply ends_get_bind
  apply ends_outcome_bind
  refine ends_imp (copyStream_stuck _ hstuck) ?_
  rintro ((⟨e, wr⟩ | e) | report) w₃ hr
  · apply ends_discard_bind
    apply ends_outcome_bind
    refine ends_imp (R := fun _ _ => True) trivial ?_
    intro _ w₄ _
    exact gives_throw
  · exact gives_throw
  · exact (hr report rfl).elim

/-! ## Successes -/

/-- How the contents of a file are laid out as an archive, once they are decompressed. -/
def LaidOut (contents : Bytes) (ms : List Member) : Prop :=
  let decoded := (Compression.detect (contents.take 6)).decode contents
  Layout (decoded.failure.map .stream) decoded.bytes ms

theorem laidOut_of_accepts {contents : Bytes} {ms : List Member}
    (ha : Archive.Accepts contents ms) : LaidOut contents ms :=
  (Archive.layout_of_membersFrom ha.2).1

/-- An archive of which every header is signed is accepted, unless it is longer than any position
in it can be. -/
theorem accepts_of_laidOut {contents : Bytes} {ms : List Member} (hne : contents ≠ [])
    (hl : LaidOut contents ms) (hsigned : ∀ m ∈ ms, m.header.IsSigned)
    (hlen : ((Compression.detect (contents.take 6)).decode contents).bytes.length +
      Archive.blockSize ≤ Archive.lastPosition) : Archive.Accepts contents ms :=
  ⟨hne, hl.membersFrom_eq hsigned (by rwa [Nat.zero_add])⟩

/-- A compressed file is an archive of the members that are laid out in what it decodes to. -/
theorem accepts_of_decode {contents bytes : Bytes} {c : Compression}
    {failure : Option StreamError} {ms : List Member} (hne : contents ≠ [])
    (hdetect : Compression.detect (contents.take 6) = c)
    (hdecode : c.decode contents = ⟨bytes, failure⟩)
    (hl : Layout (failure.map .stream) bytes ms) (hsigned : ∀ m ∈ ms, m.header.IsSigned)
    (hlen : bytes.length + Archive.blockSize ≤ Archive.lastPosition) :
    Archive.Accepts contents ms := by
  refine accepts_of_laidOut hne ?_ hsigned ?_
  · rw [LaidOut, hdetect, hdecode]
    exact hl
  · rw [hdetect, hdecode]
    exact hlen

/-- The sum of the payloads that a report counts. -/
theorem bytes_ofMembers (ms : List Member) :
    (Report.ofMembers ms).bytes = (ms.map fun m => m.payload.length).sum := by
  simp only [Report.ofMembers]
  induction ms with
  | nil => rfl
  | cons m ms ih => rw [List.foldr_cons, ih, List.map_cons, List.sum_cons]

/-- The members that a report counts are those that do not just extend the next one. -/
theorem entries_ofMembers (ms : List Member) :
    (Report.ofMembers ms).entries =
      (ms.filter fun m => m.header.kind ∉ Archive.Header.extensionKinds).length := by
  simp only [Report.ofMembers, List.countP_eq_length_filter, Archive.Header.isEntry]
  congr 2
  funext m
  simp

/-- In a rooted tree that no one else touches, a success has the paths in order. -/
theorem beside_of_success (hroot : w.tree.IsRooted) (hquiet : w.tree.IsQuiet)
    (hsource : ¬ Disk.NamesLink h w.tree path) (hcopy : ¬ Disk.NamesLink h w.tree (copyPath path))
    {report : Report} {w' : World} (hw : w.attempt (inPlace h path) = (.ok report, w')) :
    ∃ lp lq, Beside h w.tree path (copyPath path) lp lq := by
  have hu : Disk.Undisturbed h w.tree path := fun l content opens fate _ =>
    hquiet l content opens fate
  -- What cannot be copied is ruled out by the success.
  have hcopied (hc : Gives w (copyArchive h path (copyPath path)) fun _ _ => False) : False :=
    (ends_iff hw).1 (inPlace_of_copyArchive hc) report rfl
  by_cases hfile : ∃ l contents, locate h w.tree true path = .ok l ∧
      w.tree.find? l = some (.file contents)
  · obtain ⟨l, contents, hl, hc⟩ := hfile
    obtain ⟨hfalse, lq, hapart, hp, hq⟩ := exists_beside hroot hsource hl hc
    refine ⟨l, lq, hp, hq, hapart, fun _ => .inr (.inr ⟨contents, hc⟩), fun hqf => ?_⟩
    cases hnode : w.tree.find? lq with
    | none => exact .inl hnode
    | some node =>
      cases node with
      | file bytes => exact .inr (.inr ⟨bytes, hnode⟩)
      | directory => exact .inr (.inl hnode)
      | link target => exact absurd ⟨lq, target, hqf, hnode⟩ hcopy
      | fullDevice => exact (hcopied (copyArchive_fullDevice hu hq hnode)).elim
      | contested content opens fate => exact absurd hnode (hquiet lq content opens fate)
  · refine (hcopied (copyArchive_unopened hu fun l contents hl hc => ?_)).elim
    exact absurd ⟨l, contents, hl, hc⟩ hfile

/-- Where everything is in order and nothing is refused, rewriting succeeds. -/
theorem inPlace_of_ready {ms : List Member} (hh : h.IsSteady)
    (hb : Beside h w.tree p (copyPath p) lp lq)
    (hr : Ready h w.tree p (copyPath p) lp lq ms) :
    Ends w (inPlace h p) fun r _ => r = .ok (.ofMembers ms) := by
  -- Each way to fail is ruled out: nothing is refused, and nothing is missing for the copy.
  refine ends_imp (inPlace_ends hb) ?_
  rintro (e | report) w' ⟨hok, hrename, hother⟩
  · cases e with
    | rename source target entries reason =>
      obtain ⟨-, -, hmoves, -⟩ := hrename _ _ _ _ rfl
      exact absurd (hh.moves lq lp) hmoves
    | unopened | empty | read | write | badFile =>
      exact absurd hr ((hother _ rfl id).reason (hh.room lq) ms)
  · obtain ⟨ms', w₁, rfl, hcomplete, -⟩ := hok report rfl
    obtain ⟨contents, hc, haccepts⟩ := hr.accepted
    obtain ⟨contents', hc', haccepts'⟩ := hcomplete.ready.accepted
    cases hc.symm.trans hc'
    rw [haccepts.unique haccepts']

/-- Rewriting an archive in its place is exact. When it succeeds, the archive becomes the members
that were laid out in it, each with its header and payload as they were and zeros up to the next
block, and two blocks of zeros; from these bytes the same members are read again; the report counts
them; and nothing is left beside the archive. It does succeed for every archive that is complete
and signed, if a file can be made beside it. -/
theorem inPlace_exact (hroot : w.tree.IsRooted) (hquiet : w.tree.IsQuiet)
    (hsource : ¬ Disk.NamesLink h w.tree path)
    (hcopy : ¬ Disk.NamesLink h w.tree (copyPath path)) :
    (∀ report w', w.attempt (inPlace h path) = (.ok report, w') → ∃ contents ms,
      look h w.tree path = .ok (.file contents) ∧
      LaidOut contents ms ∧ (∀ ms', LaidOut contents ms' → ms' = ms) ∧
      look h w'.tree path = .ok (.file (Archive.bytesOf ms)) ∧
      Archive.members ⟨Archive.bytesOf ms, none⟩ = (ms, none) ∧
      report.bytes = (ms.map fun m => m.payload.length).sum ∧
      report.entries =
        (ms.filter fun m => m.header.kind ∉ Archive.Header.extensionKinds).length ∧
      look h w'.tree (copyPath path) = .error (.system .missing)) ∧
    (∀ contents ms, h.IsSteady → look h w.tree path = .ok (.file contents) → contents ≠ [] →
      LaidOut contents ms → (∀ m ∈ ms, m.header.IsSigned) →
      ((Compression.detect (contents.take 6)).decode contents).bytes.length +
        Archive.blockSize ≤ Archive.lastPosition →
      (∃ l, locate h w.tree false (copyPath path) = .ok l ∧
        (w.tree.find? l = none ∨ ∃ bytes, w.tree.find? l = some (.file bytes))) →
      ∃ w', w.attempt (inPlace h path) = (.ok (.ofMembers ms), w')) := by
  constructor
  · -- A success tells that the paths were in order, and then what it came to.
    intro report w' hw
    obtain ⟨lp, lq, hb⟩ := beside_of_success hroot hquiet hsource hcopy hw
    obtain ⟨hok, -⟩ := (ends_iff hw).1 (inPlace_ends hb)
    obtain ⟨ms, w₁, rfl, hcomplete, halike, hmoved⟩ := hok report rfl
    obtain ⟨contents, hc, haccepts⟩ := hcomplete.ready.accepted
    have hlaid := laidOut_of_accepts haccepts
    have hlook : look h w.tree path = .ok (.file contents) := by
      refine Disk.look_eq_ok.2 ⟨lp, ?_, hc⟩
      exact Disk.locate_true_of_false hcomplete.ready.source (by simp [hc])
    have hbare := hroot.isBare hcomplete.ready.copy.noDirectory
    obtain ⟨hnew, hgone⟩ := hcomplete.look_moved hb hbare hmoved halike
    exact ⟨contents, ms, hlook, hlaid, fun ms' hlaid' => hlaid.unique hlaid', hnew,
      Archive.membersFrom_bytesOf haccepts.2, bytes_ofMembers ms, entries_ofMembers ms, hgone⟩
  · -- Conversely all that could stop the copy or the exchange is excluded beforehand.
    intro contents ms hh hlook hne hlaid hsigned hlen hr
    obtain ⟨l', hl', hplain⟩ := hr
    obtain ⟨l, hl, hc⟩ := Disk.look_eq_ok.1 hlook
    obtain ⟨hfalse, lq, hapart, hp, hq⟩ := exists_beside hroot hsource hl hc
    obtain rfl := hq.eq_of_locate hl'
    have hb : Beside h w.tree path (copyPath path) l l' :=
      ⟨hp, hq, hapart, fun _ => .inr (.inr ⟨contents, hc⟩), fun _ => hplain.imp_right .inr⟩
    have hr : Ready h w.tree path (copyPath path) l l' ms := by
      refine ⟨hfalse, ⟨hl', ?_, Disk.makeable_of_unlocked (hh.unlocked _)⟩, contents, hc,
        accepts_of_laidOut hne hlaid hsigned hlen⟩
      rcases hplain with hn | ⟨bytes, hn⟩ <;> simp [hn]
    have hsuccess := inPlace_of_ready hh hb hr
    exact ⟨_, Prod.ext hsuccess rfl⟩

/-- A file in the root directory, and nothing else. -/
def oneFile (contents : Bytes) : World := { tree := ⟨[(["a"], .file contents)]⟩ }

theorem find?_oneFile {contents : Bytes} {l : Location} {node : Node}
    (hl : (oneFile contents).tree.find? l = some node) :
    (l = [] ∧ node = .directory) ∨ (l = ["a"] ∧ node = .file contents) := by
  by_cases h0 : l = []
  · subst h0
    cases hl
    exact .inl ⟨rfl, rfl⟩
  rw [oneFile, Tree.find?_cons h0, Tree.find?_empty h0] at hl
  by_cases ha : ["a"] = l
  · rw [if_pos ha] at hl
    cases hl
    exact .inr ⟨ha.symm, rfl⟩
  · rw [if_neg ha] at hl
    cases hl

theorem oneFile_isPlain (contents : Bytes) (l : Location) :
    (oneFile contents).tree.IsPlain l := by
  cases hnode : (oneFile contents).tree.find? l with
  | none => exact .inl hnode
  | some node =>
    rcases find?_oneFile hnode with ⟨-, rfl⟩ | ⟨-, rfl⟩
    · exact .inr (.inl hnode)
    · exact .inr (.inr ⟨contents, hnode⟩)

theorem locate_oneFile {contents : Bytes} {follow : Bool} {p name : String}
    (hn : Path.EndsIn p [""] name) (hs : Disk.Sayable p name) (hp : Path.isAbsolute p = true) :
    locate h (oneFile contents).tree follow p = .ok [name] := by
  have hl : locate h (oneFile contents).tree false p = .ok [name] := by
    refine (Disk.locate_endsIn hn).2 ⟨hs, [], ⟨?_, rfl⟩, rfl⟩
    rw [Disk.start, if_pos hp, Tree.walk_stay (Tree.find?_nil _) (.inl rfl), Tree.walk_nil]
  cases follow with
  | false => exact hl
  | true => exact Disk.locate_true_of_false hl (oneFile_isPlain contents [name]).ne_link

theorem oneFile_isRooted (contents : Bytes) : (oneFile contents).tree.IsRooted :=
  Tree.isRooted_of_entries fun e he => by
    rw [List.mem_singleton.1 he]
    rfl

theorem oneFile_isQuiet (contents : Bytes) : (oneFile contents).tree.IsQuiet := by
  intro l content opens fate hnode
  rcases find?_oneFile hnode with ⟨-, he⟩ | ⟨-, he⟩ <;> cases he

theorem oneFile_namesLink (contents : Bytes) (p : String) :
    ¬ Disk.NamesLink {} (oneFile contents).tree p := by
  intro hr
  obtain ⟨l, target, -, hnode⟩ := hr
  rcases find?_oneFile hnode with ⟨-, he⟩ | ⟨-, he⟩ <;> cases he

theorem look_oneFile (contents : Bytes) :
    look h (oneFile contents).tree "/a" = .ok (.file contents) :=
  Disk.look_eq_ok.2 ⟨["a"], locate_oneFile (by decide) (by decide) (by decide), rfl⟩

/-- No other path in the root directory leads anywhere. -/
theorem look_oneFile_missing {contents : Bytes} {p name : String} (hn : Path.EndsIn p [""] name)
    (hs : Disk.Sayable p name) (hp : Path.isAbsolute p = true) (hname : name ≠ "a") :
    look h (oneFile contents).tree p = .error (.system .missing) := by
  refine Disk.look_eq_missing (locate_oneFile hn hs hp) ?_
  rcases hnode : (oneFile contents).tree.find? [name] with _ | node
  · rfl
  · rcases find?_oneFile hnode with ⟨⟨⟩, -⟩ | ⟨hl, -⟩
    exact absurd (List.singleton_inj.1 hl) hname

/-- Alone on the disk an archive has all it needs for its copy. -/
theorem ready_oneFile {contents : Bytes} {ms : List Member} (ha : Archive.Accepts contents ms) :
    Beside {} (oneFile contents).tree "/a" (copyPath "/a") ["a"] ["a~"] ∧
      Ready {} (oneFile contents).tree "/a" (copyPath "/a") ["a"] ["a~"] ms := by
  have hfile : (oneFile contents).tree.find? ["a"] = some (.file contents) := rfl
  have hcopy : locate {} (oneFile contents).tree false (copyPath "/a") = .ok ["a~"] :=
    locate_oneFile (by decide) (by decide) (by decide)
  have harchive : locate {} (oneFile contents).tree true "/a" = .ok ["a"] :=
    locate_oneFile (by decide) (by decide) (by decide)
  obtain ⟨hl, lq, hapart, hp, hq⟩ := exists_beside (oneFile_isRooted contents)
    (oneFile_namesLink contents "/a") harchive hfile
  obtain rfl := hq.eq_of_locate hcopy
  exact ⟨⟨hp, hq, hapart, fun _ => .inr (.inr ⟨_, hfile⟩), fun _ => .inl rfl⟩,
    hl, ⟨hcopy, by simp [show (oneFile contents).tree.find? ["a~"] = none from rfl],
      Disk.makeable_of_unlocked rfl⟩,
    _, hfile, ha⟩

theorem inPlace_oneFile {contents : Bytes} {ms : List Member}
    (ha : Archive.Accepts contents ms) :
    ∃ w', (oneFile contents).attempt (inPlace {} "/a") = (.ok (.ofMembers ms), w') := by
  obtain ⟨hb, hr⟩ := ready_oneFile ha
  have hsuccess := inPlace_of_ready Host.isSteady_default hb hr
  exact ⟨_, Prod.ext hsuccess rfl⟩

/-! ## Archives of few members -/

/-- A member that is named by one letter. -/
def letter : Member := Archive.emptyMember [0x61] [0x36, 0x32, 0x31]

/-- The archive of that member without compression, and without a mark at its end. -/
def letterArchive : Bytes := letter.header.bytes

theorem accepts_letterArchive : Archive.Accepts letterArchive [letter] := by
  have hl : Archive.Layout none letterArchive [letter] := by
    have hl : Archive.Layout none (letterArchive ++ []) [letter] :=
      Archive.layout_emptyMember _ _ (by decide +kernel) (by decide +kernel) rfl (.ended rfl)
    rwa [List.append_nil] at hl
  refine accepts_of_decode (by decide +kernel) (by decide : _ = Compression.plain) rfl hl ?_
    (by decide +kernel)
  intro m hm
  rw [List.mem_singleton.1 hm]
  decide +kernel

/-- A member with a payload of one byte. -/
def note : Member :=
  ⟨Archive.briefHeader [0x62] [0x31] [0x36, 0x32, 0x33], 1, [0x62], none⟩

/-- An archive of both members, without a mark at its end. -/
def notedArchive : Bytes := letterArchive ++
  (note.header.bytes ++ (note.payload ++ List.replicate (Member.paddingOf 1) 0))

theorem laidOut_notedArchive : LaidOut notedArchive [letter, note] := by
  have hdetect : Compression.detect (notedArchive.take 6) = .plain := by decide
  have hnote : Layout none (note.header.bytes ++ (note.payload ++
      (List.replicate (Member.paddingOf 1) 0 ++ []))) [note] :=
    .member (by decide +kernel) (by decide +kernel) rfl rfl rfl List.length_replicate (.ended rfl)
  have hletter : Layout none (letterArchive ++ (note.header.bytes ++ (note.payload ++
      (List.replicate (Member.paddingOf 1) 0 ++ [])))) [letter, note] :=
    Archive.layout_emptyMember _ _ (by decide +kernel) (by decide +kernel) rfl hnote
  rw [List.append_nil] at hletter
  rw [LaidOut, hdetect]
  exact hletter

theorem isSigned_notedArchive : ∀ m ∈ [letter, note], m.header.IsSigned := by
  decide +kernel

theorem accepts_notedArchive : Archive.Accepts notedArchive [letter, note] :=
  accepts_of_laidOut (by decide +kernel) laidOut_notedArchive isSigned_notedArchive
    (by decide +kernel)

/-- An archive that lacks its mark gets it. -/
theorem inPlace_exact_noted : ∃ w',
    (oneFile notedArchive).attempt (inPlace {} "/a") = (.ok ⟨2, 1⟩, w') ∧
      look {} w'.tree "/a" = .ok (.file (notedArchive ++ Archive.ending)) := by
  have hexact := inPlace_exact (oneFile_isRooted notedArchive) (oneFile_isQuiet _)
    (oneFile_namesLink _ "/a") (oneFile_namesLink _ _)
  have hcopy : locate {} (oneFile notedArchive).tree false "/a~" = .ok ["a~"] :=
    locate_oneFile (by decide) (by decide) (by decide)
  obtain ⟨w', hw'⟩ := hexact.2 _ _ Host.isSteady_default (look_oneFile _) (by decide +kernel)
    laidOut_notedArchive isSigned_notedArchive (by decide +kernel) ⟨_, hcopy, .inl rfl⟩
  obtain ⟨contents, ms, hlook, hlaid, -, hnew, -⟩ := hexact.1 _ w' hw'
  cases (look_oneFile notedArchive).symm.trans hlook
  cases laidOut_notedArchive.unique hlaid
  have hbytes : Archive.bytesOf [letter, note] = notedArchive ++ Archive.ending := by
    decide +kernel
  exact ⟨w', hw', hnew.trans (by rw [hbytes])⟩

/-! ## Failures -/

/-- An archive that breaks off in front of the payload of its second member. -/
def brokenArchive : Bytes := letterArchive ++ note.header.bytes

theorem not_accepts_brokenArchive (ms : List Member) : ¬ Archive.Accepts brokenArchive ms := by
  intro ha
  have hdetect : Compression.detect (brokenArchive.take 6) = .plain := by decide
  have hmembers : (Archive.members ⟨brokenArchive, none⟩).2 = some (.archive .gap) := by
    decide +kernel
  have haccepts := ha.2
  rw [show Compression.signatureLength = 6 from rfl, hdetect] at haccepts
  exact nomatch hmembers.symm.trans (congrArg Prod.snd haccepts)

end Transcode

end FileListCache
