/-
  FileListCache.Proofs.Fetching

  What fetching a document comes to, for a server whose answer depends on what was asked before and
  not on the trees that the run goes through (`Fetcher.Answers`): either all of it takes its place
  in one move, or nothing but the file beside that place was touched, and nothing of it is left
  there.
-/

import FileListCache.Fetch
import FileListCache.Proofs.Entries

namespace FileListCache

open Disk (Aims CanCreate Writer locate)
open FileListCache.Tree (Step)
open World (Works Same Takes Quiet)

namespace Fetcher

/-! ## Answers -/

/-- The answer to a request after others, in whichever of the trees it is made: the bytes that
arrive and the error that ends them early, or none if the document cannot be opened. Asking leaves
no trace in the tree. -/
def Serves (h : Host) (f : Fetcher) (R : Tree → Prop) (u : Url)
    (answer : List Http.Request → Option Http.Body) : Prop :=
  ∀ w : World, R w.tree → Ends w (f.openUrl h u) fun r w' => Same w w' ∧
    (∀ incoming total, r = .ok (incoming, total) →
      ∀ t, R t → answer w.requests = some (incoming.content t)) ∧
    (∀ e, r = .error e → answer w.requests = none)

/-- The same for an address as it is written; one that is no address has no answer. -/
def Answers (h : Host) (f : Fetcher) (R : Tree → Prop) (url : String)
    (answer : List Http.Request → Option Http.Body) : Prop :=
  match Url.ofText url with
  | .ok u => f.Serves h R u answer
  | .error _ => ∀ before, answer before = none

theorem Answers.mono {h : Host} {f : Fetcher} {R R' : Tree → Prop} {url : String}
    {answer : List Http.Request → Option Http.Body} (ha : f.Answers h R url answer)
    (hR : ∀ t, R' t → R t) : f.Answers h R' url answer := by
  unfold Answers at *
  cases hu : Url.ofText url with
  | error e =>
    rw [hu] at ha
    exact ha
  | ok u =>
    rw [hu] at ha
    intro w hw
    refine ends_imp (ha w (hR _ hw)) ?_
    intro r w' hr
    obtain ⟨hsame, hok, herr⟩ := hr
    exact ⟨hsame, fun incoming total he t ht => hok incoming total he t (hR t ht), herr⟩

/-- Reporting progress does nothing else. -/
def IsPassive (f : Fetcher) : Prop := ∀ p w, Quiet w ((f.onProgress p).run w).2

/-- The two paths of a fetch aim at places apart, and at most a file stands in the first one. -/
structure Landing (h : Host) (t : Tree) (part output : String) (lp lo : Location) : Prop where
  part : Aims h t part lp
  output : Aims h t output lo
  apart : Tree.Apart lp lo
  leaf : t.IsLeaf lp

/-- Both paths lead where they aim, and no directory is in the way. -/
structure IsClear (h : Host) (t : Tree) (part output : String) (lp lo : Location) : Prop where
  part : locate h t false part = .ok lp
  output : locate h t false output = .ok lo
  noDirectory : t.find? lo ≠ some .directory

variable {h : Host} {w : World} {f : Fetcher} {R : Tree → Prop} {u : Url}
  {answer : List Http.Request → Option Http.Body} {part output url filename : String}
  {lp lo : Location} {wr : Writer} {bs chunk : Bytes}

/-! ## Receiving -/

theorem takeChunk_ends {total size : Nat} (hf : f.IsPassive) (hw : wr.Holds w.tree lp bs) :
    Ends w (f.takeChunk part filename total (wr, size) chunk) fun r w' =>
      Works (Step.Fills lp) w w' ∧
      (∀ wr' size', r = .ok (wr', size') → wr'.Holds w'.tree lp (bs ++ chunk) ∧
        (wr.IsFree → wr'.IsFree)) ∧
      (∀ e, r = .error e → ¬ wr.IsFree) := by
  unfold takeChunk
  apply ends_adapt_bind (Writer.push_ends hw chunk)
  · intro wr' w₁ hpush
    obtain ⟨hworks, hok, -⟩ := hpush
    obtain ⟨hholds, hfree⟩ := hok wr' rfl
    apply ends_tell_bind
    have hquiet := hf ⟨filename, size + chunk.length, total⟩ w₁
    refine ends_pure ⟨hworks.trans hquiet.works, ?_, by rintro _ ⟨⟩⟩
    intro wr'' size'' he
    cases he
    refine ⟨?_, hfree⟩
    rw [hquiet.tree]
    exact hholds
  · intro e w₁ hpush
    obtain ⟨hworks, -, herr⟩ := hpush
    refine ⟨hworks, by rintro _ _ ⟨⟩, fun e' _ => herr e rfl⟩

/-- All that arrives is written, chunk by chunk. -/
theorem foldlM_takeChunk_ends {total : Nat} (hf : f.IsPassive) (chunks : List Bytes)
    (hw : wr.Holds w.tree lp bs) :
    Ends w (chunks.foldlM (f.takeChunk part filename total) (wr, 0)) fun r w' =>
      Works (Step.Fills lp) w w' ∧
      (∀ wr' size', r = .ok (wr', size') → wr'.Holds w'.tree lp (bs ++ chunks.flatten) ∧
        (wr.IsFree → wr'.IsFree)) ∧
      (∀ e, r = .error e → ¬ wr.IsFree) := by
  -- What is written already and the chunks still to come make up the whole.
  refine ends_foldlM (fun rest state w₁ => ∃ done, Works (Step.Fills lp) w w₁ ∧
    (wr.IsFree → state.1.IsFree) ∧ state.1.Holds w₁.tree lp done ∧
      done ++ rest.flatten = bs ++ chunks.flatten) ?_ ?_ chunks (wr, 0) w
    ⟨bs, .refl w, id, hw, rfl⟩
  · intro state w₁ hI
    obtain ⟨done, hworks, hfree, hholds, hdone⟩ := hI
    rw [List.flatten_nil, List.append_nil] at hdone
    refine ⟨hworks, fun wr' size' he => ?_, by rintro _ ⟨⟩⟩
    cases he
    exact ⟨hdone ▸ hholds, hfree⟩
  · intro chunk rest state w₁ hI
    obtain ⟨done, hworks, hfree, hholds, hdone⟩ := hI
    refine ends_imp (takeChunk_ends hf hholds) ?_
    intro r w' hr
    obtain ⟨hworks', hok, herr⟩ := hr
    cases r with
    | error e =>
      exact ⟨hworks.trans hworks', by rintro _ _ ⟨⟩, fun _ _ hf => herr e rfl (hfree hf)⟩
    | ok state' =>
      obtain ⟨hholds', hfree'⟩ := hok state'.1 state'.2 rfl
      refine ⟨done ++ chunk, hworks.trans hworks', fun hf => hfree' (hfree hf), hholds', ?_⟩
      rw [List.append_assoc, ← List.flatten_cons, hdone]

/-- At the end of a body what waits is written, and its length is given if nothing failed. -/
theorem closing_ends {size : Nat} {failure : Option IoError} (hw : wr.Holds w.tree lp bs) :
    Ends w (match failure with
      | some e => do
        discard wr.flush.run
        throw (.io e)
      | none => do
        wr.close.adapt (DownloadError.write part)
        return size : Attempt DownloadError Nat) fun r w' => Works (Step.Fills lp) w w' ∧
      (∀ n, r = .ok n → failure = none ∧ w'.tree.find? lp = some (.file bs)) ∧
      (∀ e, r = .error e → failure = none → ¬ wr.IsFree) := by
  cases failure with
  | some e =>
    apply ends_discard_bind
    apply ends_outcome_bind
    refine ends_imp (Writer.flush_ends hw) ?_
    intro r w' hflush
    exact ends_throw ⟨hflush.1, by rintro _ ⟨⟩, by rintro _ _ ⟨⟩⟩
  | none =>
    apply ends_adapt_bind (Writer.close_ends hw)
    · intro u w' hclose
      obtain ⟨hworks, hok, -⟩ := hclose
      exact ends_pure ⟨hworks, fun n _ => ⟨rfl, hok u rfl⟩, by rintro _ ⟨⟩⟩
    · intro e w' hclose
      obtain ⟨hworks, -, herr⟩ := hclose
      exact ⟨hworks, by rintro _ ⟨⟩, fun _ _ _ => herr e rfl⟩

/-- A document is received whole exactly if it arrives whole, unless the disk is short of room. -/
theorem receive_ends (hl : Landing h w.tree part output lp lo) (hf : f.IsPassive)
    (hR : ∀ t s, R t → s.Fills lp → R (t.apply s)) (hw : R w.tree)
    (hs : f.Serves h R u answer) :
    Ends w (f.receive h u filename part) fun r w' => Works (Step.Fills lp) w w' ∧
      (∀ n, r = .ok n → locate h w.tree false part = .ok lp ∧
        ∃ bytes, answer w.requests = some ⟨bytes, none⟩ ∧
          w'.tree.find? lp = some (.file bytes)) ∧
      (∀ e, r = .error e → h.room lp = none → CanCreate h w.tree part lp →
        ∀ bytes, answer w.requests ≠ some ⟨bytes, none⟩) := by
  have hlp : lp ≠ [] := hl.apart.ne_nil
  unfold receive
  -- First the document is opened, which leaves the tree as it is.
  apply ends_bind (hs w hw)
  · intro opened w₁ hopen
    obtain ⟨incoming, total⟩ := opened
    obtain ⟨hsame₁, hok, -⟩ := hopen
    have hanswer := hok incoming total rfl
    have haims₁ : Aims h w₁.tree part lp := by
      rw [hsame₁.tree]
      exact hl.part
    -- Then the file is made that will hold it.
    apply ends_adapt_bind (Disk.create_ends haims₁ fun _ => by
      rw [hsame₁.tree]
      exact hl.leaf.isPlain)
    · intro sink w₂ hcreate
      obtain ⟨hok₂, -⟩ := hcreate
      obtain ⟨hcan, htakes, rfl⟩ := hok₂ sink rfl
      rw [hsame₁.tree] at hcan
      apply ends_tell_bind
      have hquiet := hf ⟨filename, 0, total⟩ w₂
      generalize ((f.onProgress ⟨filename, 0, total⟩).run w₂).2 = w₃ at hquiet
      have hworks₃ : Works (Step.Fills lp) w w₃ :=
        hsame₁.works.trans ((htakes.works ⟨rfl, rfl⟩).trans hquiet.works)
      have hfile : w₃.tree.find? lp = some (.file []) := by
        rw [hquiet.tree, htakes.tree, Tree.find?_put hlp, if_pos rfl]
      have hw₃ : Writer.Holds { sink := ⟨some lp, h.room lp⟩ } w₃.tree lp [] :=
        ⟨rfl, [], hfile, rfl⟩
      -- The answer is what is read now, though the tree has changed since it was asked for.
      have hcontent := hanswer w₃.tree (hworks₃.induct hR hw)
      apply ends_get_bind
      rcases hbody : incoming.content w₃.tree with ⟨bytes, failure⟩
      rw [hbody] at hcontent
      -- What can be read of it is written, and an error is passed on only then.
      apply ends_bind (foldlM_takeChunk_ends hf (h.arrival.pieces bytes) hw₃)
      · intro state w₄ hfold
        obtain ⟨wr, size⟩ := state
        obtain ⟨hworks₄, hok₄, -⟩ := hfold
        obtain ⟨hw₄, hfree₄⟩ := hok₄ wr size rfl
        rw [h.arrival.flatten_pieces, List.nil_append] at hw₄
        have hworks₄ := hworks₃.trans hworks₄
        refine ends_imp (closing_ends hw₄) ?_
        intro r w₅ hr
        obtain ⟨hworks₅, hwhole, hshort⟩ := hr
        refine ⟨hworks₄.trans hworks₅, fun n he => ?_, fun e he hroom _ bytes' hbytes' => ?_⟩
        · obtain ⟨rfl, hfile⟩ := hwhole n he
          exact ⟨hcan.leads, bytes, hcontent, hfile⟩
        · rw [hcontent] at hbytes'
          cases hbytes'
          exact hshort e he rfl (hfree₄ hroom)
      · intro e w₄ hfold
        obtain ⟨hworks₄, -, herr⟩ := hfold
        exact ⟨hworks₃.trans hworks₄, by rintro _ ⟨⟩, fun _ _ hroom => absurd hroom (herr e rfl)⟩
    · intro e w₂ hcreate
      obtain ⟨-, herr⟩ := hcreate
      obtain ⟨hsame₂, hcan⟩ := herr e rfl
      refine ⟨(hsame₁.trans hsame₂).works, by rintro _ ⟨⟩, fun _ _ _ hpart => ?_⟩
      rw [hsame₁.tree] at hcan
      exact absurd hpart hcan
  · intro e w₁ hopen
    obtain ⟨hsame₁, -, herr⟩ := hopen
    refine ⟨hsame₁.works, by rintro _ ⟨⟩, fun _ _ _ _ bytes hbytes => ?_⟩
    rw [herr e rfl] at hbytes
    cases hbytes

/-- What arrived of a document that is not complete is removed. -/
theorem tryReceive_ends (hl : Landing h w.tree part output lp lo) (hf : f.IsPassive)
    (hR : ∀ t s, R t → s.Fills lp → R (t.apply s)) (hw : R w.tree)
    (hs : f.Serves h R u answer) :
    Ends w (tryCatch (f.receive h u filename part) fun e => do
      if let .error removal ← (Files.remove h part).run then
        World.note .debug .fetch removal.message
      throw e) fun r w' =>
        (∀ n, r = .ok n → Works (Step.Fills lp) w w' ∧ locate h w.tree false part = .ok lp ∧
          ∃ bytes, answer w.requests = some ⟨bytes, none⟩ ∧
            w'.tree.find? lp = some (.file bytes)) ∧
        (∀ e, r = .error e →
          (∃ w₁, Works (Step.Fills lp) w w₁ ∧ Works (Step.Clears lp) w₁ w') ∧
          (h.room lp = none → CanCreate h w.tree part lp →
            ∀ bytes, answer w.requests ≠ some ⟨bytes, none⟩)) := by
  have hlp : lp ≠ [] := hl.apart.ne_nil
  apply ends_catch (receive_ends hl hf hR hw hs)
  · intro n w₁ hr
    obtain ⟨hworks, hok, -⟩ := hr
    exact ⟨fun n' _ => ⟨hworks, hok n rfl⟩, by rintro _ ⟨⟩⟩
  · intro e w₁ hr
    obtain ⟨hworks, -, herr⟩ := hr
    apply Files.ends_noted
    refine ends_imp (Files.remove_ends (hl.part.fades (hworks.fades_of_fills hlp))) ?_
    intro r w₂ hremove w₃ hsame₃
    obtain ⟨hworks₂, -⟩ := hremove
    refine ends_throw ⟨by rintro _ ⟨⟩, fun e' he => ?_⟩
    cases he
    exact ⟨⟨w₁, hworks, hworks₂.trans hsame₃.works⟩, herr e rfl⟩

/-! ## Fetching -/

/-- A document that arrives whole takes its place in one move; one that does not, or that cannot
take it, leaves nothing but traces of the file beside. -/
theorem fetch_ends (hl : Landing h w.tree (f.partPath filename) (f.outputPath filename) lp lo)
    (hf : f.IsPassive) (hR : ∀ t s, R t → s.Fills lp → R (t.apply s)) (hw : R w.tree)
    (ha : f.Answers h R url answer) :
    Ends w (f.fetch h url filename) fun r w' =>
      (∀ path, r = .ok path → path = f.outputPath filename ∧ ∃ w₁ bytes,
        answer w.requests = some ⟨bytes, none⟩ ∧ Works (Step.Fills lp) w w₁ ∧
        w₁.tree.find? lp = some (.file bytes) ∧
        IsClear h w.tree (f.partPath filename) (f.outputPath filename) lp lo ∧
        Takes (.move lp lo) w₁ w') ∧
      (∀ e, r = .error e →
        (∃ w₁, Works (Step.Fills lp) w w₁ ∧ Works (Step.Clears lp) w₁ w') ∧
        (h.IsSteady → IsClear h w.tree (f.partPath filename) (f.outputPath filename) lp lo →
          ∀ bytes, answer w.requests ≠ some ⟨bytes, none⟩)) := by
  have hlp : lp ≠ [] := hl.apart.ne_nil
  unfold fetch
  unfold Answers at ha
  cases hu : Url.ofText url with
  | error e =>
    rw [hu] at ha
    refine ends_throw ⟨by rintro _ ⟨⟩, fun _ _ => ⟨⟨w, .refl w, .refl w⟩, fun _ _ bytes hb => ?_⟩⟩
    rw [ha] at hb
    cases hb
  | ok u =>
    rw [hu] at ha
    apply ends_note_bind
    intro w₀ huntouched₀
    have hsame₀ := huntouched₀.toSame
    have hl₀ : Landing h w₀.tree (f.partPath filename) (f.outputPath filename) lp lo := by
      rw [hsame₀.tree]
      exact hl
    have hw₀ : R w₀.tree := by
      rw [hsame₀.tree]
      exact hw
    -- Until the document is complete only the part is worked on.
    rw [← huntouched₀.requests]
    apply ends_bind (tryReceive_ends hl₀ hf hR hw₀ ha)
    · intro n w₁ hr
      obtain ⟨hok, -⟩ := hr
      obtain ⟨hworks₁, hpart, bytes, hbytes, hfile⟩ := hok n rfl
      apply ends_note_bind
      intro w₂ hsame₂
      have hworks₂ : Works (Step.Fills lp) w₀ w₂ := hworks₁.trans hsame₂.works
      have hfile₂ : w₂.tree.find? lp = some (.file bytes) := by
        rw [hsame₂.tree, hfile]
      -- That left both paths as they were, so the move goes where they aim.
      have halike : w₀.tree.Alike w₂.tree := hworks₂.alike_of_fills hlp hl₀.leaf.isDeadEnd
      have hlo : w₂.tree.find? lo = w.tree.find? lo := by
        rw [hworks₂.find?_of_fills hlp hl.apart.symm.ne, hsame₀.tree]
      apply ends_adapt_bind
        (Disk.rename_ends (hl₀.part.fades halike.1) (hl₀.output.fades halike.1) hl.apart.ne hfile₂)
      · intro v w₃ hrename
        obtain ⟨hok₃, -⟩ := hrename
        obtain ⟨-, houtput, hdir, -, htakes⟩ := hok₃ rfl
        refine ends_pure ⟨fun path he => ?_, by rintro _ ⟨⟩⟩
        cases he
        refine ⟨rfl, w₂, bytes, hbytes, hsame₀.works.trans hworks₂, hfile₂, ⟨?_, ?_, ?_⟩, htakes⟩
        · rw [← hsame₀.tree]
          exact hpart
        · rw [← hsame₀.tree]
          exact hl₀.output.fades halike.1 |>.alike halike.symm houtput
        · rwa [← hlo]
      · intro e w₃ hrename
        obtain ⟨-, herr⟩ := hrename
        obtain ⟨hsame₃, hrefusal⟩ := herr e rfl
        refine ⟨by rintro _ ⟨⟩, fun e' he => ?_⟩
        cases he
        refine ⟨⟨w₃, hsame₀.works.trans (hworks₂.trans hsame₃.works), .refl w₃⟩,
          fun hh hclear => ?_⟩
        rw [← hsame₀.tree] at hclear
        refine absurd (hh.moves lp lo) (hrefusal ?_ ?_ ?_)
        · exact hl₀.part.alike halike hclear.part
        · exact hl₀.output.alike halike hclear.output
        · rw [hlo, ← hsame₀.tree]
          exact hclear.noDirectory
    · intro e w₁ hr
      obtain ⟨-, herr⟩ := hr
      obtain ⟨⟨w₂, hfills, hclears⟩, hreason⟩ := herr e rfl
      refine ⟨by rintro _ ⟨⟩, fun e' he => ⟨⟨w₂, hsame₀.works.trans hfills, hclears⟩,
        fun hh hclear => hreason (hh.room lp)
          ⟨?_, hl₀.leaf.isDeadEnd.1, Disk.makeable_of_unlocked (hh.unlocked _)⟩⟩⟩
      rw [hsame₀.tree]
      exact hclear.part

end Fetcher

end FileListCache
