/-
  FileListCache.Proofs.History

  What lies between two worlds of a run. Four relations are enough for the whole program:

    * `World.Untouched w w'` — at most messages were added.
    * `World.Same w w'` — at most messages and requests were added.
    * `World.Works S w w'` — steps of the kind `S` were taken, and those who watch were told of
      nothing but progress.
    * `World.Via P w w'` — `P` holds of the tree now, at the end and between any two steps: of all
      that a reader can see on the way, or that a crash can leave.
-/

import FileListCache.Proofs.Attempt
import FileListCache.Proofs.Places

namespace FileListCache

open FileListCache.Tree (Step)

/-- The event only says how far a transfer has come. -/
def Event.IsProgress : Event → Prop
  | .progress .. => True
  | _ => False

namespace Tree

@[simp] theorem applyAll_nil (t : Tree) : t.applyAll [] = t := rfl

theorem applyAll_cons (t : Tree) (s : Step) (ss : List Step) :
    t.applyAll (s :: ss) = (t.apply s).applyAll ss := rfl

theorem applyAll_append (t : Tree) (ss ss' : List Step) :
    t.applyAll (ss ++ ss') = (t.applyAll ss).applyAll ss' := by
  simp [applyAll]

/-- What each step of a kind preserves, all of them do. -/
theorem applyAll_induct {P : Tree → Prop} {S : Step → Prop}
    (hstep : ∀ t s, P t → S s → P (t.apply s)) {ss : List Step} (hss : ∀ s ∈ ss, S s) {t : Tree}
    (ht : P t) : P (t.applyAll ss) := by
  induction ss generalizing t with
  | nil => exact ht
  | cons s ss ih =>
    rw [applyAll_cons]
    exact ih (fun s' hs' => hss s' (List.mem_cons_of_mem _ hs'))
      (hstep t s ht (hss s List.mem_cons_self))

/-- Of some places nothing is left, and everything else is. -/
theorem find?_applyAll_remove (cs : List Location) (hcs : ∀ c ∈ cs, c ≠ []) (t : Tree)
    (l : Location) :
    (t.applyAll (cs.map .remove)).find? l = if l ∈ cs then none else t.find? l := by
  induction cs generalizing t with
  | nil => simp
  | cons c cs ih =>
    rw [List.map_cons, applyAll_cons, ih fun c' hc' => hcs c' (List.mem_cons_of_mem _ hc'),
      find?_remove (hcs c List.mem_cons_self)]
    by_cases hl : l ∈ cs <;> by_cases hc : l = c <;> simp [hl, hc]

end Tree

namespace World

variable {w w' w'' : World} {S S' : Step → Prop} {P P' : Tree → Prop} {s : Step}

/-- The steps that lead from one world to another. -/
def After (w : World) (ss : List Step) (w' : World) : Prop :=
  w'.steps = w.steps ++ ss ∧ w'.tree = w.tree.applyAll ss

theorem After.trans {ss ss' : List Step} (h : After w ss w') (h' : After w' ss' w'') :
    After w (ss ++ ss') w'' := by
  constructor
  · rw [h'.1, h.1, List.append_assoc]
  · rw [h'.2, h.2, Tree.applyAll_append]

/-- The world after some steps of the file system and nothing else. -/
def taking (w : World) (ss : List Step) : World :=
  { w with tree := w.tree.applyAll ss, steps := w.steps ++ ss }

/-- Nothing has changed that a reader or a watcher could see. -/
structure Same (w w' : World) : Prop where
  tree : w'.tree = w.tree
  steps : w'.steps = w.steps
  events : w'.events = w.events

/-- Nothing has changed that anyone else could see, servers included. -/
structure Untouched (w w' : World) : Prop extends Same w w' where
  requests : w'.requests = w.requests

/-- The tree is as it was, and those who watch were told of nothing but progress. -/
structure Quiet (w w' : World) : Prop where
  tree : w'.tree = w.tree
  steps : w'.steps = w.steps
  events : ∃ es, w'.events = w.events ++ es ∧ ∀ e ∈ es, e.IsProgress

/-- Steps of one kind were taken, and those who watch were told of nothing but progress. -/
structure Works (S : Step → Prop) (w w' : World) : Prop where
  steps : ∃ ss, After w ss w' ∧ ∀ s ∈ ss, S s
  events : ∃ es, w'.events = w.events ++ es ∧ ∀ e ∈ es, e.IsProgress

/-- The one step that was taken. -/
structure Takes (s : Step) (w w' : World) : Prop where
  tree : w'.tree = w.tree.apply s
  steps : w'.steps = w.steps ++ [s]
  events : w'.events = w.events

/-- Every tree on the way has the property, the first and the last one too. -/
def Via (P : Tree → Prop) (w w' : World) : Prop :=
  ∃ ss, After w ss w' ∧ ∀ k, P (w.tree.applyAll (ss.take k))

/-! ## Single parts of a run -/

theorem Same.after (h : Same w w') : After w [] w' :=
  ⟨by rw [h.steps, List.append_nil], h.tree⟩

theorem Same.works (h : Same w w') : Works S w w' :=
  ⟨⟨[], h.after, by simp⟩, ⟨[], by rw [h.events, List.append_nil], by simp⟩⟩

theorem Quiet.works (h : Quiet w w') : Works S w w' :=
  ⟨⟨[], ⟨by rw [h.steps, List.append_nil], h.tree⟩, by simp⟩, h.events⟩

theorem Same.trans (h : Same w w') (h' : Same w' w'') : Same w w'' :=
  ⟨h'.tree.trans h.tree, h'.steps.trans h.steps, h'.events.trans h.events⟩

theorem Same.refl (w : World) : Same w w := ⟨rfl, rfl, rfl⟩

theorem Untouched.refl (w : World) : Untouched w w := ⟨.refl w, rfl⟩

theorem Untouched.trans (h : Untouched w w') (h' : Untouched w' w'') : Untouched w w'' :=
  ⟨h.toSame.trans h'.toSame, h'.requests.trans h.requests⟩

theorem Same.alike (h : Same w w') : w.tree.Alike w'.tree := by
  rw [h.tree]
  exact .refl _

theorem same_note {level : Level} {topic : Topic} {message : String} :
    Same w ((World.note level topic message).run w).2 := ⟨rfl, rfl, rfl⟩

theorem untouched_note {level : Level} {topic : Topic} {message : String} :
    Untouched w ((World.note level topic message).run w).2 := ⟨same_note, rfl⟩

theorem takes_take : Takes s w ((World.take s).run w).2 := ⟨rfl, rfl, rfl⟩

theorem Takes.after (h : Takes s w w') : After w [s] w' := ⟨h.steps, h.tree⟩

theorem Takes.trans_same (h : Takes s w w') (h' : Same w' w'') : Takes s w w'' :=
  ⟨h'.tree.trans h.tree, h'.steps.trans h.steps, h'.events.trans h.events⟩

theorem Takes.works (h : Takes s w w') (hs : S s) : Works S w w' :=
  ⟨⟨[s], h.after, by simpa using hs⟩, ⟨[], by rw [h.events, List.append_nil], by simp⟩⟩

theorem taking_nil (w : World) : w.taking [] = w := by
  simp [taking]

theorem taking_taking (w : World) (ss ss' : List Step) :
    (w.taking ss).taking ss' = w.taking (ss ++ ss') := by
  simp [taking, Tree.applyAll_append]

theorem works_taking {ss : List Step} (hss : ∀ s ∈ ss, S s) : Works S w (w.taking ss) :=
  ⟨⟨ss, ⟨rfl, rfl⟩, hss⟩, ⟨[], (List.append_nil _).symm, by simp⟩⟩

/-! ## Works -/

theorem Works.refl (w : World) : Works S w w := (Same.refl w).works

theorem Works.trans (h : Works S w w') (h' : Works S w' w'') : Works S w w'' := by
  obtain ⟨⟨ss, hss, hS⟩, es, hes, hp⟩ := h
  obtain ⟨⟨ss', hss', hS'⟩, es', hes', hp'⟩ := h'
  refine ⟨⟨ss ++ ss', hss.trans hss', ?_⟩, es ++ es', ?_, ?_⟩
  · exact fun s hs => (List.mem_append.1 hs).elim (hS s) (hS' s)
  · rw [hes', hes, List.append_assoc]
  · exact fun e he => (List.mem_append.1 he).elim (hp e) (hp' e)

/-- What steps of the kind preserve holds after the work if it held before. -/
theorem Works.induct (h : Works S w w') (hstep : ∀ t s, P t → S s → P (t.apply s))
    (hw : P w.tree) : P w'.tree := by
  obtain ⟨⟨ss, hss, hS⟩, -⟩ := h
  rw [hss.2]
  exact Tree.applyAll_induct hstep hS hw

/-- It holds all the time in between too. -/
theorem Works.via (h : Works S w w') (hstep : ∀ t s, P t → S s → P (t.apply s)) (hw : P w.tree) :
    Via P w w' := by
  obtain ⟨⟨ss, hss, hS⟩, -⟩ := h
  exact ⟨ss, hss, fun k => Tree.applyAll_induct hstep
    (fun s hs => hS s (List.mem_of_mem_take hs)) hw⟩

section Kinds

open FileListCache.Tree

variable {l l' : Location}

theorem Works.find?_of_fills (h : Works (Step.Fills l) w w') (hl : l ≠ []) (hne : l' ≠ l) :
    w'.tree.find? l' = w.tree.find? l' :=
  h.induct (P := fun t => t.find? l' = w.tree.find? l')
    (fun _ _ ht hs => (hs.find?_eq hl hne).trans ht) rfl

theorem Works.find?_of_clears (h : Works (Step.Clears l) w w') (hl : l ≠ []) (hne : ¬ l <+: l') :
    w'.tree.find? l' = w.tree.find? l' :=
  h.induct (P := fun t => t.find? l' = w.tree.find? l')
    (fun _ _ ht hs => (hs.find?_eq hl hne).trans ht) rfl

theorem Works.fades_of_fills (h : Works (Step.Fills l) w w') (hl : l ≠ []) :
    w.tree.Fades w'.tree :=
  h.induct (P := fun t => w.tree.Fades t) (fun _ _ ht hs => ht.trans (hs.fades hl)) (.refl _)

theorem Works.alike_of_fills (h : Works (Step.Fills l) w w') (hl : l ≠ [])
    (hd : w.tree.IsDeadEnd l) : w.tree.Alike w'.tree :=
  (h.induct (P := fun t => w.tree.Alike t ∧ t.IsDeadEnd l)
    (fun t _ ht hs =>
      ⟨ht.1.trans (hs.alike hl ht.2), (hs.fades (t := t) hl).isDeadEnd ht.2⟩)
    ⟨.refl _, hd⟩).1

end Kinds

/-! ## Via -/

theorem Via.of_after_nil (h : After w [] w') (hw : P w.tree) : Via P w w' :=
  ⟨[], h, by simpa using hw⟩

theorem Takes.via (h : Takes s w w') (hw : P w.tree) (hw' : P w'.tree) : Via P w w' := by
  refine ⟨[s], h.after, fun k => ?_⟩
  cases k with
  | zero => exact hw
  | succ k => simpa [h.tree, Tree.applyAll_cons] using hw'

theorem Via.last (h : Via P w w') : P w'.tree := by
  obtain ⟨ss, hss, hP⟩ := h
  simpa [hss.2] using hP ss.length

theorem Via.imp (h : Via P w w') (hP : ∀ t, P t → P' t) : Via P' w w' := by
  obtain ⟨ss, hss, hk⟩ := h
  exact ⟨ss, hss, fun k => hP _ (hk k)⟩

theorem Via.trans (h : Via P w w') (h' : Via P w' w'') : Via P w w'' := by
  obtain ⟨ss, hss, hP⟩ := h
  obtain ⟨ss', hss', hP'⟩ := h'
  refine ⟨ss ++ ss', hss.trans hss', fun k => ?_⟩
  rw [List.take_append]
  -- The moment lies in the first part, or in the second, which begins where the first ends.
  rcases Nat.le_total k ss.length with hk | hk
  · simpa [Nat.sub_eq_zero_of_le hk] using hP k
  · rw [List.take_of_length_le hk, Tree.applyAll_append, ← hss.2]
    exact hP' _

end World

/-! ## Messages -/

section Messages

variable {ε α : Type} {w : World} {level : Level} {topic : Topic} {message : String}

/-- A message changes nothing that matters to what follows. -/
theorem ends_note_bind {f : Unit → Attempt ε α} {Q : Except ε α → World → Prop}
    (h : ∀ w', World.Untouched w w' → Ends w' (f ()) Q) :
    Ends w (liftM (World.note level topic message) >>= f) Q :=
  ends_tell_bind (h _ World.untouched_note)

theorem settles_note_bind {σ : Type} {s : σ} {f : Unit → ExceptT ε (StateT σ Run) α}
    {Q : Except ε α → σ → World → Prop}
    (h : ∀ w', World.Untouched w w' → Settles w' s (f ()).run Q) :
    Settles w s (liftM (World.note level topic message) >>= f).run Q :=
  settles_run_tell_bind (h _ World.untouched_note)

end Messages

end FileListCache
