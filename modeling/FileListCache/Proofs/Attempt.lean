/-
  FileListCache.Proofs.Attempt

  What an attempt comes to, by its parts. `Ends w x Q` says that the attempt `x`, started in the
  world `w`, ends with an outcome and a world that `Q` admits; there is one rule for each way of
  putting attempts together, so that no proof about the program has to open its monads. `Q` sees
  failures too: what was changed before a failure stays changed. `Gives` is for what only a
  result says, where the failures do not matter.

  `Settles` says the same of computations that remember something besides the world.
-/

import FileListCache.World
import Mathlib.Tactic.Common

namespace FileListCache

variable {ε ε' α β σ : Type}

/-! ## Answers -/

/-- Steps that succeed one after the other do so each. -/
theorem exists_of_bind_ok {x : Except ε α} {f : α → Except ε β} {b : β}
    (h : (x >>= f) = .ok b) : ∃ a, x = .ok a ∧ f a = .ok b := by
  cases x with
  | error e => cases h
  | ok a => exact ⟨a, rfl, h⟩

theorem bind_of_ok {x : Except ε α} {f : α → Except ε β} {a : α} {b : β} (hx : x = .ok a)
    (hf : f a = .ok b) : (x >>= f) = .ok b := by
  rw [hx]
  exact hf

/-- The words in which a failure is stated do not matter to a success. -/
theorem eq_ok_of_mapError {x : Except ε α} {f : ε → ε'} {a : α} (h : x.mapError f = .ok a) :
    x = .ok a := by
  cases x with
  | error e => cases h
  | ok a' =>
    cases h
    rfl

theorem mapError_of_ok {x : Except ε α} {f : ε → ε'} {a : α} (h : x = .ok a) :
    x.mapError f = .ok a := by
  rw [h]
  rfl

/-! ## Outcomes -/

/-- The outcome of an attempt that starts in a world, and the world it leaves. -/
def World.attempt (w : World) (x : Attempt ε α) : Except ε α × World := (x.run.run w).run

/-- The attempt `x` leads from the world `w` to an outcome and a world that `Q` admits. -/
def Ends (w : World) (x : Attempt ε α) (Q : Except ε α → World → Prop) : Prop :=
  Q (w.attempt x).1 (w.attempt x).2

/-! ## Attempts -/

section Attempts

variable {w : World} {Q : Except ε α → World → Prop}

theorem World.run_bind (w : World) (x : Run β) (f : β → Run α) :
    (x >>= f).run w = (f (x.run w).1).run (x.run w).2 := rfl

theorem World.attempt_bind (w : World) (x : Attempt ε α) (f : α → Attempt ε β) :
    w.attempt (x >>= f) = match w.attempt x with
      | (.ok a, w') => w'.attempt (f a)
      | (.error e, w') => (.error e, w') := by
  simp only [World.attempt, ExceptT.run_bind, StateT.run_bind]
  rcases StateT.run x.run w with ⟨_ | _, _⟩ <;> rfl

theorem World.attempt_tryCatch (w : World) (x : Attempt ε α) (f : ε → Attempt ε α) :
    w.attempt (tryCatch x f) = match w.attempt x with
      | (.ok a, w') => (.ok a, w')
      | (.error e, w') => w'.attempt (f e) := by
  -- The monads are opened here, so that no other proof has to.
  change (StateT.run (ExceptT.run (ExceptT.tryCatch x f)) w).run = _
  simp only [ExceptT.tryCatch, ExceptT.run_mk, StateT.run_bind, World.attempt]
  rcases h : StateT.run x.run w with ⟨_ | _, _⟩ <;>
    · simp only [ExceptT.run] at h
      rw [h]
      rfl

theorem World.attempt_adapt (w : World) (x : Attempt ε' α) (f : ε' → ε) :
    w.attempt (x.adapt f) = ((w.attempt x).1.mapError f, (w.attempt x).2) := rfl

/-- What `Ends` says of the outcome and the world that an attempt is known to come to. -/
theorem ends_iff {x : Attempt ε α} {r : Except ε α} {w' : World} (h : w.attempt x = (r, w')) :
    Ends w x Q ↔ Q r w' := by
  rw [Ends, h]

theorem ends_imp {x : Attempt ε α} {R : Except ε α → World → Prop} (hx : Ends w x R)
    (h : ∀ r w', R r w' → Q r w') : Ends w x Q :=
  h _ _ hx

theorem ends_and {x : Attempt ε α} {R : Except ε α → World → Prop} (hQ : Ends w x Q)
    (hR : Ends w x R) : Ends w x fun r w' => Q r w' ∧ R r w' :=
  ⟨hQ, hR⟩

theorem ends_pure {a : α} (h : Q (.ok a) w) : Ends w (pure a) Q := h

theorem ends_throw {e : ε} (h : Q (.error e) w) : Ends w (throw e) Q := h

/-- A failure of the first part is a failure of the whole. -/
theorem ends_bind {x : Attempt ε β} {f : β → Attempt ε α} {R : Except ε β → World → Prop}
    (hx : Ends w x R) (hok : ∀ a w', R (.ok a) w' → Ends w' (f a) Q)
    (herr : ∀ e w', R (.error e) w' → Q (.error e) w') : Ends w (x >>= f) Q := by
  unfold Ends at hx ⊢
  rw [World.attempt_bind]
  rcases hr : w.attempt x with ⟨e | a, w'⟩ <;> rw [hr] at hx
  · exact herr e w' hx
  · exact hok a w' hx

/-- A computation that cannot fail, as a part of an attempt. -/
theorem ends_tell {x : Run α} (h : Q (.ok (x.run w).1) (x.run w).2) : Ends w (liftM x) Q := h

/-- The same, with the rest of the attempt. -/
theorem ends_tell_bind {x : Run β} {f : β → Attempt ε α}
    (h : Ends (x.run w).2 (f (x.run w).1) Q) : Ends w (liftM x >>= f) Q :=
  ends_bind (R := fun r w' => r = .ok (x.run w).1 ∧ w' = (x.run w).2) (ends_tell ⟨rfl, rfl⟩)
    (by rintro _ _ ⟨ha, rfl⟩; cases ha; exact h) (by rintro _ _ ⟨he, _⟩; cases he)

/-- Looking at the world changes nothing. -/
theorem ends_get_bind {f : World → Attempt ε α} (h : Ends w (f w) Q) : Ends w (get >>= f) Q := h

theorem ends_except {x : Except ε α} (h : Q x w) : Ends w (liftM x) Q := by
  cases x <;> exact h

/-- An answer that is known, or a failure, with the rest of the attempt. -/
theorem ends_except_bind {x : Except ε β} {f : β → Attempt ε α}
    (hok : ∀ b, x = .ok b → Ends w (f b) Q) (herr : ∀ e, x = .error e → Q (.error e) w) :
    Ends w (liftM x >>= f) Q := by
  cases x with
  | error e => exact herr e rfl
  | ok b => exact hok b rfl

theorem ends_adapt {x : Attempt ε' α} {f : ε' → ε}
    (h : Ends w x fun r w' => Q (r.mapError f) w') : Ends w (x.adapt f) Q := h

/-- An attempt that states its failures in other words, with the rest. -/
theorem ends_adapt_bind {x : Attempt ε' β} {f : ε' → ε} {g : β → Attempt ε α}
    {R : Except ε' β → World → Prop} (hx : Ends w x R)
    (hok : ∀ a w', R (.ok a) w' → Ends w' (g a) Q)
    (herr : ∀ e w', R (.error e) w' → Q (.error (f e)) w') : Ends w (x.adapt f >>= g) Q := by
  -- The outcome in the first words is kept beside that in the others.
  have hadapt : Ends w (x.adapt f) fun r w' => ∃ r', R r' w' ∧ r = r'.mapError f :=
    ends_adapt ⟨_, hx, rfl⟩
  apply ends_bind hadapt
  · intro a w' hr
    obtain ⟨e | a', hr, hmap⟩ := hr
    · cases hmap
    · cases hmap
      exact hok a w' hr
  · intro e w' hr
    obtain ⟨e' | a', hr, hmap⟩ := hr
    · cases hmap
      exact herr e' w' hr
    · cases hmap

/-- An attempt whose failure is looked at and not passed on. -/
theorem ends_outcome_bind {x : Attempt ε' β} {f : Except ε' β → Attempt ε α}
    (h : Ends w x fun r w' => Ends w' (f r) Q) : Ends w (liftM x.run >>= f) Q :=
  ends_tell_bind h

/-- A part whose result does not matter. -/
theorem ends_discard_bind {x : Attempt ε β} {f : Unit → Attempt ε α}
    (h : Ends w (x >>= fun _ => f ()) Q) : Ends w (discard x >>= f) Q := by
  have hdiscard : discard x = (fun _ => ()) <$> x := rfl
  rw [hdiscard, bind_map_left]
  exact h

theorem ends_catch {x : Attempt ε α} {f : ε → Attempt ε α} {R : Except ε α → World → Prop}
    (hx : Ends w x R) (hok : ∀ a w', R (.ok a) w' → Q (.ok a) w')
    (herr : ∀ e w', R (.error e) w' → Ends w' (f e) Q) : Ends w (tryCatch x f) Q := by
  unfold Ends at hx ⊢
  rw [World.attempt_tryCatch]
  rcases hr : w.attempt x with ⟨e | a, w'⟩ <;> rw [hr] at hx
  · exact herr e w' hx
  · exact hok a w' hx

/-- A loop, by what holds before each round: `I l b w` speaks of the elements still to come. -/
theorem ends_foldlM {f : β → α → Attempt ε β} {Q : Except ε β → World → Prop}
    (I : List α → β → World → Prop) (hdone : ∀ b w, I [] b w → Q (.ok b) w)
    (hstep : ∀ a l b w, I (a :: l) b w → Ends w (f b a) fun r w' =>
      match r with
      | .ok b' => I l b' w'
      | .error e => Q (.error e) w') (l : List α) :
    ∀ (b : β) (w : World), I l b w → Ends w (l.foldlM f b) Q := by
  induction l with
  | nil => exact fun b w hI => ends_pure (hdone b w hI)
  | cons a l ih =>
    intro b w hI
    rw [List.foldlM_cons]
    exact ends_bind (hstep a l b w hI) (fun b' w' h => ih b' w' h) fun _ _ h => h

end Attempts

/-! ## Results of attempts -/

/-- Whatever the attempt `x` gives, started in the world `w`, is admitted by `P`. -/
def Gives (w : World) (x : Attempt ε α) (P : α → World → Prop) : Prop :=
  Ends w x fun r w' => ∀ a, r = .ok a → P a w'

section Results

variable {w : World} {P : α → World → Prop}

theorem gives_of_ends {x : Attempt ε α} {R : Except ε α → World → Prop} (hx : Ends w x R)
    (h : ∀ a w', R (.ok a) w' → P a w') : Gives w x P := by
  refine ends_imp hx fun r w' hr a ha => ?_
  rw [ha] at hr
  exact h a w' hr

theorem gives_imp {x : Attempt ε α} {R : α → World → Prop} (hx : Gives w x R)
    (h : ∀ a w', R a w' → P a w') : Gives w x P :=
  gives_of_ends hx fun a w' hr => h a w' (hr a rfl)

theorem gives_pure {a : α} (h : P a w) : Gives w (pure a : Attempt ε α) P := by
  apply ends_pure
  intro _ ha
  cases ha
  exact h

/-- A failure gives nothing. -/
theorem gives_throw {e : ε} : Gives w (throw e : Attempt ε α) P := by
  apply ends_throw
  intro _ ha
  cases ha

/-- The rest goes on from what the first part gives. -/
theorem gives_bind {x : Attempt ε β} {f : β → Attempt ε α} {R : β → World → Prop}
    (hx : Gives w x R) (hf : ∀ b w', R b w' → Gives w' (f b) P) : Gives w (x >>= f) P := by
  apply ends_bind hx
  · intro b w' hr
    exact hf b w' (hr b rfl)
  · intro e w' _ a ha
    cases ha

/-- An answer that is known, or a failure, with the rest of the attempt. -/
theorem gives_except_bind {x : Except ε β} {f : β → Attempt ε α}
    (hf : ∀ b, x = .ok b → Gives w (f b) P) : Gives w (liftM x >>= f) P := by
  apply ends_except_bind hf
  intro e _ a ha
  cases ha

/-- The words in which failures are stated do not matter. -/
theorem gives_adapt {x : Attempt ε' α} {f : ε' → ε} (hx : Gives w x P) :
    Gives w (x.adapt f) P := by
  refine ends_adapt (ends_imp hx fun r w' hr a ha => ?_)
  cases r with
  | ok b => exact hr a (congrArg _ (Except.ok.inj ha))
  | error e => cases ha

/-- A loop keeps what each of its rounds keeps. -/
theorem gives_foldlM {f : β → α → Attempt ε β} (I : β → World → Prop)
    (hstep : ∀ b a w, I b w → Gives w (f b a) I) (l : List α) (b : β) (h : I b w) :
    Gives w (l.foldlM f b) I := by
  refine ends_foldlM (fun _ => I) ?_ ?_ l b w h
  · intro b' w' hI _ hb
    cases hb
    exact hI
  · intro a _ b' w' hI
    refine ends_imp (hstep b' a w' hI) fun r w'' hr => ?_
    cases r with
    | ok b'' => exact hr b'' rfl
    | error e => exact fun _ hb => nomatch hb

end Results

/-! ## Computations that remember -/

/-- The computation `x`, started with memory `s` in the world `w`, comes to a result, a memory and
a world that `Q` admits. -/
def Settles (w : World) (s : σ) (x : StateT σ Run α) (Q : α → σ → World → Prop) : Prop :=
  Q ((x.run s).run w).run.1.1 ((x.run s).run w).run.1.2 ((x.run s).run w).run.2

section Memory

variable {w : World} {s : σ}

theorem settles_imp {x : StateT σ Run α} {R Q : α → σ → World → Prop} (hx : Settles w s x R)
    (h : ∀ a s' w', R a s' w' → Q a s' w') : Settles w s x Q :=
  h _ _ _ hx

theorem settles_and {x : StateT σ Run α} {Q R : α → σ → World → Prop} (hQ : Settles w s x Q)
    (hR : Settles w s x R) : Settles w s x fun a s' w' => Q a s' w' ∧ R a s' w' :=
  ⟨hQ, hR⟩

theorem settles_pure {a : α} {Q : α → σ → World → Prop} (h : Q a s w) :
    Settles w s (pure a) Q := h

theorem settles_bind {x : StateT σ Run β} {f : β → StateT σ Run α} {Q : α → σ → World → Prop}
    (hx : Settles w s x fun b s' w' => Settles w' s' (f b) Q) : Settles w s (x >>= f) Q := hx

theorem settles_tell {x : Run α} {Q : α → σ → World → Prop}
    (h : Q (x.run w).1 s (x.run w).2) : Settles w s (liftM x) Q := h

/-- An attempt that remembers, by the outcome of its first part. -/
theorem settles_run_bind {x : ExceptT ε (StateT σ Run) β} {f : β → ExceptT ε (StateT σ Run) α}
    {Q : Except ε α → σ → World → Prop}
    (hx : Settles w s x.run fun r s' w' =>
      match r with
      | .ok b => Settles w' s' (f b).run Q
      | .error e => Q (.error e) s' w') : Settles w s (x >>= f).run Q := by
  rw [ExceptT.run_bind]
  apply settles_bind
  apply settles_imp hx
  rintro (e | b) s' w' h
  · exact settles_pure h
  · exact h

theorem settles_run_tell {x : Run α} {Q : Except ε α → σ → World → Prop}
    (h : Q (.ok (x.run w).1) s (x.run w).2) :
    Settles w s (liftM x : ExceptT ε (StateT σ Run) α).run Q := h

theorem settles_run_tell_bind {x : Run β} {f : β → ExceptT ε (StateT σ Run) α}
    {Q : Except ε α → σ → World → Prop}
    (h : Settles (x.run w).2 s (f (x.run w).1).run Q) : Settles w s (liftM x >>= f).run Q :=
  settles_run_bind (settles_run_tell h)

theorem settles_run_lift {x : StateT σ Run α} {Q : Except ε α → σ → World → Prop}
    (h : Settles w s x fun a s' w' => Q (.ok a) s' w') :
    Settles w s (liftM x : ExceptT ε (StateT σ Run) α).run Q := h

/-- An attempt that remembers nothing, with the rest that its outcome decides. -/
theorem settles_run_outcome_bind {x : Attempt ε' β} {f : Except ε' β → ExceptT ε (StateT σ Run) α}
    {Q : Except ε α → σ → World → Prop}
    (h : Ends w x fun r w' => Settles w' s (f r).run Q) :
    Settles w s (liftM x.run >>= f).run Q :=
  settles_run_tell_bind h

/-- The same for one that remembers. -/
theorem settles_run_lift_bind {x : StateT σ Run β} {f : β → ExceptT ε (StateT σ Run) α}
    {Q : Except ε α → σ → World → Prop}
    (h : Settles w s x fun b s' w' => Settles w' s' (f b).run Q) :
    Settles w s (liftM x >>= f).run Q :=
  settles_run_bind (settles_run_lift h)

/-- An attempt that remembers nothing, among those that do. -/
theorem settles_run_attempt {x : Attempt ε α} {Q : Except ε α → σ → World → Prop}
    (h : Ends w x fun r w' => Q r s w') :
    Settles w s (ExceptT.mk (StateT.lift x.run)).run Q := h

/-- A loop, by what holds before each round: `I l b w` speaks of the elements still to come. -/
theorem settles_foldlM {f : β → α → StateT σ Run β} {Q : β → σ → World → Prop}
    (I : List α → β → σ → World → Prop) (hdone : ∀ b s w, I [] b s w → Q b s w)
    (hstep : ∀ a l b s w, I (a :: l) b s w → Settles w s (f b a) (I l)) (l : List α) :
    ∀ (b : β) (s : σ) (w : World), I l b s w → Settles w s (l.foldlM f b) Q := by
  induction l with
  | nil => exact fun b s w hI => settles_pure (hdone b s w hI)
  | cons a l ih =>
    intro b s w hI
    rw [List.foldlM_cons]
    exact settles_bind (settles_imp (hstep a l b s w hI) fun b' s' w' h => ih b' s' w' h)

end Memory

end FileListCache
