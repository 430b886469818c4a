/-
  FileListCache.Proofs.Coupling

  Two computations side by side. `Coupled P x x' Q` says that `x` and `x'`, started in two worlds
  whose trees are related by `P`, come to the same result, tell those who watch of the same events
  and ask servers for the same documents, and leave trees that `Q` relates. As with `Ends` there
  is one rule for each way of putting attempts together. A relation of trees is all that is
  carried along, for nothing that was told or asked is ever looked at again.
-/

import FileListCache.Proofs.Attempt

namespace FileListCache

variable {ε ε' α β σ : Type}

/-- The same was told and asked on the way from `w` to `v` and on the way from `w'` to `v'`. -/
structure World.Echoes (w w' v v' : World) : Prop where
  events : ∃ es, v.events = w.events ++ es ∧ v'.events = w'.events ++ es
  requests : ∃ rs, v.requests = w.requests ++ rs ∧ v'.requests = w'.requests ++ rs

namespace World.Echoes

variable {w w' v v' u u' : World}

theorem of_eq (he : v.events = w.events) (he' : v'.events = w'.events)
    (hr : v.requests = w.requests) (hr' : v'.requests = w'.requests) : Echoes w w' v v' := by
  refine ⟨⟨[], ?_, ?_⟩, [], ?_, ?_⟩ <;> rw [List.append_nil] <;> assumption

theorem refl (w w' : World) : Echoes w w' w w' := of_eq rfl rfl rfl rfl

theorem trans (h : Echoes w w' v v') (h' : Echoes v v' u u') : Echoes w w' u u' := by
  obtain ⟨⟨es, he, he'⟩, rs, hr, hr'⟩ := h
  obtain ⟨⟨es₂, he₂, he₂'⟩, rs₂, hr₂, hr₂'⟩ := h'
  refine ⟨⟨es ++ es₂, ?_, ?_⟩, rs ++ rs₂, ?_, ?_⟩
  · rw [he₂, he, List.append_assoc]
  · rw [he₂', he', List.append_assoc]
  · rw [hr₂, hr, List.append_assoc]
  · rw [hr₂', hr', List.append_assoc]

end World.Echoes

/-- From worlds with trees that `P` relates both computations come to the same result and tell
and ask the same, and leave trees that `Q` relates. -/
def Coupled (P : Tree → Tree → Prop) (x x' : Run α) (Q : α → Tree → Tree → Prop) : Prop :=
  ∀ w w', P w.tree w'.tree →
    (x'.run w').run.1 = (x.run w).run.1 ∧
    World.Echoes w w' (x.run w).run.2 (x'.run w').run.2 ∧
    Q (x.run w).run.1 (x.run w).run.2.tree (x'.run w').run.2.tree

/-- One attempt in two worlds. -/
abbrev InStep (P : Tree → Tree → Prop) (x : Attempt ε α) (Q : Except ε α → Tree → Tree → Prop) :
    Prop :=
  Coupled P x.run x.run Q

section Couples

variable {P R : Tree → Tree → Prop}

/-! ## Computations -/

theorem coupled_imp {x x' : Run α} {Q Q' : α → Tree → Tree → Prop} (h : Coupled P x x' Q')
    (hP : ∀ t t', R t t' → P t t') (hQ : ∀ a t t', Q' a t t' → Q a t t') : Coupled R x x' Q := by
  intro w w' hw
  obtain ⟨hr, he, hq⟩ := h w w' (hP _ _ hw)
  exact ⟨hr, he, hQ _ _ _ hq⟩

/-- What does not depend on the trees may be used at once. -/
theorem coupled_and {p : Prop} {x x' : Run α} {Q : α → Tree → Tree → Prop}
    (h : p → Coupled P x x' Q) : Coupled (fun t t' => p ∧ P t t') x x' Q :=
  fun w w' hw => h hw.1 w w' hw.2

/-- The trees at the start may be named. -/
theorem coupled_of_trees {x x' : Run α} {Q : α → Tree → Tree → Prop}
    (h : ∀ t t', P t t' → Coupled (fun u u' => u = t ∧ u' = t') x x' Q) : Coupled P x x' Q :=
  fun w w' hw => h _ _ hw w w' ⟨rfl, rfl⟩

theorem coupled_exists {ι : Type} {S : ι → Tree → Tree → Prop} {x x' : Run α}
    {Q : α → Tree → Tree → Prop} (h : ∀ i, Coupled (S i) x x' Q) :
    Coupled (fun t t' => ∃ i, S i t t') x x' Q := by
  intro w w' hw
  obtain ⟨i, hw⟩ := hw
  exact h i w w' hw

theorem coupled_pure {a : α} {Q : α → Tree → Tree → Prop} (h : ∀ t t', P t t' → Q a t t') :
    Coupled P (pure a : Run α) (pure a) Q :=
  fun w w' hw => ⟨rfl, .refl w w', h _ _ hw⟩

theorem coupled_bind {x x' : Run β} {f f' : β → Run α} {M : β → Tree → Tree → Prop}
    {Q : α → Tree → Tree → Prop} (hx : Coupled P x x' M)
    (hf : ∀ b, Coupled (M b) (f b) (f' b) Q) : Coupled P (x >>= f) (x' >>= f') Q := by
  intro w w' hw
  obtain ⟨hr, he, hm⟩ := hx w w' hw
  rw [World.run_bind, World.run_bind]
  have hr : (x'.run w').1 = (x.run w).1 := hr
  rw [hr]
  obtain ⟨hr', he', hq⟩ := hf _ _ _ hm
  exact ⟨hr', he.trans he', hq⟩

theorem coupled_note {level : Level} {topic : Topic} {message : String} :
    Coupled P (World.note level topic message) (World.note level topic message) fun _ => P :=
  fun _ _ hw => ⟨rfl, .of_eq rfl rfl rfl rfl, hw⟩

theorem coupled_emit {e : Event} : Coupled P (World.emit e) (World.emit e) fun _ => P :=
  fun _ _ hw => ⟨rfl, ⟨⟨[e], rfl, rfl⟩, [], (List.append_nil _).symm, (List.append_nil _).symm⟩, hw⟩

/-- The same step is taken in both trees. -/
theorem coupled_take {s : Tree.Step} {Q : Unit → Tree → Tree → Prop}
    (h : ∀ t t', P t t' → Q () (t.apply s) (t'.apply s)) :
    Coupled P (World.take s) (World.take s) Q :=
  fun _ _ hw => ⟨rfl, .of_eq rfl rfl rfl rfl, h _ _ hw⟩

/-! ## Attempts -/

variable {Q : Except ε α → Tree → Tree → Prop}

theorem coupled_throw {e : ε} (h : ∀ t t', P t t' → Q (.error e) t t') :
    Coupled P (throw e : Attempt ε α).run (throw e : Attempt ε α).run Q :=
  fun w w' hw => ⟨rfl, .refl w w', h _ _ hw⟩

/-- Nothing comes after a failure. -/
theorem coupled_throw_bind {e : ε} {f f' : β → Attempt ε α}
    (h : ∀ t t', P t t' → Q (.error e) t t') :
    Coupled P (MonadExcept.throw e >>= f).run (MonadExcept.throw e >>= f').run Q :=
  fun w w' hw => ⟨rfl, .refl w w', h _ _ hw⟩

theorem coupled_return {a : α} (h : ∀ t t', P t t' → Q (.ok a) t t') :
    Coupled P (pure a : Attempt ε α).run (pure a : Attempt ε α).run Q :=
  fun w w' hw => ⟨rfl, .refl w w', h _ _ hw⟩

/-- A failure of the first part is a failure of the whole. -/
theorem coupled_run_bind {x x' : Attempt ε β} {f f' : β → Attempt ε α}
    {M : Except ε β → Tree → Tree → Prop} (hx : Coupled P x.run x'.run M)
    (hok : ∀ b, Coupled (M (.ok b)) (f b).run (f' b).run Q)
    (herr : ∀ e t t', M (.error e) t t' → Q (.error e) t t') :
    Coupled P (x >>= f).run (x' >>= f').run Q := by
  rw [ExceptT.run_bind, ExceptT.run_bind]
  refine coupled_bind hx fun r => ?_
  cases r with
  | ok b => exact hok b
  | error e => exact coupled_pure (herr e)

/-- A computation that cannot fail, as a part of an attempt. -/
theorem coupled_tell {x x' : Run α} (h : Coupled P x x' fun a => Q (.ok a)) :
    Coupled P (liftM x : Attempt ε α).run (liftM x' : Attempt ε α).run Q := by
  intro w w' hw
  obtain ⟨hr, he, hq⟩ := h w w' hw
  exact ⟨congrArg Except.ok hr, he, hq⟩

/-- The same, with the rest of the attempt. -/
theorem coupled_tell_bind {x x' : Run β} {f f' : β → Attempt ε α}
    {M : β → Tree → Tree → Prop} (hx : Coupled P x x' M)
    (hf : ∀ b, Coupled (M b) (f b).run (f' b).run Q) :
    Coupled P (liftM x >>= f).run (liftM x' >>= f').run Q :=
  coupled_bind hx hf

theorem coupled_note_bind {level : Level} {topic : Topic} {message : String}
    {f f' : Unit → Attempt ε α} (hf : Coupled P (f ()).run (f' ()).run Q) :
    Coupled P (liftM (World.note level topic message) >>= f).run
      (liftM (World.note level topic message) >>= f').run Q :=
  coupled_tell_bind coupled_note fun _ => hf

/-- The two worlds that are looked at have the trees that `P` relates. -/
theorem coupled_get_bind {f f' : World → Attempt ε α}
    (h : ∀ w w', P w.tree w'.tree →
      Coupled (fun t t' => P t t' ∧ t = w.tree ∧ t' = w'.tree) (f w).run (f' w').run Q) :
    Coupled P (get >>= f).run (get >>= f').run Q :=
  fun w w' hw => h w w' hw w w' ⟨hw, rfl, rfl⟩

/-- An answer that is known to be the same in both, or a failure. -/
theorem coupled_except_bind {x x' : Except ε β} {f f' : β → Attempt ε α} (hx : x' = x)
    (hok : ∀ b, x = .ok b → Coupled P (f b).run (f' b).run Q)
    (herr : ∀ e, x = .error e → ∀ t t', P t t' → Q (.error e) t t') :
    Coupled P (liftM x >>= f).run (liftM x' >>= f').run Q := by
  subst hx
  cases x' with
  | ok b => exact hok b rfl
  | error e => exact coupled_throw (herr e rfl)

theorem coupled_adapt {x x' : Attempt ε' α} {f : ε' → ε}
    (h : Coupled P x.run x'.run fun r => Q (r.mapError f)) :
    Coupled P (x.adapt f).run (x'.adapt f).run Q := by
  intro w w' hw
  obtain ⟨hr, he, hq⟩ := h w w' hw
  exact ⟨congrArg (Except.mapError f) hr, he, hq⟩

/-- An attempt that states its failures in other words, with the rest. -/
theorem coupled_adapt_bind {x x' : Attempt ε' β} {f : ε' → ε} {g g' : β → Attempt ε α}
    {M : Except ε' β → Tree → Tree → Prop} (hx : Coupled P x.run x'.run M)
    (hok : ∀ b, Coupled (M (.ok b)) (g b).run (g' b).run Q)
    (herr : ∀ e t t', M (.error e) t t' → Q (.error (f e)) t t') :
    Coupled P (x.adapt f >>= g).run (x'.adapt f >>= g').run Q := by
  rw [ExceptT.run_bind, ExceptT.run_bind]
  -- The outcome in the first words is what the rest goes by.
  have hmap : ∀ y : Attempt ε' β, ∀ k : Except ε β → Run (Except ε α),
      (y.adapt f).run >>= k = y.run >>= fun r => k (r.mapError f) := fun y k => by
    change (Except.mapError f <$> y.run) >>= k = _
    rw [bind_map_left]
  rw [hmap, hmap]
  refine coupled_bind hx fun r => ?_
  cases r with
  | ok b => exact hok b
  | error e => exact coupled_pure (herr e)

/-- An attempt whose failure is looked at and not passed on. -/
theorem coupled_outcome_bind {x x' : Attempt ε' β} {f f' : Except ε' β → Attempt ε α}
    {M : Except ε' β → Tree → Tree → Prop} (hx : Coupled P x.run x'.run M)
    (hf : ∀ r, Coupled (M r) (f r).run (f' r).run Q) :
    Coupled P (liftM x.run >>= f).run (liftM x'.run >>= f').run Q :=
  coupled_tell_bind hx hf

/-- A part whose result does not matter. -/
theorem coupled_discard_bind {x x' : Attempt ε β} {f f' : Unit → Attempt ε α}
    (h : Coupled P (x >>= fun _ => f ()).run (x' >>= fun _ => f' ()).run Q) :
    Coupled P (discard x >>= f).run (discard x' >>= f').run Q := by
  have hdiscard : ∀ y : Attempt ε β, discard y = (fun _ => ()) <$> y := fun _ => rfl
  rw [hdiscard, hdiscard, bind_map_left, bind_map_left]
  exact h

theorem run_tryCatch (x : Attempt ε α) (f : ε → Attempt ε α) :
    (tryCatch x f).run = x.run >>= fun r =>
      match r with
      | .ok a => pure (.ok a)
      | .error e => (f e).run := rfl

theorem coupled_catch {x x' : Attempt ε α} {f f' : ε → Attempt ε α}
    {M : Except ε α → Tree → Tree → Prop} (hx : Coupled P x.run x'.run M)
    (hok : ∀ a t t', M (.ok a) t t' → Q (.ok a) t t')
    (herr : ∀ e, Coupled (M (.error e)) (f e).run (f' e).run Q) :
    Coupled P (tryCatch x f).run (tryCatch x' f').run Q := by
  rw [run_tryCatch, run_tryCatch]
  refine coupled_bind hx fun r => ?_
  cases r with
  | ok a => exact coupled_pure (hok a)
  | error e => exact herr e

/-- A loop keeps what each of its rounds keeps. -/
theorem coupled_foldlM {f : β → α → Attempt ε β} {Q : Except ε β → Tree → Tree → Prop}
    (hstep : ∀ b a, InStep (Q (.ok b)) (f b a) Q) (l : List α) (b : β) :
    InStep (Q (.ok b)) (l.foldlM f b) Q := by
  induction l generalizing b with
  | nil => exact coupled_return fun _ _ h => h
  | cons a l ih =>
    rw [List.foldlM_cons]
    exact coupled_run_bind (hstep b a) ih fun _ _ _ h => h

/-- Attempts of which it is known what each comes to. -/
theorem coupled_of_ends {x x' : Attempt ε α}
    (h : ∀ w w', P w.tree w'.tree → Ends w x fun r v => Ends w' x' fun r' v' =>
      r' = r ∧ World.Echoes w w' v v' ∧ Q r v.tree v'.tree) : Coupled P x.run x'.run Q :=
  h

end Couples

/-! ## Computations that remember -/

/-- One computation that could remember something, but has nothing to remember, in two worlds. -/
abbrev Together (P : Tree → Tree → Prop) (x : StateT Unit Run α) (Q : α → Tree → Tree → Prop) :
    Prop :=
  Coupled P (x.run ()) (x.run ()) fun r => Q r.1

section Memory

variable {P M : Tree → Tree → Prop}

/-- What the two sides come to, one after the other. -/
theorem settles_of_together {w w' : World} {x : StateT Unit Run α} {Q : α → Tree → Tree → Prop}
    (hx : Together P x Q) (hw : P w.tree w'.tree) :
    Settles w () x fun a _ v => Settles w' () x fun a' _ v' =>
      a' = a ∧ World.Echoes w w' v v' ∧ Q a v.tree v'.tree := by
  obtain ⟨hr, hechoes, hq⟩ := hx w w' hw
  exact ⟨congrArg Prod.fst hr, hechoes, hq⟩

theorem together_pure {a : α} {Q : α → Tree → Tree → Prop} (h : ∀ t t', P t t' → Q a t t') :
    Together P (pure a) Q :=
  coupled_pure h

theorem together_bind {x : StateT Unit Run β} {f : β → StateT Unit Run α}
    {N : β → Tree → Tree → Prop} {Q : α → Tree → Tree → Prop} (hx : Together P x N)
    (hf : ∀ b, Together (N b) (f b) Q) : Together P (x >>= f) Q :=
  coupled_bind hx fun r => hf r.1

theorem together_tell_bind {x : Run β} {f : β → StateT Unit Run α} {Q : α → Tree → Tree → Prop}
    (hx : Coupled P x x fun _ => M) (hf : ∀ b, Together M (f b) Q) :
    Together P (liftM x >>= f) Q :=
  coupled_bind (coupled_bind hx fun b => coupled_pure (a := (b, ())) (Q := fun _ => M)
    fun _ _ h => h) fun r => hf r.1

/-- A loop, by what holds before each round: `I l b` speaks of the elements still to come. -/
theorem together_foldlM {f : β → α → StateT Unit Run β} (I : List α → β → Tree → Tree → Prop)
    (hstep : ∀ a l b, Together (I (a :: l) b) (f b a) (I l)) (l : List α) (b : β) :
    Together (I l b) (l.foldlM f b) (I []) := by
  induction l generalizing b with
  | nil => exact together_pure fun _ _ h => h
  | cons a l ih =>
    rw [List.foldlM_cons]
    exact together_bind (hstep a l b) ih

/-- An attempt that remembers, by the outcome of its first part. -/
theorem together_run_bind {x : ExceptT ε (StateT Unit Run) β}
    {f : β → ExceptT ε (StateT Unit Run) α} {N : Except ε β → Tree → Tree → Prop}
    {Q : Except ε α → Tree → Tree → Prop} (hx : Together P x.run N)
    (hok : ∀ b, Together (N (.ok b)) (f b).run Q)
    (herr : ∀ e t t', N (.error e) t t' → Q (.error e) t t') : Together P (x >>= f).run Q := by
  rw [ExceptT.run_bind]
  refine together_bind hx fun r => ?_
  cases r with
  | ok b => exact hok b
  | error e => exact together_pure (herr e)

theorem together_run_tell_bind {x : Run β} {f : β → ExceptT ε (StateT Unit Run) α}
    {Q : Except ε α → Tree → Tree → Prop} (hx : Coupled P x x fun _ => M)
    (hf : ∀ b, Together M (f b).run Q) : Together P (liftM x >>= f).run Q :=
  together_tell_bind hx hf

theorem together_run_lift {x : StateT Unit Run α} {Q : Except ε α → Tree → Tree → Prop}
    (h : Together P x fun a => Q (.ok a)) :
    Together P (liftM x : ExceptT ε (StateT Unit Run) α).run Q := by
  have hlift : (liftM x : ExceptT ε (StateT Unit Run) α).run = Except.ok <$> x := rfl
  rw [hlift, map_eq_pure_bind]
  exact together_bind h fun _ => together_pure fun _ _ h => h

/-- One that remembers, with the rest that its result decides. -/
theorem together_run_lift_bind {x : StateT Unit Run β} {f : β → ExceptT ε (StateT Unit Run) α}
    {N : β → Tree → Tree → Prop} {Q : Except ε α → Tree → Tree → Prop} (hx : Together P x N)
    (hf : ∀ b, Together (N b) (f b).run Q) : Together P (liftM x >>= f).run Q :=
  together_bind hx hf

/-- An attempt that remembers nothing, among those that do. -/
theorem together_attempt {x : Attempt ε α} {Q : Except ε α → Tree → Tree → Prop}
    (h : InStep P x Q) : Together P (StateT.lift x.run) Q :=
  coupled_bind h fun _ => coupled_pure fun _ _ h => h

end Memory

end FileListCache
