/-
  FileListCache.Proofs.Servers

  What servers on the web answer. Asking them looks at no file and changes none, so their answers
  are independent of the cache, though they may depend on what was asked before:
  `Fetcher.answers_of_web` gives the answer that the theorems about runs ask for, for every address
  but those of local files.
-/

import FileListCache.Proofs.Fetching

namespace FileListCache

open World (Same)

variable {ε ε' α β : Type} {h : Host}

/-! ## Attempts that look at nothing -/

/-- What servers were asked before decides the outcome of the attempt and what they were asked after
it; nothing changes that anyone else could see. -/
def IsBlind (x : Attempt ε α) : Prop :=
  ∃ r : List Http.Request → Except ε α × List Http.Request,
    ∀ w, Ends w x fun r' w' => r w.requests = (r', w'.requests) ∧ Same w w'

namespace IsBlind

theorem pure (a : α) : IsBlind (pure a : Attempt ε α) :=
  ⟨fun before => (.ok a, before), fun w => ends_pure ⟨rfl, .refl w⟩⟩

theorem throw (e : ε) : IsBlind (throw e : Attempt ε α) :=
  ⟨fun before => (.error e, before), fun w => ends_throw ⟨rfl, .refl w⟩⟩

theorem except (x : Except ε α) : IsBlind (liftM x : Attempt ε α) :=
  ⟨fun before => (x, before), fun w => ends_except ⟨rfl, .refl w⟩⟩

theorem bind {x : Attempt ε β} {f : β → Attempt ε α} (hx : IsBlind x)
    (hf : ∀ b, IsBlind (f b)) : IsBlind (x >>= f) := by
  obtain ⟨r, hr⟩ := hx
  choose rest hrest using hf
  refine ⟨fun before => match r before with
    | (.ok b, after) => rest b after
    | (.error e, after) => (.error e, after), fun w => ends_bind (hr w) ?_ ?_⟩
  · intro b w₁ hb
    refine ends_imp (hrest b w₁) fun r' w' hr' => ⟨?_, hb.2.trans hr'.2⟩
    simp only [hb.1, hr'.1]
  · intro e w₁ he
    exact ⟨by simp only [he.1], he.2⟩

theorem adapt {x : Attempt ε' α} {f : ε' → ε} (hx : IsBlind x) : IsBlind (x.adapt f) := by
  obtain ⟨r, hr⟩ := hx
  refine ⟨fun before => ((r before).1.mapError f, (r before).2), fun w =>
    ends_adapt (ends_imp (hr w) ?_)⟩
  intro r' w' hr'
  exact ⟨by simp only [hr'.1], hr'.2⟩

end IsBlind

/-! ## Requests -/

theorem isBlind_ask (r : Http.Request) :
    IsBlind (liftM (World.ask h r) : Attempt ε (Option Http.Reply)) :=
  ⟨fun before => (.ok (h.answer.reply before r), before ++ [r]), fun _ =>
    ends_tell ⟨rfl, rfl, rfl, rfl⟩⟩

/-- A request is answered whatever the disk holds, however often it is sent on to other
addresses. -/
theorem Http.Client.isBlind_send (c : Http.Client) (left : Nat) (u : Url) :
    IsBlind (c.send h left u) := by
  induction left generalizing c u with
  | zero =>
    unfold send
    refine .bind (.except _) fun _ => .bind (isBlind_ask _) fun reply => ?_
    cases reply with
    | none => exact .throw _
    | some reply =>
      dsimp only
      split
      · split
        · exact .throw _
        · exact .throw _
      · exact .pure reply
  | succ left ih =>
    unfold send
    refine .bind (.except _) fun _ => .bind (isBlind_ask _) fun reply => ?_
    cases reply with
    | none => exact .throw _
    | some reply =>
      dsimp only
      split
      · split
        · exact .throw _
        · -- The next address may be wrong, or it is asked in turn.
          split
          · exact .throw _
          · exact ih _ _
      · exact .pure reply

theorem ends_ask_bind {α : Type} {r : Http.Request} {w : World}
    {rest : Option Http.Reply → Attempt ε α} {Q : Except ε α → World → Prop}
    (hrest : Ends { w with requests := w.requests ++ [r] }
      (rest (h.answer.reply w.requests r)) Q) :
    Ends w (do rest (← World.ask h r)) Q :=
  ends_tell_bind hrest

/-- A reply that does not send the client on is what it gets. -/
theorem Http.Client.get_of_reply {c : Http.Client} {u : Url} {w : World} {reply : Http.Reply}
    (haddress : Http.Address.check u.toText = .ok ())
    (hreply : h.answer.reply w.requests (c.request u) = some reply)
    (hstays : Http.Client.redirects.contains reply.status = false) :
    Ends w (c.get h u) fun r _ => r = .ok reply := by
  unfold get send
  refine ends_except_bind (fun _ _ => ends_ask_bind ?_) fun e he => nomatch haddress.symm.trans he
  simp only [hreply, hstays, Bool.false_eq_true, if_false]
  exact ends_pure rfl

/-- Where no server can be reached the client gets nothing. -/
theorem Http.Client.get_of_none {c : Http.Client} {u : Url} {w : World}
    (hreply : h.answer.reply w.requests (c.request u) = none) :
    Ends w (c.get h u) fun r _ => ∃ e, r = .error e := by
  unfold get send
  refine ends_except_bind (fun _ _ => ends_ask_bind ?_) fun e _ => ⟨e, rfl⟩
  simp only [hreply]
  exact ends_throw ⟨_, rfl⟩

namespace Fetcher

variable {f : Fetcher} {u : Url} {url : String} {R : Tree → Prop}

/-- Outside of local files a document is opened without a look at the disk. -/
theorem isBlind_openUrl (hu : u.scheme ≠ "file") : IsBlind (f.openUrl h u) := by
  unfold openUrl
  rw [if_neg hu]
  refine .bind (.adapt (f.client.isBlind_send _ u)) fun reply => .bind (.except _) fun body => ?_
  split
  · exact .bind (.throw _) fun _ => .pure _
  · exact .pure _

/-- What is opened there is the body of a reply. -/
theorem openUrl_body (hu : u.scheme ≠ "file") (w : World) :
    Gives w (f.openUrl h u) fun opened _ => ∃ body, opened.1 = .body body := by
  unfold openUrl
  rw [if_neg hu]
  refine gives_bind (R := fun _ _ => True) (fun _ _ => trivial) fun reply w₁ _ => ?_
  apply gives_except_bind
  intro body _
  split
  · exact gives_throw
  · exact gives_pure ⟨body, rfl⟩

/-- What a server on the web answers after some requests. -/
def webAnswer (h : Host) (f : Fetcher) (url : String) (before : List Http.Request) :
    Option Http.Body :=
  match Url.ofText url with
  | .error _ => none
  | .ok u =>
    match (({ requests := before } : World).attempt (f.openUrl h u)).1 with
    | .ok (incoming, _) => some (incoming.content {})
    | .error _ => none

/-- An address that is not that of a local file is answered whatever the disk holds. -/
theorem answers_of_web (hurl : ∀ u, Url.ofText url = .ok u → u.scheme ≠ "file") :
    f.Answers h R url (f.webAnswer h url) := by
  unfold Answers webAnswer
  cases hu : Url.ofText url with
  | error e => exact fun _ => rfl
  | ok u =>
    have hscheme := hurl u hu
    obtain ⟨r, hr⟩ := f.isBlind_openUrl (h := h) hscheme
    intro w _
    -- What is opened in any world is what is opened on an empty disk after the same requests.
    have hfirst : (({ requests := w.requests } : World).attempt (f.openUrl h u)).1 =
        (r w.requests).1 := (congrArg Prod.fst (hr { requests := w.requests }).1).symm
    have hbody := openUrl_body (f := f) (h := h) hscheme { requests := w.requests }
    unfold Gives Ends at hbody
    rw [hfirst] at hbody
    simp only [hfirst]
    refine ends_imp (hr w) ?_
    intro r' w' hr'
    obtain ⟨hdecided, hsame⟩ := hr'
    rw [hdecided] at hbody ⊢
    refine ⟨hsame, fun incoming total he t _ => ?_, fun e he => ?_⟩
    · obtain ⟨body, rfl⟩ := hbody (incoming, total) he
      rw [he]
      rfl
    · rw [he]

/-- A reply that neither sends the client on nor refuses the document is the answer. -/
theorem webAnswer_of_reply {before : List Http.Request} {reply : Http.Reply} {body : Http.Body}
    (hu : Url.ofText url = .ok u) (hscheme : u.scheme ≠ "file")
    (haddress : Http.Address.check u.toText = .ok ())
    (hreply : h.answer.reply before (f.client.request u) = some reply)
    (hstays : Http.Client.redirects.contains reply.status = false)
    (hbody : reply.body = .ok body) (haccepts : isRefusal reply.status = false) :
    f.webAnswer h url before = some body := by
  have hopen : Ends { requests := before } (f.openUrl h u) fun r _ =>
      ∃ total, r = .ok (.body body, total) := by
    unfold openUrl
    rw [if_neg hscheme]
    apply ends_adapt_bind (Http.Client.get_of_reply haddress hreply hstays)
    · intro r w₁ hr
      cases hr
      rw [hbody]
      refine ends_except_bind (fun b hb => ?_) nofun
      cases hb
      rw [haccepts]
      exact ends_pure ⟨_, rfl⟩
    · intro e w₁ he
      cases he
  obtain ⟨total, hr⟩ := hopen
  rw [webAnswer, hu]
  simp only [hr]
  rfl

theorem webAnswer_of_none {before : List Http.Request} (hu : Url.ofText url = .ok u)
    (hscheme : u.scheme ≠ "file") (hreply : h.answer.reply before (f.client.request u) = none) :
    f.webAnswer h url before = none := by
  have hopen : Ends { requests := before } (f.openUrl h u) fun r _ => ∃ e, r = .error e := by
    unfold openUrl
    rw [if_neg hscheme]
    apply ends_adapt_bind (Http.Client.get_of_none hreply)
    · rintro r w₁ ⟨e, ⟨⟩⟩
    · exact fun e w₁ _ => ⟨_, rfl⟩
  obtain ⟨e, hr⟩ := hopen
  rw [webAnswer, hu]
  simp only [hr]

end Fetcher

end FileListCache
