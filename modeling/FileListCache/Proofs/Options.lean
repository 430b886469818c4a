/-
  FileListCache.Proofs.Options

  No option is lost. A word of a command line gives a setting by its name, with a value behind an
  equals sign or in the next word, or by its letter behind letters of switches (`Gives`). If the
  command line is understood, what it says has a value for every setting that is given in front of
  two dashes, wherever that is (`has_of_ofWords`).

  What is read so far holds a setting if it has a value for it or waits for one (`Draft.Holds`).
  Each step of the reader keeps what is held (`Draft.Grows`), or the command line is rejected.
-/

import FileListCache.CommandLine.Arguments
import FileListCache.Proofs.Attempt
import FileListCache.Proofs.Characters

namespace FileListCache.CommandLine

/-! ## Words that give settings -/

/-- The word gives the setting. -/
inductive Gives (s : Setting) : List Char → Prop
  | named : Gives s ('-' :: '-' :: s.name.toList)
  | assigned (value : List Char) : Gives s ('-' :: '-' :: (s.name.toList ++ '=' :: value))
  | lettered {switches rest : List Char} {c : Char}
      (hswitches : ∀ x ∈ switches, ∃ switch : Switch, switch.letter? = some x)
      (hc : s.letter? = some c) : Gives s ('-' :: (switches ++ c :: rest))

/-- What was said has a value for the setting. -/
def Arguments.has (a : Arguments) : Setting → Bool
  | .config => a.config.isSome
  | .mirrorConfig => a.mirrorConfig.isSome
  | .cachePath => a.cachePath.isSome
  | .architecture => a.architecture.isSome
  | .proxy => a.proxy.isSome
  | .header => a.headers.isSome
  | .userAgent => a.userAgent.isSome
  | .timeout => a.timeout.isSome

variable {s s' : Setting} {p : Place} {c : Char} {cs : List Char} {value w : String}
  {words : List String} {g g' : Given} {d d' : Draft} {a : Arguments}

theorem ofName?_name (p : Place) (s : Setting) : Opt.ofName? p s.name = some (.setting s) := by
  cases p <;> cases s <;> decide

theorem ofLetter?_setting (p : Place) (hc : s.letter? = some c) :
    Opt.ofLetter? p c = some (.setting s) := by
  cases s <;> cases hc <;> cases p <;> decide

/-- A letter of a switch is no letter of a setting. -/
theorem ofLetter?_switch (p : Place) {x : Switch} (hc : x.letter? = some c) :
    Opt.ofLetter? p c = some (.switch x) ∨ Opt.ofLetter? p c = none := by
  cases x <;> cases hc <;> cases p <;> decide

theorem equals_notMem_name (s : Setting) : '=' ∉ s.name.toList := by
  cases s <;> decide

/-! ## Steps of the reader -/

namespace Given

/-- The values of timeouts are counts. -/
def Counts (g : Given) : Prop := ∀ value, (Setting.timeout, value) ∈ g.values →
  Text.count? value ≠ none

theorem values_of_addSwitch {x : Switch} (h : g.addSwitch x = .ok g') : g'.values = g.values := by
  unfold addSwitch at h
  split at h
  · cases h
  · cases h
  · cases h
    rfl
  · split at h <;> cases h
    rfl

theorem of_addValue (h : g.addValue s value = .ok g') :
    g'.values = g.values ++ [(s, value)] ∧ (s = .timeout → Text.count? value ≠ none) := by
  unfold addValue at h
  split at h
  · cases h
  · split at h
    · cases h
    · rename_i hcount
      cases h
      exact ⟨rfl, fun hs hnone => hcount ⟨hs, hnone⟩⟩

end Given

namespace Draft

/-- The setting has a value, or waits for one. -/
def Holds (d : Draft) (s : Setting) : Prop :=
  (∃ value, (s, value) ∈ d.given.values) ∨ ∃ value, d.pending = some ⟨s, value⟩

/-- Nothing that was held is lost. -/
structure Grows (d d' : Draft) : Prop where
  holds : ∀ s, d.Holds s → d'.Holds s
  counts : d.given.Counts → d'.given.Counts

theorem Grows.refl (d : Draft) : Grows d d := ⟨fun _ h => h, fun h => h⟩

theorem Grows.trans {d'' : Draft} (h : Grows d d') (h' : Grows d' d'') : Grows d d'' :=
  ⟨fun s hs => h'.holds s (h.holds s hs), fun hc => h'.counts (h.counts hc)⟩

/-- More values are held, and nothing waited. -/
theorem Grows.of_values (hpending : d.pending = none) (hvalues : d.given.values ⊆ d'.given.values)
    (hcounts : d.given.Counts → d'.given.Counts) : Grows d d' := by
  refine ⟨fun s hs => ?_, hcounts⟩
  rcases hs with ⟨value, hvalue⟩ | ⟨value, hvalue⟩
  · exact .inl ⟨value, hvalues hvalue⟩
  · rw [hpending] at hvalue
    cases hvalue

theorem addValue_grows (hpending : d.pending = none) (h : d.given.addValue s value = .ok g) :
    Grows d { d with given := g } ∧ Holds { d with given := g } s := by
  obtain ⟨hvalues, hcount⟩ := Given.of_addValue h
  refine ⟨.of_values hpending (by simp [hvalues]) fun hcounts other hother => ?_, .inl ⟨value, ?_⟩⟩
  · rw [hvalues] at hother
    rcases List.mem_append.1 hother with hother | hother
    · exact hcounts other hother
    · cases List.mem_singleton.1 hother
      exact hcount rfl
  · simp [hvalues]

theorem settle_grows (h : d.settle = .ok d') : Grows d d' ∧ d'.pending = none := by
  unfold settle at h
  split at h
  · rename_i hpending
    cases h
    exact ⟨.refl d, hpending⟩
  · cases h
  · rename_i setting value hpending
    obtain ⟨g, hg, h⟩ := exists_of_bind_ok h
    cases h
    obtain ⟨hvalues, hcount⟩ := Given.of_addValue hg
    obtain ⟨hgrows, hholds⟩ := addValue_grows (d := { d with pending := none }) rfl hg
    refine ⟨⟨fun s hs => ?_, hgrows.counts⟩, rfl⟩
    rcases hs with hs | ⟨value', hs⟩
    · exact hgrows.holds s (.inl hs)
    · cases hpending.symm.trans hs
      exact hholds

theorem switch_grows {x : Switch} (h : d.switch x = .ok d') : Grows d d' := by
  obtain ⟨settled, hsettle, h⟩ := exists_of_bind_ok h
  obtain ⟨g, hg, h⟩ := exists_of_bind_ok h
  cases h
  obtain ⟨hgrows, hpending⟩ := settle_grows hsettle
  have hvalues := Given.values_of_addSwitch hg
  exact hgrows.trans (.of_values hpending (by simp [hvalues]) fun hcounts => by
    unfold Given.Counts
    rwa [hvalues])

theorem assign_grows (h : d.assign s value = .ok d') : Grows d d' ∧ d'.Holds s := by
  obtain ⟨settled, hsettle, h⟩ := exists_of_bind_ok h
  obtain ⟨g, hg, h⟩ := exists_of_bind_ok h
  cases h
  obtain ⟨hgrows, hpending⟩ := settle_grows hsettle
  obtain ⟨hadded, hholds⟩ := addValue_grows hpending hg
  exact ⟨hgrows.trans hadded, hholds⟩

theorem expect_grows (h : d.expect s = .ok d') : Grows d d' ∧ d'.Holds s := by
  obtain ⟨settled, hsettle, h⟩ := exists_of_bind_ok h
  cases h
  obtain ⟨hgrows, hpending⟩ := settle_grows hsettle
  exact ⟨hgrows.trans (.of_values hpending (fun _ h => h) fun h => h), .inr ⟨none, rfl⟩⟩

theorem word_grows (h : d.word p w = .ok d') : Grows d d' := by
  unfold word at h
  split at h
  · obtain ⟨settled, hsettle, h⟩ := exists_of_bind_ok h
    cases h
    obtain ⟨hgrows, hpending⟩ := settle_grows hsettle
    exact hgrows.trans (.of_values hpending (fun _ h => h) fun h => h)
  · cases h

theorem words_grows (h : words.foldlM (word p) d = .ok d') : Grows d d' := by
  induction words generalizing d with
  | nil =>
    cases h
    exact .refl _
  | cons w words ih =>
    rw [List.foldlM_cons] at h
    obtain ⟨next, hword, h⟩ := exists_of_bind_ok h
    exact (word_grows hword).trans (ih h)

theorem takeValue_grows (d : Draft) (value : String) : Grows d (d.takeValue value) := by
  refine ⟨fun s hs => ?_, fun h => h⟩
  rcases hs with hs | ⟨value', hs⟩
  · exact .inl hs
  · exact .inr ⟨some value, by simp [takeValue, hs]⟩

/-! ## Words -/

theorem named_grows (h : named p d cs = .ok d') : Grows d d' := by
  unfold named at h
  rcases Text.splitFirst (· = '=') cs with _ | ⟨name, value⟩
  · dsimp only at h
    split at h
    · cases h
    · exact switch_grows h
    · cases h
    · exact (expect_grows h).1
    · exact (assign_grows h).1
  · dsimp only at h
    split at h
    · cases h
    · exact switch_grows h
    · cases h
    · exact (expect_grows h).1
    · exact (assign_grows h).1

theorem named_holds (hcs : cs = s.name.toList ∨ ∃ value, cs = s.name.toList ++ '=' :: value)
    (h : named p d cs = .ok d') : d'.Holds s := by
  have hname := equals_notMem_name s
  unfold named at h
  rcases hcs with rfl | ⟨value, rfl⟩
  · rw [Text.splitFirst_eq, if_neg hname] at h
    simp only [String.ofList_toList, ofName?_name] at h
    exact (expect_grows h).2
  · have hbefore : ∀ c ∈ s.name.toList, decide (c ≠ '=') = true := by
      intro c hc
      have hne : c ≠ '=' := by
        rintro rfl
        exact hname hc
      simpa using hne
    have hsplit : Text.splitFirst (· = '=') (s.name.toList ++ '=' :: value) =
        some (s.name.toList, value) := by
      rw [Text.splitFirst_eq, if_pos (by simp), List.takeWhile_append_of_pos hbefore,
        List.dropWhile_append_of_pos hbefore]
      simp
    rw [hsplit] at h
    simp only [String.ofList_toList, ofName?_name] at h
    exact (assign_grows h).2

theorem lettered_grows (h : lettered p d cs = .ok d') : Grows d d' := by
  induction cs generalizing d with
  | nil =>
    cases h
    exact .refl _
  | cons c rest ih =>
    unfold lettered at h
    split at h
    · cases h
    · obtain ⟨next, hswitch, h⟩ := exists_of_bind_ok h
      exact (switch_grows hswitch).trans (ih h)
    · split at h
      · exact (expect_grows h).1
      · exact (assign_grows h).1
      · exact (assign_grows h).1

theorem lettered_holds {switches rest : List Char}
    (hswitches : ∀ x ∈ switches, ∃ switch : Switch, switch.letter? = some x)
    (hc : s.letter? = some c) (h : lettered p d (switches ++ c :: rest) = .ok d') :
    d'.Holds s := by
  induction switches generalizing d with
  | nil =>
    rw [List.nil_append] at h
    unfold lettered at h
    rw [ofLetter?_setting p hc] at h
    dsimp only at h
    split at h
    · exact (expect_grows h).2
    · exact (assign_grows h).2
    · exact (assign_grows h).2
  | cons x switches ih =>
    obtain ⟨switch, hx⟩ := hswitches x List.mem_cons_self
    rw [List.cons_append] at h
    unfold lettered at h
    rcases ofLetter?_switch p hx with hletter | hletter
    · rw [hletter] at h
      obtain ⟨next, -, h⟩ := exists_of_bind_ok h
      exact ih (fun y hy => hswitches y (List.mem_cons_of_mem _ hy)) h
    · rw [hletter] at h
      cases h

/-- Whatever a word holds, it keeps what was held. -/
theorem options?_grows (h : d.options? p w = some (.ok d')) : Grows d d' := by
  unfold options? at h
  split at h
  · exact named_grows (Option.some.inj h)
  · exact lettered_grows (Option.some.inj h)
  · cases h

/-- A word that gives a setting is read as options, and the setting is held then. -/
theorem options?_holds (hw : Gives s w.toList) :
    ∃ r, d.options? p w = some r ∧ ∀ d', r = .ok d' → d'.Holds s := by
  unfold options?
  generalize w.toList = cs at hw
  cases hw with
  | named => exact ⟨_, rfl, fun d' h => named_holds (.inl rfl) h⟩
  | assigned value => exact ⟨_, rfl, fun d' h => named_holds (.inr ⟨value, rfl⟩) h⟩
  | @lettered switches rest c hswitches hc =>
    refine ⟨lettered p d (switches ++ c :: rest), ?_, fun d' h => lettered_holds hswitches hc h⟩
    -- The first letter is no dash, whether it is that of a switch or of the setting.
    cases switches with
    | nil =>
      cases s <;> cases hc <;> rfl
    | cons x switches =>
      obtain ⟨switch, hx⟩ := hswitches x List.mem_cons_self
      cases switch <;> cases hx <;> rfl

end Draft

/-! ## Command lines -/

/-- Behind the name of a command nothing that was held is lost, and what words give is held. -/
theorem readFrom_grows (h : readFrom p d words = .ok d') :
    d.Grows d' ∧ d'.pending = none ∧
      ∀ w ∈ words.takeWhile (· ≠ "--"), ∀ s, Gives s w.toList → d'.Holds s := by
  induction words generalizing d with
  | nil =>
    obtain ⟨hgrows, hpending⟩ := Draft.settle_grows h
    exact ⟨hgrows, hpending, by simp⟩
  | cons w rest ih =>
    unfold readFrom at h
    by_cases hdashes : w = "--"
    · rw [if_pos hdashes] at h
      obtain ⟨next, hwords, h⟩ := exists_of_bind_ok h
      obtain ⟨hgrows, hpending⟩ := Draft.settle_grows h
      exact ⟨(Draft.words_grows hwords).trans hgrows, hpending, by simp [hdashes]⟩
    · rw [if_neg hdashes] at h
      rw [List.takeWhile_cons_of_pos (by simpa using hdashes)]
      split at h
      · rename_i r hr
        obtain ⟨next, rfl, h⟩ := exists_of_bind_ok h
        obtain ⟨hgrows, hpending, hrest⟩ := ih h
        refine ⟨(Draft.options?_grows hr).trans hgrows, hpending, fun v hv s hs => ?_⟩
        rcases List.mem_cons.1 hv with rfl | hv
        · obtain ⟨r', hr', hholds⟩ := Draft.options?_holds (p := p) (d := d) hs
          cases hr.symm.trans hr'
          exact hgrows.holds s (hholds next rfl)
        · exact hrest v hv s hs
      · rename_i hnone
        have hgives : ∀ s, ¬ Gives s w.toList := by
          intro s hs
          obtain ⟨r, hr, -⟩ := Draft.options?_holds (p := p) (d := d) hs
          cases hnone.symm.trans hr
        have hnext : ∃ next, d.Grows next ∧ readFrom p next rest = .ok d' := by
          split at h
          · exact ⟨_, Draft.takeValue_grows d w, h⟩
          · obtain ⟨next, hword, h⟩ := exists_of_bind_ok h
            exact ⟨next, Draft.word_grows hword, h⟩
        obtain ⟨next, hstep, h⟩ := hnext
        obtain ⟨hgrows, hpending, hrest⟩ := ih h
        refine ⟨hstep.trans hgrows, hpending, fun v hv s hs => ?_⟩
        rcases List.mem_cons.1 hv with rfl | hv
        · exact absurd hs (hgives s)
        · exact hrest v hv s hs

theorem mem_valuesOf : value ∈ g.valuesOf s ↔ (s, value) ∈ g.values := by
  unfold Given.valuesOf
  constructor
  · intro hvalue
    obtain ⟨⟨s', value'⟩, hmem, rfl⟩ := List.mem_map.1 hvalue
    obtain ⟨hmem, hs⟩ := List.mem_filter.1 hmem
    rwa [← of_decide_eq_true hs]
  · intro hvalue
    exact List.mem_map.2 ⟨(s, value), List.mem_filter.2 ⟨hvalue, by simp⟩, rfl⟩

/-- What is given in front of the command or behind its name has a value. -/
theorem exists_layered {behind : Given}
    (hs : (∃ value, (s, value) ∈ g.values) ∨ ∃ value, (s, value) ∈ behind.values) :
    ∃ value rest, layered g behind s = value :: rest ∧
      ((s, value) ∈ g.values ∨ (s, value) ∈ behind.values) := by
  unfold layered
  cases hbehind : behind.valuesOf s with
  | cons value rest =>
    exact ⟨value, rest, by simp, .inr (mem_valuesOf.1 (by simp [hbehind]))⟩
  | nil =>
    have hfront : ∃ value, value ∈ g.valuesOf s := by
      rcases hs with ⟨value, hvalue⟩ | ⟨value, hvalue⟩
      · exact ⟨value, mem_valuesOf.2 hvalue⟩
      · have hmem := mem_valuesOf.2 hvalue
        rw [hbehind] at hmem
        cases hmem
    obtain ⟨value, rest, hlist⟩ := List.exists_cons_of_ne_nil
      (List.ne_nil_of_mem hfront.choose_spec)
    exact ⟨value, rest, by simp [hlist], .inl (mem_valuesOf.1 (by simp [hlist]))⟩

theorem assemble_has {behind : Draft}
    (hs : (∃ value, (s, value) ∈ g.values) ∨ ∃ value, (s, value) ∈ behind.given.values)
    (hfront : g.Counts) (hbehind : behind.given.Counts) : (assemble g p behind).has s := by
  obtain ⟨value, rest, hlayered, hmem⟩ := exists_layered hs
  cases s with
  | timeout =>
    have hcount : Text.count? value ≠ none := hmem.elim (hfront value) (hbehind value)
    simpa [assemble, Arguments.has, hlayered] using Option.isSome_iff_ne_none.2 hcount
  | config | mirrorConfig | cachePath | architecture | proxy | header | userAgent =>
    simp [assemble, Arguments.has, hlayered]

/-- Settings that words give in front of the command or behind its name are said. -/
theorem readFront_has (hcounts : d.given.Counts) (h : readFront d words = .ok a)
    (hs : d.Holds s ∨ ∃ w ∈ words.takeWhile (· ≠ "--"), Gives s w.toList) : a.has s := by
  induction words generalizing d with
  | nil =>
    obtain ⟨settled, -, h⟩ := exists_of_bind_ok h
    cases h
  | cons w rest ih =>
    unfold readFront at h
    split at h
    · rename_i r hr
      split at h
      · split at h
        · obtain ⟨settled, -, h⟩ := exists_of_bind_ok h
          cases h
        · cases h
      · rename_i hdashes
        rw [List.takeWhile_cons_of_pos (by simpa using hdashes)] at hs
        obtain ⟨next, rfl, h⟩ := exists_of_bind_ok h
        have hgrows := Draft.options?_grows hr
        refine ih (hgrows.counts hcounts) h ?_
        rcases hs with hs | ⟨v, hv, hs⟩
        · exact .inl (hgrows.holds s hs)
        rcases List.mem_cons.1 hv with rfl | hv
        · obtain ⟨r', hr', hholds⟩ := Draft.options?_holds (p := .front) (d := d) hs
          cases hr.symm.trans hr'
          exact .inl (hholds next rfl)
        · exact .inr ⟨v, hv, hs⟩
    · rename_i hnone
      -- The word gives nothing itself: it is a value, or the name of the command.
      have hrest : d.Holds s ∨ ∃ w ∈ rest.takeWhile (· ≠ "--"), Gives s w.toList := by
        rcases hs with hs | ⟨v, hv, hs⟩
        · exact .inl hs
        rw [List.takeWhile_cons] at hv
        split at hv
        · rcases List.mem_cons.1 hv with rfl | hv
          · obtain ⟨r, hr, -⟩ := Draft.options?_holds (p := .front) (d := d) hs
            cases hnone.symm.trans hr
          · exact .inr ⟨v, hv, hs⟩
        · cases hv
      split at h
      · have hgrows := Draft.takeValue_grows d w
        exact ih (hgrows.counts hcounts) h (hrest.imp_left (hgrows.holds s))
      · split at h
        · cases h
        · cases h
        · obtain ⟨behind, hbehind, h⟩ := exists_of_bind_ok h
          obtain ⟨settled, hsettle, h⟩ := exists_of_bind_ok h
          cases h
          obtain ⟨hgrows, hpending, hgives⟩ := readFrom_grows hbehind
          obtain ⟨hfront, hnothing⟩ := Draft.settle_grows hsettle
          refine assemble_has ?_ (hfront.counts hcounts) (hgrows.counts (by simp [Given.Counts]))
          rcases hrest with hs | ⟨v, hv, hs⟩
          · refine (hfront.holds s hs).imp_right fun hwaits => ?_
            rw [hnothing] at hwaits
            obtain ⟨value, hvalue⟩ := hwaits
            cases hvalue
          · rcases hgives v hv s hs with hvalue | ⟨value, hvalue⟩
            · exact .inr hvalue
            · rw [hpending] at hvalue
              cases hvalue

/-- What a command line says has a value for every setting that a word gives, unless two dashes
come first. -/
theorem has_of_ofWords (hwords : Arguments.ofWords words = .ok a)
    (hw : w ∈ words.takeWhile (· ≠ "--")) (hs : Gives s w.toList) : a.has s :=
  readFront_has (by simp [Given.Counts]) hwords (.inr ⟨w, hw, hs⟩)

end FileListCache.CommandLine
