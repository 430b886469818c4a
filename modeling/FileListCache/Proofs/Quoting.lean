/-
  FileListCache.Proofs.Quoting

  Texts that are written and read again. Whatever form the writer chooses, reading it gives the
  text and what follows it (`read?_write`). On one line this is one character at a time: a
  character is written as itself or as an escape that stands for it (`Spells`). On several lines
  the reader looks for three quotes before each character. The text never has as many in a row
  (`RunsWithin`), so what it finds is the end, with those quotes in front that belong to the text
  (`closing?_append`).
-/

import FileListCache.Toml.Quoted
import Mathlib.Data.List.TakeWhile
import Mathlib.Tactic.Common

namespace FileListCache.Toml.Quoted

variable {multi : Bool} {allowed run limit n : Nat} {c q : Char} {cs body rest : List Char}

/-! ## Escapes -/

/-- What follows a backslash stands for the character, and for no end of a line. -/
structure Spells (body : List Char) (c : Char) : Prop where
  escape : ∀ rest, escape? (body ++ rest) = some (c, rest)
  sameLine : ∀ rest, afterLineEnd? (body ++ rest) = none

/-- The character stands for itself between double quotes. -/
structure IsPlain (multi : Bool) (c : Char) : Prop where
  noQuote : c ≠ '"'
  noBackslash : c ≠ '\\'
  visible : isControl c = false ∨ multi = true ∧ c = '\n'

theorem ofHex?_hex4 : ∀ n < 128, ofHex? (hex4 n) = some (Char.ofNat n) := by decide +kernel

theorem lt_of_isControl (hc : isControl c = true) : c.toNat < 128 := by
  simp only [isControl, Bool.or_eq_true, Bool.and_eq_true, decide_eq_true_eq] at hc
  omega

theorem spells_hex4 (hc : isControl c = true) : Spells ('u' :: hex4 c.toNat) c where
  escape rest := by
    have hvalue := ofHex?_hex4 c.toNat (lt_of_isControl hc)
    rw [Char.ofNat_toNat] at hvalue
    show (ofHex? (hex4 c.toNat)).map (·, rest) = some (c, rest)
    rw [hvalue]
    rfl
  sameLine _ := rfl

/-- A character other than a double quote is written as an escape or as itself. -/
theorem escaped_cases (multi : Bool) (hc : c ≠ '"') :
    (∃ body, escaped multi c = '\\' :: body ∧ Spells body c) ∨
      escaped multi c = [c] ∧ IsPlain multi c := by
  have hletter {c x : Char} (hx : ∀ rest, escape? (x :: rest) = some (c, rest))
      (hline : ∀ rest, afterLineEnd? (x :: rest) = none) :
      ∃ body, ['\\', x] = '\\' :: body ∧ Spells body c := ⟨[x], rfl, hx, hline⟩
  unfold escaped
  split_ifs with hb ht hn hmulti hf hr hbackslash hcontrol
  · exact hb ▸ .inl (hletter (fun _ => rfl) fun _ => rfl)
  · exact ht ▸ .inl (hletter (fun _ => rfl) fun _ => rfl)
  · exact .inr ⟨by rw [hn], hc, by rw [hn]; decide, .inr ⟨hmulti, hn⟩⟩
  · exact hn ▸ .inl (hletter (fun _ => rfl) fun _ => rfl)
  · exact hf ▸ .inl (hletter (fun _ => rfl) fun _ => rfl)
  · exact hr ▸ .inl (hletter (fun _ => rfl) fun _ => rfl)
  · subst hbackslash
    exact .inl (hletter (fun _ => rfl) fun _ => rfl)
  · exact .inl ⟨_, rfl, spells_hex4 hcontrol⟩
  · exact .inr ⟨rfl, hc, hbackslash, .inl (Bool.eq_false_iff.2 hcontrol)⟩

/-- How the inside of double quotes begins: with an escape, with a quote that may stand there, or
with a character as it is. -/
inductive Begins (multi : Bool) (allowed run : Nat) (c : Char) (cs : List Char) : Prop
  | escape {body : List Char} (hbody : Spells body c)
      (heq : inside multi allowed run (c :: cs) = '\\' :: (body ++ inside multi allowed 0 cs))
  | quote (hc : c = '"') (hrun : run < allowed)
      (heq : inside multi allowed run (c :: cs) = c :: inside multi allowed (run + 1) cs)
  | plain (hc : IsPlain multi c)
      (heq : inside multi allowed run (c :: cs) = c :: inside multi allowed 0 cs)

theorem inside_begins (multi : Bool) (allowed run : Nat) (c : Char) (cs : List Char) :
    Begins multi allowed run c cs := by
  by_cases hc : c = '"'
  · subst hc
    by_cases hrun : run < allowed
    · exact .quote rfl hrun (by rw [inside, if_pos rfl, if_pos hrun])
    · have hbody : Spells ['"'] '"' := ⟨fun _ => rfl, fun _ => rfl⟩
      exact .escape hbody (by rw [inside, if_pos rfl, if_neg hrun]; rfl)
  · have heq : inside multi allowed run (c :: cs) =
        escaped multi c ++ inside multi allowed 0 cs := by rw [inside, if_neg hc]
    rcases escaped_cases multi hc with ⟨body, hescaped, hbody⟩ | ⟨hescaped, hplain⟩
    · exact .escape hbody (by rw [heq, hescaped]; rfl)
    · exact .plain hplain (by rw [heq, hescaped]; rfl)

/-! ## One line -/

theorem basic_quote (rest : List Char) : basic ('"' :: rest) = some ([], rest) := by rw [basic]

theorem basic_escape (hbody : Spells body c) (rest : List Char) :
    basic ('\\' :: (body ++ rest)) = (basic rest).map fun r => (c :: r.1, r.2) := by
  rw [basic]
  split
  · rename_i hnone
    cases hnone.symm.trans (hbody.escape rest)
  · rename_i hsome
    cases hsome.symm.trans (hbody.escape rest)
    rfl

theorem basic_plain (hc : IsPlain false c) (rest : List Char) :
    basic (c :: rest) = (basic rest).map fun r => (c :: r.1, r.2) := by
  have hvisible : isControl c = false := hc.visible.resolve_right (by simp)
  rw [basic, hvisible]
  · rfl
  · exact hc.noQuote
  · exact hc.noBackslash

theorem basic_inside (cs rest : List Char) :
    basic (inside false 0 0 cs ++ '"' :: rest) = some (cs, rest) := by
  induction cs with
  | nil => exact basic_quote rest
  | cons c cs ih =>
    cases inside_begins false 0 0 c cs with
    | escape hbody heq =>
      rw [heq, List.cons_append, List.append_assoc, basic_escape hbody, ih]
      rfl
    | quote hc hrun heq => cases hrun
    | plain hc heq =>
      rw [heq, List.cons_append, basic_plain hc, ih]
      rfl

theorem literal_append (hquote : '\'' ∉ cs) (hvisible : ∀ c ∈ cs, isControl c = false)
    (rest : List Char) : literal (cs ++ '\'' :: rest) = some (cs, rest) := by
  induction cs with
  | nil => rfl
  | cons c cs ih =>
    rw [List.mem_cons, not_or] at hquote
    rw [List.cons_append, literal, hvisible c List.mem_cons_self,
      ih hquote.2 fun d hd => hvisible d (List.mem_cons_of_mem _ hd)]
    · rfl
    · exact Ne.symm hquote.1

/-! ## Quotes in a row -/

/-- The text, with `run` quotes in front of it, has at most `limit` of them in a row. -/
def RunsWithin (q : Char) (limit : Nat) : Nat → List Char → Prop
  | _, [] => True
  | run, c :: cs =>
    if c = q then run < limit ∧ RunsWithin q limit (run + 1) cs else RunsWithin q limit 0 cs

theorem runsWithin_of_foldl {best : Nat}
    (h : (cs.foldl (fun (now, best) d => if d = q then (now + 1, max best (now + 1)) else (0, best))
      (run, best)).2 ≤ limit) : best ≤ limit ∧ RunsWithin q limit run cs := by
  induction cs generalizing run best with
  | nil => exact ⟨h, trivial⟩
  | cons c cs ih =>
    rw [List.foldl_cons] at h
    rw [RunsWithin]
    by_cases hc : c = q
    · simp only [if_pos hc] at h ⊢
      obtain ⟨hbest, hcs⟩ := ih h
      exact ⟨by omega, by omega, hcs⟩
    · simp only [if_neg hc] at h ⊢
      exact ih h

theorem runsWithin_of_longestRun (h : longestRun q cs ≤ limit) : RunsWithin q limit 0 cs :=
  (runsWithin_of_foldl h).2

theorem notMem_of_longestRun (h : longestRun q cs = 0) : q ∉ cs := by
  have hcs := runsWithin_of_longestRun (Nat.le_of_eq h)
  clear h
  induction cs with
  | nil => exact List.not_mem_nil
  | cons c cs ih =>
    rw [RunsWithin] at hcs
    split at hcs
    · exact absurd hcs.1 (Nat.not_lt_zero 0)
    · rename_i hc
      simp [Ne.symm hc, ih hcs]

theorem RunsWithin.length_takeWhile (h : RunsWithin q limit run cs) (hrun : run ≤ limit) :
    run + (cs.takeWhile (· = q)).length ≤ limit := by
  induction cs generalizing run with
  | nil => simpa
  | cons c cs ih =>
    rw [RunsWithin] at h
    rw [List.takeWhile_cons]
    split at h
    · rename_i hc
      have hcs := ih h.2 h.1
      simp only [hc, decide_true, if_true, List.length_cons]
      omega
    · rename_i hc
      simpa [hc] using hrun

/-- Writing escapes a quote that would be one too many. -/
theorem length_takeWhile_inside (multi : Bool) (cs : List Char) (hrun : run ≤ allowed) :
    run + ((inside multi allowed run cs).takeWhile (· = '"')).length ≤ allowed := by
  induction cs generalizing run with
  | nil => simpa [inside]
  | cons c cs ih =>
    cases inside_begins multi allowed run c cs with
    | escape hbody heq => simpa [heq] using hrun
    | quote hc hrun heq =>
      have hcs : run + 1 + _ ≤ allowed := ih hrun
      rw [heq, List.takeWhile_cons_of_pos (by simp [hc]), List.length_cons]
      omega
    | plain hc heq => simpa [heq, hc.noQuote] using hrun

/-- What is written in nothing but quotes is written as it is. -/
theorem inside_eq_self (h : (inside multi allowed run cs).all (· = '"')) :
    inside multi allowed run cs = cs := by
  induction cs generalizing run with
  | nil => rfl
  | cons c cs ih =>
    cases inside_begins multi allowed run c cs with
    | escape hbody heq =>
      rw [heq] at h
      cases h
    | quote hc hrun heq =>
      rw [heq, List.all_cons, Bool.and_eq_true] at h
      rw [heq, ih h.2]
    | plain hc heq =>
      rw [heq, List.all_cons, Bool.and_eq_true] at h
      exact absurd (of_decide_eq_true h.1) hc.noQuote

/-! ## Several lines -/

/-- At most two quotes, then three that close the text: these are found just if there is nothing
else in front of them. -/
theorem closing?_append (q : Char) (cs : List Char) (hcs : (cs.takeWhile (· = q)).length ≤ 2)
    (hrest : rest.head? ≠ some q) :
    closing? q (cs ++ q :: q :: q :: rest) =
      if cs.all (· = q) then some (cs, rest) else none := by
  have hnone : rest.takeWhile (· = q) = [] := by
    cases rest with
    | nil => rfl
    | cons d rest =>
      have hd : d ≠ q := fun hd => hrest (by rw [hd]; rfl)
      simp [hd]
  unfold closing?
  by_cases hall : cs.all (· = q)
  · have hquotes := List.all_eq_true.1 hall
    have htaken : cs.takeWhile (· = q) = cs := List.takeWhile_eq_self_iff.2 hquotes
    have hcount : ((cs ++ q :: q :: q :: rest).takeWhile (· = q)).length = cs.length + 3 := by
      rw [List.takeWhile_append_of_pos hquotes]
      simp [hnone]
    have hrepeat : cs = List.replicate cs.length q :=
      List.eq_replicate_iff.2 ⟨rfl, fun c hc => of_decide_eq_true (hquotes c hc)⟩
    rw [htaken] at hcs
    rw [hcount, Nat.min_eq_right (by omega), if_pos hall]
    dsimp only
    rw [if_neg (by omega), Nat.add_sub_cancel, ← hrepeat, ← List.drop_drop, List.drop_left]
    rfl
  · have hcount : (cs ++ q :: q :: q :: rest).takeWhile (· = q) = cs.takeWhile (· = q) := by
      rw [List.takeWhile_append, if_neg]
      intro hlength
      have htaken := (List.takeWhile_prefix (· = q) (l := cs)).eq_of_length hlength
      exact hall (List.all_eq_true.2 (List.takeWhile_eq_self_iff.1 htaken))
    rw [hcount, if_neg hall]
    dsimp only
    rw [if_pos (by omega)]

theorem multiBasic_close {r : List Char × List Char} (h : closing? '"' cs = some r) :
    multiBasic cs = some r := by
  rw [multiBasic.eq_def, h]

theorem multiBasic_escape (hbody : Spells body c) (rest : List Char) :
    multiBasic ('\\' :: (body ++ rest)) = (multiBasic rest).map fun r => (c :: r.1, r.2) := by
  have hopen : closing? '"' ('\\' :: (body ++ rest)) = none := rfl
  rw [multiBasic, hopen]
  dsimp only
  split
  · rename_i hline
    cases hline.symm.trans (hbody.sameLine rest)
  · split
    · rename_i hnone
      cases hnone.symm.trans (hbody.escape rest)
    · rename_i hsome
      cases hsome.symm.trans (hbody.escape rest)
      rfl

theorem ne_return (hc : needsEscape c = false) : c ≠ '\r' := by
  rintro rfl
  cases hc

theorem IsPlain.needsEscape (hc : IsPlain multi c) : needsEscape c = false := by
  rcases hc.visible with hvisible | ⟨-, rfl⟩
  · simp [Quoted.needsEscape, hvisible]
  · rfl

theorem multiBasic_cons (hopen : closing? '"' (c :: rest) = none) (hbackslash : c ≠ '\\')
    (hc : needsEscape c = false) :
    multiBasic (c :: rest) = (multiBasic rest).map fun r => (c :: r.1, r.2) := by
  rw [multiBasic, hopen, show (isControl c && c ≠ '\n') = false from hc]
  · rfl
  · exact hbackslash
  · exact fun _ hreturn => absurd hreturn (ne_return hc)

theorem multiLiteral_cons (hopen : closing? '\'' (c :: rest) = none)
    (hc : needsEscape c = false) :
    multiLiteral (c :: rest) = (multiLiteral rest).map fun r => (c :: r.1, r.2) := by
  rw [multiLiteral, hopen, show (isControl c && c ≠ '\n') = false from hc]
  · rfl
  · exact fun _ hreturn => absurd hreturn (ne_return hc)

/-- Before each character three quotes are looked for. They are found at the end of the text, or
in front of the quotes that it ends with. -/
theorem multiBasic_inside (hrun : run ≤ 2) (hrest : rest.head? ≠ some '"') :
    multiBasic (inside true 2 run cs ++ '"' :: '"' :: '"' :: rest) = some (cs, rest) := by
  induction cs generalizing run with
  | nil => exact multiBasic_close (closing?_append '"' [] (Nat.zero_le 2) hrest)
  | cons c cs ih =>
    have htaken := length_takeWhile_inside true (c :: cs) hrun
    have hclose := closing?_append '"' (inside true 2 run (c :: cs)) (by omega) hrest
    by_cases hall : (inside true 2 run (c :: cs)).all (· = '"')
    · rw [if_pos hall] at hclose
      rw [multiBasic_close hclose, inside_eq_self hall]
    rw [if_neg hall] at hclose
    cases inside_begins true 2 run c cs with
    | escape hbody heq =>
      rw [heq, List.cons_append, List.append_assoc, multiBasic_escape hbody, ih (Nat.zero_le 2)]
      rfl
    | quote hc hrun heq =>
      subst hc
      rw [heq, List.cons_append] at hclose ⊢
      rw [multiBasic_cons hclose (by decide) rfl, ih hrun]
      rfl
    | plain hc heq =>
      rw [heq, List.cons_append] at hclose ⊢
      rw [multiBasic_cons hclose hc.noBackslash hc.needsEscape, ih (Nat.zero_le 2)]
      rfl

theorem multiLiteral_append (hcs : RunsWithin '\'' 2 run cs) (hrun : run ≤ 2)
    (hshown : ∀ c ∈ cs, needsEscape c = false) (hrest : rest.head? ≠ some '\'') :
    multiLiteral (cs ++ '\'' :: '\'' :: '\'' :: rest) = some (cs, rest) := by
  induction cs generalizing run with
  | nil =>
    have hclose := closing?_append '\'' [] (Nat.zero_le 2) hrest
    rw [multiLiteral.eq_def, hclose]
    rfl
  | cons c cs ih =>
    have htaken := hcs.length_takeWhile hrun
    have hclose := closing?_append '\'' (c :: cs) (by omega) hrest
    by_cases hall : (c :: cs).all (· = '\'')
    · rw [multiLiteral.eq_def, hclose, if_pos hall]
    rw [if_neg hall, List.cons_append] at hclose
    have hnext : multiLiteral (cs ++ '\'' :: '\'' :: '\'' :: rest) = some (cs, rest) := by
      have hrest := fun d hd => hshown d (List.mem_cons_of_mem c hd)
      rw [RunsWithin] at hcs
      split at hcs
      · exact ih hcs.2 hcs.1 hrest
      · exact ih hcs (Nat.zero_le 2) hrest
    rw [List.cons_append, multiLiteral_cons hclose (hshown c List.mem_cons_self), hnext]
    rfl

/-! ## Any form -/

variable {text : List Char}

/-- A text with a line break is written from the next line on, any other from where the quotes
end: what is skipped is never part of it. -/
theorem withoutLineBreak_start
    (hfirst : '\n' ∉ cs → ∀ c, text.head? = some c → c ≠ '\n' ∧ c ≠ '\r') :
    withoutLineBreak ((if cs.contains '\n' then ['\n'] else []) ++ text) = text := by
  split
  · rfl
  · rename_i hbreak
    have hfirst := hfirst (by simpa using hbreak)
    rw [List.nil_append]
    unfold withoutLineBreak
    split
    · exact absurd rfl (hfirst _ rfl).1
    · exact absurd rfl (hfirst _ rfl).2
    · rfl

/-- The form with double quotes on one line. -/
theorem read?_basic (cs : List Char) (hrest : rest.head? ≠ some '"') :
    read? ('"' :: (inside false 0 0 cs ++ '"' :: rest)) = some (cs, rest) := by
  have hread := basic_inside cs rest
  unfold read?
  split
  · rename_i more h
    -- An inside starts with no quote, so the second quote is the one that closes.
    exfalso
    cases cs with
    | nil =>
      cases h
      exact hrest rfl
    | cons c cs =>
      cases inside_begins false 0 0 c cs with
      | escape hbody heq =>
        rw [heq] at h
        cases h
      | quote hc hrun heq => cases hrun
      | plain hc heq =>
        rw [heq] at h
        exact hc.noQuote (List.cons.inj (List.cons.inj h).2).1
  · rename_i h
    cases h
  · exact hread

theorem read?_literal (hquote : '\'' ∉ cs) (hvisible : ∀ c ∈ cs, isControl c = false)
    (hrest : rest.head? ≠ some '\'') :
    read? ('\'' :: (cs ++ '\'' :: rest)) = some (cs, rest) := by
  have hread := literal_append hquote hvisible rest
  unfold read?
  split
  · rename_i h
    cases h
  · rename_i more h
    exfalso
    cases cs with
    | nil =>
      cases h
      exact hrest rfl
    | cons c cs =>
      have hc : c = '\'' := (List.cons.inj (List.cons.inj h).2).1
      exact hquote (by simp [hc])
  · exact hread

theorem read?_multiBasic (cs : List Char) (hrest : rest.head? ≠ some '"') :
    read? ('"' :: '"' :: '"' :: ((if cs.contains '\n' then ['\n'] else []) ++
      (inside true 2 0 cs ++ '"' :: '"' :: '"' :: rest))) = some (cs, rest) := by
  rw [read?, withoutLineBreak_start, multiBasic_inside (Nat.zero_le 2) hrest]
  intro hbreak c hc
  cases cs with
  | nil =>
    cases hc
    exact ⟨by decide, by decide⟩
  | cons d cs =>
    cases inside_begins true 2 0 d cs with
    | escape hbody heq =>
      rw [heq] at hc
      cases hc
      exact ⟨by decide, by decide⟩
    | quote hd hrun heq =>
      subst hd
      rw [heq] at hc
      cases hc
      exact ⟨by decide, by decide⟩
    | plain hd heq =>
      rw [heq] at hc
      cases hc
      exact ⟨fun h => hbreak (by simp [h]), ne_return hd.needsEscape⟩

theorem read?_multiLiteral (hcs : RunsWithin '\'' 2 0 cs)
    (hshown : ∀ c ∈ cs, needsEscape c = false) (hrest : rest.head? ≠ some '\'') :
    read? ('\'' :: '\'' :: '\'' :: ((if cs.contains '\n' then ['\n'] else []) ++
      (cs ++ '\'' :: '\'' :: '\'' :: rest))) = some (cs, rest) := by
  rw [read?, withoutLineBreak_start, multiLiteral_append hcs (Nat.zero_le 2) hshown hrest]
  intro hbreak c hc
  cases cs with
  | nil =>
    cases hc
    exact ⟨by decide, by decide⟩
  | cons d cs =>
    cases hc
    exact ⟨fun h => hbreak (by simp [h]), ne_return (hshown _ List.mem_cons_self)⟩

/-- Reading undoes writing, whatever the text is, and leaves what follows. -/
theorem read?_write (cs : List Char)
    (hrest : rest.head? ≠ some '"' ∧ rest.head? ≠ some '\'') :
    read? (write cs ++ rest) = some (cs, rest) := by
  obtain ⟨hdouble, hsingle⟩ := hrest
  have hmulti := read?_multiBasic cs hdouble
  unfold write
  dsimp only
  split
  · rw [List.cons_append, List.cons_append, List.append_assoc]
    exact read?_basic cs hdouble
  split
  · rename_i h
    simp only [Bool.and_eq_true, Bool.not_eq_true', decide_eq_true_eq] at h
    obtain ⟨⟨hescapes, hnone⟩, hbreaks⟩ := h
    have hvisible (c : Char) (hc : c ∈ cs) : isControl c = false := by
      have hshown := List.any_eq_false.1 hescapes c hc
      have hbreak : c ≠ '\n' := by
        rintro rfl
        simp [hc] at hbreaks
      simpa [needsEscape, hbreak] using hshown
    rw [List.cons_append, List.cons_append, List.append_assoc]
    exact read?_literal (notMem_of_longestRun hnone) hvisible hsingle
  split
  · simpa only [List.cons_append, List.append_assoc, List.nil_append] using hmulti
  split
  · rename_i h
    simp only [Bool.and_eq_true, Bool.not_eq_true', decide_eq_true_eq] at h
    have hshown (c : Char) (hc : c ∈ cs) : needsEscape c = false :=
      Bool.eq_false_iff.2 (List.any_eq_false.1 h.1 c hc)
    simpa only [List.cons_append, List.append_assoc, List.nil_append] using
      read?_multiLiteral (runsWithin_of_longestRun h.2) hshown hsingle
  split
  · rename_i hbreaks
    rw [if_pos hbreaks] at hmulti
    simpa only [List.cons_append, List.append_assoc, List.nil_append] using hmulti
  · rw [List.cons_append, List.cons_append, List.append_assoc]
    exact read?_basic cs hdouble

end FileListCache.Toml.Quoted
