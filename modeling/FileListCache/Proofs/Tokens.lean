/-
  FileListCache.Proofs.Tokens

  The notation for paths as a grammar. A text consists of tokens (`PathNotation.Tokenized`), in
  exactly one way, and what it resolves to is put together from what they stand for
  (`PathNotation.resolve_tokens`).

  A tilde is the exception. It is meant for the home directory at the start of the text only, but
  is taken for it wherever nothing was expanded so far (`PathNotation.resolve_tildes`), so also
  behind a variable whose value is empty (`PathNotation.resolve_misplaced_tilde`).
-/

import FileListCache.PathNotation
import FileListCache.Proofs.Characters
import Mathlib.Data.List.Forall2

namespace FileListCache.PathNotation

variable {h : Host} {s input directory : String} {cs rest done name : List Char}

/-! ## Tokens -/

/-- A piece of a path in the notation. -/
inductive Token
  /-- A variable between braces. -/
  | braced (name : List Char)
  /-- A variable whose name goes on as far as a word does. -/
  | named (name : List Char)
  /-- A tilde at the start of the text. -/
  | tilde
  /-- A character that is not part of a variable. -/
  | literal (c : Char)
  /-- A variable whose brace is never closed. -/
  | unclosed (tail : List Char)
  deriving DecidableEq, Repr

namespace Token

/-- The characters of a token. -/
def text : Token → List Char
  | braced name => '$' :: '\x7b' :: (name ++ ['\x7d'])
  | named name => '$' :: name
  | tilde => ['~']
  | literal c => [c]
  | unclosed tail => '$' :: '\x7b' :: tail

/-- The token can stand before the rest of a text, other than at its start. A name in braces goes
up to the nearest brace that closes it, and one without braces as far as it can; a character that
begins a variable is no literal. -/
def Fits (rest : List Char) : Token → Prop
  | braced name => '\x7d' ∉ name
  | named name => name ≠ [] ∧ (∀ c ∈ name, Text.isWord c = true) ∧
      ∀ c, rest.head? = some c → Text.isWord c = false
  | tilde => False
  | literal c => c = '$' → ∀ c', rest.head? = some c' → c' ≠ '\x7b' ∧ Text.isWord c' = false
  | unclosed tail => '\x7d' ∉ tail ∧ rest = []

end Token

/-- The tokens of a text, other than a tilde at its start. -/
inductive Tokens : List Char → List Token → Prop
  | nil : Tokens [] []
  | cons (tok : Token) {ts : List Token} {rest : List Char} (hfits : tok.Fits rest)
      (hrest : Tokens rest ts) : Tokens (tok.text ++ rest) (tok :: ts)

/-- The tokens of a whole text. -/
inductive Tokenized : List Char → List Token → Prop
  | tilde {rest : List Char} {ts : List Token} (hrest : Tokens rest ts) :
      Tokenized ('~' :: rest) (.tilde :: ts)
  | plain {cs : List Char} {ts : List Token} (hstart : cs.head? ≠ some '~')
      (htokens : Tokens cs ts) : Tokenized cs ts

variable {tok : Token} {ts ts' : List Token}

/-! ## The first token -/

/-- The first token of a text, other than a tilde at its start, and what follows it. -/
def scan (cs : List Char) : Option (Token × List Char) :=
  match cs with
  | [] => none
  | '$' :: '\x7b' :: cs =>
    match Text.splitFirst (· = '\x7d') cs with
    | some (name, rest) => some (.braced name, rest)
    | none => some (.unclosed cs, [])
  | '$' :: cs =>
    if (cs.takeWhile Text.isWord).isEmpty then some (.literal '$', cs)
    else some (.named (cs.takeWhile Text.isWord), cs.dropWhile Text.isWord)
  | c :: cs => some (.literal c, cs)

theorem scan_dollar (hcs : cs.head? ≠ some '\x7b') :
    scan ('$' :: cs) =
      if (cs.takeWhile Text.isWord).isEmpty then some (.literal '$', cs)
      else some (.named (cs.takeWhile Text.isWord), cs.dropWhile Text.isWord) := by
  unfold scan
  split
  · contradiction
  · rename_i heq
    cases heq
    exact absurd rfl hcs
  · rename_i heq
    cases heq
    rfl
  · rename_i hdollar heq
    cases heq
    exact (hdollar rfl).elim

theorem scan_other {c : Char} (hc : c ≠ '$') : scan (c :: cs) = some (.literal c, cs) := by
  unfold scan
  split <;> simp_all

theorem takeWhile_isWord_eq_nil :
    cs.takeWhile Text.isWord = [] ↔ ∀ c, cs.head? = some c → Text.isWord c = false := by
  cases cs with
  | nil => simp
  | cons c cs => by_cases hc : Text.isWord c <;> simp [hc]

theorem isWord_brace : Text.isWord '\x7b' = false := by decide +kernel

/-- A name ends where its word does, and no name begins with a brace. -/
theorem parts_of_fits (hfits : (Token.named name).Fits rest) :
    (name ++ rest).takeWhile Text.isWord = name ∧ (name ++ rest).dropWhile Text.isWord = rest ∧
      (name ++ rest).head? ≠ some '\x7b' := by
  obtain ⟨hne, hword, hend⟩ := hfits
  have htake : (name ++ rest).takeWhile Text.isWord = name := by
    rw [List.takeWhile_append_of_pos hword, takeWhile_isWord_eq_nil.2 hend, List.append_nil]
  have hsplit := List.takeWhile_append_dropWhile (p := Text.isWord) (l := name ++ rest)
  rw [htake, List.append_cancel_left_eq] at hsplit
  refine ⟨htake, hsplit, ?_⟩
  obtain ⟨c, name, rfl⟩ := List.exists_cons_of_ne_nil hne
  rintro hc
  cases hc
  have hno := hword '\x7b' List.mem_cons_self
  rw [isWord_brace] at hno
  cases hno

/-- A dollar sign that is a literal begins no variable. -/
theorem parts_of_fits_dollar (hfits : (Token.literal '$').Fits rest) :
    rest.takeWhile Text.isWord = [] ∧ rest.head? ≠ some '\x7b' :=
  ⟨takeWhile_isWord_eq_nil.2 fun c hc => (hfits rfl c hc).2, fun hc => (hfits rfl _ hc).1 rfl⟩

/-- The token that fits is the one that is found first. -/
theorem scan_text (hfits : tok.Fits rest) : scan (tok.text ++ rest) = some (tok, rest) := by
  cases tok with
  | braced name =>
    have hsplit : Text.splitFirst (· = '\x7d') (name ++ '\x7d' :: rest) = some (name, rest) :=
      Text.splitFirst_eq_some.2 ⟨rfl, hfits⟩
    simp only [Token.text, List.cons_append, List.append_assoc, List.nil_append, scan, hsplit]
  | unclosed tail =>
    obtain ⟨hopen, rfl⟩ := hfits
    have hsplit := Text.splitFirst_eq_none.2 hopen
    simp only [Token.text, List.append_nil, scan, hsplit]
  | tilde => exact hfits.elim
  | named name =>
    obtain ⟨htake, hdrop, hbrace⟩ := parts_of_fits hfits
    rw [Token.text, List.cons_append, scan_dollar hbrace, htake, hdrop]
    simp [hfits.1]
  | literal c =>
    by_cases hc : c = '$'
    · obtain rfl := hc
      obtain ⟨htake, hbrace⟩ := parts_of_fits_dollar hfits
      rw [Token.text, List.singleton_append, scan_dollar hbrace, htake]
      rfl
    · exact scan_other hc

/-- What is found first fits. -/
theorem of_scan (hs : scan cs = some (tok, rest)) : cs = tok.text ++ rest ∧ tok.Fits rest := by
  unfold scan at hs
  split at hs
  · cases hs
  · rename_i cs
    cases hsplit : Text.splitFirst (· = '\x7d') cs with
    | some parts =>
      rw [hsplit] at hs
      cases hs
      obtain ⟨rfl, hname⟩ := Text.splitFirst_eq_some.1 hsplit
      exact ⟨by simp [Token.text], hname⟩
    | none =>
      rw [hsplit] at hs
      cases hs
      exact ⟨(List.append_nil _).symm, Text.splitFirst_eq_none.1 hsplit, rfl⟩
  · rename_i cs hbrace
    split at hs
    · rename_i hname
      cases hs
      refine ⟨rfl, fun _ c hc => ⟨?_, ?_⟩⟩
      · rintro rfl
        obtain ⟨cs, rfl⟩ := List.head?_eq_some_iff.1 hc
        exact hbrace cs rfl
      · exact takeWhile_isWord_eq_nil.1 (List.isEmpty_iff.1 hname) c hc
    · rename_i hname
      cases hs
      refine ⟨?_, by simpa using hname, fun c hc => List.mem_takeWhile_imp hc, fun c hc => ?_⟩
      · rw [Token.text, List.cons_append, List.takeWhile_append_dropWhile]
      · have hhead := List.head?_dropWhile_not Text.isWord cs
        rw [hc] at hhead
        simpa using hhead
  · rename_i c cs hbrace hdollar
    cases hs
    exact ⟨rfl, fun hc => (hdollar hc).elim⟩

theorem text_ne_nil (tok : Token) : tok.text ≠ [] := by
  cases tok <;> exact List.cons_ne_nil _ _

/-! ## All tokens -/

theorem Tokens.unique (hts : Tokens cs ts) (hts' : Tokens cs ts') : ts = ts' := by
  induction hts generalizing ts' with
  | nil =>
    generalize hcs : ([] : List Char) = cs at hts'
    cases hts' with
    | nil => rfl
    | cons => exact absurd (List.append_eq_nil_iff.1 hcs.symm).1 (text_ne_nil _)
  | @cons tok ts rest hfits _ ih =>
    generalize hcs : tok.text ++ rest = cs at hts'
    have hscan := scan_text hfits
    cases hts' with
    | nil => exact absurd (List.append_eq_nil_iff.1 hcs).1 (text_ne_nil _)
    | cons _ hfits' hrest' =>
      rw [hcs, scan_text hfits'] at hscan
      cases hscan
      rw [ih hrest']

theorem exists_tokens (cs : List Char) : ∃ ts, Tokens cs ts := by
  induction hlength : cs.length using Nat.strong_induction_on generalizing cs with
  | h n ih =>
    cases hscan : scan cs with
    | none =>
      have hnil : cs = [] := by
        unfold scan at hscan
        repeat' split at hscan
        all_goals simp_all
      exact ⟨[], hnil ▸ .nil⟩
    | some found =>
      obtain ⟨tok, rest⟩ := found
      obtain ⟨rfl, hfits⟩ := of_scan hscan
      have hpos := List.length_pos_iff.2 (text_ne_nil tok)
      have hshort : rest.length < n := by
        rw [← hlength, List.length_append]
        omega
      obtain ⟨ts, hts⟩ := ih rest.length hshort rest rfl
      exact ⟨tok :: ts, .cons tok hfits hts⟩

/-- Every text consists of tokens in exactly one way. -/
theorem existsUnique_tokenized (cs : List Char) : ∃! ts, Tokenized cs ts := by
  by_cases hstart : cs.head? = some '~'
  · obtain ⟨rest, rfl⟩ := List.head?_eq_some_iff.1 hstart
    obtain ⟨ts, hts⟩ := exists_tokens rest
    refine ⟨_, .tilde hts, ?_⟩
    rintro _ (hts' | ⟨hother, -⟩)
    · rw [hts'.unique hts]
    · exact absurd rfl hother
  · obtain ⟨ts, hts⟩ := exists_tokens cs
    refine ⟨ts, .plain hstart hts, ?_⟩
    rintro _ (- | ⟨-, hts'⟩)
    · exact absurd rfl hstart
    · exact hts'.unique hts

/-! ## What tokens stand for -/

/-- What a variable in a path stands for: its value in the environment or, of the two that always
have one, what the account says. -/
def standsFor? (h : Host) (name : String) : Option String :=
  h.variableValue? name <|>
    if name = "HOME" then some h.accountHome
    else if name = "XDG_CONFIG_HOME" then some (Path.join h.home ".config")
    else none

theorem valueOf_eq (name : String) : valueOf h name = standsFor? h name := by
  unfold valueOf standsFor? Host.home Host.settingsHome
  split
  · cases h.variableValue? "HOME" <;> rfl
  · cases h.variableValue? "XDG_CONFIG_HOME" <;> rfl
  · rename_i hhome hsettings
    rw [if_neg hhome, if_neg hsettings]
    cases h.variableValue? name <;> rfl

/-- What a token stands for in the text `input`. -/
def Token.value (h : Host) (input : String) : Token → Except PathError (List Char)
  | braced name | named name =>
    match standsFor? h (String.ofList name) with
    | some value => .ok value.toList
    | none => .error (.missingVariable (String.ofList name) input)
  | tilde => .ok h.home.toList
  | literal c => .ok [c]
  | unclosed tail => .error (.unclosed (String.ofList ('$' :: '\x7b' :: tail)))

/-- What a token is expanded to behind what was expanded so far. A tilde does not know whether it
stands at the start, only whether anything is in front of it. -/
def Token.read (h : Host) (input : String) (done : List Char) (tok : Token) :
    Except PathError (List Char) :=
  if tok = .literal '~' ∧ done = [] then .ok h.home.toList else tok.value h input

theorem expandVariable_bind {f : List Char → Except PathError (List Char)} (name : List Char) :
    (expandVariable h input name done >>= f) =
      Token.value h input (.named name) >>= fun value => f (done ++ value) := by
  simp only [expandVariable, Token.value, valueOf_eq]
  cases standsFor? h (String.ofList name) <;> rfl

theorem expandFrom_dollar (hcs : cs.head? ≠ some '\x7b') :
    expandFrom h input ('$' :: cs) done =
      if (cs.takeWhile Text.isWord).isEmpty then expandFrom h input cs (done ++ ['$'])
      else expandVariable h input (cs.takeWhile Text.isWord) done >>= fun done =>
        expandFrom h input (cs.dropWhile Text.isWord) done := by
  rw [expandFrom]
  rintro cs rfl
  exact hcs rfl

theorem expandFrom_other {c : Char} (hc : c ≠ '$') :
    expandFrom h input (c :: cs) done =
      if c = '~' ∧ done.isEmpty then expandFrom h input cs h.home.toList
      else expandFrom h input cs (done ++ [c]) := by
  rw [expandFrom]
  · rintro cs rfl
    exact absurd rfl hc
  · exact fun hc' => absurd hc' hc

/-- Expansion takes one token after the other. -/
theorem expandFrom_cons (hfits : tok.Fits rest) :
    expandFrom h input (tok.text ++ rest) done =
      tok.read h input done >>= fun value => expandFrom h input rest (done ++ value) := by
  unfold Token.read
  cases tok with
  | braced name =>
    have hsplit : Text.splitFirst (· = '\x7d') (name ++ '\x7d' :: rest) = some (name, rest) :=
      Text.splitFirst_eq_some.2 ⟨rfl, hfits⟩
    simp only [Token.text, List.cons_append, List.append_assoc, List.nil_append]
    rw [expandFrom]
    split
    · rename_i hnone
      cases hsplit.symm.trans hnone
    · rename_i hsome
      cases hsplit.symm.trans hsome
      exact expandVariable_bind name
  | unclosed tail =>
    obtain ⟨hopen, rfl⟩ := hfits
    simp only [Token.text, List.append_nil]
    rw [expandFrom]
    split
    · rfl
    · rename_i hsome
      cases (Text.splitFirst_eq_none.2 hopen).symm.trans hsome
  | tilde => exact hfits.elim
  | named name =>
    obtain ⟨htake, hdrop, hbrace⟩ := parts_of_fits hfits
    rw [Token.text, List.cons_append, expandFrom_dollar hbrace, htake, hdrop]
    simp only [List.isEmpty_iff, hfits.1, if_false]
    exact expandVariable_bind name
  | literal c =>
    by_cases hc : c = '$'
    · obtain rfl := hc
      obtain ⟨htake, hbrace⟩ := parts_of_fits_dollar hfits
      rw [Token.text, List.singleton_append, expandFrom_dollar hbrace, htake]
      rfl
    · rw [Token.text, List.singleton_append, expandFrom_other hc]
      by_cases htilde : c = '~' ∧ done = []
      · obtain ⟨rfl, rfl⟩ := htilde
        rfl
      · have hliteral : ¬ (Token.literal c = .literal '~' ∧ done = []) := by simpa using htilde
        rw [if_neg hliteral, if_neg (by simpa using htilde)]
        rfl

/-- What the tokens are expanded to, one after the other. -/
def expanded (h : Host) (input : String) (done : List Char) (ts : List Token) :
    Except PathError (List Char) :=
  ts.foldlM (fun done tok => (tok.read h input done).map (done ++ ·)) done

theorem expandFrom_tokens (hts : Tokens cs ts) :
    expandFrom h input cs done = expanded h input done ts := by
  induction hts generalizing done with
  | nil =>
    rw [expandFrom]
    rfl
  | @cons tok ts rest hfits _ ih =>
    rw [expandFrom_cons hfits, expanded, List.foldlM_cons]
    cases tok.read h input done with
    | error e => rfl
    | ok value => exact ih

/-- A tilde at the start of a text is expanded like one that has nothing in front of it. -/
theorem expandFrom_tokenized (hts : Tokenized cs ts) :
    expandFrom h input cs [] = expanded h input [] ts := by
  cases hts with
  | plain _ hts => exact expandFrom_tokens hts
  | tilde hts =>
    rw [expandFrom_other (by decide), if_pos ⟨rfl, rfl⟩, expandFrom_tokens hts]
    rfl

theorem read_eq_error {e : PathError} (he : tok.value h input = .error e) :
    tok.read h input done = .error e := by
  rw [Token.read, if_neg, he]
  rintro ⟨rfl, -⟩
  cases he

theorem exists_read {value : List Char} (done : List Char)
    (hvalue : tok.value h input = .ok value) : ∃ v, tok.read h input done = .ok v := by
  unfold Token.read
  split
  · exact ⟨_, rfl⟩
  · exact ⟨value, hvalue⟩

/-- The leftmost token that stands for nothing ends the expansion. -/
theorem expanded_eq_error {before after : List Token} {e : PathError}
    (hbefore : ∀ tok ∈ before, ∃ v, tok.value h input = .ok v)
    (he : tok.value h input = .error e) :
    expanded h input done (before ++ tok :: after) = .error e := by
  induction before generalizing done with
  | nil =>
    rw [List.nil_append, expanded, List.foldlM_cons, read_eq_error he]
    rfl
  | cons first before ih =>
    obtain ⟨value, hvalue⟩ := hbefore first List.mem_cons_self
    obtain ⟨v, hv⟩ := exists_read done hvalue
    rw [List.cons_append, expanded, List.foldlM_cons, hv]
    exact ih fun tok htok => hbefore tok (List.mem_cons_of_mem first htok)

/-- Each token is expanded behind those before it. -/
theorem exists_expanded (done : List Char)
    (hvalues : ∀ tok ∈ ts, ∃ v, tok.value h input = .ok v) :
    ∃ vs : List (List Char), vs.length = ts.length ∧
      expanded h input done ts = .ok (done ++ vs.flatten) ∧
      ∀ (i : Nat) (tok : Token) (v : List Char), ts[i]? = some tok → vs[i]? = some v →
        tok.read h input (done ++ (vs.take i).flatten) = .ok v := by
  induction ts generalizing done with
  | nil => exact ⟨[], rfl, by rw [List.flatten_nil, List.append_nil]; rfl, by simp⟩
  | cons first ts ih =>
    obtain ⟨value, hvalue⟩ := hvalues first List.mem_cons_self
    obtain ⟨v, hv⟩ := exists_read done hvalue
    obtain ⟨vs, hlength, hexpanded, hread⟩ := ih (done ++ v) fun tok htok =>
      hvalues tok (List.mem_cons_of_mem first htok)
    refine ⟨v :: vs, by rw [List.length_cons, hlength, List.length_cons], ?_, ?_⟩
    · rw [expanded, List.foldlM_cons, hv, List.flatten_cons, ← List.append_assoc]
      exact hexpanded
    · rintro (_ | i) tok v' htok hv'
      · cases htok
        cases hv'
        simpa using hv
      · rw [List.take_succ_cons, List.flatten_cons, ← List.append_assoc]
        exact hread i tok v' htok hv'

/-! ## What paths resolve to -/

/-- The path that an expanded text stands for. -/
def placed (h : Host) (p : String) : Except PathError String :=
  if Path.isAbsolute p then .ok p
  else
    match h.directory with
    | some directory => .ok (Path.join directory p)
    | none => .error (.noDirectory (.system .missing))

/-- The path that an expanded text stands for, seen from a directory. -/
def seenFrom (directory p : String) : String :=
  if Path.isAbsolute p then p
  else if Path.endsInSlash directory then directory ++ p
  else directory ++ "/" ++ p

theorem placed_eq_seenFrom (hdirectory : h.directory = some directory)
    (habsolute : Path.isAbsolute directory = true) (p : String) :
    placed h p = .ok (seenFrom directory p) := by
  have hne : directory.toList.isEmpty = false := by
    cases hd : directory.toList with
    | nil => simp [Path.isAbsolute, hd] at habsolute
    | cons c cs => rfl
  unfold placed seenFrom Path.join Path.endsInSlash
  rw [hdirectory]
  by_cases hp : Path.isAbsolute p <;> simp [hp, hne]

/-- A text that is not blank resolves to what its tokens are expanded to. -/
theorem resolve_eq_expanded (hne : Text.trimmed s ≠ "")
    (hts : Tokenized (Text.trimmed s).toList ts) :
    resolve h s =
      expanded h (Text.trimmed s) [] ts >>= fun cs => placed h (String.ofList cs) := by
  unfold resolve expand
  simp only [if_neg hne, expandFrom_tokenized hts]
  cases expanded h (Text.trimmed s) [] ts with
  | error e => rfl
  | ok cs =>
    change (if Path.isAbsolute (String.ofList cs) then _ else _) = placed h (String.ofList cs)
    unfold placed
    split
    · rfl
    · cases h.directory <;> rfl

theorem tilde_notMem (hts : Tokens cs ts) : .tilde ∉ ts := by
  induction hts with
  | nil => exact List.not_mem_nil
  | @cons tok ts rest hfits _ ih =>
    rw [List.mem_cons, not_or]
    refine ⟨?_, ih⟩
    rintro rfl
    exact hfits

theorem literal_tilde_notMem (hts : Tokens cs ts) (hcs : '~' ∉ cs) : .literal '~' ∉ ts := by
  induction hts with
  | nil => exact List.not_mem_nil
  | @cons tok ts rest _ _ ih =>
    rw [List.mem_append, not_or] at hcs
    rw [List.mem_cons, not_or]
    refine ⟨?_, ih hcs.2⟩
    rintro rfl
    exact hcs.1 List.mem_cons_self

theorem read_eq_value (hts : Tokenized cs ts) (hcs : '~' ∉ cs.tail) (htok : tok ∈ ts) :
    tok.read h input done = tok.value h input := by
  rw [Token.read, if_neg]
  rintro ⟨rfl, -⟩
  cases hts with
  | tilde hts => exact literal_tilde_notMem hts hcs (by simpa using htok)
  | plain hstart hts =>
    refine literal_tilde_notMem hts (fun hmem => ?_) htok
    cases cs with
    | nil => cases hmem
    | cons c cs =>
      rcases List.mem_cons.1 hmem with rfl | hmem
      · exact hstart rfl
      · exact hcs hmem

/-- If no token stands for nothing, each has a value; otherwise one is the leftmost that has
none. -/
theorem values_or_error (h : Host) (input : String) (ts : List Token) :
    (∀ tok ∈ ts, ∃ v, tok.value h input = .ok v) ∨
      ∃ before tok after e, ts = before ++ tok :: after ∧
        (∀ tok ∈ before, ∃ v, tok.value h input = .ok v) ∧ tok.value h input = .error e := by
  induction ts with
  | nil => exact .inl (List.forall_mem_nil _)
  | cons first ts ih =>
    cases hfirst : first.value h input with
    | error e => exact .inr ⟨[], first, ts, e, rfl, List.forall_mem_nil _, hfirst⟩
    | ok v =>
      refine ih.imp (fun hvalues => List.forall_mem_cons.2 ⟨⟨v, hfirst⟩, hvalues⟩) ?_
      rintro ⟨before, tok, after, e, rfl, hbefore, he⟩
      exact ⟨first :: before, tok, after, e, rfl, List.forall_mem_cons.2 ⟨⟨v, hfirst⟩, hbefore⟩, he⟩

theorem value_ne_empty (tok : Token) : tok.value h input ≠ .error .empty := by
  unfold Token.value
  repeat' split
  all_goals simp

/-- Where no tilde stands behind the first character, a text that is not blank resolves to what its
tokens stand for, unless one of them stands for nothing. -/
theorem resolve_of_tokenized (hdirectory : h.directory = some directory)
    (habsolute : Path.isAbsolute directory = true) (hne : Text.trimmed s ≠ "")
    (htilde : '~' ∉ (Text.trimmed s).toList.tail)
    (hts : Tokenized (Text.trimmed s).toList ts) :
    (∃ before tok after e, ts = before ++ tok :: after ∧
      (∀ tok ∈ before, ∃ v, tok.value h (Text.trimmed s) = .ok v) ∧
      tok.value h (Text.trimmed s) = .error e ∧ resolve h s = .error e) ∨
    ∃ vs, List.Forall₂ (fun tok v => tok.value h (Text.trimmed s) = .ok v) ts vs ∧
      resolve h s = .ok (seenFrom directory (String.ofList vs.flatten)) := by
  have hresolve := resolve_eq_expanded (h := h) hne hts
  rcases values_or_error h (Text.trimmed s) ts with hvalues | ⟨before, tok, after, e, rfl, hall, he⟩
  · obtain ⟨vs, hlength, hexpanded, hread⟩ := exists_expanded [] hvalues
    rw [hexpanded] at hresolve
    refine .inr ⟨vs, List.forall₂_iff_get.2 ⟨hlength.symm, fun i hi hi' => ?_⟩,
      hresolve.trans (placed_eq_seenFrom hdirectory habsolute _)⟩
    have hvalue := hread i _ _ (List.getElem?_eq_getElem hi) (List.getElem?_eq_getElem hi')
    rwa [read_eq_value hts htilde (List.getElem_mem hi)] at hvalue
  · rw [expanded_eq_error hall he] at hresolve
    exact .inl ⟨before, tok, after, e, rfl, hall, he, hresolve⟩

/-- A path resolves token by token, for every environment and every text in which no tilde stands
behind the first character. Only a blank text has no path. The tokens of any other are determined,
and what they stand for is put in their place as it is. The leftmost token that stands for nothing
is reported, which is a variable that is not set or one whose brace is not closed. -/
theorem resolve_tokens (hdirectory : h.directory = some directory)
    (habsolute : Path.isAbsolute directory = true)
    (htilde : '~' ∉ (Text.trimmed s).toList.tail) :
    let t := Text.trimmed s
    (resolve h s = .error .empty ↔ t = "") ∧
    (t ≠ "" → ∃ ts, Tokenized t.toList ts ∧ (∀ ts', Tokenized t.toList ts' → ts' = ts) ∧
      ((∃ before tok after e, ts = before ++ tok :: after ∧
          (∀ tok ∈ before, ∃ v, tok.value h t = .ok v) ∧ tok.value h t = .error e ∧
          resolve h s = .error e) ∨
        ∃ vs, List.Forall₂ (fun tok v => tok.value h t = .ok v) ts vs ∧
          resolve h s = .ok (seenFrom directory (String.ofList vs.flatten)))) := by
  obtain ⟨ts, hts, hunique⟩ := existsUnique_tokenized (Text.trimmed s).toList
  have hresolve (hne : Text.trimmed s ≠ "") :=
    resolve_of_tokenized hdirectory habsolute hne htilde hts
  refine ⟨⟨fun hempty => ?_, fun hblank => ?_⟩, fun hne => ⟨ts, hts, hunique, hresolve hne⟩⟩
  · by_contra hne
    rcases hresolve hne with ⟨_, tok, _, e, -, -, he, hr⟩ | ⟨vs, -, hr⟩
    · cases hempty.symm.trans hr
      exact value_ne_empty tok he
    · cases hempty.symm.trans hr
  · unfold resolve
    rw [hblank]
    rfl

/-- A host in whose environment values look like parts of the notation. -/
def dollarHost : Host :=
  { environment := [("HOME", "/h"), ("A", "$B"), ("B", "~")], directory := some "/d" }

/-- A path that uses them. -/
def dollarPath : String := " $A/$\x7bB\x7d$ "

/-- What it consists of. -/
def dollarTokens : List Token := [.named ['A'], .literal '/', .braced ['B'], .literal '$']

theorem tokenized_dollar : Tokenized (Text.trimmed dollarPath).toList dollarTokens := by
  have htext : (Text.trimmed dollarPath).toList =
      ['$', 'A', '/', '$', '\x7b', 'B', '\x7d', '$'] := by decide +kernel
  have hword : Text.isWord 'A' = true ∧ Text.isWord '/' = false := by decide +kernel
  have hend : Tokens ['$'] [.literal '$'] := .cons (.literal '$') (by simp [Token.Fits]) .nil
  have hbraced : Tokens ['$', '\x7b', 'B', '\x7d', '$'] [.braced ['B'], .literal '$'] :=
    .cons (.braced ['B']) (by simp [Token.Fits]) hend
  have hslash := Tokens.cons (.literal '/') (by simp [Token.Fits]) hbraced
  rw [htext]
  exact .plain (by decide) (.cons (.named ['A']) (by simp [Token.Fits, hword]) hslash)

/-- The values are not expanded again. -/
theorem resolve_tokens_dollar : '~' ∉ (Text.trimmed dollarPath).toList.tail ∧
    Tokenized (Text.trimmed dollarPath).toList dollarTokens ∧
      resolve dollarHost dollarPath = .ok "/d/$B/~$" := by
  have htilde : '~' ∉ (Text.trimmed dollarPath).toList.tail := by decide +kernel
  have hne : Text.trimmed dollarPath ≠ "" := by decide +kernel
  have habsolute : Path.isAbsolute "/d" = true := by decide
  obtain ⟨-, htokens⟩ := resolve_tokens (h := dollarHost) rfl habsolute htilde
  obtain ⟨ts, -, hunique, hresolve⟩ := htokens hne
  obtain rfl := hunique _ tokenized_dollar
  refine ⟨htilde, tokenized_dollar, ?_⟩
  -- All four tokens have values, so the path is made of these.
  rcases hresolve with ⟨before, tok, after, e, hts, -, he, -⟩ | ⟨vs, hvalues, hresolve⟩
  · have hall : ∀ tok ∈ dollarTokens, (tok.value dollarHost (Text.trimmed dollarPath)).isOk := by
      decide +kernel
    have hok := hall tok (by simp [hts])
    rw [he] at hok
    cases hok
  · have hmap : dollarTokens.map (Token.value dollarHost (Text.trimmed dollarPath)) =
        vs.map .ok := by
      rw [← List.forall₂_eq_eq_eq, List.forall₂_map_left_iff, List.forall₂_map_right_iff]
      exact hvalues
    have hread : dollarTokens.map (Token.value dollarHost (Text.trimmed dollarPath)) =
        [['$', 'B'], ['/'], ['~'], ['$']].map .ok := by rfl
    obtain rfl := List.map_injective_iff.2 (fun _ _ => Except.ok.inj) (hread.symm.trans hmap)
    exact hresolve.trans (by decide +kernel)

/-! ## Tildes -/

theorem Tokenized.eq_zero_of_tilde (hts : Tokenized cs ts) {i : Nat} (htok : ts[i]? = some .tilde) :
    i = 0 := by
  cases hts with
  | plain _ hts => exact absurd (List.mem_of_getElem? htok) (tilde_notMem hts)
  | tilde hts =>
    cases i with
    | zero => rfl
    | succ i =>
      rw [List.getElem?_cons_succ] at htok
      exact absurd (List.mem_of_getElem? htok) (tilde_notMem hts)

/-- A tilde stands for the home directory as long as nothing was expanded in front of it, whether
or not it is the first character, and for itself after that. So a tilde that is not the first
character is copied, unless all that stands in front of it is variables with empty values and an
empty home directory. -/
theorem resolve_tildes (hne : Text.trimmed s ≠ "")
    (hts : Tokenized (Text.trimmed s).toList ts)
    (hvalues : ∀ tok ∈ ts, ∃ v, tok.value h (Text.trimmed s) = .ok v) :
    ∃ vs : List (List Char), vs.length = ts.length ∧
      resolve h s = placed h (String.ofList vs.flatten) ∧
      ∀ (i : Nat) (tok : Token) (v : List Char), ts[i]? = some tok → vs[i]? = some v →
        if tok = .tilde ∨ tok = .literal '~' then
          v = if (vs.take i).flatten = [] then h.home.toList else ['~']
        else tok.value h (Text.trimmed s) = .ok v := by
  have hresolve := resolve_eq_expanded (h := h) hne hts
  obtain ⟨vs, hlength, hexpanded, hread⟩ := exists_expanded [] hvalues
  rw [hexpanded] at hresolve
  refine ⟨vs, hlength, hresolve, fun i tok v htok hv => ?_⟩
  have hvalue := hread i tok v htok hv
  rw [List.nil_append, Token.read] at hvalue
  by_cases hliteral : tok = .literal '~'
  · rw [if_pos (.inr hliteral)]
    by_cases hfirst : (vs.take i).flatten = []
    · rw [if_pos ⟨hliteral, hfirst⟩] at hvalue
      rw [if_pos hfirst]
      exact (Except.ok.inj hvalue).symm
    · rw [if_neg fun hr => hfirst hr.2, hliteral] at hvalue
      rw [if_neg hfirst]
      exact (Except.ok.inj hvalue).symm
  · rw [if_neg fun hr => hliteral hr.1] at hvalue
    by_cases htilde : tok = .tilde
    · -- Such a token is the first one.
      obtain rfl := htilde
      obtain rfl := hts.eq_zero_of_tilde htok
      rw [if_pos (.inl rfl), List.take_zero, List.flatten_nil, if_pos rfl]
      exact (Except.ok.inj hvalue).symm
    · rwa [if_neg (not_or.2 ⟨htilde, hliteral⟩)]

/-- A host with a variable whose value is empty. -/
def emptyHost : Host :=
  { environment := [("HOME", "/h"), ("A", "")], directory := some "/d" }

/-- What a path with two tildes behind that variable consists of. -/
def tildeTokens : List Token := [.named ['A'], .literal '~', .literal '~']

theorem tokenized_tildes : Tokenized (Text.trimmed "$A~~").toList tildeTokens := by
  have htext : (Text.trimmed "$A~~").toList = ['$', 'A', '~', '~'] := by decide +kernel
  have hword : Text.isWord 'A' = true ∧ Text.isWord '~' = false := by decide +kernel
  have hlast : Tokens ['~'] [.literal '~'] := .cons (.literal '~') (by simp [Token.Fits]) .nil
  have htildes : Tokens ['~', '~'] [.literal '~', .literal '~'] :=
    .cons (.literal '~') (by simp [Token.Fits]) hlast
  rw [htext]
  exact .plain (by decide) (.cons (.named ['A']) (by simp [Token.Fits, hword]) htildes)

/-- The first of the tildes stands for the home directory, the other for itself. -/
theorem resolve_tildes_behind_empty : Text.trimmed "$A~~" ≠ "" ∧
    Tokenized (Text.trimmed "$A~~").toList tildeTokens ∧
    (∀ tok ∈ tildeTokens, ∃ v, tok.value emptyHost (Text.trimmed "$A~~") = .ok v) ∧
    resolve emptyHost "$A~~" = .ok "/h~" := by
  have hne : Text.trimmed "$A~~" ≠ "" := by decide +kernel
  have hvalues : ∀ tok ∈ tildeTokens, ∃ v, tok.value emptyHost (Text.trimmed "$A~~") = .ok v := by
    refine List.forall_mem_cons.2 ⟨⟨[], by rfl⟩, List.forall_mem_cons.2 ⟨⟨['~'], rfl⟩, ?_⟩⟩
    exact List.forall_mem_cons.2 ⟨⟨['~'], rfl⟩, List.forall_mem_nil _⟩
  obtain ⟨vs, hlength, hresolve, hread⟩ := resolve_tildes hne tokenized_tildes hvalues
  refine ⟨hne, tokenized_tildes, hvalues, hresolve.trans ?_⟩
  obtain ⟨v₀, v₁, v₂, rfl⟩ := List.length_eq_three.1 hlength
  have hvariable : Token.value emptyHost (Text.trimmed "$A~~") (.named ['A']) = .ok v₀ :=
    hread 0 _ _ rfl rfl
  obtain rfl : [] = v₀ := Except.ok.inj hvariable
  obtain rfl : v₁ = ['/', 'h'] := hread 1 _ _ rfl rfl
  obtain rfl : v₂ = ['~'] := hread 2 _ _ rfl rfl
  decide +kernel

/-- A tilde behind a variable is not copied, although it is not the first character. -/
theorem resolve_misplaced_tilde :
    (Text.trimmed "$A~").toList = ['$', 'A', '~'] ∧ resolve emptyHost "$A~" = .ok "/h" := by
  decide +kernel

end FileListCache.PathNotation
