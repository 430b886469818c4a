/-
  FileListCache.Proofs.Documents

  Documents of lines that give a name its value are read as what the lines say, one by one
  (`document?_entries`). A line is a name without quotes, an equals sign and a value as it is
  written (`Entry`); a text is written in quotes, a number in digits, and both are read again from
  what is written, up to the end of the line.
-/

import FileListCache.Proofs.Quoting
import FileListCache.Text.Count
import FileListCache.Toml.Document
import Mathlib.Data.List.Basic

namespace FileListCache.Toml

variable {n depth count : Nat} {c d : Char} {cs ds rest : List Char} {r : List Char × List Char}

/-! ## Runs of characters -/

theorem takeWhile_append_cons {p : Char → Bool} (hcs : ∀ c ∈ cs, p c = true) (hd : p d = false)
    (rest : List Char) : (cs ++ d :: rest).takeWhile p = cs := by
  rw [List.takeWhile_append_of_pos hcs, List.takeWhile_cons_of_neg (by simp [hd]), List.append_nil]

theorem dropWhile_append_cons {p : Char → Bool} (hcs : ∀ c ∈ cs, p c = true) (hd : p d = false)
    (rest : List Char) : (cs ++ d :: rest).dropWhile p = d :: rest := by
  rw [List.dropWhile_append_of_pos hcs, List.dropWhile_cons_of_neg (by simp [hd])]

/-! ## Numbers -/

namespace Scalar

theorem head?_toDigits (hn : 0 < n) : (Nat.toDigits 10 n).head? ≠ some '0' := by
  induction n using Nat.strongRecOn with
  | ind n ih =>
    by_cases hlast : n < 10
    · have hdigit : ∀ n < 10, 0 < n → [Nat.digitChar n].head? ≠ some '0' := by decide
      rw [Nat.toDigits_of_lt_base hlast]
      exact hdigit n hlast hn
    · rw [Nat.toDigits_of_base_le (by decide) (by omega),
        List.head?_append_of_ne_nil _ Nat.toDigits_ne_nil]
      exact ih (n / 10) (by omega) (by omega)

theorem isDigit_of_mem (n : Nat) (c : Char) (hc : c ∈ Nat.toDigits 10 n) : c.isDigit = true :=
  Nat.isDigit_of_mem_toDigits (by decide) (by decide) hc

theorem digits?_eq_self (hds : ∀ c ∈ ds, c.isDigit = true) (hne : ds ≠ []) :
    digits? Char.isDigit ds = some ds := by
  induction ds with
  | nil => exact absurd rfl hne
  | cons c ds ih =>
    have hc := hds c List.mem_cons_self
    cases ds with
    | nil => simp [digits?, hc]
    | cons d ds =>
      have hd : d ≠ '_' := by
        rintro rfl
        cases hds '_' (by simp)
      rw [digits?, if_pos hc, ih (fun x hx => hds x (List.mem_cons_of_mem c hx)) (by simp)]
      · rfl
      · simp
      · simp [hd]

theorem hexDigit?_of_isDigit (hc : c.isDigit = true) :
    Quoted.hexDigit? c = some (c.toNat - '0'.toNat) := by
  simp only [Char.isDigit, Bool.and_eq_true, decide_eq_true_eq] at hc
  exact if_pos hc

theorem valueOf_eq (hds : ∀ c ∈ ds, c.isDigit = true) :
    valueOf 10 ds = Nat.ofDigitChars 10 ds 0 := by
  refine List.foldl_ext _ _ _ fun n c hc => ?_
  rw [hexDigit?_of_isDigit (hds c hc)]
  rfl

/-- The characters at which a word ends. -/
def wordEnds : List Char :=
  [' ', '\t', ',', ']', '[', '\x7d', '\x7b', '#', '=', '"', '\'', '\n', '\r']

theorem endsWord_of_isDigit (hc : c.isDigit = true) : endsWord c = false := by
  refine Bool.eq_false_iff.2 fun hends => ?_
  have hmem : c ∈ wordEnds := by
    simpa [endsWord, Quoted.isSpace, wordEnds, or_assoc] using hends
  have hnone : wordEnds.all (fun x => !x.isDigit) = true := rfl
  have hno := List.all_eq_true.1 hnone c hmem
  rw [hc] at hno
  cases hno

/-- The digits of a number are its written form. -/
theorem integer?_toDigits (hn : n ≤ Text.largestCount) :
    integer? (Nat.toDigits 10 n) = some (n : Int) := by
  have hds := isDigit_of_mem n
  have hzero : ¬ ((Nat.toDigits 10 n).head? = some '0' ∧ (Nat.toDigits 10 n).length ≠ 1) := by
    rintro ⟨hhead, hlength⟩
    rcases Nat.eq_zero_or_pos n with rfl | hpos
    · exact hlength rfl
    · exact head?_toDigits hpos hhead
  have hdecimal : decimal? (Nat.toDigits 10 n) = some (Nat.toDigits 10 n) := by
    rw [decimal?, digits?_eq_self hds Nat.toDigits_ne_nil, Option.bind_some, if_neg hzero]
  have hvalue : valueOf 10 (Nat.toDigits 10 n) = n := by
    rw [valueOf_eq hds, Nat.ofDigitChars_toDigits (by decide) (by decide)]
  have hlimits : inLimits n = some (n : Int) := by
    have hcount : n ≤ 2 ^ 64 - 1 := hn
    have hlimit : Int.ofNat (Nat.pow 2 127) = 2 ^ 127 := rfl
    unfold inLimits
    rw [hlimit]
    exact if_pos ⟨by omega, by omega⟩
  generalize Nat.toDigits 10 n = ds at hds hdecimal hvalue
  unfold integer?
  split
  · cases hds 'x' (by simp)
  · cases hds 'o' (by simp)
  · cases hds 'b' (by simp)
  · have hunsigned : unsigned ds = (false, ds) := by
      unfold unsigned
      split
      · cases hds '-' (by simp)
      · cases hds '+' (by simp)
      · rfl
    rw [hunsigned]
    dsimp only
    rw [hdecimal, Option.bind_some, hvalue]
    exact hlimits

theorem ofWord?_toDigits (hn : n ≤ Text.largestCount) :
    ofWord? (Nat.toDigits 10 n) = some (.integer n) := by
  have hds := isDigit_of_mem n
  have htrue : Nat.toDigits 10 n ≠ ['t', 'r', 'u', 'e'] := fun h => by
    cases hds 't' (by simp [h])
  have hfalse : Nat.toDigits 10 n ≠ ['f', 'a', 'l', 's', 'e'] := fun h => by
    cases hds 'f' (by simp [h])
  rw [ofWord?, if_neg htrue, if_neg hfalse, integer?_toDigits hn]

/-- A word of digits ends where the line does. -/
theorem word_eq (hds : ∀ c ∈ ds, c.isDigit = true) (rest : List Char) :
    word (ds ++ '\n' :: rest) = (ds, '\n' :: rest) := by
  have hall (c : Char) (hc : c ∈ ds) : (!endsWord c) = true := by
    rw [endsWord_of_isDigit (hds c hc)]
    rfl
  unfold word
  rw [takeWhile_append_cons hall rfl, dropWhile_append_cons hall rfl]
  rfl

end Scalar

/-! ## Bare names -/

theorem ne_of_isBare (hc : isBare c = true) (hd : isBare d = false) : c ≠ d := by
  rintro rfl
  rw [hd] at hc
  cases hc

theorem skipSpace_of_isBare (hc : isBare c = true) (cs : List Char) :
    skipSpace (c :: cs) = c :: cs := by
  have hblank : c ≠ ' ' := ne_of_isBare hc rfl
  have htab : c ≠ '\t' := ne_of_isBare hc rfl
  exact List.dropWhile_cons_of_neg (by simp [Quoted.isSpace, hblank, htab])

theorem oneLine?_of_isBare (hc : isBare c = true) (cs : List Char) :
    Quoted.oneLine? (c :: cs) = none := by
  unfold Quoted.oneLine?
  split
  · rename_i h
    exact absurd (List.cons.inj h).1 (ne_of_isBare hc rfl)
  · rename_i h
    exact absurd (List.cons.inj h).1 (ne_of_isBare hc rfl)
  · rfl

theorem lineBreak?_of_isBare (hc : isBare c = true) (cs : List Char) :
    lineBreak? (c :: cs) = none := by
  unfold lineBreak?
  split
  · rename_i h
    exact absurd (List.cons.inj h).1 (ne_of_isBare hc rfl)
  · rename_i h
    exact absurd (List.cons.inj h).1 (ne_of_isBare hc rfl)
  · rfl

/-! ## Values -/

theorem quote_of_read? (hr : Quoted.read? cs = some r) :
    ∃ more, cs = '"' :: more ∨ cs = '\'' :: more := by
  unfold Quoted.read? Quoted.oneLine? at hr
  split at hr
  · exact ⟨_, .inl rfl⟩
  · exact ⟨_, .inr rfl⟩
  · split at hr
    · exact ⟨_, .inl rfl⟩
    · exact ⟨_, .inr rfl⟩
    · cases hr

theorem value?_eq_scalar? {c : Char} (hlist : c ≠ '[') (htable : c ≠ '\x7b') (depth : Nat)
    (cs : List Char) : value? depth (c :: cs) = scalar? (c :: cs) := by
  cases depth with
  | zero => rfl
  | succ depth =>
    unfold value?
    split
    · rename_i h
      exact absurd (List.cons.inj h).1 hlist
    · rename_i h
      exact absurd (List.cons.inj h).1 htable
    · rfl

/-- A text in quotes is a value, however deep it stands. -/
theorem value?_write (depth : Nat) (cs : List Char) (rest : List Char) :
    value? depth (skipSpace (Quoted.write cs ++ '\n' :: rest)) =
      some (.text (String.ofList cs), '\n' :: rest) := by
  have hread : Quoted.read? (Quoted.write cs ++ '\n' :: rest) = some (cs, '\n' :: rest) :=
    Quoted.read?_write cs ⟨by simp, by simp⟩
  obtain ⟨more, hquote | hquote⟩ := quote_of_read? hread
  · have hskip : skipSpace ('"' :: more) = '"' :: more := rfl
    rw [hquote] at hread ⊢
    rw [hskip, value?_eq_scalar? (by decide) (by decide), scalar?, hread]
    rfl
  · have hskip : skipSpace ('\'' :: more) = '\'' :: more := rfl
    rw [hquote] at hread ⊢
    rw [hskip, value?_eq_scalar? (by decide) (by decide), scalar?, hread]
    rfl

theorem value?_toDigits (depth : Nat) (hn : n ≤ Text.largestCount) (rest : List Char) :
    value? depth (skipSpace (Nat.toDigits 10 n ++ '\n' :: rest)) =
      some (.integer n, '\n' :: rest) := by
  have hds := Scalar.isDigit_of_mem n
  have hword := Scalar.word_eq hds rest
  have hvalue := Scalar.ofWord?_toDigits hn
  obtain ⟨c, ds, hcons⟩ := List.exists_cons_of_ne_nil (Nat.toDigits_ne_nil (n := n) (b := 10))
  have hc := hds c (by simp [hcons])
  have hbare : isBare c = true := by simp [isBare, Char.isAlphanum, hc]
  have hne (x : Char) (hx : x.isDigit = false) : c ≠ x := by
    rintro rfl
    rw [hx] at hc
    cases hc
  rw [hcons] at hword hvalue ⊢
  rw [List.cons_append] at hword ⊢
  rw [skipSpace_of_isBare hbare, value?_eq_scalar? (hne '[' (by decide)) (hne '\x7b' (by decide)),
    scalar?, hword]
  · dsimp only
    rw [hvalue]
    rfl
  · exact fun _ h => hne '"' (by decide) (List.cons.inj h).1
  · exact fun _ h => hne '\'' (by decide) (List.cons.inj h).1

/-! ## Lines -/

/-- A line that gives a name its value, with the value as it is written. -/
structure Entry where
  name : String
  value : Value
  written : List Char

namespace Entry

/-- The line. -/
def line (e : Entry) : List Char := e.name.toList ++ ' ' :: '=' :: ' ' :: (e.written ++ ['\n'])

/-- The name needs no quotes, and the value is read from what is written. -/
structure IsRead (e : Entry) : Prop where
  named : e.name.toList ≠ []
  bare : e.name.toList.all isBare
  reads : ∀ rest, value? deepest (skipSpace (e.written ++ '\n' :: rest)) =
    some (e.value, '\n' :: rest)

/-- A name and its value. -/
def field (e : Entry) : String × Value := (e.name, e.value)

end Entry

variable {e : Entry} {es : List Entry} {root : Fields}

theorem Entry.IsRead.isBare (he : e.IsRead) : ∀ c ∈ e.name.toList, Toml.isBare c = true :=
  List.all_eq_true.1 he.bare

theorem Entry.IsRead.exists_cons (he : e.IsRead) (rest : List Char) :
    ∃ c more, e.name.toList ++ rest = c :: more ∧ Toml.isBare c = true := by
  obtain ⟨c, cs, hcons⟩ := List.exists_cons_of_ne_nil he.named
  exact ⟨c, cs ++ rest, by rw [hcons, List.cons_append], he.isBare c (by simp [hcons])⟩

theorem name?_entry (he : e.IsRead) (rest : List Char) :
    name? (e.name.toList ++ ' ' :: rest) = some (e.name, ' ' :: rest) := by
  have hplain : Quoted.oneLine? (e.name.toList ++ ' ' :: rest) = none := by
    obtain ⟨c, more, hcons, hc⟩ := he.exists_cons (' ' :: rest)
    rw [hcons, oneLine?_of_isBare hc]
  unfold name?
  rw [hplain, takeWhile_append_cons he.isBare rfl, dropWhile_append_cons he.isBare rfl]
  dsimp only
  rw [if_neg (by simpa using he.named), String.ofList_toList]

theorem key?_entry (he : e.IsRead) (count : Nat) (rest : List Char) :
    key? (count + 1) (e.name.toList ++ ' ' :: '=' :: rest) = some (([], e.name), '=' :: rest) := by
  have hname := name?_entry he ('=' :: rest)
  have hskip : skipSpace (e.name.toList ++ ' ' :: '=' :: rest) =
      e.name.toList ++ ' ' :: '=' :: rest := by
    obtain ⟨c, more, hcons, hc⟩ := he.exists_cons (' ' :: '=' :: rest)
    rw [hcons, skipSpace_of_isBare hc]
  unfold key?
  rw [hskip, hname]
  rfl

theorem assignment?_entry (he : e.IsRead) (rest : List Char) :
    assignment? (value? deepest) (e.line ++ rest) =
      some ((([], e.name), e.value), '\n' :: rest) := by
  have hline : e.line ++ rest =
      e.name.toList ++ ' ' :: '=' :: ' ' :: (e.written ++ '\n' :: rest) := by simp [Entry.line]
  obtain ⟨count, hcount⟩ : ∃ count, (e.line ++ rest).length = count + 1 := by
    refine Nat.exists_eq_succ_of_ne_zero ?_
    simp [Entry.line]
  have hkey := key?_entry he count (' ' :: (e.written ++ '\n' :: rest))
  have hvalue : value? deepest (skipSpace (' ' :: (e.written ++ '\n' :: rest))) = _ :=
    he.reads rest
  unfold assignment?
  rw [hcount, hline]
  simp only [hkey, hvalue, Option.bind_eq_bind, Option.bind_some]
  rfl

theorem line?_entry (he : e.IsRead) (hnew : root.find? e.name = none) (rest : List Char) :
    line? [] root (e.line ++ rest) = some (([], root ++ [e.field]), '\n' :: rest) := by
  have hassignment := assignment?_entry he rest
  have hassign : Fields.changeAt false (Fields.assign [] e.name e.value) [] .header root =
      some (root ++ [e.field]) := by
    show Fields.insert e.name e.value root = _
    rw [Fields.insert, hnew]
    rfl
  obtain ⟨c, more, hcons, hc⟩ := he.exists_cons (' ' :: '=' :: ' ' :: (e.written ++ '\n' :: rest))
  have hline : e.line ++ rest = c :: more := by
    rw [← hcons]
    simp [Entry.line]
  rw [hline] at hassignment ⊢
  unfold line?
  rw [skipSpace_of_isBare hc]
  split
  · rename_i h
    exact absurd (List.cons.inj h).1 (ne_of_isBare hc rfl)
  · rename_i h
    exact absurd (List.cons.inj h).1 (ne_of_isBare hc rfl)
  · have hcomment : c ≠ '#' := ne_of_isBare hc rfl
    rw [if_neg (by simp [lineBreak?_of_isBare hc, hcomment]), hassignment]
    simp only [hassign, Option.bind_eq_bind, Option.bind_some]
    rfl

theorem lines?_entries (hes : ∀ e ∈ es, e.IsRead) (hnames : (es.map Entry.name).Nodup)
    (hnew : ∀ e ∈ es, root.find? e.name = none) (hcount : es.length < count) :
    lines? count [] root (es.flatMap Entry.line) = some (root ++ es.map Entry.field) := by
  induction es generalizing root count with
  | nil =>
    obtain ⟨count, rfl⟩ := Nat.exists_eq_add_one_of_ne_zero (Nat.ne_of_gt hcount)
    rw [List.map_nil, List.append_nil]
    rfl
  | cons e es ih =>
    obtain ⟨count, rfl⟩ :=
      Nat.exists_eq_add_one_of_ne_zero (Nat.ne_of_gt (Nat.zero_lt_of_lt hcount))
    have hline := line?_entry (hes e List.mem_cons_self) (hnew e List.mem_cons_self)
      (es.flatMap Entry.line)
    have hcomment : skipComment ('\n' :: es.flatMap Entry.line) =
        some ('\n' :: es.flatMap Entry.line) := rfl
    obtain ⟨hfirst, hnames⟩ := List.nodup_cons.1 hnames
    have hrest : ∀ e' ∈ es, Fields.find? (root ++ [e.field]) e'.name = none := by
      intro e' he'
      have hne : e'.name ≠ e.name := fun h => hfirst (h ▸ List.mem_map_of_mem he')
      have hroot : root.lookup e'.name = none := hnew e' (List.mem_cons_of_mem e he')
      rw [Fields.find?, List.lookup_append, hroot, Entry.field, List.lookup_cons,
        beq_false_of_ne hne]
      rfl
    have ih := ih (fun e' he' => hes e' (List.mem_cons_of_mem e he')) hnames hrest
      (Nat.lt_of_succ_lt_succ hcount)
    unfold lines?
    rw [List.flatMap_cons, hline]
    simp only [Option.bind_eq_bind, Option.bind_some, hcomment]
    show lines? count [] (root ++ [e.field]) (es.flatMap Entry.line) = _
    rw [ih, List.map_cons, List.append_assoc]
    rfl

/-- A document of lines is read as what they say, one by one. -/
theorem document?_entries (hes : ∀ e ∈ es, e.IsRead) (hnames : (es.map Entry.name).Nodup) :
    document? (String.ofList (es.flatMap Entry.line)) = some (es.map Entry.field) := by
  have hmark : (es.flatMap Entry.line).head? ≠ some byteOrderMark := by
    cases es with
    | nil => simp
    | cons e es =>
      have he := hes e List.mem_cons_self
      obtain ⟨c, more, hcons, hc⟩ := he.exists_cons []
      rw [List.append_nil] at hcons
      have hmark : c ≠ byteOrderMark := ne_of_isBare hc rfl
      simp [Entry.line, hcons, hmark]
  have hlength : es.length ≤ (es.flatMap Entry.line).length := by
    clear hes hnames hmark
    induction es with
    | nil => exact Nat.le_refl 0
    | cons e es ih =>
      simp only [List.flatMap_cons, List.length_append, List.length_cons, Entry.line]
      omega
  unfold document?
  rw [String.toList_ofList, if_neg hmark]
  exact lines?_entries hes hnames (fun _ _ => rfl) (by omega)

end FileListCache.Toml
