/-
  FileListCache.Proofs.Lines

  A mirror list says the same as a text and as a sequence of bytes. A text is decoded as a whole
  before it is cut, and its lines lose their ends (`linesWithoutEnds`); a source of bytes hands out
  one line after the other, each with its end and each decoded on its own (`linesWithEnds`).

    * Decoding may be cut at line ends: whatever was begun before one does not go on behind it
      (`Utf8.lossyChars_append_lineEnd`).
    * What a line says does not depend on its end, because that is blank (`Line.ofText?_concat`),
      and reading depends on what the lines say alone (`readLines_congr`).
-/

import FileListCache.Proofs.Printing

namespace FileListCache

/-! ## Decoding -/

namespace Utf8

variable {bs rest : Bytes} {state : Option Pending}

/-- Only bytes that stand for no character of their own go on with what was begun. -/
def Pending.IsHigh (p : Pending) : Prop := 0x80 ≤ p.lowest

theorem isHigh_of_begin {b : UInt8} {p : Pending} (hp : begin b = some (.inr p)) : p.IsHigh := by
  unfold begin at hp
  dsimp only at hp
  unfold Pending.IsHigh
  split at hp
  · cases Option.some.inj hp
  · split at hp
    · cases hp
    · split at hp
      · obtain rfl := Sum.inr.inj (Option.some.inj hp)
        exact Nat.le_refl _
      · split at hp
        · obtain rfl := Sum.inr.inj (Option.some.inj hp)
          dsimp only
          split <;> omega
        · split at hp
          · obtain rfl := Sum.inr.inj (Option.some.inj hp)
            dsimp only
            split <;> omega
          · cases hp

/-- Each byte leaves a state in which only such bytes go on. -/
theorem isHigh_of_step {b : UInt8} {p : Pending} (hp : (step state b).2 = some p) : p.IsHigh := by
  have hfresh : ∀ p, (step none b).2 = some p → p.IsHigh := by
    intro p hp
    unfold step at hp
    cases hbegin : begin b with
    | none => simp [hbegin] at hp
    | some started =>
      cases started with
      | inl c => simp [hbegin] at hp
      | inr q =>
        simp only [hbegin, Option.some.injEq] at hp
        exact hp ▸ isHigh_of_begin hbegin
  cases state with
  | none => exact hfresh p hp
  | some q =>
    unfold step at hp
    dsimp only at hp
    split at hp
    · split at hp
      · cases hp
      · cases hp
        exact Nat.le_refl _
    · exact hfresh p hp

/-- A line end ends what was begun and is itself. -/
theorem run_lineEnd (hstate : ∀ p, state = some p → p.IsHigh) (rest : Bytes) :
    run state (10 :: rest) = run state [] ++ some '\n' :: run none rest := by
  cases state with
  | none => rfl
  | some p =>
    have hlow : ¬ (p.lowest ≤ (10 : UInt8).toNat ∧ (10 : UInt8).toNat ≤ p.highest) := by
      have hhigh : 0x80 ≤ p.lowest := hstate p rfl
      have hten : (10 : UInt8).toNat = 10 := rfl
      omega
    have hstep : step (some p) 10 = ([none, some '\n'], none) := by
      unfold step
      dsimp only
      rw [if_neg hlow]
      rfl
    change (step (some p) 10).1 ++ run (step (some p) 10).2 rest = _
    rw [hstep]
    rfl

theorem run_append_lineEnd (hstate : ∀ p, state = some p → p.IsHigh) (bs rest : Bytes) :
    run state (bs ++ 10 :: rest) = run state bs ++ some '\n' :: run none rest := by
  induction bs generalizing state with
  | nil => exact run_lineEnd hstate rest
  | cons b bs ih =>
    rw [List.cons_append, run, run, ih fun p hp => isHigh_of_step hp, List.append_assoc]

/-- Decoding may be cut at a line end. -/
theorem lossyChars_append_lineEnd (bs rest : Bytes) :
    lossyChars (bs ++ 10 :: rest) = lossyChars bs ++ '\n' :: lossyChars rest := by
  have hrun : run none (bs ++ 10 :: rest) = run none bs ++ some '\n' :: run none rest :=
    run_append_lineEnd (by simp) bs rest
  simp [lossyChars, hrun]

theorem lossyChars_intercalate (pieces : List Bytes) :
    lossyChars ([10].intercalate pieces) = ['\n'].intercalate (pieces.map lossyChars) := by
  induction pieces with
  | nil => rfl
  | cons piece pieces ih =>
    cases pieces with
    | nil => simp
    | cons next pieces =>
      rw [List.intercalate_cons_cons, List.append_assoc, List.singleton_append,
        lossyChars_append_lineEnd, ih]
      simp [List.intercalate_cons_cons]

end Utf8

namespace MirrorList

variable {α : Type} [DecidableEq α] {h : Host} {c : Char} {raw : List Char}
  {lines lines' : List (List Char)}

/-- Bytes are cut where their text is cut. -/
theorem splitAll_lossyChars (bytes : Bytes) :
    splitAll '\n' (Utf8.lossyChars bytes) = (splitAll 10 bytes).map Utf8.lossyChars := by
  rw [splitAll_eq_splitOn, splitAll_eq_splitOn]
  have hbytes : [10].intercalate (bytes.splitOn 10) = bytes := List.intercalate_splitOn 10
  conv_lhs => rw [← hbytes, Utf8.lossyChars_intercalate]
  refine List.splitOn_intercalate _ (fun line hline => ?_) (by simp [List.splitOn_ne_nil])
  obtain ⟨piece, hpiece, rfl⟩ := List.mem_map.1 hline
  exact Utf8.lineEnd_notMem_lossyChars (notMem_of_mem_splitOn hpiece)

/-! ## Lines with their ends -/

/-- The pieces of a list, each with the separator that ends it; the last one may lack it. -/
def cutAfter (separator : α) : List α → List (List α)
  | [] => []
  | x :: xs =>
    if x = separator then [x] :: cutAfter separator xs
    else
      match cutAfter separator xs with
      | [] => [[x]]
      | piece :: pieces => (x :: piece) :: pieces

/-- A line without its end, a line feed with or without a carriage return in front of it. -/
def withoutEnd (line : List Char) : List Char :=
  if line.getLast? = some '\n' then
    if line.dropLast.getLast? = some '\r' then line.dropLast.dropLast else line.dropLast
  else line

/-- The lines of a text, without their ends. -/
def linesWithoutEnds (text : String) : List (List Char) :=
  (cutAfter '\n' text.toList).map withoutEnd

/-- The lines that a source of bytes hands out, each with its end and decoded on its own. -/
def linesWithEnds (bytes : Bytes) : List (List Char) := (cutAfter 10 bytes).map Utf8.lossyChars

/-- What is separated is the same, with and without separators; an empty rest is no piece. -/
theorem exists_cutAfter (separator : α) (xs : List α) :
    ∃ whole last, splitAll separator xs = whole ++ [last] ∧
      cutAfter separator xs =
        whole.map (· ++ [separator]) ++ if last.isEmpty then [] else [last] := by
  induction xs with
  | nil => exact ⟨[], [], rfl, rfl⟩
  | cons x xs ih =>
    obtain ⟨whole, last, hsplit, hcut⟩ := ih
    by_cases hx : x = separator
    · refine ⟨[] :: whole, last, ?_, ?_⟩
      · rw [splitAll, if_pos hx, hsplit, List.cons_append]
      · rw [cutAfter, if_pos hx, hcut, hx]
        rfl
    · cases whole with
      | nil =>
        refine ⟨[], x :: last, ?_, ?_⟩
        · rw [splitAll, if_neg hx, hsplit]
          rfl
        · rw [cutAfter, if_neg hx, hcut]
          cases last <;> rfl
      | cons piece whole =>
        refine ⟨(x :: piece) :: whole, last, ?_, ?_⟩
        · rw [splitAll, if_neg hx, hsplit]
          rfl
        · rw [cutAfter, if_neg hx, hcut]
          rfl

/-- To what takes no notice of separators the pieces are the same. -/
theorem filterMap_cutAfter {β : Type} {separator : α} {f : List α → Option β}
    (hend : ∀ piece, f (piece ++ [separator]) = f piece) (hnil : f [] = none) (xs : List α) :
    (cutAfter separator xs).filterMap f = (splitAll separator xs).filterMap f := by
  obtain ⟨whole, last, hsplit, hcut⟩ := exists_cutAfter separator xs
  have hwhole : (whole.map (· ++ [separator])).filterMap f = whole.filterMap f := by
    rw [List.filterMap_map]
    exact List.filterMap_congr fun piece _ => hend piece
  rw [hsplit, hcut, List.filterMap_append, List.filterMap_append, hwhole]
  cases last with
  | nil => simp [hnil]
  | cons x last => rfl

/-! ## What lines say -/

namespace Line

theorem content_concat (hblank : Text.isBlank c = true) (hc : c ≠ '#') :
    content (raw ++ [c]) = content raw := by
  unfold content
  by_cases hcomment : ∀ b ∈ raw, b ≠ '#'
  · have hall : ∀ b ∈ raw ++ [c], decide (b ≠ '#') = true := by
      intro b hb
      rcases List.mem_append.1 hb with hb | hb
      · simpa using hcomment b hb
      · simpa [List.mem_singleton.1 hb] using hc
    rw [List.takeWhile_eq_self_iff.2 hall, Text.trim_concat hblank,
      List.takeWhile_eq_self_iff.2 fun b hb => hall b (List.mem_append_left _ hb)]
  · -- The comment hides the character.
    have hlength : (raw.takeWhile fun b => decide (b ≠ '#')).length ≠ raw.length := by
      intro hlength
      have hall := List.takeWhile_eq_self_iff.1
        ((List.takeWhile_prefix _).eq_of_length hlength)
      exact hcomment fun b hb => by simpa using hall b hb
    rw [List.takeWhile_append, if_neg hlength]

/-- A blank at the end of a line says nothing. -/
theorem ofText?_concat (hblank : Text.isBlank c = true) (hc : c ≠ '#') :
    ofText? (raw ++ [c]) = ofText? raw := by
  unfold ofText?
  rw [content_concat hblank hc]

theorem ofText?_dropLast (hlast : raw.getLast? = some c) (hblank : Text.isBlank c = true)
    (hc : c ≠ '#') : ofText? raw.dropLast = ofText? raw := by
  obtain ⟨front, rfl⟩ := List.getLast?_eq_some_iff.1 hlast
  rw [List.dropLast_concat, ofText?_concat hblank hc]

/-- The end of a line says nothing. -/
theorem ofText?_withoutEnd (line : List Char) : ofText? (withoutEnd line) = ofText? line := by
  unfold withoutEnd
  split
  · rename_i hfeed
    have hdrop : ofText? line.dropLast = ofText? line :=
      ofText?_dropLast hfeed (by decide) (by decide)
    split
    · rename_i hreturn
      rw [ofText?_dropLast hreturn (by decide) (by decide), hdrop]
    · exact hdrop
  · rfl

end Line

/-- Takes what a line says. -/
def Draft.takeLine (h : Host) (d : Draft) : Line → Run Draft
  | .header name => d.openSection name
  | .directive key value => d.directive h key value
  | .other text => do
    World.note .trace .mirrorList ("ignoring line without directive: " ++ text)
    return d

/-- Lines that say nothing are passed over. -/
theorem foldlM_feed_eq (d : Draft) (lines : List (List Char)) :
    lines.foldlM (Draft.feed h) d = (lines.filterMap Line.ofText?).foldlM (Draft.takeLine h) d := by
  induction lines generalizing d with
  | nil => rfl
  | cons raw lines ih =>
    rw [List.foldlM_cons, List.filterMap_cons]
    unfold Draft.feed
    cases hline : Line.ofText? raw with
    | none => exact ih d
    | some line =>
      dsimp only
      rw [List.foldlM_cons]
      cases line <;> exact bind_congr ih

/-- Reading depends on nothing but what the lines say. -/
theorem readLines_congr
    (hsay : lines.filterMap Line.ofText? = lines'.filterMap Line.ofText?) :
    readLines h lines = readLines h lines' := by
  rw [readLines, readLines, foldlM_feed_eq, foldlM_feed_eq, hsay]

theorem readLines_linesWithoutEnds (text : String) :
    readLines h (linesWithoutEnds text) = ofText h text := by
  refine readLines_congr ?_
  have hend : (fun line => Line.ofText? (withoutEnd line)) = Line.ofText? :=
    funext Line.ofText?_withoutEnd
  rw [linesWithoutEnds, List.filterMap_map, Function.comp_def, hend]
  exact filterMap_cutAfter (fun line => Line.ofText?_concat (by decide) (by decide)) rfl _

theorem readLines_linesWithEnds (bytes : Bytes) :
    readLines h (linesWithEnds bytes) = ofBytes h bytes := by
  refine readLines_congr ?_
  rw [linesWithEnds, linesOfBytes, List.filterMap_map, List.filterMap_map]
  refine filterMap_cutAfter (fun line => ?_) rfl bytes
  rw [Function.comp_apply, Function.comp_apply, Utf8.lossyChars_append_lineEnd]
  exact Line.ofText?_concat (by decide) (by decide)

/-- A mirror list in bytes says what its text says. -/
theorem ofBytes_eq (bytes : Bytes) : ofBytes h bytes = ofText h (Utf8.lossy bytes) := by
  rw [ofBytes, ofText, linesOfBytes, linesOfText, Utf8.lossy, String.toList_ofList,
    splitAll_lossyChars]

/-! ## Sources -/

/-- Reads a mirror list from a source that gives some bytes and then ends or fails. Lines are taken
as they come; of a source that fails those that came with their ends were taken. -/
def ofSource (h : Host) (origin : String) (bytes : Bytes) (failure : Option IoError) :
    Attempt ConfigError (List Repository) := do
  match failure with
  | none => (readLines h (linesWithEnds bytes) : Run _)
  | some e =>
    let whole := (cutAfter 10 bytes).filter fun line => line.getLast? = some 10
    discard (readLines h (whole.map Utf8.lossyChars) : Run _)
    throw (.read origin e)

/-- What an open file gives is such a source. -/
theorem ofFile_eq (path : String) :
    ofFile h path = (do
      let source ← (Disk.openRead h path).adapt (ConfigError.access path)
      World.note .debug .mirrorList ("parsing mirror configuration " ++ path)
      let repositories ←
        match Disk.contentOf (← get).tree source with
        | .ok content => ofSource h path content none
        | .error e => ofSource h path [] (some e)
      World.note .debug .mirrorList ("found " ++ toString repositories.length ++ " repositories")
      return repositories) := by
  unfold ofFile
  refine bind_congr fun source => bind_congr fun _ => bind_congr fun w => ?_
  cases Disk.contentOf w.tree source with
  | ok content =>
    simp only [ofSource, readLines_linesWithEnds]
    rfl
  | error e => rfl

/-- A mirror list is read from a source of bytes as it is from their text, whatever the bytes are:
the source gives the same repositories and leaves the same world, and does not fail. On both sides
the lines may be taken with or without their ends. -/
theorem ofSource_lossy (h : Host) (w : World) (origin : String) (bytes : Bytes) :
    w.attempt (ofSource h origin bytes none) =
        (.ok ((ofText h (Utf8.lossy bytes)).run w).1, ((ofText h (Utf8.lossy bytes)).run w).2) ∧
      ofText h (Utf8.lossy bytes) = readLines h (linesWithoutEnds (Utf8.lossy bytes)) ∧
      ofBytes h bytes = ofText h (Utf8.lossy bytes) := by
  refine ⟨?_, (readLines_linesWithoutEnds _).symm, ofBytes_eq bytes⟩
  rw [← ofBytes_eq, ← readLines_linesWithEnds]
  rfl

end MirrorList

end FileListCache
