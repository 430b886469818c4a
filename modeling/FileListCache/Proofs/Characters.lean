/-
  FileListCache.Proofs.Characters

  Which characters the text functions let through. Trimming takes blanks off both ends and nothing
  else, so a text is left as it is just if neither its first nor its last character is a blank.
  A text is split at the first of the characters that are looked for, if it has one.
  Decoding makes a line end of nothing but the byte that stands for it: a character that was begun
  never ends as one of those that take a single byte. And it undoes encoding, for every text.
-/

import FileListCache.Text.Character
import FileListCache.Text.Utf8
import Mathlib.Data.List.DropRight
import Mathlib.Tactic.Common

namespace FileListCache

/-! ## Trimming -/

namespace Text

variable {c : Char} {cs : List Char}

theorem trimStart_sublist (cs : List Char) : (trimStart cs).Sublist cs := List.dropWhile_sublist _

theorem isPrefix_trimEnd (cs : List Char) : trimEnd cs <+: cs := List.rdropWhile_prefix isBlank cs

theorem mem_of_mem_trim (hc : c ∈ trim cs) : c ∈ cs :=
  (trimStart_sublist cs).subset ((isPrefix_trimEnd _).subset hc)

theorem isBlank_of_head?_trimStart (hc : (trimStart cs).head? = some c) : isBlank c = false := by
  have hhead := List.head?_dropWhile_not isBlank cs
  rwa [show cs.dropWhile isBlank = trimStart cs from rfl, hc] at hhead

theorem isBlank_of_getLast?_trimEnd (hc : (trimEnd cs).getLast? = some c) :
    isBlank c = false := by
  have hne : trimEnd cs ≠ [] := by
    rintro hnil
    rw [hnil] at hc
    cases hc
  have hlast := List.rdropWhile_last_not isBlank cs hne
  rw [List.getLast?_eq_some_getLast hne] at hc
  cases hc
  exact Bool.eq_false_iff.2 hlast

/-- A text stays as it is just if no blank stands at either end. -/
theorem trim_eq_self :
    trim cs = cs ↔ (∀ c, cs.head? = some c → isBlank c = false) ∧
      ∀ c, cs.getLast? = some c → isBlank c = false := by
  constructor
  · intro htrim
    constructor
    · intro c hc
      -- The first character is that of the text before blanks were taken off its end.
      obtain ⟨rest, hrest⟩ := isPrefix_trimEnd (trimStart cs)
      have hhead : (trimStart cs).head? = some c := by
        rw [← hrest, show trimEnd (trimStart cs) = cs from htrim, List.head?_append, hc]
        rfl
      exact isBlank_of_head?_trimStart hhead
    · intro c hc
      rw [← htrim] at hc
      exact isBlank_of_getLast?_trimEnd hc
  · rintro ⟨hhead, hlast⟩
    have hstart : trimStart cs = cs := by
      cases cs with
      | nil => rfl
      | cons c cs => exact List.dropWhile_cons_of_neg (by simp [hhead c rfl])
    rw [trim, hstart]
    refine List.rdropWhile_eq_self_iff.2 fun hne => ?_
    simp [hlast _ (List.getLast?_eq_some_getLast hne)]

theorem trim_trim (cs : List Char) : trim (trim cs) = trim cs := by
  refine trim_eq_self.2 ⟨fun c hc => ?_, fun c hc => isBlank_of_getLast?_trimEnd hc⟩
  obtain ⟨rest, hrest⟩ := isPrefix_trimEnd (trimStart cs)
  have hhead : (trimStart cs).head? = some c := by
    rw [← hrest, List.head?_append, show (trimEnd (trimStart cs)).head? = some c from hc]
    rfl
  exact isBlank_of_head?_trimStart hhead

theorem trim_cons_of_isBlank (hc : isBlank c = true) : trim (c :: cs) = trim cs := by
  rw [trim, trimStart, List.dropWhile_cons_of_pos hc]
  rfl

theorem trim_concat (hc : isBlank c = true) : trim (cs ++ [c]) = trim cs := by
  -- A blank text loses the last character at its start already.
  rw [trim, trim, trimStart, trimStart, List.dropWhile_append]
  cases hstart : cs.dropWhile isBlank with
  | nil => simp [hc]
  | cons b rest =>
    rw [List.isEmpty_cons, if_neg Bool.false_ne_true]
    exact List.rdropWhile_concat_pos _ _ _ hc

/-! ## Splitting -/

theorem splitFirst_eq (d : Char) (cs : List Char) :
    splitFirst (· = d) cs =
      if d ∈ cs then some (cs.takeWhile (· ≠ d), (cs.dropWhile (· ≠ d)).tail) else none := by
  have hnil : cs.dropWhile (fun c => !decide (c = d)) = [] ↔ d ∉ cs := by
    rw [List.dropWhile_eq_nil_iff]
    constructor
    · intro hall hmem
      simpa using hall _ hmem
    · intro hmem c hc
      have hne : c ≠ d := by
        rintro rfl
        exact hmem hc
      simpa using hne
  unfold splitFirst
  simp only [ne_eq, decide_not]
  split
  · rename_i h
    rw [if_neg (hnil.1 h)]
  · rename_i c after h
    rw [if_pos (not_not.1 fun hmem => by simp [hnil.2 hmem] at h), h]
    rfl

theorem splitFirst_eq_none {d : Char} : splitFirst (· = d) cs = none ↔ d ∉ cs := by
  rw [splitFirst_eq]
  split <;> simp_all

/-- A text is split at the nearest of the characters. -/
theorem splitFirst_eq_some {d : Char} {before after : List Char} :
    splitFirst (· = d) cs = some (before, after) ↔ cs = before ++ d :: after ∧ d ∉ before := by
  constructor
  · intro hs
    unfold splitFirst at hs
    split at hs
    · cases hs
    · rename_i c rest hdrop
      cases hs
      have hhead := List.head?_dropWhile_not (fun c => !decide (c = d)) cs
      rw [hdrop] at hhead
      obtain rfl : c = d := by simpa using hhead
      refine ⟨?_, fun hd => ?_⟩
      · rw [← hdrop, List.takeWhile_append_dropWhile]
      · simpa using List.mem_takeWhile_imp hd
  · rintro ⟨rfl, hd⟩
    have hbefore : ∀ c ∈ before, (!decide (c = d)) = true := fun c hc => by
      simpa using fun hcd : c = d => hd (hcd ▸ hc)
    rw [splitFirst, List.dropWhile_append_of_pos hbefore, List.takeWhile_append_of_pos hbefore]
    simp

end Text

/-! ## Decoding -/

namespace Utf8

/-- What was begun takes at least two bytes: it stands for no character below 64, or will not once
the next byte has come. -/
def Pending.IsLong (p : Pending) : Prop :=
  0 < p.bits ∨ 1 < p.missing ∧ 0x80 < p.lowest ∧ p.highest ≤ 0xbf

theorem isLong_of_begin {b : UInt8} {p : Pending} (hp : begin b = some (.inr p)) : p.IsLong := by
  unfold begin at hp
  dsimp only at hp
  split at hp
  · cases (Option.some.inj hp)
  · split at hp
    · cases hp
    · split at hp
      · obtain rfl := Sum.inr.inj (Option.some.inj hp)
        left
        show 0 < b.toNat - 0xc0
        omega
      · split at hp
        · obtain rfl := Sum.inr.inj (Option.some.inj hp)
          by_cases hb : b.toNat = 0xe0
          · right
            simp [hb]
          · left
            show 0 < b.toNat - 0xe0
            omega
        · split at hp
          · obtain rfl := Sum.inr.inj (Option.some.inj hp)
            by_cases hb : b.toNat = 0xf0
            · right
              simp [hb]
            · left
              show 0 < b.toNat - 0xf0
              omega
          · cases hp

theorem ofNat_ne_lineEnd {n : Nat} (hn : n ≠ 10) : Char.ofNat n ≠ '\n' := by
  intro hc
  have hval : (Char.ofNat n).toNat = 10 := by rw [hc]; rfl
  by_cases hvalid : n.isValidChar
  · rw [Char.ofNat, dif_pos hvalid] at hval
    exact hn hval
  · rw [Char.ofNat, dif_neg hvalid] at hval
    cases hval

/-- A byte that is no line end begins none. -/
theorem begin_ne_lineEnd {b : UInt8} (hb : b ≠ 10) : begin b ≠ some (.inl '\n') := by
  have hn : b.toNat ≠ 10 := fun hn => hb (UInt8.toNat_inj.1 hn)
  unfold begin
  dsimp only
  repeat' split
  all_goals simp [ofNat_ne_lineEnd hn]

/-- One more byte that is no line end makes none of what was begun. -/
theorem step_ne_lineEnd {state : Option Pending} {b : UInt8} (hb : b ≠ 10)
    (hstate : ∀ p, state = some p → p.IsLong) :
    some '\n' ∉ (step state b).1 ∧ ∀ p, (step state b).2 = some p → p.IsLong := by
  -- A byte that goes on with nothing stands for itself or begins something long.
  have hfresh : some '\n' ∉ (step none b).1 ∧ ∀ p, (step none b).2 = some p → p.IsLong := by
    unfold step
    cases hbegin : begin b with
    | none => simp
    | some started =>
      cases started with
      | inl c =>
        have hc : c ≠ '\n' := fun hc => begin_ne_lineEnd hb (by rw [hbegin, hc])
        simp [Ne.symm hc]
      | inr p => simpa using isLong_of_begin hbegin
  cases state with
  | none => exact hfresh
  | some p =>
    unfold step
    dsimp only
    split
    · rename_i hrange
      -- The six bits of this byte come below those that were there.
      have hbits : 0 < 64 * p.bits + b.toNat % 64 ∧
          (p.missing = 1 → 64 * p.bits + b.toNat % 64 ≠ 10) := by
        rcases hstate p rfl with hlong | ⟨hmissing, hlowest, hhighest⟩ <;> omega
      split
      · rename_i hlast
        simp [(ofNat_ne_lineEnd (hbits.2 hlast)).symm]
      · refine ⟨by simp, ?_⟩
        rintro _ ⟨⟩
        exact .inl hbits.1
    · exact ⟨by simpa [step] using hfresh.1, hfresh.2⟩

theorem run_ne_lineEnd {bs : Bytes} (hbs : 10 ∉ bs) {state : Option Pending}
    (hstate : ∀ p, state = some p → p.IsLong) : some '\n' ∉ run state bs := by
  induction bs generalizing state with
  | nil =>
    unfold run
    split <;> simp
  | cons b bs ih =>
    obtain ⟨hhere, hnext⟩ := step_ne_lineEnd (Ne.symm (List.ne_of_not_mem_cons hbs)) hstate
    rw [run, List.mem_append, not_or]
    exact ⟨hhere, ih (List.not_mem_of_not_mem_cons hbs) hnext⟩

/-- No line end comes out where none went in. -/
theorem lineEnd_notMem_lossyChars {bs : Bytes} (hbs : 10 ∉ bs) : '\n' ∉ lossyChars bs := by
  unfold lossyChars
  rw [List.mem_map]
  rintro ⟨_ | c, hc, he⟩
  · cases he
  · cases he
    exact run_ne_lineEnd hbs (by simp) hc

/-! ## Encoding -/

variable {p : Pending} {b b₁ b₂ b₃ b₄ : UInt8} {v bits missing lowest highest : Nat}

theorem run_first (h : begin b = some (.inr p)) (bs : Bytes) :
    run none (b :: bs) = run (some p) bs := by
  simp only [run, step, h, List.nil_append]

theorem run_middle (hlowest : lowest ≤ b.toNat) (hhighest : b.toNat ≤ highest) (bs : Bytes) :
    run (some ⟨bits, missing + 2, lowest, highest⟩) (b :: bs) =
      run (some ⟨64 * bits + b.toNat % 64, missing + 1, 0x80, 0xbf⟩) bs := by
  simp only [run, step, hlowest, hhighest, and_self, if_true]
  rfl

theorem run_last (hlowest : lowest ≤ b.toNat) (hhighest : b.toNat ≤ highest)
    (hv : 64 * bits + b.toNat % 64 = v) (bs : Bytes) :
    run (some ⟨bits, 1, lowest, highest⟩) (b :: bs) = some (Char.ofNat v) :: run none bs := by
  simp only [run, step, hlowest, hhighest, and_self, if_true, List.singleton_append, hv]

theorem run_one (hv : v < 0x80) (h₁ : b₁.toNat = v) (bs : Bytes) :
    run none (b₁ :: bs) = some (Char.ofNat v) :: run none bs := by
  have hbegin : begin b₁ = some (.inl (Char.ofNat v)) := by
    simp only [begin, h₁, hv, if_true]
  simp only [run, step, hbegin, List.singleton_append]

theorem run_two (hlowest : 0x80 ≤ v) (hhighest : v < 0x800) (h₁ : b₁.toNat = v / 64 + 0xc0)
    (h₂ : b₂.toNat = v % 64 + 0x80) (bs : Bytes) :
    run none (b₁ :: b₂ :: bs) = some (Char.ofNat v) :: run none bs := by
  have hbegin : begin b₁ = some (.inr ⟨b₁.toNat - 0xc0, 1, 0x80, 0xbf⟩) := by
    unfold begin
    rw [if_neg (by omega), if_neg (by omega), if_pos (by omega)]
  rw [run_first hbegin, run_last (v := v) (by omega) (by omega) (by omega)]

theorem run_three (hlowest : 0x800 ≤ v) (hhighest : v < 0x10000)
    (hvalid : v < 0xd800 ∨ 0xdfff < v) (h₁ : b₁.toNat = v / 4096 + 0xe0)
    (h₂ : b₂.toNat = v / 64 % 64 + 0x80) (h₃ : b₃.toNat = v % 64 + 0x80) (bs : Bytes) :
    run none (b₁ :: b₂ :: b₃ :: bs) = some (Char.ofNat v) :: run none bs := by
  have hbegin : begin b₁ = some (.inr ⟨b₁.toNat - 0xe0, 2,
      if b₁.toNat = 0xe0 then 0xa0 else 0x80, if b₁.toNat = 0xed then 0x9f else 0xbf⟩) := by
    unfold begin
    rw [if_neg (by omega), if_neg (by omega), if_neg (by omega), if_pos (by omega)]
  -- The first two bytes tell that the character is not shorter and no surrogate.
  have hlow : (if b₁.toNat = 0xe0 then 0xa0 else 0x80) ≤ b₂.toNat := by split <;> omega
  have hhigh : b₂.toNat ≤ if b₁.toNat = 0xed then 0x9f else 0xbf := by split <;> omega
  rw [run_first hbegin, run_middle hlow hhigh,
    run_last (v := v) (by omega) (by omega) (by omega)]

theorem run_four (hlowest : 0x10000 ≤ v) (hhighest : v < 0x110000)
    (h₁ : b₁.toNat = v / 262144 + 0xf0) (h₂ : b₂.toNat = v / 4096 % 64 + 0x80)
    (h₃ : b₃.toNat = v / 64 % 64 + 0x80) (h₄ : b₄.toNat = v % 64 + 0x80) (bs : Bytes) :
    run none (b₁ :: b₂ :: b₃ :: b₄ :: bs) = some (Char.ofNat v) :: run none bs := by
  have hbegin : begin b₁ = some (.inr ⟨b₁.toNat - 0xf0, 3,
      if b₁.toNat = 0xf0 then 0x90 else 0x80, if b₁.toNat = 0xf4 then 0x8f else 0xbf⟩) := by
    unfold begin
    rw [if_neg (by omega), if_neg (by omega), if_neg (by omega), if_neg (by omega),
      if_pos (by omega)]
  have hlow : (if b₁.toNat = 0xf0 then 0x90 else 0x80) ≤ b₂.toNat := by split <;> omega
  have hhigh : b₂.toNat ≤ if b₁.toNat = 0xf4 then 0x8f else 0xbf := by split <;> omega
  rw [run_first hbegin, run_middle hlow hhigh, run_middle (by omega) (by omega),
    run_last (v := v) (by omega) (by omega) (by omega)]

/-- The bytes of a character are read as the character. -/
theorem run_utf8EncodeChar (c : Char) (bs : Bytes) :
    run none (String.utf8EncodeChar c ++ bs) = some c :: run none bs := by
  have hvalid : c.toNat < 0xd800 ∨ 0xdfff < c.toNat ∧ c.toNat < 0x110000 := c.valid
  have hc : Char.ofNat c.toNat = c := Char.ofNat_toNat c
  have hbyte {n m : Nat} (hn : n < 256) (hm : n = m) : (UInt8.ofNat n).toNat = m := by
    rw [UInt8.toNat_ofNat_of_lt' hn, hm]
  unfold String.utf8EncodeChar
  rw [show c.val.toNat = c.toNat from rfl]
  dsimp only
  generalize c.toNat = v at hvalid hc
  subst hc
  split_ifs with hone htwo hthree
  · exact run_one (by omega) (hbyte (by omega) rfl) bs
  · exact run_two (by omega) (by omega) (hbyte (by omega) (by omega)) (hbyte (by omega) rfl) bs
  · exact run_three (by omega) (by omega) (by omega) (hbyte (by omega) (by omega))
      (hbyte (by omega) rfl) (hbyte (by omega) rfl) bs
  · exact run_four (by omega) (by omega) (hbyte (by omega) (by omega)) (hbyte (by omega) rfl)
      (hbyte (by omega) rfl) (hbyte (by omega) rfl) bs

/-- Every text is read from its bytes. -/
theorem strict?_ofText (s : String) : strict? (Bytes.ofText s) = some s := by
  have hbytes : Bytes.ofText s = s.toList.flatMap String.utf8EncodeChar := by
    rw [Bytes.ofText, Bytes.ofPacked, String.toUTF8_eq_toByteArray]
    conv_lhs => rw [← String.ofList_toList (s := s)]
    exact List.toList_data_toByteArray
  have hrun (cs : List Char) : run none (cs.flatMap String.utf8EncodeChar) = cs.map some := by
    induction cs with
    | nil => rfl
    | cons c cs ih => rw [List.flatMap_cons, run_utf8EncodeChar, ih, List.map_cons]
  have hall (cs : List Char) : (cs.map some).mapM id = some cs := by
    induction cs with
    | nil => rfl
    | cons c cs ih => rw [List.map_cons, List.mapM_cons, ih]; rfl
  rw [strict?, hbytes, hrun, hall, Option.map_some, String.ofList_toList]

end Utf8

end FileListCache
