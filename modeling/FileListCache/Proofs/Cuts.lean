/-
  FileListCache.Proofs.Cuts

  Decoders that run out of input. A file that is cut off is decoded like the whole file as far as
  it goes: what a step reads from the part, it reads from the whole (`Carries`), and what a decoder
  releases for the part agrees with what it releases for the whole (`Trails`). Both are said of one
  step and composed along the text of a decoder.
-/

import FileListCache.Compression
import FileListCache.Proofs.Attempt
import Mathlib.Data.List.Infix
import Mathlib.Tactic.Common

namespace FileListCache

/-! ## Packed bytes -/

namespace Bytes

variable {a b c : Bytes} {x y : ByteArray}

@[simp] theorem length_ofPacked (x : ByteArray) : (ofPacked x).length = x.size := rfl

@[simp] theorem ofPacked_push (x : ByteArray) (v : UInt8) :
    ofPacked (x.push v) = ofPacked x ++ [v] := by
  simp [ofPacked]

@[simp] theorem ofPacked_append (x y : ByteArray) :
    ofPacked (x ++ y) = ofPacked x ++ ofPacked y := by
  simp [ofPacked]

theorem ofPacked_extract (x : ByteArray) (start stop : Nat) :
    ofPacked (x.extract start stop) = ((ofPacked x).take stop).drop start := by
  simp [ofPacked, List.extract_eq_take_drop, List.drop_take]

theorem getElem?_ofPacked (x : ByteArray) (i : Nat) : (ofPacked x)[i]? = x[i]? := by
  simp only [ofPacked, Array.getElem?_toList]
  rfl

theorem eq_of_ofPacked (h : ofPacked x = ofPacked y) : x = y :=
  ByteArray.ext (Array.toList_inj.1 h)

@[simp] theorem ofPacked_foldl_push (bs : Bytes) (x : ByteArray) :
    ofPacked (bs.foldl ByteArray.push x) = ofPacked x ++ bs := by
  induction bs generalizing x with
  | nil => simp
  | cons v bs ih =>
    rw [List.foldl_cons, ih, ofPacked_push, List.append_assoc, List.singleton_append]

/-- Going through the last `i` bytes of an array is going through them as a list. -/
theorem foldlM_loop_eq {β : Type} (f : β → UInt8 → β) (x : ByteArray) (i j : Nat) (init : β)
    (h : x.size ≤ x.size) (hij : i + j = x.size) :
    (ByteArray.foldlM.loop (m := Id) (fun s v => pure (f s v)) x x.size h i j init).run =
      ((ofPacked x).drop j).foldl f init := by
  induction i generalizing j init with
  | zero =>
    rw [List.drop_of_length_le (by rw [length_ofPacked]; omega)]
    unfold ByteArray.foldlM.loop
    simp
  | succ i ih =>
    have hlt : j < x.size := by omega
    have hdrop : (ofPacked x).drop j = x[j] :: (ofPacked x).drop (j + 1) := by
      rw [List.drop_eq_getElem_cons (by rwa [length_ofPacked])]
      rfl
    rw [hdrop]
    unfold ByteArray.foldlM.loop
    simp only [hlt, ↓reduceDIte]
    exact ih (j + 1) _ (by omega)

theorem foldl_packed {β : Type} (f : β → UInt8 → β) (x : ByteArray) (init : β) :
    x.foldl f init = (ofPacked x).foldl f init := by
  simp only [ByteArray.foldl, ByteArray.foldlM, Nat.le_refl, ↓reduceDIte]
  exact foldlM_loop_eq f x x.size 0 init (Nat.le_refl _) rfl

/-- Either of the two begins with the other. -/
def Agree (a b : Bytes) : Prop := a <+: b ∨ b <+: a

theorem Agree.symm (h : Agree a b) : Agree b a := Or.symm h

/-- What agrees with some bytes, agrees with the first ones of them. -/
theorem Agree.shorten (hab : a <+: b) (h : Agree b c) : Agree a c := by
  rcases h with h | h
  · exact .inl (hab.trans h)
  · exact List.prefix_or_prefix_of_prefix hab h

theorem Agree.append_left (h : Agree a b) (c : Bytes) : Agree (c ++ a) (c ++ b) := by
  rcases h with h | h
  · exact .inl ((List.prefix_append_right_inj c).2 h)
  · exact .inr ((List.prefix_append_right_inj c).2 h)

/-- Bytes that agree begin with the same block, and agree behind it. -/
theorem Agree.of_append {d : Bytes} (h : Agree (a ++ c) (b ++ d)) (hlen : a.length = b.length) :
    a = b ∧ Agree c d := by
  rcases h with ⟨rest, h⟩ | ⟨rest, h⟩
  · rw [List.append_assoc] at h
    obtain ⟨hab, hcd⟩ := List.append_inj h hlen
    exact ⟨hab, .inl ⟨rest, hcd⟩⟩
  · rw [List.append_assoc] at h
    obtain ⟨hba, hdc⟩ := List.append_inj h hlen.symm
    exact ⟨hba.symm, .inr ⟨rest, hdc⟩⟩

end Bytes

open Bytes (Agree ofPacked)

/-- What was read is there. -/
theorem le_size_of_slice? {data : ByteArray} {pos count : Nat} {bs : Bytes}
    (h : slice? data pos count = some bs) : pos + count ≤ data.size := by
  unfold slice? at h
  split at h
  · assumption
  · cases h

theorem le_size_of_littleEndianAt? {data : ByteArray} {pos count n : Nat}
    (h : littleEndianAt? data pos count = some n) : pos + count ≤ data.size := by
  obtain ⟨bs, hbs, -⟩ := Option.map_eq_some_iff.1 h
  exact le_size_of_slice? hbs

/-! ## Cut arrays -/

/-- The array `part` is what is left of `whole` when it is cut off at some place. -/
def Cut (part whole : ByteArray) : Prop := ofPacked part <+: ofPacked whole

namespace Cut

variable {part whole x y z : ByteArray} {i pos count start stop n : Nat} {v : UInt8} {bs : Bytes}

theorem refl (x : ByteArray) : Cut x x := List.prefix_rfl

theorem trans (h : Cut x y) (h' : Cut y z) : Cut x z := List.IsPrefix.trans h h'

theorem push (x : ByteArray) (v : UInt8) : Cut x (x.push v) := by
  rw [Cut, Bytes.ofPacked_push]
  exact List.prefix_append _ _

theorem append (x y : ByteArray) : Cut x (x ++ y) := by
  rw [Cut, Bytes.ofPacked_append]
  exact List.prefix_append _ _

theorem append_left (h : Cut x y) (z : ByteArray) : Cut (z ++ x) (z ++ y) := by
  simp only [Cut, Bytes.ofPacked_append]
  exact (List.prefix_append_right_inj _).2 h

theorem foldl_push (bs : Bytes) (x : ByteArray) : Cut x (bs.foldl ByteArray.push x) := by
  rw [Cut, Bytes.ofPacked_foldl_push]
  exact List.prefix_append _ _

theorem foldl_packed (y x : ByteArray) : Cut x (y.foldl ByteArray.push x) := by
  rw [Bytes.foldl_packed]
  exact foldl_push _ _

theorem foldl_packed_mono (h : Cut y z) (x : ByteArray) :
    Cut (y.foldl ByteArray.push x) (z.foldl ByteArray.push x) := by
  simp only [Cut, Bytes.foldl_packed, Bytes.ofPacked_foldl_push]
  exact (List.prefix_append_right_inj _).2 h

theorem copyBack (x : ByteArray) (distance count : Nat) : Cut x (copyBack x distance count) := by
  induction count generalizing x with
  | zero => exact refl x
  | succ count ih => exact (push x _).trans (ih _)

theorem extract (x : ByteArray) (stop : Nat) : Cut (x.extract 0 stop) x := by
  rw [Cut, Bytes.ofPacked_extract, List.drop_zero]
  exact List.take_prefix _ _

theorem size_le (h : Cut part whole) : part.size ≤ whole.size := h.length_le

theorem getElem? (h : Cut part whole) (hv : part[i]? = some v) : whole[i]? = some v := by
  rw [← Bytes.getElem?_ofPacked] at hv ⊢
  obtain ⟨rest, hrest⟩ := h
  rw [← hrest, List.getElem?_append_left (List.getElem?_eq_some_iff.1 hv).1, hv]

theorem getElem?_eq (h : Cut part whole) (hi : i < part.size) : whole[i]? = part[i]? := by
  rw [getElem?_pos part i hi]
  exact h.getElem? (getElem?_pos part i hi)

/-- Where the part may be read only so far, the whole may be read as far. -/
theorem getElem?_ite {c c' : Prop} [Decidable c] [Decidable c'] (h : Cut part whole) (hc : c → c')
    (hv : (if c then part[i]? else none) = some v) :
    (if c' then whole[i]? else none) = some v := by
  split at hv
  · rw [if_pos (hc ‹_›), h.getElem? hv]
  · cases hv

theorem extract_eq (h : Cut part whole) (hstop : stop ≤ part.size) :
    whole.extract start stop = part.extract start stop := by
  apply Bytes.eq_of_ofPacked
  rw [Bytes.ofPacked_extract, Bytes.ofPacked_extract]
  have htake : (ofPacked whole).take stop = (ofPacked part).take stop := by
    obtain ⟨rest, hrest⟩ := h
    rw [← hrest, List.take_append_of_le_length (by rwa [Bytes.length_ofPacked])]
  rw [htake]

/-- A longer stretch of the whole begins with a stretch of the part. -/
theorem extract_mono {stop' : Nat} (h : Cut part whole) (hstop : stop ≤ stop') :
    Cut (part.extract start stop) (whole.extract start stop') := by
  rw [Cut, Bytes.ofPacked_extract, Bytes.ofPacked_extract]
  refine List.IsPrefix.drop ?_ start
  exact (List.IsPrefix.take h stop).trans (List.take_prefix_take_left hstop)

theorem slice? (h : Cut part whole) (hs : slice? part pos count = some bs) :
    slice? whole pos count = some bs := by
  unfold FileListCache.slice? at hs ⊢
  split at hs
  · rename_i hle
    have hsize := h.size_le
    rw [if_pos (by omega), h.extract_eq hle, hs]
  · cases hs

theorem littleEndianAt? (h : Cut part whole) (hn : littleEndianAt? part pos count = some n) :
    littleEndianAt? whole pos count = some n := by
  unfold FileListCache.littleEndianAt? at hn ⊢
  obtain ⟨bs, hbs, rfl⟩ := Option.map_eq_some_iff.1 hn
  rw [h.slice? hbs, Option.map_some]

theorem littleEndianAt?_eq (h : Cut part whole) (hle : pos + count ≤ part.size) :
    FileListCache.littleEndianAt? whole pos count =
      FileListCache.littleEndianAt? part pos count := by
  have hsize := h.size_le
  unfold FileListCache.littleEndianAt? FileListCache.slice?
  rw [if_pos hle, if_pos (by omega), h.extract_eq hle]

theorem low? {b : Bool} (h : Cut part whole) (hb : Bits.low? part pos = some b) :
    Bits.low? whole pos = some b := by
  unfold Bits.low? at hb ⊢
  obtain ⟨v, hv, rfl⟩ := Option.map_eq_some_iff.1 hb
  rw [h.getElem? hv, Option.map_some]

theorem high? {b : Bool} (h : Cut part whole) (hb : Bits.high? part pos = some b) :
    Bits.high? whole pos = some b := by
  unfold Bits.high? at hb ⊢
  obtain ⟨v, hv, rfl⟩ := Option.map_eq_some_iff.1 hb
  rw [h.getElem? hv, Option.map_some]

theorem lowNumber? (h : Cut part whole) (hn : Bits.lowNumber? part pos count = some n) :
    Bits.lowNumber? whole pos count = some n := by
  induction count generalizing pos n with
  | zero => exact hn
  | succ count ih =>
    simp only [Bits.lowNumber?, Option.bind_eq_bind, Option.bind_eq_some_iff] at hn ⊢
    obtain ⟨b, hb, rest, hrest, hsum⟩ := hn
    exact ⟨b, h.low? hb, rest, ih hrest, hsum⟩

theorem lowNumber?_eq (h : Cut part whole) (hle : pos + count ≤ 8 * part.size) :
    Bits.lowNumber? whole pos count = Bits.lowNumber? part pos count := by
  induction count generalizing pos with
  | zero => rfl
  | succ count ih =>
    simp only [Bits.lowNumber?, Bits.low?]
    rw [h.getElem?_eq (by omega), ih (by omega)]

theorem highNumber? (h : Cut part whole) (hn : Bits.highNumber? part pos count = some n) :
    Bits.highNumber? whole pos count = some n := by
  unfold Bits.highNumber? at hn ⊢
  generalize 0 = acc at hn ⊢
  induction count generalizing pos acc with
  | zero => exact hn
  | succ count ih =>
    simp only [Bits.highNumber?.go, Option.bind_eq_bind, Option.bind_eq_some_iff] at hn ⊢
    obtain ⟨b, hb, hrest⟩ := hn
    exact ⟨b, h.high? hb, ih _ hrest⟩

end Cut

/-! ## Steps that read -/

/-- A step that succeeds was not refused. -/
theorem ok_of_refuse {ε α : Type} {c : Prop} [Decidable c] {x : Except ε α} {e : ε} {a : α}
    (h : (if c then .error e else x) = .ok a) : ¬ c ∧ x = .ok a := by
  split at h
  · cases h
  · exact ⟨‹_›, h⟩

/-- What the first gives, the second gives too. -/
def Carries {ε α : Type} (x y : Except ε α) : Prop := ∀ a, x = .ok a → y = .ok a

namespace Carries

variable {ε α β γ : Type} {x y : Except ε α} {f g : α → Except ε β} {e : ε}

theorem refl (x : Except ε α) : Carries x x := fun _ h => h

theorem of_eq (h : x = y) : Carries x y := fun _ hx => h ▸ hx

theorem error (e : ε) (y : Except ε α) : Carries (.error e) y := nofun

theorem bind (h : Carries x y) (hf : ∀ a, x = .ok a → Carries (f a) (g a)) :
    Carries (x >>= f) (y >>= g) := by
  intro b hb
  obtain ⟨a, ha, hb⟩ := exists_of_bind_ok hb
  rw [h a ha]
  exact hf a ha b hb

theorem map (h : Carries x y) (f : α → β) : Carries (f <$> x) (f <$> y) := by
  intro b hb
  cases x with
  | error e => cases hb
  | ok a =>
    rw [h a rfl]
    exact hb

/-- Both make the same choice. -/
theorem ite {c : Prop} [Decidable c] {x' y' : Except ε α} (h : c → Carries x y)
    (h' : ¬ c → Carries x' y') :
    Carries (if c then x else x') (if c then y else y') := by
  split
  · exact h ‹_›
  · exact h' ‹_›

/-- A check that the first passes is passed by the second. -/
theorem check {c c' : Prop} [Decidable c] [Decidable c'] {e e' : ε} (hc : c → c')
    (h : c → Carries x y) :
    Carries (if c then x else .error e) (if c' then y else .error e') := by
  intro a ha
  split at ha
  · rename_i hx
    rw [if_pos (hc hx)]
    exact h hx a ha
  · cases ha

/-- Where the first does not refuse, the second does not. -/
theorem refuse {c c' : Prop} [Decidable c] [Decidable c'] {e e' : ε} (hc : ¬ c → ¬ c')
    (h : ¬ c → Carries x y) :
    Carries (if c then .error e else x) (if c' then .error e' else y) := by
  intro a ha
  obtain ⟨hx, ha⟩ := ok_of_refuse ha
  rw [if_neg (hc hx)]
  exact h hx a ha

theorem foldlM {s : Type} {f g : s → α → Except ε s} (l : List α)
    (h : ∀ acc i, i ∈ l → Carries (f acc i) (g acc i)) (init : s) :
    Carries (l.foldlM f init) (l.foldlM g init) := by
  induction l generalizing init with
  | nil => exact refl _
  | cons i l ih =>
    rw [List.foldlM_cons, List.foldlM_cons]
    exact (h init i List.mem_cons_self).bind fun acc _ =>
      ih (fun acc j hj => h acc j (List.mem_cons_of_mem _ hj)) acc

theorem forM {f g : α → Except ε PUnit} (l : List α) (h : ∀ i, Carries (f i) (g i)) :
    Carries (l.forM f) (l.forM g) := by
  induction l with
  | nil => exact refl _
  | cons i l ih => exact (h i).bind fun _ _ => ih

end Carries

/-- Reading a symbol looks only at the bits of its code. -/
theorem PrefixCode.go_carries (c : PrefixCode) {bit? bit?' : Nat → Option Bool}
    (h : ∀ p b, bit? p = some b → bit?' p = some b) (counts : List Nat)
    (pos code first index : Nat) :
    Carries (read.go c bit? counts pos code first index)
      (read.go c bit?' counts pos code first index) := by
  induction counts generalizing pos code first index with
  | nil => exact .refl _
  | cons count rest ih =>
    unfold read.go
    cases hb : bit? pos with
    | none => exact .error _ _
    | some b =>
      rw [h pos b hb]
      exact .ite (fun _ => .refl _) fun _ => ih _ _ _ _

theorem PrefixCode.read_carries (c : PrefixCode) {bit? bit?' : Nat → Option Bool}
    (h : ∀ p b, bit? p = some b → bit?' p = some b) (pos : Nat) :
    Carries (c.read bit? pos) (c.read bit?' pos) :=
  c.go_carries h _ _ _ _ _

/-! ## Steps that release -/

/-- A step behind the output `out`: on success it has gone on, and what it releases on failure
agrees with that output. It need not be all of it, since a fault may keep bytes back. -/
def Keeps {ε α : Type} (outOf : α → ByteArray) (out : ByteArray)
    (x : Except (ε × ByteArray) α) : Prop :=
  (∀ a, x = .ok a → Cut out (outOf a)) ∧
    ∀ e o, x = .error (e, o) → Agree (ofPacked out) (ofPacked o)

/-- A step that fails and releases no more than `out`. -/
def Fails {ε α : Type} (out : ByteArray) (x : Except (ε × ByteArray) α) : Prop :=
  ∃ e o, x = .error (e, o) ∧ Cut o out

/-- Two steps behind the output `out`, of which the second goes at least as far as the first: it
succeeds with the first, and where that one stops, it goes on from what was released. -/
structure Trails {ε α : Type} (outOf : α → ByteArray) (out : ByteArray)
    (x y : Except (ε × ByteArray) α) : Prop where
  carries : Carries x y
  resumes : ∀ e o, x = .error (e, o) → Keeps outOf o y
  keeps : Keeps outOf out y

/-- A step that writes nothing; `stop` says what its failure does to the output. -/
def stopping {ε ε' α : Type} (stop : ε → Except (ε' × ByteArray) α) (x : Except ε α) :
    Except (ε' × ByteArray) α :=
  match x with
  | .ok a => .ok a
  | .error e => stop e

section

variable {ε ε' α β : Type} {outOf : α → ByteArray} {outOf' : β → ByteArray} {out o : ByteArray}
  {x y z z' : Except (ε × ByteArray) α} {f g : α → Except (ε × ByteArray) β} {e : ε} {a : α}

theorem Fails.error (h : Cut o out) : Fails out (.error (e, o) : Except _ α) := ⟨e, o, rfl, h⟩

theorem Keeps.ok (h : Cut out (outOf a)) : Keeps (ε := ε) outOf out (.ok a) :=
  ⟨by rintro _ ⟨⟩; exact h, nofun⟩

theorem Keeps.error (h : Agree (ofPacked out) (ofPacked o)) : Keeps outOf out (.error (e, o)) :=
  ⟨nofun, by rintro _ _ ⟨⟩; exact h⟩

theorem Keeps.of_fails (h : Fails out x) : Keeps outOf out x := by
  obtain ⟨e, o, rfl, hcut⟩ := h
  exact .error (.inr hcut)

theorem Keeps.of_cut (hcut : Cut o out) (h : Keeps outOf out x) : Keeps outOf o x :=
  ⟨fun a ha => hcut.trans (h.1 a ha), fun e o' he => (h.2 e o' he).shorten hcut⟩

theorem Keeps.bind (h : Keeps outOf out x)
    (hf : ∀ a, x = .ok a → Keeps outOf' (outOf a) (f a)) : Keeps outOf' out (x >>= f) := by
  cases x with
  | error p => exact ⟨nofun, by rintro e o ⟨⟩; exact h.2 e o rfl⟩
  | ok a => exact (hf a rfl).of_cut (h.1 a rfl)

theorem Trails.ok (h : Cut out (outOf a)) : Trails (ε := ε) outOf out (.ok a) (.ok a) :=
  ⟨.refl _, nofun, .ok h⟩

/-- Where the first stops, the second keeps what there was. -/
theorem Trails.of_fails (hx : Fails out x) (hy : Keeps outOf out y) : Trails outOf out x y := by
  obtain ⟨e, o, rfl, hcut⟩ := hx
  exact ⟨nofun, by rintro _ _ ⟨⟩; exact hy.of_cut hcut, hy⟩

/-- Where the first stops after it has gone on, the second goes on from there. -/
theorem Trails.of_grown (hcut : Cut out o) (hy : Keeps outOf o y) :
    Trails outOf out (.error (e, o)) y :=
  ⟨nofun, by rintro _ _ ⟨⟩; exact hy, hy.of_cut hcut⟩

theorem Trails.fail (hx : Fails out x) (hy : Fails out y) : Trails outOf out x y :=
  .of_fails hx (.of_fails hy)

theorem Trails.of_cut (hcut : Cut o out) (h : Trails outOf out x y) : Trails outOf o x y :=
  ⟨h.carries, h.resumes, h.keeps.of_cut hcut⟩

/-- Both make the same choice. -/
theorem Trails.ite {c : Prop} [Decidable c] {x' y' : Except (ε × ByteArray) α}
    (h : c → Trails outOf out x y) (h' : ¬ c → Trails outOf out x' y') :
    Trails outOf out (if c then x else x') (if c then y else y') := by
  split
  · exact h ‹_›
  · exact h' ‹_›

/-- A check that the first passes is passed by the second. -/
theorem Trails.check {c c' : Prop} [Decidable c] [Decidable c'] (hc : c → c')
    (h : c' → Trails outOf out x y) (hz : Fails out z) (hz' : Fails out z') :
    Trails outOf out (if c then x else z) (if c' then y else z') := by
  by_cases hx : c'
  · rw [if_pos hx]
    split
    · exact h hx
    · exact .of_fails hz (h hx).keeps
  · rw [if_neg hx, if_neg fun hcx => hx (hc hcx)]
    exact .fail hz hz'

/-- A step that writes nothing is followed by others behind the same output. -/
theorem Trails.stopping {x y : Except ε' α} {stop : ε' → Except (ε × ByteArray) α}
    (h : Carries x y) (hstop : ∀ e, Fails out (stop e)) :
    Trails (fun _ => out) out (stopping stop x) (stopping stop y) := by
  have hkeeps : Keeps (fun _ => out) out (FileListCache.stopping stop y) := by
    cases y with
    | ok a => exact .ok (.refl _)
    | error e => exact .of_fails (hstop e)
  cases x with
  | ok a =>
    rw [h a rfl]
    exact .ok (.refl _)
  | error e => exact .of_fails (hstop e) hkeeps

theorem Trails.bind_of_ok (h : Trails outOf out x y)
    (hf : ∀ a, y = .ok a → Trails outOf' (outOf a) (f a) (g a)) :
    Trails outOf' out (x >>= f) (y >>= g) := by
  have hg {o : ByteArray} (hk : Keeps outOf o y) : Keeps outOf' o (y >>= g) :=
    hk.bind fun a ha => (hf a ha).keeps
  refine ⟨h.carries.bind fun a ha => (hf a (h.carries a ha)).carries, fun e o he => ?_, hg h.keeps⟩
  cases x with
  | error p =>
    cases he
    exact hg (h.resumes e o rfl)
  | ok a =>
    have hy := h.carries a rfl
    rw [hy]
    exact (hf a hy).resumes e o he

theorem Trails.bind (h : Trails outOf out x y) (hf : ∀ a, Trails outOf' (outOf a) (f a) (g a)) :
    Trails outOf' out (x >>= f) (y >>= g) :=
  h.bind_of_ok fun a _ => hf a

theorem Trails.map {f : α → β} {p : α → ByteArray} (h : Trails p out x y)
    (hf : ∀ a, outOf' (f a) = p a) : Trails outOf' out (x.map f) (y.map f) :=
  h.bind fun a => .ok (by rw [hf]; exact .refl _)

/-- It does not matter if less is released of what there was. -/
theorem Trails.mapError {F : ε × ByteArray → ε' × ByteArray} (h : Trails outOf out x y)
    (hF : ∀ p, Cut (F p).2 p.2) : Trails outOf out (x.mapError F) (y.mapError F) := by
  have hkeeps {o : ByteArray} (hk : Keeps outOf o y) : Keeps outOf o (y.mapError F) := by
    cases y with
    | error p => exact .error ((hk.2 p.1 p.2 rfl).symm.shorten (hF p)).symm
    | ok a => exact .ok (hk.1 a rfl)
  cases x with
  | error p =>
    have hresumes := (hkeeps (h.resumes p.1 p.2 rfl)).of_cut (hF p)
    refine ⟨nofun, fun e o he => ?_, hkeeps h.keeps⟩
    rw [Except.error.inj he] at hresumes
    exact hresumes
  | ok a =>
    rw [h.carries a rfl]
    exact .ok (h.keeps.1 a (h.carries a rfl))

/-- Output that was there before stands before all of it. -/
theorem Trails.behind {cause : ε → ε'} (earlier : ByteArray) (h : Trails outOf out x y) :
    Trails (fun a => earlier ++ outOf a) (earlier ++ out)
      (x.mapError fun p => (cause p.1, earlier ++ p.2))
      (y.mapError fun p => (cause p.1, earlier ++ p.2)) := by
  have hkeeps {o : ByteArray} (hk : Keeps outOf o y) :
      Keeps (fun a => earlier ++ outOf a) (earlier ++ o)
        (y.mapError fun p => (cause p.1, earlier ++ p.2)) := by
    cases y with
    | error p =>
      refine .error ?_
      rw [Bytes.ofPacked_append, Bytes.ofPacked_append]
      exact (hk.2 p.1 p.2 rfl).append_left _
    | ok a => exact .ok ((hk.1 a rfl).append_left earlier)
  cases x with
  | error p => exact ⟨nofun, by rintro _ _ ⟨⟩; exact hkeeps (h.resumes p.1 p.2 rfl), hkeeps h.keeps⟩
  | ok a =>
    rw [h.carries a rfl]
    exact .ok ((h.keeps.1 a (h.carries a rfl)).append_left earlier)

end

/-! ## Units -/

/-- Decodes units one after the other, each from its start in the file and behind the output so
far. Behind a unit `follow` tells where the next one starts, or how the file ends there. -/
def units (step : ByteArray → Nat → ByteArray → Except (StreamError × ByteArray) (ByteArray × Nat))
    (follow : ByteArray → Nat → ByteArray → Nat → Except Decoded Nat)
    (data : ByteArray) (start : Nat) (out : ByteArray) : Decoded :=
  match step data start out with
  | .error (e, o) => ⟨ofPacked o, some e⟩
  | .ok (grown, next) =>
    match follow data start grown next with
    | .error d => d
    | .ok next =>
      if start < next ∧ next < data.size then units step follow data next grown
      else ⟨ofPacked grown, none⟩
termination_by data.size - start

/-- Units that follow one another directly; the one that is followed by nothing is the last. -/
def directly (fault : StreamError) (data : ByteArray) (start : Nat) (grown : ByteArray)
    (next : Nat) : Except Decoded Nat :=
  if data.size ≤ next then .error ⟨ofPacked grown, none⟩
  else if start < next then .ok next
  else .error ⟨ofPacked grown, some fault⟩

/-- What is behind a unit releases no more, and another unit behind it in the part is behind it in
the whole. -/
structure Resumes (follow : ByteArray → Nat → ByteArray → Nat → Except Decoded Nat)
    (data whole : ByteArray) : Prop where
  stops : ∀ file start grown next d, follow file start grown next = .error d →
    d.bytes <+: ofPacked grown
  carries : ∀ start grown next,
    Carries (follow data start grown next) (follow whole start grown next)

section

variable {data whole : ByteArray}
  {step : ByteArray → Nat → ByteArray → Except (StreamError × ByteArray) (ByteArray × Nat)}
  {follow : ByteArray → Nat → ByteArray → Nat → Except Decoded Nat}

theorem resumes_directly (h : Cut data whole) (fault : StreamError) :
    Resumes (directly fault) data whole := by
  have hsize := h.size_le
  constructor
  · intro file start grown next d hd
    unfold directly at hd
    split at hd
    · cases hd
      exact List.prefix_rfl
    · split at hd
      · cases hd
      · cases hd
        exact List.prefix_rfl
  · intro start grown next n hn
    unfold directly at hn ⊢
    split at hn
    · cases hn
    · rw [if_neg (by omega)]
      exact hn

/-- Where each unit of the part is decoded like that of the whole, so are all of them. -/
theorem units_agree (h : Cut data whole) (hfollow : Resumes follow data whole)
    (hstep : ∀ start out, Trails Prod.fst out (step data start out) (step whole start out))
    (start : Nat) (out : ByteArray) :
    Agree (units step follow data start out).bytes (units step follow whole start out).bytes ∧
      Agree (ofPacked out) (units step follow whole start out).bytes := by
  have hsize := h.size_le
  induction hn : whole.size - start using Nat.strongRecOn generalizing start out with
  | ind n ih =>
    -- Behind a unit of the whole come more of them, or nothing.
    have hlater {next : Nat} {grown : ByteArray} (hok : step whole start out = .ok (grown, next)) :
        Agree (ofPacked grown) (units step follow whole start out).bytes := by
      rw [units, hok]
      dsimp only
      split
      · exact .inr (hfollow.stops _ _ _ _ _ ‹_›)
      · split
        · exact (ih _ (by omega) _ grown rfl).2
        · exact .inl List.prefix_rfl
    have hkeeps {o : ByteArray} (hk : Keeps Prod.fst o (step whole start out)) :
        Agree (ofPacked o) (units step follow whole start out).bytes := by
      cases hw : step whole start out with
      | ok a => exact (hlater hw).shorten (hk.1 a hw)
      | error p =>
        rw [units, hw]
        exact hk.2 p.1 p.2 hw
    refine ⟨?_, hkeeps (hstep start out).keeps⟩
    cases hd : step data start out with
    | error p =>
      rw [units, hd]
      exact hkeeps ((hstep start out).resumes p.1 p.2 hd)
    | ok a =>
      obtain ⟨grown, next⟩ := a
      have hw := (hstep start out).carries _ hd
      cases hf : follow data start grown next with
      | error d =>
        rw [units, hd]
        simp only [hf]
        exact (hlater hw).shorten (hfollow.stops _ _ _ _ _ hf)
      | ok next' =>
        have hf' := hfollow.carries _ _ _ _ hf
        by_cases hin : start < next' ∧ next' < data.size
        · have hnext : units step follow data start out = units step follow data next' grown := by
            rw [units, hd]
            simp only [hf]
            rw [if_pos hin]
          have hnext' :
              units step follow whole start out = units step follow whole next' grown := by
            rw [units, hw]
            simp only [hf']
            rw [if_pos ⟨hin.1, by omega⟩]
          rw [hnext, hnext']
          exact (ih _ (by omega) next' grown rfl).1
        · rw [units, hd]
          simp only [hf]
          rw [if_neg hin]
          exact hlater hw

end

end FileListCache
