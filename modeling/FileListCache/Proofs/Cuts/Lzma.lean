/-
  FileListCache.Proofs.Cuts.Lzma

  LZMA text that is cut off. Every choice is read from the coded bytes in their order, so the items
  of a part are the first items of the whole.
-/

import FileListCache.Compression.Lzma
import FileListCache.Proofs.Cuts

namespace FileListCache.Lzma

open Bytes (Agree ofPacked)

/-! ## Coded bits -/

/-- What the first computation gives in a state, the second gives in that state. -/
def Follows {α : Type} (m m' : Coding α) : Prop := ∀ c, Carries (m c) (m' c)

namespace Follows

variable {α β : Type} {m m' : Coding α} {f f' : α → Coding β}

theorem refl (m : Coding α) : Follows m m := fun _ => .refl _

theorem bind (h : Follows m m') (hf : ∀ a, Follows (f a) (f' a)) :
    Follows (m >>= f) (m' >>= f') :=
  fun c => (h c).bind fun a _ => hf a.1 a.2

theorem ite {c : Prop} [Decidable c] {l l' : Coding α} (h : c → Follows m m')
    (h' : ¬ c → Follows l l') : Follows (if c then m else l) (if c then m' else l') := by
  split
  · exact h ‹_›
  · exact h' ‹_›

theorem foldlM {s : Type} {f f' : s → α → Coding s} (l : List α)
    (h : ∀ acc i, Follows (f acc i) (f' acc i)) (init : s) :
    Follows (l.foldlM f init) (l.foldlM f' init) := by
  induction l generalizing init with
  | nil => exact refl _
  | cons i l ih =>
    rw [List.foldlM_cons, List.foldlM_cons]
    exact (h init i).bind ih

end Follows

/-- What is read from the first source is read from the second. -/
def Source.Precedes (s s' : Source) : Prop := ∀ pos, Carries (s.byte pos) (s'.byte pos)

/-- A source goes on in the whole as it does in the part. -/
theorem Source.precedes_of_cut {data whole : ByteArray} (h : Cut data whole) (limit : Nat) :
    Precedes ⟨data, limit⟩ ⟨whole, limit⟩ := by
  intro pos
  unfold byte
  dsimp only
  cases hb : data[pos]? with
  | none => exact .error _ _
  | some b =>
    rw [h.getElem? hb]
    exact .refl _

section

variable {s s' : Source} {m : Memory} {w : Window} {out : ByteArray}

theorem refill_follows (h : s.Precedes s') : Follows (refill s) (refill s') := by
  unfold refill
  refine (Follows.refl _).bind fun c => .ite (fun _ => ?_) fun _ => .refl _
  exact .bind (fun c' => (h c.pos).bind fun _ _ => .refl _) fun _ => .refl _

theorem bit_follows (h : s.Precedes s') (i : Nat) : Follows (bit s i) (bit s' i) :=
  (refill_follows h).bind fun _ => .refl _

theorem evenBits_follows (h : s.Precedes s') (count : Nat) :
    Follows (evenBits s count) (evenBits s' count) :=
  .foldlM _ (fun _ _ => (refill_follows h).bind fun _ => .refl _) _

theorem number_follows (h : s.Precedes s') (base count : Nat) :
    Follows (number s base count) (number s' base count) := by
  unfold number
  refine .bind (.foldlM _ (fun node _ => ?_) _) fun _ => .refl _
  exact (bit_follows h _).bind fun _ => .refl _

theorem numberReversed_follows (h : s.Precedes s') (base count : Nat) :
    Follows (numberReversed s base count) (numberReversed s' base count) := by
  unfold numberReversed
  refine .bind (.foldlM _ (fun acc _ => ?_) _) fun _ => .refl _
  exact (bit_follows h _).bind fun _ => .refl _

theorem literalByte_follows (h : s.Precedes s') (base : Nat) (expected : Option UInt8) :
    Follows (literalByte s base expected) (literalByte s' base expected) := by
  unfold literalByte
  split
  · exact (number_follows h base 8).bind fun _ => .refl _
  · refine .bind (.foldlM _ (fun acc i => ?_) _) fun _ => .refl _
    exact (bit_follows h _).bind fun _ => .refl _

theorem copyLength_follows (h : s.Precedes s') (base position : Nat) :
    Follows (copyLength s base position) (copyLength s' base position) := by
  unfold copyLength
  refine (bit_follows h _).bind fun _ => .ite (fun _ => ?_) fun _ => ?_
  · refine (bit_follows h _).bind fun _ => .ite (fun _ => ?_) fun _ => ?_
    · exact (number_follows h _ _).bind fun _ => .refl _
    · exact (number_follows h _ _).bind fun _ => .refl _
  · exact (number_follows h _ _).bind fun _ => .refl _

theorem copyDistance_follows (h : s.Precedes s') (length : Nat) :
    Follows (copyDistance s length) (copyDistance s' length) := by
  unfold copyDistance
  refine (number_follows h _ 6).bind fun slot => .ite (fun _ => .refl _) fun _ => ?_
  refine .ite (fun _ => ?_) fun _ => ?_
  · exact (numberReversed_follows h _ _).bind fun _ => .refl _
  · refine (evenBits_follows h _).bind fun _ => ?_
    exact (numberReversed_follows h _ _).bind fun _ => .refl _

theorem item_follows (h : s.Precedes s') (p : Properties) (w : Window) (out : ByteArray)
    (m : Memory) : Follows (item s p w out m) (item s' p w out m) := by
  unfold item
  extract_lets position afterRepeat repeated rest low high base expected repeated' rest'
  have hrepeated (rotated : Option Memory) :
      Follows (repeated rotated) (repeated' rotated) := by
    cases rotated with
    | none => exact .refl _
    | some m => exact (copyLength_follows h _ _).bind fun _ => .refl _
  have hchosen (rotated : Option Memory) :
      Follows (pure rotated >>= repeated) (pure rotated >>= repeated') :=
    (Follows.refl _).bind hrepeated
  -- Up to three more choices tell which of the last distances is meant.
  have hrest (u : Unit) : Follows (rest u) (rest' u) := by
    refine (bit_follows h _).bind fun _ => .ite (fun _ => ?_) fun _ => ?_
    · refine (bit_follows h _).bind fun _ => .ite (fun _ => ?_) fun _ => hchosen _
      exact (bit_follows h _).bind fun _ => .ite (fun _ => hchosen _) fun _ => hchosen _
    · exact (bit_follows h _).bind fun _ => .ite (fun _ => hchosen _) fun _ => hchosen _
  refine (bit_follows h _).bind fun _ => .ite (fun _ => ?_) fun _ => ?_
  · refine (bit_follows h _).bind fun _ => .ite (fun _ => ?_) fun _ => ?_
    · exact .ite (fun _ => (Follows.refl _).bind hrest) fun _ => hrest ()
    · refine (copyLength_follows h _ _).bind fun length => ?_
      exact (copyDistance_follows h length).bind fun _ => .refl _
  · exact (literalByte_follows h _ _).bind fun _ => .refl _

theorem start_carries (h : s.Precedes s') (pos : Nat) (weights : Array UInt32) :
    Carries (start s pos weights) (start s' pos weights) := by
  unfold start
  refine (h pos).bind fun first _ => ?_
  refine .ite (fun _ => .error _ _) fun _ => ?_
  refine .bind (.foldlM _ (fun v i _ => ?_) _) fun _ _ => .refl _
  exact (h _).bind fun _ _ => .refl _

theorem finish_carries (h : s.Precedes s') (c : Coder) :
    Carries (finish s c) (finish s' c) := by
  unfold finish
  exact (refill_follows h c).bind fun _ _ => .refl _

end

/-! ## Coded text -/

section

variable {s s' : Source} {m : Memory} {w : Window} {out : ByteArray}

theorem Window.withhold_cut (w : Window) (out : ByteArray) : Cut (w.withhold out) out := by
  unfold withhold
  split
  · exact .extract _ _
  · exact .refl _

theorem Window.stopBehind_fails {α : Type} (w : Window) (stop : Stop) (out : ByteArray) :
    Fails out (w.stopBehind stop out : Partial α) := by
  cases stop with
  | exhausted => exact .error (.refl out)
  | corrupt => exact .error (w.withhold_cut out)

/-- The end of a text, behind the output `out`. -/
def ended (s : Source) (w : Window) (c : Coder) (m : Memory) (out : ByteArray) :
    Partial (ByteArray × Coder × Memory) :=
  stopping (w.stopBehind · out) (finish s c) >>= fun c => .ok (out, c, m)

theorem ended_trails (h : s.Precedes s') (w : Window) (c : Coder) (m : Memory)
    (out : ByteArray) : Trails Prod.fst out (ended s w c m out) (ended s' w c m out) :=
  (Trails.stopping (finish_carries h c) fun e => w.stopBehind_fails e out).bind
    fun _ => .ok (.refl out)

theorem items_zero (s : Source) (p : Properties) (w : Window) (want : Option Nat) (c : Coder)
    (m : Memory) (out : ByteArray) : items s p w 0 want c m out =
      if want = some 0 then ended s w c m out else .error (.corrupt, out) := by
  rw [items]
  refine if_congr Iff.rfl ?_ rfl
  unfold ended
  cases finish s c with
  | error e => cases e <;> rfl
  | ok c => rfl

theorem items_succ (s : Source) (p : Properties) (w : Window) (fuel : Nat) (want : Option Nat)
    (c : Coder) (m : Memory) (out : ByteArray) : items s p w (fuel + 1) want c m out =
      if want = some 0 then ended s w c m out
      else
        stopping (fun e => if want.isSome then .error (e, out) else w.stopBehind e out)
            ((item s p w out m).run c) >>= fun ((it, m), c) =>
          match it with
          | .literal b => items s p w fuel (want.map (· - 1)) c m (out.push b)
          | .copy length =>
            if min length (want.getD length) < length then
              .error (.corrupt,
                w.withhold (copyBack out (m.latest + 1) (min length (want.getD length))))
            else
              items s p w fuel (want.map (· - min length (want.getD length))) c m
                (copyBack out (m.latest + 1) (min length (want.getD length)))
          | .finish => if want.isSome then .error (.corrupt, out) else ended s w c m out := by
  rw [items]
  refine if_congr Iff.rfl ?_ ?_
  · unfold ended
    cases finish s c with
    | error e => cases e <;> rfl
    | ok c => rfl
  · dsimp only
    cases (item s p w out m).run c with
    | error e =>
      dsimp only [stopping]
      split
      · rfl
      · cases e <;> rfl
    | ok a =>
      obtain ⟨⟨it, m⟩, c⟩ := a
      cases it with
      | literal b => rfl
      | copy length => rfl
      | finish =>
        refine if_congr Iff.rfl rfl ?_
        unfold ended
        cases finish s c with
        | error e => cases e <;> rfl
        | ok c => rfl

theorem items_trails (h : s.Precedes s') (p : Properties) (w : Window) (fuel : Nat)
    (want : Option Nat) (c : Coder) (m : Memory) (out : ByteArray) :
    Trails Prod.fst out (items s p w fuel want c m out) (items s' p w fuel want c m out) := by
  induction fuel generalizing want c m out with
  | zero =>
    rw [items_zero, items_zero s']
    exact .ite (fun _ => ended_trails h w c m out) fun _ =>
      .fail (.error (.refl out)) (.error (.refl out))
  | succ fuel ih =>
    rw [items_succ, items_succ s']
    refine .ite (fun _ => ended_trails h w c m out) fun _ => ?_
    refine (Trails.stopping (item_follows h p w out m c) fun e => ?_).bind
      fun ⟨⟨it, m⟩, c⟩ => ?_
    · split
      · exact .error (.refl out)
      · exact w.stopBehind_fails e out
    · cases it with
      | literal b => exact (ih _ c m _).of_cut (.push out b)
      | copy length =>
        refine .of_cut (.copyBack out _ _) (.ite (fun _ => ?_) fun _ => ih _ c m _)
        exact .fail (.error (w.withhold_cut _)) (.error (w.withhold_cut _))
      | finish =>
        exact .ite (fun _ => .fail (.error (.refl out)) (.error (.refl out))) fun _ =>
          ended_trails h w c m out

theorem text_eq (s : Source) (p : Properties) (w : Window) (fuel : Nat) (want : Option Nat)
    (pos : Nat) (m : Memory) (out : ByteArray) : text s p w fuel want pos m out =
      stopping (w.stopBehind · out) (start s pos m.weights) >>= fun c =>
        (items s p w fuel want c { m with weights := #[] } out).map fun (out, c, m) =>
          (out, c.pos, { m with weights := c.weights }) := by
  rw [text]
  cases start s pos m.weights with
  | error e => cases e <;> rfl
  | ok c => rfl

/-- Text that is cut off releases the start of what the whole text writes. -/
theorem text_trails (h : s.Precedes s') (p : Properties) (w : Window) (fuel : Nat)
    (want : Option Nat) (pos : Nat) (m : Memory) (out : ByteArray) :
    Trails Prod.fst out (text s p w fuel want pos m out) (text s' p w fuel want pos m out) := by
  rw [text_eq, text_eq s']
  exact (Trails.stopping (start_carries h pos m.weights) fun e => w.stopBehind_fails e out).bind
    fun c => (items_trails h p w fuel want c _ out).map fun _ => rfl

end

end FileListCache.Lzma
