import Ergon.Lib.Bytes

/-!
# Framed concatenations

How prefix-free codes compose. A sequence of words of a prefix-free code is
read back word by word, so:

* `PrefixFree.seq` — two prefix-free codes written one after the other form a
  prefix-free code of pairs;
* `PrefixFree.flatMap_injective` — a list of nonempty words determines the list;
* `prefixFree_framed` — a byte string behind its length in fixed width.
-/

namespace Ergon.Lib

section PrefixFree

variable {α β γ : Type*} {enc : α → List γ} {enc' : β → List γ}

theorem prefixFree_of_append_inj (h : ∀ a b s, enc b = enc a ++ s → a = b) : PrefixFree enc := by
  rintro a b hNe ⟨s, hs⟩
  exact hNe (h a b s hs.symm)

/-- Words of one length are prefixes of each other only when equal. -/
theorem prefixFree_of_length {n : Nat} (hInj : Function.Injective enc)
    (hLength : ∀ a, (enc a).length = n) : PrefixFree enc := by
  intro a b hNe hPre
  exact hNe (hInj (hPre.eq_of_length ((hLength a).trans (hLength b).symm)))

theorem PrefixFree.comp (hEnc : PrefixFree enc) {f : β → α} (hf : Function.Injective f) :
    PrefixFree fun b => enc (f b) :=
  fun a b hNe => hEnc (f a) (f b) (hf.ne hNe)

theorem PrefixFree.seq (hEnc : PrefixFree enc) (hEnc' : PrefixFree enc') :
    PrefixFree fun p : α × β => enc p.1 ++ enc' p.2 := by
  refine prefixFree_of_append_inj ?_
  rintro ⟨a, b⟩ ⟨a', b'⟩ s h
  rw [List.append_assoc] at h
  obtain ⟨hFirst, hRest⟩ := hEnc.append_inj h
  have hSecond : b' = b := (hEnc'.append_inj (s := []) (by simpa using hRest)).1
  exact Prod.ext hFirst.symm hSecond.symm

/-- Reading words one after the other gives the list back. -/
theorem PrefixFree.flatMap_injective (hEnc : PrefixFree enc) (hNonempty : ∀ a, enc a ≠ []) :
    Function.Injective fun l : List α => l.flatMap enc := by
  intro l l' h
  induction l generalizing l' with
  | nil =>
    cases l' with
    | nil => rfl
    | cons a l' => exact absurd (List.append_eq_nil_iff.mp h.symm).1 (hNonempty a)
  | cons a l ih =>
    cases l' with
    | nil => exact absurd (List.append_eq_nil_iff.mp h).1 (hNonempty a)
    | cons a' l' =>
      obtain ⟨rfl, hRest⟩ := hEnc.append_inj (h : enc a ++ l.flatMap enc = enc a' ++ l'.flatMap enc)
      rw [ih hRest]

end PrefixFree

/-! ## Length framing -/

/-- A byte string behind its length in `w` little-endian bytes. -/
def framed (w : Nat) (b : Bytes) : Bytes := littleEndian w b.length ++ b

theorem littleEndian_inj {w n m : Nat} (hn : n < 256 ^ w) (hm : m < 256 ^ w)
    (h : littleEndian w n = littleEndian w m) : n = m :=
  bigEndian_inj hn hm (List.reverse_injective h)

theorem framed_append_inj {w : Nat} {b b' s s' : Bytes} (hb : b.length < 256 ^ w)
    (hb' : b'.length < 256 ^ w) (h : framed w b ++ s = framed w b' ++ s') : b = b' ∧ s = s' := by
  unfold framed at h
  rw [List.append_assoc, List.append_assoc] at h
  obtain ⟨hWidth, hRest⟩ := List.append_inj h (by simp)
  -- the lengths agree, so the contents split at the same place
  exact List.append_inj hRest (littleEndian_inj hb hb' hWidth)

/-- The byte strings whose length fits the frame. -/
abbrev Framable (w : Nat) := { b : Bytes // b.length < 256 ^ w }

theorem prefixFree_framed (w : Nat) : PrefixFree fun b : Framable w => framed w b.val := by
  refine prefixFree_of_append_inj fun a b s h => ?_
  have hEq := framed_append_inj a.property b.property
    (h.symm.trans (List.append_nil (framed w b.val)).symm)
  exact Subtype.ext hEq.1

theorem framed_ne_nil {w : Nat} (b : Bytes) : framed (w + 1) b ≠ [] := by
  intro h
  have hLength := congrArg List.length h
  simp [framed] at hLength

end Ergon.Lib
