import Mathlib.Tactic

/-!
# Ring buffers

A list of slots used as a ring: the queue starts at `head` and wraps around.
`RingHolds` says which queue the slots hold; pushing writes to an empty slot as
long as the queue is shorter than the ring.
-/

namespace Ergon.Lib

open List

variable {α : Type} {slots : List (Option α)} {head : Nat} {q : List α}

/-- Positions less than a whole ring apart are different slots. -/
theorem ring_inj {n head i j : Nat} (hi : i < n) (hj : j < n)
    (h : (head + i) % n = (head + j) % n) : i = j := by
  have hMod : i ≡ j [MOD n] := Nat.ModEq.add_left_cancel' head h
  exact hMod.eq_of_lt_of_lt hi hj

/-- The slots hold the queue `q` from `head` on, and nothing else. -/
structure RingHolds (slots : List (Option α)) (head : Nat) (q : List α) : Prop where
  head_lt : head < slots.length
  length_le : q.length ≤ slots.length
  slot : ∀ i < slots.length, slots[(head + i) % slots.length]? = some q[i]?

namespace RingHolds

theorem replicate {n : Nat} (h : 0 < n) : RingHolds (List.replicate n (none : Option α)) 0 [] := by
  refine ⟨by simpa using h, by simp, fun i hi => ?_⟩
  rw [length_replicate] at hi ⊢
  rw [getElem?_replicate_of_lt (Nat.mod_lt _ h), getElem?_nil]

theorem mod_lt (h : RingHolds slots head q) (i : Nat) : (head + i) % slots.length < slots.length :=
  Nat.mod_lt _ (Nat.lt_of_le_of_lt (Nat.zero_le _) h.head_lt)

/-- Where the next element goes there is none yet. -/
theorem next_empty (h : RingHolds slots head q) (hRoom : q.length < slots.length) :
    slots[(head + q.length) % slots.length]? = some none := by
  rw [h.slot _ hRoom, getElem?_eq_none le_rfl]

theorem push (h : RingHolds slots head q) (hRoom : q.length < slots.length) (x : α) :
    RingHolds (slots.set ((head + q.length) % slots.length) (some x)) head (q ++ [x]) := by
  refine ⟨by simpa using h.head_lt, by simpa using hRoom, fun i hi => ?_⟩
  rw [length_set] at hi ⊢
  by_cases hEq : i = q.length
  · subst hEq
    rw [getElem?_set_self (h.mod_lt _), getElem?_concat_length]
  · rw [getElem?_set_ne fun hSame => hEq (ring_inj hRoom hi hSame).symm, h.slot i hi]
    by_cases hLt : i < q.length
    · rw [getElem?_append_left hLt]
    · rw [getElem?_eq_none (by omega), getElem?_eq_none (by simp; omega)]

theorem front {x : α} (h : RingHolds slots head (x :: q)) : slots[head]? = some (some x) := by
  have hFirst := h.slot 0 (Nat.lt_of_le_of_lt (Nat.zero_le _) h.head_lt)
  rwa [Nat.add_zero, Nat.mod_eq_of_lt h.head_lt] at hFirst

theorem pop {x : α} (h : RingHolds slots head (x :: q)) :
    RingHolds (slots.set head none) ((head + 1) % slots.length) q := by
  have hPos := Nat.lt_of_le_of_lt (Nat.zero_le _) h.head_lt
  have hLength := h.length_le
  rw [length_cons] at hLength
  refine ⟨by simpa using h.mod_lt 1, by simpa using Nat.le_of_succ_le hLength, fun i hi => ?_⟩
  rw [length_set] at hi ⊢
  have hShift : ((head + 1) % slots.length + i) % slots.length = (head + (i + 1)) % slots.length := by
    rw [Nat.mod_add_mod, Nat.add_assoc, Nat.add_comm 1 i]
  rw [hShift]
  by_cases hLast : i + 1 = slots.length
  · -- all the way round is the slot just emptied
    rw [hLast, Nat.add_mod_right, Nat.mod_eq_of_lt h.head_lt, getElem?_set_self h.head_lt,
      getElem?_eq_none (by omega)]
  · have hNe : head ≠ (head + (i + 1)) % slots.length := by
      intro hSame
      have hZero : (head + 0) % slots.length = (head + (i + 1)) % slots.length := by
        rw [Nat.add_zero, Nat.mod_eq_of_lt h.head_lt]
        exact hSame
      have hAbs := ring_inj hPos (by omega : i + 1 < slots.length) hZero
      omega
    rw [getElem?_set_ne hNe, h.slot (i + 1) (by omega), getElem?_cons_succ]

end RingHolds

end Ergon.Lib
