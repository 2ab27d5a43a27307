import Mathlib.Tactic

/-!
# Ancestors

A forest is given by a partial `parent` function. `up parent n x` follows it
`n` times. A forest is *graded* on a set of nodes by a height if every node of
the set at a positive height has its parent in the set, one lower, and the
nodes at height zero have none.

* `Graded.up_eq_some` — how far up a node can go, and the height it arrives at;
* `Graded.isAncestor_iff` — an ancestor is determined by its height;
* `Graded.common_of_up` — two walks that jump up together, as long as they have
  not met on the way, lose no common ancestor.
-/

namespace Ergon.Lib

variable {α : Type}

def up (parent : α → Option α) : Nat → α → Option α
  | 0, x => some x
  | n + 1, x => (parent x).bind (up parent n)

/-- The node `y` is `x` or an ancestor of it. -/
def IsAncestor (parent : α → Option α) (y x : α) : Prop := ∃ n, up parent n x = some y

/-- The node `r` has the property, and no higher node has it. -/
def IsDeepest (height : α → Nat) (P : α → Prop) (r : α) : Prop :=
  P r ∧ ∀ y, P y → height y ≤ height r

structure Graded (S : α → Prop) (parent : α → Option α) (height : α → Nat) : Prop where
  parent_of_pos : ∀ x, S x → 0 < height x →
    ∃ y, parent x = some y ∧ S y ∧ height y + 1 = height x
  parent_of_zero : ∀ x, S x → height x = 0 → parent x = none

section Up

variable {parent : α → Option α} {x y z : α}

theorem up_zero : up parent 0 x = some x := rfl

theorem up_one : up parent 1 x = parent x := by
  show (parent x).bind some = parent x
  exact Option.bind_fun_some _

theorem up_succ_of_parent {n : Nat} (h : parent x = some y) :
    up parent (n + 1) x = up parent n y := by
  show (parent x).bind (up parent n) = up parent n y
  rw [h, Option.bind_some]

theorem up_add (m n : Nat) : up parent (m + n) x = (up parent m x).bind (up parent n) := by
  induction m generalizing x with
  | zero => rw [Nat.zero_add, up_zero, Option.bind_some]
  | succ m ih =>
    rw [Nat.succ_add_eq_add_succ, Nat.add_succ]
    show (parent x).bind (up parent (m + n)) = ((parent x).bind (up parent m)).bind (up parent n)
    rw [Option.bind_assoc]
    exact congrArg (parent x).bind (funext fun _ => ih)

theorem up_of_up {m n : Nat} (h : up parent m x = some y) :
    up parent (m + n) x = up parent n y := by
  rw [up_add, h, Option.bind_some]

theorem IsAncestor.refl : IsAncestor parent x x := ⟨0, rfl⟩

theorem IsAncestor.of_parent (h : parent x = some y) (hAbove : IsAncestor parent z y) :
    IsAncestor parent z x := by
  obtain ⟨n, hn⟩ := hAbove
  exact ⟨n + 1, (up_succ_of_parent h).trans hn⟩

theorem IsAncestor.of_up {m : Nat} (h : up parent m x = some y)
    (hAbove : IsAncestor parent z y) : IsAncestor parent z x := by
  obtain ⟨n, hn⟩ := hAbove
  exact ⟨m + n, (up_of_up h).trans hn⟩

end Up

namespace Graded

variable {S : α → Prop} {parent : α → Option α} {height : α → Nat} {x y a b : α}

variable (hG : Graded S parent height)
include hG

theorem up_eq_some {n : Nat} (hx : S x) (hn : n ≤ height x) :
    ∃ y, up parent n x = some y ∧ S y ∧ height y + n = height x := by
  induction n generalizing x with
  | zero => exact ⟨x, rfl, hx, Nat.add_zero _⟩
  | succ n ih =>
    obtain ⟨p, hParent, hp, hHeight⟩ := hG.parent_of_pos x hx (by omega)
    obtain ⟨y, hUp, hy, hRest⟩ := ih hp (by omega)
    exact ⟨y, (up_succ_of_parent hParent).trans hUp, hy, by omega⟩

/-- A walk up that arrives has not gone above height zero. -/
theorem le_height_of_up {n : Nat} (hx : S x) (h : up parent n x = some y) : n ≤ height x := by
  by_contra hAbove
  obtain ⟨top, hTop, hS, hHeight⟩ := hG.up_eq_some hx le_rfl
  have hNone := hG.parent_of_zero top hS (by omega)
  obtain ⟨k, rfl⟩ : ∃ k, n = height x + (k + 1) := ⟨n - height x - 1, by omega⟩
  rw [up_of_up hTop] at h
  change (parent top).bind (up parent k) = some y at h
  rw [hNone] at h
  cases h

theorem of_up {n : Nat} (hx : S x) (h : up parent n x = some y) :
    S y ∧ height y + n = height x := by
  obtain ⟨y', hUp, hy, hHeight⟩ := hG.up_eq_some hx (hG.le_height_of_up hx h)
  obtain rfl := Option.some.inj (h.symm.trans hUp)
  exact ⟨hy, hHeight⟩

theorem isAncestor_iff (hx : S x) :
    IsAncestor parent y x ↔ height y ≤ height x ∧ up parent (height x - height y) x = some y := by
  constructor
  · rintro ⟨n, hn⟩
    obtain ⟨-, hHeight⟩ := hG.of_up hx hn
    rw [show height x - height y = n by omega]
    exact ⟨by omega, hn⟩
  · rintro ⟨-, h⟩
    exact ⟨_, h⟩

theorem height_le (hx : S x) (h : IsAncestor parent y x) : height y ≤ height x :=
  ((hG.isAncestor_iff hx).mp h).1

/-- An ancestor no higher than one of the nodes on the way is an ancestor of that node. -/
theorem isAncestor_of_up {m : Nat} (hx : S x) (hUp : up parent m x = some a)
    (hAnc : IsAncestor parent y x) (hLe : height y ≤ height a) : IsAncestor parent y a := by
  obtain ⟨-, hHeight⟩ := hG.of_up hx hUp
  obtain ⟨-, hy⟩ := (hG.isAncestor_iff hx).mp hAnc
  refine ⟨height a - height y, ?_⟩
  rw [← up_of_up hUp, show m + (height a - height y) = height x - height y by omega]
  exact hy

/-- A larger forest that keeps the parents of the nodes of `S` keeps the walks from them. -/
theorem up_congr {parent' : α → Option α} (hKept : ∀ z, S z → parent' z = parent z) {n : Nat}
    (hx : S x) : up parent' n x = up parent n x := by
  induction n generalizing x with
  | zero => rfl
  | succ n ih =>
    show (parent' x).bind (up parent' n) = (parent x).bind (up parent n)
    rw [hKept x hx]
    rcases Nat.eq_zero_or_pos (height x) with hZero | hPos
    · rw [hG.parent_of_zero x hx hZero]
      rfl
    · obtain ⟨y, hParent, hy, -⟩ := hG.parent_of_pos x hx hPos
      rw [hParent]
      exact ih hy

/-- Two walks from the same height that have not met on the way keep every
common ancestor. -/
theorem common_of_up {m : Nat} {a' b' : α} (ha : S a) (hb : S b) (hSame : height a = height b)
    (hA : up parent m a = some a') (hB : up parent m b = some b')
    (hApart : ∀ k < m, up parent k a ≠ up parent k b) (hyA : IsAncestor parent y a)
    (hyB : IsAncestor parent y b) : IsAncestor parent y a' ∧ IsAncestor parent y b' := by
  obtain ⟨-, hHeightA⟩ := hG.of_up ha hA
  obtain ⟨-, hHeightB⟩ := hG.of_up hb hB
  -- a common ancestor passed on the way would be a meeting point
  have hLow : height y ≤ height a' := by
    by_contra hHigh
    obtain ⟨hLe, hUpA⟩ := (hG.isAncestor_iff ha).mp hyA
    obtain ⟨-, hUpB⟩ := (hG.isAncestor_iff hb).mp hyB
    rw [← hSame] at hUpB
    exact hApart (height a - height y) (by omega) (hUpA.trans hUpB.symm)
  exact ⟨hG.isAncestor_of_up ha hA hyA hLow, hG.isAncestor_of_up hb hB hyB (by omega)⟩

end Graded

end Ergon.Lib
