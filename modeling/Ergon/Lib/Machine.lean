import Mathlib.Tactic

/-!
# Runs of a machine

A machine takes steps chosen by actions; an action that is not enabled gives
`none`. `Reaches` is the states that some sequence of actions leads to, and
what every step keeps, every run keeps. `Runs` is a run with the state and the
action at each of its instants, for what has to be said about several of them.

A counter that only grows, until it stays at zero for good, is `Later` at every
later instant; where it has the same value again and that is not zero, it was
never advanced in between.
-/

namespace Ergon.Lib

variable {σ α : Type} {step : σ → α → Option σ} {s t u : σ}

inductive Reaches (step : σ → α → Option σ) (s : σ) : σ → Prop
  | refl : Reaches step s s
  | tail {t u : σ} (a : α) : Reaches step s t → step t a = some u → Reaches step s u

variable {I : σ → Prop}

namespace Reaches

theorem trans (h : Reaches step s t) (h' : Reaches step t u) : Reaches step s u := by
  induction h' with
  | refl => exact h
  | tail a _ hStep ih => exact ih.tail a hStep

/-- A run that can be computed. -/
theorem of_run {actions : List α} (h : actions.foldlM step s = some t) : Reaches step s t := by
  induction actions generalizing s with
  | nil =>
    cases h
    exact .refl
  | cons a actions ih =>
    obtain ⟨mid, hFirst, hRest⟩ := Option.bind_eq_some_iff.mp h
    exact (Reaches.refl.tail a hFirst).trans (ih hRest)

/-- What holds at first and is kept by every step holds in every state reached. -/
theorem invariant (hInit : I s) (hStep : ∀ t a u, I t → step t a = some u → I u)
    (h : Reaches step s t) : I t := by
  induction h with
  | refl => exact hInit
  | tail a _ hs ih => exact hStep _ a _ ih hs

/-- If every step from a state with `I` relates it to the next by `R`, then so
does every run. -/
theorem relates {R : σ → σ → Prop} (hRefl : ∀ s, R s s) (hTrans : ∀ s t u, R s t → R t u → R s u)
    (hStep : ∀ t a u, I t → step t a = some u → I u ∧ R t u) (hInit : I s) (h : Reaches step s t) :
    R s t := by
  have hBoth : I t ∧ R s t := by
    induction h with
    | refl => exact ⟨hInit, hRefl s⟩
    | tail a _ hs ih =>
      obtain ⟨hI, hR⟩ := hStep _ a _ ih.1 hs
      exact ⟨hI, hTrans _ _ _ ih.2 hR⟩
  exact hBoth.2

end Reaches

/-- `run` takes the steps `act` at the first `n` instants. -/
def Runs (step : σ → α → Option σ) (run : Nat → σ) (act : Nat → α) (n : Nat) : Prop :=
  ∀ i < n, step (run i) (act i) = some (run (i + 1))

namespace Runs

variable {run : Nat → σ} {act : Nat → α} {n i j : Nat}

theorem invariant (h : Runs step run act n) (hInit : I (run 0))
    (hStep : ∀ t a u, I t → step t a = some u → I u) (hi : i ≤ n) : I (run i) := by
  induction i with
  | zero => exact hInit
  | succ i ih => exact hStep _ _ _ (ih (by omega)) (h i (by omega))

theorem relates {R : σ → σ → Prop} (h : Runs step run act n) (hI : ∀ k ≤ n, I (run k))
    (hRefl : ∀ s, R s s) (hTrans : ∀ s t u, R s t → R t u → R s u)
    (hStep : ∀ t a u, I t → step t a = some u → R t u) (hij : i ≤ j) (hj : j ≤ n) :
    R (run i) (run j) := by
  induction j, hij using Nat.le_induction with
  | base => exact hRefl _
  | succ j _ ih =>
    exact hTrans _ _ _ (ih (by omega)) (hStep _ _ _ (hI j (by omega)) (h j (by omega)))

end Runs

/-- The state after the first actions of a list. -/
def runOf (step : σ → α → Option σ) (s : σ) (actions : List α) (i : Nat) : σ :=
  ((actions.take i).foldlM step s).getD s

/-- A run that can be computed. -/
theorem Runs.of_runOf {actions : List α} (h : (actions.foldlM step s).isSome = true) (a : α) :
    Runs step (runOf step s actions) (fun i => actions.getD i a) actions.length := by
  intro i hi
  have hSplit : (actions.take i ++ actions.drop i).foldlM step s = actions.foldlM step s := by
    rw [List.take_append_drop]
  obtain ⟨t, ht⟩ := Option.isSome_iff_exists.mp h
  rw [ht, List.foldlM_append] at hSplit
  obtain ⟨mid, hMid, hRest⟩ := Option.bind_eq_some_iff.mp hSplit
  rw [List.drop_eq_getElem_cons hi] at hRest
  obtain ⟨next, hNext, -⟩ := Option.bind_eq_some_iff.mp hRest
  have hAct : actions.getD i a = actions[i] := by rw [List.getD_eq_getElem?_getD,
    List.getElem?_eq_getElem hi, Option.getD_some]
  have hTake : (actions.take (i + 1)).foldlM step s = some next := by
    rw [List.take_succ_eq_append_getElem hi, List.foldlM_append, hMid]
    show step mid actions[i] >>= pure = some next
    rw [hNext]
    rfl
  show step (runOf step s actions i) (actions.getD i a) = some (runOf step s actions (i + 1))
  rw [runOf, runOf, hMid, hTake, hAct]
  exact hNext

/-- The values of a counter that is never reused: zero is its last value. -/
def Later (a b : Nat) : Prop := b = 0 ∨ (a ≠ 0 ∧ a ≤ b)

namespace Later

variable {a b c : Nat}

theorem refl (a : Nat) : Later a a := by
  by_cases h : a = 0
  · exact .inl h
  · exact .inr ⟨h, le_rfl⟩

theorem trans (hab : Later a b) (hbc : Later b c) : Later a c := by
  rcases hbc with hc | ⟨hb, hLe⟩
  · exact .inl hc
  · rcases hab with hb' | ⟨ha, hLe'⟩
    · exact absurd hb' hb
    · exact .inr ⟨ha, hLe'.trans hLe⟩

/-- Between two equal values other than zero there is no other value. -/
theorem between (hab : Later a b) (hbc : Later b c) (hac : a = c) (hc : c ≠ 0) : b = a := by
  rcases hbc with hc' | ⟨hb, hLe⟩
  · exact absurd hc' hc
  · rcases hab with hb' | ⟨-, hLe'⟩
    · exact absurd hb' hb
    · omega

end Later

end Ergon.Lib
