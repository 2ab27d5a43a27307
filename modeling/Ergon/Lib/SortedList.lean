import Mathlib.Tactic

/-!
# Sorted lists edited by binary search

A list sorted by a key, with the search that either finds a position holding the
key or says where it has to be inserted. What an insertion or removal gives is
described by the elements alone (`insertBy_eq_some`, `removeBy_eq_some`): two
sorted lists with the same elements are equal (`SortedBy.eq_of_mem_iff`).
-/

namespace Ergon.Lib

open List

variable {α κ : Type}

/-! ## Binary search -/

/-- Halve the window `[base, base + size)` until one position is left; the search
goes on at the middle unless it is past what is looked for. -/
def binarySearchLoop (f : α → Ordering) (l : List α) : Nat → Nat → Nat → Nat
  | 0, base, _ => base
  | fuel + 1, base, size =>
    if 1 < size then
      let half := size / 2
      let mid := base + half
      binarySearchLoop f l fuel (if l[mid]?.map f = some .gt then base else mid) (size - half)
    else base

/-- The position of an element that compares equal, or where one has to be inserted. -/
def binarySearchBy (f : α → Ordering) (l : List α) : Except Nat Nat :=
  let base := binarySearchLoop f l l.length 0 l.length
  match l[base]?.map f with
  | none => .error 0
  | some .eq => .ok base
  | some .lt => .error (base + 1)
  | some .gt => .error base

/-- First what compares less, then what is equal, then what is greater. -/
def Ordered (f : α → Ordering) (l : List α) : Prop :=
  l.Pairwise fun a b => (f b = .lt → f a = .lt) ∧ (f a = .gt → f b = .gt)

section Search

variable {f : α → Ordering} {l : List α}

theorem Ordered.gt_of_gt (h : Ordered f l) {i j : Nat} (hij : i ≤ j) (hj : j < l.length)
    (hGt : f l[i] = .gt) : f l[j] = .gt := by
  rcases Nat.lt_or_eq_of_le hij with hLt | rfl
  · exact (pairwise_iff_getElem.mp h i j (by omega) hj hLt).2 hGt
  · exact hGt

theorem Ordered.lt_of_lt (h : Ordered f l) {i j : Nat} (hij : i ≤ j) (hj : j < l.length)
    (hLt : f l[j] = .lt) : f l[i] = .lt := by
  rcases Nat.lt_or_eq_of_le hij with hLess | rfl
  · exact (pairwise_iff_getElem.mp h i j (by omega) hj hLess).1 hLt
  · exact hLt

/-- What holds of the window throughout: it is not empty and inside the list, what
follows it is greater, and its start has been compared unless it is the list's. -/
structure Window (f : α → Ordering) (l : List α) (base size : Nat) : Prop where
  pos : 0 < size
  inside : base + size ≤ l.length
  above : ∀ j (hj : j < l.length), base + size ≤ j → f l[j] = .gt
  compared : base = 0 ∨ ∃ h : base < l.length, f l[base] ≠ .gt

theorem Window.halve (h : Ordered f l) {base size : Nat} (hWin : Window f l base size)
    (hSize : 1 < size) :
    Window f l (if l[base + size / 2]?.map f = some .gt then base else base + size / 2)
      (size - size / 2) := by
  have hInside := hWin.inside
  have hMid : base + size / 2 < l.length := by omega
  rw [getElem?_eq_getElem hMid, Option.map_some]
  split
  · next hGt =>
    refine ⟨by omega, by omega, fun j hj hLe => ?_, hWin.compared⟩
    by_cases hUpper : base + size ≤ j
    · exact hWin.above j hj hUpper
    · exact h.gt_of_gt (by omega) hj (Option.some.inj hGt)
  · next hNotGt =>
    refine ⟨by omega, by omega, fun j hj hLe => hWin.above j hj (by omega), .inr ⟨hMid, ?_⟩⟩
    exact fun hGt => hNotGt (congrArg some hGt)

theorem Window.loop (h : Ordered f l) {fuel base size : Nat} (hWin : Window f l base size)
    (hFuel : size ≤ fuel + 1) : Window f l (binarySearchLoop f l fuel base size) 1 := by
  induction fuel generalizing base size with
  | zero =>
    have hOne : size = 1 := by
      have := hWin.pos
      omega
    rwa [hOne] at hWin
  | succ fuel ih =>
    unfold binarySearchLoop
    split
    · next hSize => exact ih (hWin.halve h hSize) (by omega)
    · next hSize =>
      have hOne : size = 1 := by
        have := hWin.pos
        omega
      rwa [hOne] at hWin

theorem Window.init (hPos : 0 < l.length) : Window f l 0 l.length :=
  ⟨hPos, by omega, fun _ _ _ => by omega, .inl rfl⟩

theorem binarySearchBy_eq_ok {i : Nat} (h : binarySearchBy f l = .ok i) :
    ∃ hi : i < l.length, f l[i] = .eq := by
  unfold binarySearchBy at h
  dsimp only at h
  split at h
  · cases h
  · next hAt =>
    cases h
    obtain ⟨a, hGet, hEq⟩ := Option.map_eq_some_iff.mp hAt
    obtain ⟨hi, rfl⟩ := List.getElem?_eq_some_iff.mp hGet
    exact ⟨hi, hEq⟩
  · cases h
  · cases h

theorem binarySearchBy_eq_error (hOrd : Ordered f l) {i : Nat} (h : binarySearchBy f l = .error i) :
    i ≤ l.length ∧ (∀ j (hj : j < l.length), j < i → f l[j] = .lt) ∧
      ∀ j (hj : j < l.length), i ≤ j → f l[j] = .gt := by
  rcases Nat.eq_zero_or_pos l.length with hEmpty | hPos
  · -- nothing to compare with
    have hNil : l = [] := length_eq_zero_iff.mp hEmpty
    subst hNil
    cases h
    exact ⟨by simp, fun j hj => absurd hj (by simp), fun j hj => absurd hj (by simp)⟩
  have hWin : Window f l (binarySearchLoop f l l.length 0 l.length) 1 :=
    Window.loop hOrd (Window.init hPos) (by omega)
  have hInside := hWin.inside
  unfold binarySearchBy at h
  dsimp only at h
  generalize binarySearchLoop f l l.length 0 l.length = base at h hWin hInside
  have hBase : base < l.length := by omega
  rw [getElem?_eq_getElem hBase, Option.map_some] at h
  split at h
  · next hNone => cases hNone
  · cases h
  · next hLt =>
    cases h
    refine ⟨by omega, fun j hj hLess => ?_, fun j hj hLe => hWin.above j hj hLe⟩
    exact hOrd.lt_of_lt (by omega) hBase (Option.some.inj hLt)
  · next hGt =>
    obtain rfl : i = base := (Except.error.inj h).symm
    -- only the start of the list can be left without having been compared
    have hZero : i = 0 := by
      rcases hWin.compared with hZero | ⟨_, hNot⟩
      · exact hZero
      · exact absurd (Option.some.inj hGt) hNot
    refine ⟨by omega, fun j hj hLess => by omega, fun j hj hLe => ?_⟩
    exact hOrd.gt_of_gt hLe hj (Option.some.inj hGt)

end Search

/-! ## Lists sorted by a key -/

section Keyed

variable [Ord κ] {key : α → κ} {l l' : List α}

/-- Strictly sorted by a key. -/
def SortedBy (key : α → κ) (l : List α) : Prop :=
  l.Pairwise fun a b => compare (key a) (key b) = .lt

/-- Insert an element whose key is not there yet. -/
def insertBy (key : α → κ) (x : α) (l : List α) : Option (List α) :=
  match binarySearchBy (fun a => compare (key a) (key x)) l with
  | .ok _ => none
  | .error i => some (l.insertIdx i x)

/-- Remove the element of a key that is there. -/
def removeBy (key : α → κ) (k : κ) (l : List α) : Option (List α) :=
  match binarySearchBy (fun a => compare (key a) k) l with
  | .ok i => some (l.eraseIdx i)
  | .error _ => none

theorem SortedBy.nil : SortedBy key [] := List.Pairwise.nil

theorem SortedBy.erase (h : SortedBy key l) (i : Nat) : SortedBy key (l.eraseIdx i) :=
  h.sublist (eraseIdx_sublist l i)

variable [Std.TransOrd κ]

theorem SortedBy.ordered (h : SortedBy key l) (k : κ) :
    Ordered (fun a => compare (key a) k) l := by
  refine h.imp fun {a b} hLess => ⟨fun hLt => Std.TransCmp.lt_trans hLess hLt, fun hGt => ?_⟩
  rw [Std.OrientedCmp.gt_iff_lt] at hGt ⊢
  exact Std.TransCmp.lt_trans hGt hLess

theorem SortedBy.eq_of_mem_iff (h : SortedBy key l) (h' : SortedBy key l')
    (hMem : ∀ a, a ∈ l ↔ a ∈ l') : l = l' := by
  have hIrrefl : ∀ a, ¬ compare (key a) (key a) = .lt := by
    intro a hLt
    rw [Std.ReflOrd.compare_self] at hLt
    cases hLt
  have : Std.Irrefl fun a b : α => compare (key a) (key b) = .lt := ⟨hIrrefl⟩
  have : Std.Antisymm fun a b : α => compare (key a) (key b) = .lt :=
    ⟨fun a b hab hba => absurd (Std.TransCmp.lt_trans hab hba) (hIrrefl a)⟩
  exact List.Pairwise.eq_of_mem_iff h h' hMem

/-- Where the search fails, the key is not there. -/
theorem SortedBy.key_ne_of_error (h : SortedBy key l) {k : κ} {i : Nat}
    (hSearch : binarySearchBy (fun a => compare (key a) k) l = .error i) :
    ∀ a ∈ l, key a ≠ k := by
  rintro a ha rfl
  obtain ⟨-, hBelow, hAbove⟩ := binarySearchBy_eq_error (h.ordered _) hSearch
  obtain ⟨j, hj, rfl⟩ := getElem_of_mem ha
  rcases Nat.lt_or_ge j i with hLt | hGe
  · have hCmp := hBelow j hj hLt
    rw [Std.ReflOrd.compare_self] at hCmp
    cases hCmp
  · have hCmp := hAbove j hj hGe
    rw [Std.ReflOrd.compare_self] at hCmp
    cases hCmp

theorem SortedBy.insertIdx {x : α} {i : Nat} (h : SortedBy key l) (hi : i ≤ l.length)
    (hBelow : ∀ j (hj : j < l.length), j < i → compare (key l[j]) (key x) = .lt)
    (hAbove : ∀ j (hj : j < l.length), i ≤ j → compare (key l[j]) (key x) = .gt) :
    SortedBy key (l.insertIdx i x) := by
  induction l generalizing i with
  | nil =>
    have hZero : i = 0 := by simpa using hi
    rw [hZero]
    exact pairwise_singleton _ _
  | cons a l ih =>
    obtain ⟨hHead, hTail⟩ := pairwise_cons.mp h
    cases i with
    | zero =>
      refine pairwise_cons.mpr ⟨fun b hb => ?_, h⟩
      obtain ⟨j, hj, rfl⟩ := getElem_of_mem hb
      exact Std.OrientedCmp.gt_iff_lt.mp (hAbove j hj (by omega))
    | succ i =>
      have hLess : compare (key a) (key x) = .lt :=
        hBelow 0 (Nat.zero_lt_succ _) (Nat.zero_lt_succ _)
      rw [insertIdx_succ_cons]
      refine pairwise_cons.mpr ⟨fun b hb => ?_, ih hTail ?_ ?_ ?_⟩
      · rw [mem_insertIdx (Nat.le_of_succ_le_succ hi)] at hb
        rcases hb with rfl | hb
        · exact hLess
        · exact hHead b hb
      · exact Nat.le_of_succ_le_succ hi
      · intro j hj hji
        exact hBelow (j + 1) (Nat.succ_lt_succ hj) (Nat.succ_lt_succ hji)
      · intro j hj hji
        exact hAbove (j + 1) (Nat.succ_lt_succ hj) (Nat.succ_le_succ hji)

variable [Std.LawfulEqOrd κ]

omit [Std.TransOrd κ] in
/-- Different elements of a sorted list have different keys. -/
theorem SortedBy.eq_of_key (h : SortedBy key l) {a b : α} (ha : a ∈ l) (hb : b ∈ l)
    (hKey : key a = key b) : a = b := by
  have hNe : l.Pairwise fun a b => key a ≠ key b := by
    refine h.imp fun {a b} hLt hEq => ?_
    rw [hEq, Std.ReflOrd.compare_self] at hLt
    cases hLt
  exact inj_on_of_nodup_map (pairwise_map.mpr hNe) ha hb hKey

/-- The search finds what is there. -/
theorem SortedBy.search_of_mem (h : SortedBy key l) {a : α} (ha : a ∈ l) :
    ∃ i, binarySearchBy (fun b => compare (key b) (key a)) l = .ok i ∧ l[i]? = some a := by
  cases hSearch : binarySearchBy (fun b => compare (key b) (key a)) l with
  | error i => exact absurd rfl (h.key_ne_of_error hSearch a ha)
  | ok i =>
    obtain ⟨hi, hEq⟩ := binarySearchBy_eq_ok hSearch
    have hKey : key l[i] = key a := Std.LawfulEqOrd.eq_of_compare hEq
    refine ⟨i, rfl, ?_⟩
    rw [getElem?_eq_getElem hi, h.eq_of_key (getElem_mem hi) ha hKey]

/-- An insertion fails exactly when the key is there. -/
theorem insertBy_eq_some (hSorted : SortedBy key l) {x : α} :
    insertBy key x l = some l' ↔
      (∀ a ∈ l, key a ≠ key x) ∧ SortedBy key l' ∧ ∀ a, a ∈ l' ↔ a = x ∨ a ∈ l := by
  unfold insertBy
  cases hSearch : binarySearchBy (fun a => compare (key a) (key x)) l with
  | ok i =>
    obtain ⟨hi, hEq⟩ := binarySearchBy_eq_ok hSearch
    refine ⟨nofun, fun h => ?_⟩
    exact absurd (Std.LawfulEqOrd.eq_of_compare hEq) (h.1 _ (getElem_mem hi))
  | error i =>
    obtain ⟨hi, hBelow, hAbove⟩ := binarySearchBy_eq_error (hSorted.ordered (key x)) hSearch
    have hNew := hSorted.key_ne_of_error hSearch
    have hInsert := hSorted.insertIdx hi hBelow hAbove
    have hMem : ∀ a, a ∈ l.insertIdx i x ↔ a = x ∨ a ∈ l := fun a => mem_insertIdx hi
    constructor
    · intro h
      cases h
      exact ⟨hNew, hInsert, hMem⟩
    · rintro ⟨-, hSorted', hMem'⟩
      exact congrArg some (hInsert.eq_of_mem_iff hSorted' fun a => (hMem a).trans (hMem' a).symm)

omit [Std.TransOrd κ] in
theorem exists_insertBy {x : α} (h : ∀ a ∈ l, key a ≠ key x) :
    ∃ l', insertBy key x l = some l' := by
  unfold insertBy
  cases hSearch : binarySearchBy (fun a => compare (key a) (key x)) l with
  | ok i =>
    obtain ⟨hi, hEq⟩ := binarySearchBy_eq_ok hSearch
    exact absurd (Std.LawfulEqOrd.eq_of_compare hEq) (h _ (getElem_mem hi))
  | error i => exact ⟨_, rfl⟩

/-- A removal fails exactly when the key is not there. -/
theorem removeBy_eq_some (hSorted : SortedBy key l) {k : κ} :
    removeBy key k l = some l' ↔
      (∃ a ∈ l, key a = k) ∧ SortedBy key l' ∧ ∀ a, a ∈ l' ↔ a ∈ l ∧ key a ≠ k := by
  unfold removeBy
  cases hSearch : binarySearchBy (fun a => compare (key a) k) l with
  | error i =>
    refine ⟨nofun, ?_⟩
    rintro ⟨⟨a, ha, hKey⟩, -⟩
    exact absurd hKey (hSorted.key_ne_of_error hSearch a ha)
  | ok i =>
    obtain ⟨hi, hEq⟩ := binarySearchBy_eq_ok hSearch
    have hKey : key l[i] = k := Std.LawfulEqOrd.eq_of_compare hEq
    have hErase := hSorted.erase i
    have hPerm : (l[i] :: l.eraseIdx i).Perm l := getElem_cons_eraseIdx_perm hi
    have hNodup : (l[i] :: l.eraseIdx i).Nodup := by
      refine hPerm.nodup_iff.mpr (hSorted.imp fun {a b} hLt hEq => ?_)
      rw [hEq, Std.ReflOrd.compare_self] at hLt
      cases hLt
    have hMem : ∀ a, a ∈ l.eraseIdx i ↔ a ∈ l ∧ key a ≠ k := by
      intro a
      rw [← hPerm.mem_iff, mem_cons]
      constructor
      · intro ha
        refine ⟨.inr ha, fun hSame => (nodup_cons.mp hNodup).1 ?_⟩
        rwa [hSorted.eq_of_key (getElem_mem hi) (hPerm.mem_iff.mp (mem_cons_of_mem _ ha))
          (hKey.trans hSame.symm)]
      · rintro ⟨rfl | ha, hNe⟩
        · exact absurd hKey hNe
        · exact ha
    constructor
    · intro h
      cases h
      exact ⟨⟨l[i], getElem_mem hi, hKey⟩, hErase, hMem⟩
    · rintro ⟨-, hSorted', hMem'⟩
      exact congrArg some (hErase.eq_of_mem_iff hSorted' fun a => (hMem a).trans (hMem' a).symm)

end Keyed

end Ergon.Lib
