import Mathlib.Tactic

/-!
# Lists by index

Lists whose elements are referred to by index, as they grow at the end or are
overwritten in place.
-/

namespace Ergon.Lib

open List

variable {α β : Type}

variable {l : List α}

theorem getElem?_concat_cases {i : Nat} {a b : α} (h : (l ++ [b])[i]? = some a) :
    (i < l.length ∧ l[i]? = some a) ∨ (i = l.length ∧ a = b) := by
  rw [getElem?_append] at h
  split at h
  · next hLt => exact .inl ⟨hLt, h⟩
  · next hLt =>
    rw [List.getElem?_singleton] at h
    split at h
    · next hZero => exact .inr ⟨by omega, (Option.some.inj h).symm⟩
    · cases h

theorem getElem?_append_of_some (l' : List α) {i : Nat} {a : α} (h : l[i]? = some a) :
    (l ++ l')[i]? = some a := by
  have hLt := (List.getElem?_eq_some_iff.mp h).1
  rw [getElem?_append_left hLt, h]

theorem forall_mem_concat {p : α → Prop} {b : α} (h : ∀ a ∈ l, p a) (hb : p b) :
    ∀ a ∈ l ++ [b], p a :=
  forall_mem_append.mpr ⟨h, forall_mem_singleton.mpr hb⟩

theorem nodup_append_singleton {b : α} (h : l.Nodup) (hb : b ∉ l) : (l ++ [b]).Nodup := by
  rw [← concat_eq_append, nodup_concat]
  exact ⟨hb, h⟩

section Forall₂

variable {R : α → β → Prop} {l : List α} {r : List β}

variable (h : List.Forall₂ R l r)
include h

theorem Forall₂.exists_left {b : β} (hb : b ∈ r) : ∃ a ∈ l, R a b := by
  induction h with
  | nil => cases hb
  | cons hab _ ih =>
    obtain rfl | hb := mem_cons.mp hb
    · exact ⟨_, mem_cons_self, hab⟩
    · obtain ⟨a, ha, hab⟩ := ih hb
      exact ⟨a, mem_cons_of_mem _ ha, hab⟩

theorem Forall₂.exists_right {a : α} (ha : a ∈ l) : ∃ b ∈ r, R a b :=
  Forall₂.exists_left (List.Forall₂.flip h) ha

theorem Forall₂.exists_getElem? {i : Nat} {a : α} (ha : l[i]? = some a) :
    ∃ b, r[i]? = some b ∧ R a b := by
  induction h generalizing i with
  | nil => cases ha
  | cons hab _ ih =>
    cases i with
    | zero =>
      cases ha
      exact ⟨_, rfl, hab⟩
    | succ i => exact ih ha

theorem Forall₂.map_eq {γ : Type} {f : α → γ} {g : β → γ} (hR : ∀ a b, R a b → f a = g b) :
    l.map f = r.map g := by
  induction h with
  | nil => rfl
  | cons hFirst _ ih => rw [map_cons, map_cons, hR _ _ hFirst, ih]

theorem forall₂_imp_of_mem {Q : α → β → Prop} (hRQ : ∀ a ∈ l, ∀ b, R a b → Q a b) :
    List.Forall₂ Q l r := by
  induction h with
  | nil => exact .nil
  | cons hab _ ih =>
    exact .cons (hRQ _ mem_cons_self _ hab)
      (ih fun a ha => hRQ a (mem_cons_of_mem _ ha))

theorem Forall₂.comp {γ : Type} {S : β → γ → Prop} {m : List γ} (h' : List.Forall₂ S r m) :
    List.Forall₂ (Relation.Comp R S) l m := by
  induction h generalizing m with
  | nil =>
    cases h'
    exact .nil
  | cons hab _ ih =>
    obtain ⟨c, m, hbc, hRest, rfl⟩ := forall₂_cons_left_iff.mp h'
    exact .cons ⟨_, hab, hbc⟩ (ih hRest)

omit h

/-- What holds between elements on the left holds between those related to them. -/
theorem Forall₂.pairwise {P : α → α → Prop} {Q : β → β → Prop}
    (hPQ : ∀ {a a' b b'}, R a b → R a' b' → P a a' → Q b b') (h : List.Forall₂ R l r)
    (hl : l.Pairwise P) : r.Pairwise Q := by
  induction h with
  | nil => exact .nil
  | cons hab hRest ih =>
    obtain ⟨hHead, hTail⟩ := pairwise_cons.mp hl
    refine pairwise_cons.mpr ⟨fun b' hb' => ?_, ih hTail⟩
    obtain ⟨a', ha', hab'⟩ := Forall₂.exists_left hRest hb'
    exact hPQ hab hab' (hHead a' ha')

end Forall₂

/-- Change the first element that satisfies `p`; if there is none, add `a`. -/
def upsert (p : α → Bool) (f : α → α) (a : α) : List α → List α
  | [] => [a]
  | b :: l => if p b then f b :: l else b :: upsert p f a l

theorem upsert_cases (p : α → Bool) (f : α → α) (a : α) (l : List α) :
    (∃ l₁ b l₂, l = l₁ ++ b :: l₂ ∧ p b = true ∧ upsert p f a l = l₁ ++ f b :: l₂) ∨
    ((∀ b ∈ l, p b = false) ∧ upsert p f a l = l ++ [a]) := by
  induction l with
  | nil => exact .inr ⟨fun _ hb => absurd hb not_mem_nil, rfl⟩
  | cons b l ih =>
    by_cases hb : p b = true
    · exact .inl ⟨[], b, l, rfl, hb, by rw [upsert, if_pos hb]; rfl⟩
    · rw [upsert, if_neg hb]
      obtain ⟨l₁, c, l₂, rfl, hc, hEq⟩ | ⟨hNone, hEq⟩ := ih
      · exact .inl ⟨b :: l₁, c, l₂, rfl, hc, by rw [hEq]; rfl⟩
      · refine .inr ⟨?_, by rw [hEq]; rfl⟩
        intro c hc
        obtain rfl | hc := mem_cons.mp hc
        · exact Bool.eq_false_iff.mpr hb
        · exact hNone c hc

variable {p : α → Bool}

variable {l : List α}

theorem head?_upsert {b : α} (h : l.head? = some b) (f : α → α) (a : α) :
    (upsert p f a l).head? = some (if p b then f b else b) := by
  cases l with
  | nil => cases h
  | cons b' l =>
    cases h
    unfold upsert
    split <;> rfl

/-- A change in place that keeps `g` keeps `g` of all elements. -/
theorem map_upsert {f : α → α} {g : α → β} (hf : ∀ b, g (f b) = g b) (a : α)
    (h : ∃ b ∈ l, p b = true) : (upsert p f a l).map g = l.map g := by
  obtain ⟨l₁, b, l₂, rfl, _, hEq⟩ | ⟨hNone, _⟩ := upsert_cases p f a l
  · rw [hEq]
    simp [hf]
  · obtain ⟨b, hb, hp⟩ := h
    exact absurd hp (Bool.eq_false_iff.mp (hNone b hb))

/-- An element that is changed in a first part leaves what follows alone. -/
theorem upsert_append_left (h : ∃ b ∈ l, p b = true) (f : α → α) (a : α) (l' : List α) :
    upsert p f a (l ++ l') = upsert p f a l ++ l' := by
  induction l with
  | nil =>
    obtain ⟨b, hb, _⟩ := h
    cases hb
  | cons b l ih =>
    by_cases hb : p b = true
    · simp only [cons_append, upsert, if_pos hb]
    · have hRest : ∃ c ∈ l, p c = true := by
        obtain ⟨c, hc, hp⟩ := h
        obtain rfl | hc := mem_cons.mp hc
        · exact absurd hp hb
        · exact ⟨c, hc, hp⟩
      simp only [cons_append, upsert, if_neg hb, ih hRest]

/-- A first part that has no match is left alone. -/
theorem upsert_append_right (h : ∀ b ∈ l, p b = false) (f : α → α) (a : α) (l' : List α) :
    upsert p f a (l ++ l') = l ++ upsert p f a l' := by
  induction l with
  | nil => rfl
  | cons b l ih =>
    have hb : ¬ p b = true := Bool.eq_false_iff.mp (h b mem_cons_self)
    rw [cons_append, upsert, if_neg hb, ih fun c hc => h c (mem_cons_of_mem _ hc)]
    rfl

/-- Overwriting one element adds at most the new element to a sum. -/
theorem sum_map_set_le (f : α → Nat) (l : List α) (i : Nat) (a : α) :
    ((l.set i a).map f).sum ≤ (l.map f).sum + f a := by
  induction l generalizing i with
  | nil => simp
  | cons b l ih =>
    cases i with
    | zero =>
      simp only [set_cons_zero, map_cons, sum_cons]
      omega
    | succ i =>
      have hRest := ih i
      simp only [set_cons_succ, map_cons, sum_cons]
      omega

/-- In a sorted list, at most `k` elements lie below `m` exactly if the one at `k` does not. -/
theorem countP_lt_le_iff {l : List Int} (hSorted : l.Pairwise (· ≤ ·)) {m x : Int} {k : Nat}
    (hx : l[k]? = some x) : l.countP (· < m) ≤ k ↔ m ≤ x := by
  induction l generalizing k with
  | nil => cases hx
  | cons a l ih =>
    rw [pairwise_cons] at hSorted
    by_cases ha : a < m
    · rw [countP_cons_of_pos (by simpa using ha)]
      cases k with
      | zero =>
        obtain rfl : a = x := Option.some.inj hx
        exact iff_of_false (by omega) (by omega)
      | succ k => rw [← ih hSorted.2 hx, Nat.add_le_add_iff_right]
    · -- nothing after `a` is smaller
      have hAll : ∀ b ∈ a :: l, ¬ b < m := by
        intro b hb
        rcases mem_cons.mp hb with rfl | hb
        · exact ha
        · have := hSorted.1 b hb
          omega
      have hZero : (a :: l).countP (· < m) = 0 := by
        rw [countP_eq_zero]
        simpa using hAll
      have := hAll x (mem_of_getElem? hx)
      exact iff_of_true (by omega) (by omega)

/-- A `mapM` that gave a list gave one on every element. -/
theorem mapM_eq_some {f : α → Option β} {r : List β} :
    l.mapM f = some r ↔ List.Forall₂ (fun a b => f a = some b) l r := by
  induction l generalizing r with
  | nil =>
    rw [mapM_nil, forall₂_nil_left_iff]
    exact ⟨fun h => (Option.some.inj h).symm, fun h => congrArg some h.symm⟩
  | cons a l ih =>
    rw [mapM_cons]
    constructor
    · intro h
      obtain ⟨b, hb, h⟩ := Option.bind_eq_some_iff.mp h
      obtain ⟨bs, hbs, h⟩ := Option.bind_eq_some_iff.mp h
      cases h
      exact .cons hb (ih.mp hbs)
    · rintro (_ | ⟨hb, hbs⟩)
      rw [hb, ih.mpr hbs]
      rfl

/-- Pairing a list with another of the same length loses nothing of it. -/
theorem zipWith_eq_map {γ : Type} {r : List β} (h : l.length = r.length) (f : α → γ) :
    l.zipWith (fun a _ => f a) r = l.map f := by
  rw [← map_uncurry_zip_eq_zipWith]
  refine Eq.trans ?_ (congrArg (List.map f) (map_fst_zip h.le))
  rw [map_map]
  rfl

end Ergon.Lib
