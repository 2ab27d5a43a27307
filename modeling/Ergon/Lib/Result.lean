import Mathlib.Tactic

/-!
# Fallible computations

Inversion rules for `Except`, so that a computation that succeeded is taken
apart with `obtain` and never unfolded, and the two loop rules: what `mapM`
gives elementwise and what `foldlM` keeps.
-/

namespace Ergon.Lib

open List

variable {ε ε' α β γ σ : Type}

/-- Fail with `err` unless `c` holds. -/
def ensure (c : Prop) [Decidable c] (err : ε) : Except ε Unit :=
  if c then .ok () else .error err

theorem ensure_eq_ok {c : Prop} [Decidable c] {err : ε} {u : Unit} :
    ensure c err = .ok u ↔ c := by
  unfold ensure
  split
  · next h => exact ⟨fun _ => h, fun _ => rfl⟩
  · next h => exact ⟨nofun, fun h' => absurd h' h⟩

theorem ensure_eq_error {c : Prop} [Decidable c] {err e : ε} (h : ensure c err = .error e) :
    e = err := by
  unfold ensure at h
  split at h
  · cases h
  · exact (Except.error.inj h).symm

variable {f : α → Except ε β} {x : Except ε α}

theorem bind_eq_ok {b : β} : (x >>= f) = .ok b ↔ ∃ a, x = .ok a ∧ f a = .ok b := by
  cases x with
  | error e => exact ⟨nofun, nofun⟩
  | ok a =>
    constructor
    · intro h
      exact ⟨a, rfl, h⟩
    · rintro ⟨a', h, hf⟩
      cases h
      exact hf

theorem ok_bind (a : α) (f : α → Except ε β) : (Except.ok a >>= f) = f a := rfl

theorem bind_eq_error {e : ε} :
    (x >>= f) = .error e ↔ x = .error e ∨ ∃ a, x = .ok a ∧ f a = .error e := by
  cases x with
  | error e' =>
    constructor
    · intro h
      cases h
      exact .inl rfl
    · rintro (h | ⟨_, h, _⟩)
      · cases h
        rfl
      · cases h
  | ok a =>
    constructor
    · intro h
      exact .inr ⟨a, rfl, h⟩
    · rintro (h | ⟨a', h, hf⟩)
      · cases h
      · cases h
        exact hf

/-- What only packs its result does not fail. -/
theorem eq_error_of_bind_pure {g : α → β} {e : ε} (h : (x >>= fun a => pure (g a)) = .error e) :
    x = .error e := by
  rcases bind_eq_error.mp h with hFail | ⟨_, -, hPure⟩
  · exact hFail
  · cases hPure

theorem pure_eq_ok {a b : α} : (pure a : Except ε α) = .ok b ↔ a = b :=
  ⟨fun h => by cases h; rfl, fun h => congrArg _ h⟩

theorem map_eq_ok {f : α → β} {b : β} : x.map f = .ok b ↔ ∃ a, x = .ok a ∧ f a = b := by
  cases x with
  | error e => exact ⟨nofun, nofun⟩
  | ok a =>
    constructor
    · intro h
      exact ⟨a, rfl, Except.ok.inj h⟩
    · rintro ⟨a', h, hf⟩
      cases h
      exact congrArg _ hf

theorem mapError_eq_ok {f : ε → ε'} {a : α} : x.mapError f = .ok a ↔ x = .ok a := by
  cases x with
  | error e => exact ⟨nofun, nofun⟩
  | ok b => exact ⟨fun h => congrArg _ (Except.ok.inj h), fun h => congrArg _ (Except.ok.inj h)⟩

theorem map_eq_bind (f : α → β) (x : Except ε α) : x.map f = x >>= fun a => pure (f a) := by
  cases x <;> rfl

/-- An optional value, or the error that names what is missing. -/
def orElse (x : Option α) (err : ε) : Except ε α :=
  match x with
  | some a => .ok a
  | none => .error err

theorem orElse_eq_ok {x : Option α} {err : ε} {a : α} :
    orElse x err = .ok a ↔ x = some a := by
  cases x with
  | none => exact ⟨nofun, nofun⟩
  | some b =>
    constructor
    · intro h
      cases h
      rfl
    · intro h
      cases h
      rfl

theorem orElse_eq_error {x : Option α} {err e : ε} (h : orElse x err = .error e) :
    x = none ∧ e = err := by
  cases x with
  | none => exact ⟨rfl, (Except.error.inj h).symm⟩
  | some a => cases h

/-! ## What a computation returns, and what it fails with -/

/-- Whatever the computation returns satisfies `P`. -/
def Gives (P : α → Prop) (x : Except ε α) : Prop := ∀ a, x = .ok a → P a

namespace Gives

variable {P : α → Prop} {Q : β → Prop}

theorem pure {a : α} (h : P a) : Gives P (Pure.pure a : Except ε α) :=
  fun _ hEq => Except.ok.inj hEq ▸ h

theorem error (e : ε) : Gives P (.error e) := nofun

theorem bind {x : Except ε α} {f : α → Except ε β} (hx : Gives P x)
    (hf : ∀ a, P a → Gives Q (f a)) : Gives Q (x >>= f) := by
  intro b h
  obtain ⟨a, ha, hb⟩ := bind_eq_ok.mp h
  exact hf a (hx a ha) b hb

/-- A step whose result does not matter. -/
theorem skip {x : Except ε α} {f : α → Except ε β} (hf : ∀ a, Gives Q (f a)) : Gives Q (x >>= f) :=
  bind (P := fun _ => True) (fun _ _ => trivial) fun a _ => hf a

end Gives

/-- Whatever the computation fails with satisfies `P`. -/
def Throws (P : ε → Prop) (x : Except ε α) : Prop := ∀ e, x = .error e → P e

namespace Throws

variable {P : ε → Prop}

theorem ok (a : α) : Throws P (.ok a) := nofun

theorem bind {x : Except ε α} {f : α → Except ε β} (hx : Throws P x)
    (hf : ∀ a, x = .ok a → Throws P (f a)) : Throws P (x >>= f) := by
  intro e h
  rcases bind_eq_error.mp h with hFirst | ⟨a, ha, hRest⟩
  · exact hx e hFirst
  · exact hf a ha e hRest

theorem ensure {c : Prop} [Decidable c] {err : ε} (h : P err) : Throws P (ensure c err) :=
  fun _ hFail => ensure_eq_error hFail ▸ h

theorem orElse {x : Option α} {err : ε} (h : P err) : Throws P (orElse x err) :=
  fun _ hFail => (orElse_eq_error hFail).2 ▸ h

end Throws

/-! ## Loops -/

variable {l : List α}

/-- A `mapM` that succeeded ran its body successfully on every element. -/
theorem mapM_eq_ok {r : List β} : l.mapM f = .ok r ↔ List.Forall₂ (fun a b => f a = .ok b) l r := by
  induction l generalizing r with
  | nil =>
    rw [mapM_nil, pure_eq_ok, forall₂_nil_left_iff]
    exact eq_comm
  | cons a l ih =>
    rw [mapM_cons, bind_eq_ok]
    constructor
    · rintro ⟨b, hb, h⟩
      obtain ⟨bs, hbs, h⟩ := bind_eq_ok.mp h
      cases pure_eq_ok.mp h
      exact .cons hb (ih.mp hbs)
    · intro h
      cases h with
      | cons hb hbs => exact ⟨_, hb, bind_eq_ok.mpr ⟨_, ih.mpr hbs, rfl⟩⟩

/-- A `mapM` succeeds when its body does on every element. -/
theorem exists_mapM_eq_ok (h : ∀ a ∈ l, ∃ b, f a = .ok b) : ∃ r, l.mapM f = .ok r := by
  induction l with
  | nil => exact ⟨[], rfl⟩
  | cons a l ih =>
    obtain ⟨b, hb⟩ := h a mem_cons_self
    obtain ⟨bs, hbs⟩ := ih fun a' ha' => h a' (mem_cons_of_mem _ ha')
    exact ⟨b :: bs, mapM_eq_ok.mpr (.cons hb (mapM_eq_ok.mp hbs))⟩

theorem toOption_eq_some {a : α} : x.toOption = some a ↔ x = .ok a := by
  cases x with
  | error e => exact ⟨nofun, nofun⟩
  | ok b => exact ⟨fun h => congrArg Except.ok (Option.some.inj h), fun h => by cases h; rfl⟩

theorem mapM_congr {f g : α → Except ε β} (h : ∀ a ∈ l, f a = g a) : l.mapM f = l.mapM g := by
  induction l with
  | nil => rfl
  | cons a l ih =>
    rw [mapM_cons, mapM_cons, h a mem_cons_self, ih fun a' ha' => h a' (mem_cons_of_mem _ ha')]

/-- Two lists on which two bodies do the same. -/
theorem mapM_eq_of_forall₂ {g : γ → Except ε β} {r : List γ}
    (h : List.Forall₂ (fun a c => f a = g c) l r) : l.mapM f = r.mapM g := by
  induction h with
  | nil => rfl
  | cons hHead _ ih => rw [mapM_cons, mapM_cons, hHead, ih]

/-- Two loops one after the other do what one loop with both bodies does. -/
theorem mapM_bind_eq_ok {g : β → Except ε γ} {r : List γ} :
    l.mapM (fun a => f a >>= g) = .ok r ↔ ∃ mid, l.mapM f = .ok mid ∧ mid.mapM g = .ok r := by
  simp only [mapM_eq_ok]
  induction l generalizing r with
  | nil => simp
  | cons a l ih =>
    constructor
    · intro h
      cases h with
      | cons hHead hRest =>
        obtain ⟨b, hb, hc⟩ := bind_eq_ok.mp hHead
        obtain ⟨mid, hMid, hRest⟩ := ih.mp hRest
        exact ⟨b :: mid, .cons hb hMid, .cons hc hRest⟩
    · rintro ⟨mid, hMid, h⟩
      cases hMid with
      | cons hb hMid =>
        cases h with
        | cons hc hRest => exact .cons (bind_eq_ok.mpr ⟨_, hb, hc⟩) (ih.mpr ⟨_, hMid, hRest⟩)

/-- A loop over two related lists, of which the body needs only one. -/
theorem mapM_zip_eq_ok {R : α → γ → Prop} {f : γ × α → Except ε β} {g : α → Except ε' β}
    {ks : List γ} {r : List β} (hRel : List.Forall₂ R l ks)
    (hBody : ∀ a ∈ l, ∀ k ∈ ks, R a k → ∀ b, f (k, a) = .ok b → g a = .ok b)
    (h : (ks.zip l).mapM f = .ok r) : l.mapM g = .ok r := by
  rw [mapM_eq_ok] at h ⊢
  induction hRel generalizing r with
  | nil =>
    cases h
    exact .nil
  | cons hak hRest ih =>
    cases h with
    | cons hHead hTail =>
      refine .cons (hBody _ mem_cons_self _ mem_cons_self hak _ hHead) (ih ?_ hTail)
      exact fun a ha k hk => hBody a (mem_cons_of_mem _ ha) k (mem_cons_of_mem _ hk)

/-- A loop that fails does so at one of its elements. -/
theorem exists_of_foldlM_eq_error {f : σ → α → Except ε σ} {s : σ} {e : ε}
    (h : l.foldlM f s = .error e) : ∃ a ∈ l, ∃ s', f s' a = .error e := by
  induction l generalizing s with
  | nil => cases h
  | cons a l ih =>
    rw [foldlM_cons] at h
    rcases bind_eq_error.mp h with hFirst | ⟨s', -, hRest⟩
    · exact ⟨a, mem_cons_self, s, hFirst⟩
    · obtain ⟨b, hb, hFail⟩ := ih hRest
      exact ⟨b, mem_cons_of_mem _ hb, hFail⟩

end Ergon.Lib
