import Mathlib.Data.List.Forall2
/-!
# Computations that may fail

How a computation that gave something came to it, and when two computations agree.

* `bind_eq_ok` — one computation after another.
* `foldlM_invariant` — a fold keeps what each of its steps keeps.
* `Agree` — two computations come to related results, or fail alike.
* `Agree.bind`, `Agree.ite`, `agree_foldlM` — agreement is kept by what comes after, by tests that
  go the same way, and by folds.
-/

namespace DecisionEngine

variable {ε α β : Type}

theorem bind_eq_ok {x : Except ε α} {f : α → Except ε β} {b : β} :
    (x >>= f) = .ok b ↔ ∃ a, x = .ok a ∧ f a = .ok b := by
  cases x <;> simp [bind, Except.bind]

theorem mapError_eq_ok {ε' : Type} {f : ε → ε'} {x : Except ε α} {a : α} :
    x.mapError f = .ok a ↔ x = .ok a := by
  cases x with
  | error e => exact ⟨nofun, nofun⟩
  | ok b => exact ⟨fun h => congrArg Except.ok (Except.ok.inj h), fun h => h ▸ rfl⟩

theorem mapError_eq_error {ε' : Type} {f : ε → ε'} {x : Except ε α} {e : ε'} :
    x.mapError f = .error e ↔ ∃ cause, x = .error cause ∧ f cause = e := by
  cases x with
  | error cause =>
    constructor
    · intro h
      exact ⟨cause, rfl, Except.error.inj h⟩
    · rintro ⟨_, ⟨rfl⟩, rfl⟩
      rfl
  | ok b =>
    constructor
    · intro h
      cases h
    · rintro ⟨_, h, _⟩
      cases h

theorem map_eq_ok {f : α → β} {x : Except ε α} {b : β} :
    x.map f = .ok b ↔ ∃ a, x = .ok a ∧ f a = b := by
  cases x <;> simp [Except.map]

/-- What is made of an answer and what is made of an error do not concern one another. -/
theorem map_mapError {ε' : Type} (f : ε → ε') (g : α → β) (x : Except ε α) :
    (x.mapError f).map g = (x.map g).mapError f := by
  cases x <;> rfl

theorem exists_mapM_eq_ok {f : α → Except ε β} {xs : List α} (h : ∀ x ∈ xs, ∃ y, f x = .ok y) :
    ∃ ys, xs.mapM f = .ok ys := by
  induction xs with
  | nil => exact ⟨[], rfl⟩
  | cons x xs ih =>
    obtain ⟨y, hy⟩ := h x (List.mem_cons_self ..)
    obtain ⟨ys, hys⟩ := ih fun x hx => h x (List.mem_cons_of_mem _ hx)
    refine ⟨y :: ys, ?_⟩
    rw [List.mapM_cons, hy, hys]
    rfl

theorem forall₂_of_mapM_eq_ok {f : α → Except ε β} {xs : List α} {ys : List β}
    (h : xs.mapM f = .ok ys) : List.Forall₂ (fun x y => f x = .ok y) xs ys := by
  induction xs generalizing ys with
  | nil =>
    cases h
    exact .nil
  | cons x xs ih =>
    rw [List.mapM_cons] at h
    obtain ⟨y, hy, h⟩ := bind_eq_ok.1 h
    obtain ⟨rest, hrest, h⟩ := bind_eq_ok.1 h
    cases h
    exact .cons hy (ih hrest)

theorem exists_foldlM_eq_ok {f : β → α → Except ε β} {xs : List α}
    (h : ∀ x ∈ xs, ∀ b, ∃ c, f b x = .ok c) (b : β) : ∃ c, xs.foldlM f b = .ok c := by
  induction xs generalizing b with
  | nil => exact ⟨b, rfl⟩
  | cons x xs ih =>
    obtain ⟨c, hc⟩ := h x (List.mem_cons_self ..) b
    obtain ⟨d, hd⟩ := ih (fun y hy => h y (List.mem_cons_of_mem _ hy)) c
    exact ⟨d, by rw [List.foldlM_cons, hc]; exact hd⟩

/-- What every step of a fold keeps, the fold keeps. -/
theorem foldlM_invariant {f : β → α → Except ε β} {P : β → Prop} {xs : List α}
    (hstep : ∀ x ∈ xs, ∀ b c, P b → f b x = .ok c → P c) {b c : β} (hb : P b)
    (h : xs.foldlM f b = .ok c) : P c := by
  induction xs generalizing b with
  | nil =>
    cases h
    exact hb
  | cons x xs ih =>
    obtain ⟨d, hd, h⟩ := bind_eq_ok.1 h
    have hrest := fun y hy => hstep y (List.mem_cons_of_mem _ hy)
    exact ih hrest (hstep x (List.mem_cons_self ..) b d hb hd) h

/-- A fold that comes to the end of a list has come through the list wherever it is split. -/
theorem foldlM_split {f : β → α → Except ε β} {before after : List α} {x : α} {b q c : β}
    (hbefore : before.foldlM f b = .ok q) (h : (before ++ x :: after).foldlM f b = .ok c) :
    ∃ q', f q x = .ok q' ∧ after.foldlM f q' = .ok c := by
  rw [List.foldlM_append, hbefore] at h
  exact bind_eq_ok.1 h

/-! ## Two computations -/

/-- Two computations come to related results, or fail alike. -/
inductive Agree {ε α β : Type} (R : α → β → Prop) : Except ε α → Except ε β → Prop
  | ok {a : α} {b : β} : R a b → Agree R (.ok a) (.ok b)
  | error (e : ε) : Agree R (.error e) (.error e)

namespace Agree

variable {γ δ : Type} {R : α → β → Prop} {S : γ → δ → Prop} {x : Except ε α} {y : Except ε β}

theorem bind {f : α → Except ε γ} {g : β → Except ε δ} (h : Agree R x y)
    (hfg : ∀ a b, R a b → Agree S (f a) (g b)) : Agree S (x >>= f) (y >>= g) := by
  cases h with
  | ok hab => exact hfg _ _ hab
  | error e => exact .error e

theorem mapError {ε' : Type} (h : Agree R x y) (f : ε → ε') :
    Agree R (x.mapError f) (y.mapError f) := by
  cases h with
  | ok hab => exact .ok hab
  | error e => exact .error (f e)

theorem map {f : α → γ} {g : β → δ} (h : Agree R x y) (hfg : ∀ a b, R a b → S (f a) (g b)) :
    Agree S (x.map f) (y.map g) := by
  cases h with
  | ok hab => exact .ok (hfg _ _ hab)
  | error e => exact .error e

theorem mono {T : α → β → Prop} (h : Agree R x y) (hRT : ∀ a b, R a b → T a b) : Agree T x y := by
  cases h with
  | ok hab => exact .ok (hRT _ _ hab)
  | error e => exact .error e

theorem refl (x : Except ε α) : Agree (fun a b => a = b) x x := by
  cases x with
  | ok a => exact .ok rfl
  | error e => exact .error e

/-- Two tests that go the same way agree if both their branches do. -/
theorem ite {x' : Except ε α} {y' : Except ε β} {p q : Prop} [Decidable p] [Decidable q]
    (hpq : p ↔ q) (h : Agree R x y) (h' : Agree R x' y') :
    Agree R (if p then x else x') (if q then y else y') := by
  by_cases hp : p
  · rw [if_pos hp, if_pos (hpq.1 hp)]
    exact h
  · rw [if_neg hp, if_neg fun hq => hp (hpq.2 hq)]
    exact h'

theorem exists_ok (h : Agree R x y) {a : α} (hx : x = .ok a) : ∃ b, y = .ok b ∧ R a b := by
  subst hx
  cases h with
  | ok hab => exact ⟨_, rfl, hab⟩

end Agree

/-- Folds agree whose steps do. -/
theorem agree_foldlM {γ δ : Type} {R : γ → δ → Prop} {S : α → β → Prop}
    {f : γ → α → Except ε γ} {g : δ → β → Except ε δ}
    (hstep : ∀ c d x y, R c d → S x y → Agree R (f c x) (g d y)) {xs : List α} {ys : List β}
    (hxs : List.Forall₂ S xs ys) {c : γ} {d : δ} (hcd : R c d) :
    Agree R (xs.foldlM f c) (ys.foldlM g d) := by
  induction hxs generalizing c d with
  | nil => exact .ok hcd
  | cons hxy _ ih => exact (hstep c d _ _ hcd hxy).bind fun _ _ h => ih h

end DecisionEngine
