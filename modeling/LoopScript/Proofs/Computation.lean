import Mathlib.Data.List.Forall2

/-!
Computations that may end with an error, and pairs of them that end alike.
-/

namespace LoopScript

variable {ε α β γ δ : Type}

theorem isOk_bind {x : Except ε α} {f : α → Except ε β} :
    (∃ b, x >>= f = .ok b) ↔ ∃ a, x = .ok a ∧ ∃ b, f a = .ok b := by
  cases x with
  | error e => simp [bind, Except.bind]
  | ok a => simp [bind, Except.bind]

theorem ok_of_bind {x : Except ε α} {f : α → Except ε β} {b : β}
    (h : x >>= f = .ok b) : ∃ a, x = .ok a ∧ f a = .ok b := by
  cases x with
  | error e => cases h
  | ok a => exact ⟨a, rfl, h⟩

theorem mapM_of_ok {f g : α → Except ε β} {xs : List α} {ys : List β}
    (h : xs.mapM f = .ok ys) (hfg : ∀ x y, f x = .ok y → g x = .ok y) : xs.mapM g = .ok ys := by
  induction xs generalizing ys with
  | nil => exact h
  | cons x xs ih =>
    rw [List.mapM_cons] at h ⊢
    obtain ⟨y, hy, h⟩ := ok_of_bind h
    obtain ⟨zs, hz, h⟩ := ok_of_bind h
    rw [hfg x y hy, ih hz]
    exact h

theorem isOk_mapM {f : α → Except ε β} {xs : List α} :
    (∃ ys, xs.mapM f = .ok ys) ↔ ∀ x ∈ xs, ∃ y, f x = .ok y := by
  induction xs with
  | nil => exact ⟨fun _ _ hx => absurd hx List.not_mem_nil, fun _ => ⟨[], rfl⟩⟩
  | cons x xs ih =>
    rw [List.forall_mem_cons, ← ih, List.mapM_cons, isOk_bind]
    simp only [isOk_bind, pure, Except.pure, Except.ok.injEq, exists_eq', and_true,
      exists_and_right]

/-- Two computations that end with corresponding results, or with the same error. -/
inductive Concur (R : α → β → Prop) : Except ε α → Except ε β → Prop where
  | ok {a : α} {b : β} (h : R a b) : Concur R (.ok a) (.ok b)
  | error (e : ε) : Concur R (.error e) (.error e)

section Concur

variable {P : α → β → Prop} {Q : γ → δ → Prop}

theorem concur_eq {x y : Except ε α} : Concur Eq x y ↔ x = y := by
  constructor
  · intro h
    cases h with
    | ok h => rw [h]
    | error e => rfl
  · rintro rfl
    cases x with
    | ok a => exact .ok rfl
    | error e => exact .error e

theorem Concur.imp {P' : α → β → Prop} {x : Except ε α} {y : Except ε β} (h : Concur P x y)
    (hP : ∀ a b, P a b → P' a b) : Concur P' x y := by
  cases h with
  | ok h => exact .ok (hP _ _ h)
  | error e => exact .error e

theorem concur_bind {x : Except ε α} {y : Except ε β} {f : α → Except ε γ} {g : β → Except ε δ}
    (h : Concur P x y) (hf : ∀ a b, P a b → Concur Q (f a) (g b)) :
    Concur Q (x >>= f) (y >>= g) := by
  cases h with
  | ok h => exact hf _ _ h
  | error e => exact .error e

theorem concur_bind_same {x : Except ε α} {f : α → Except ε γ} {g : α → Except ε δ}
    (hf : ∀ a, Concur Q (f a) (g a)) : Concur Q (x >>= f) (x >>= g) := by
  cases x with
  | ok a => exact hf a
  | error e => exact .error e

theorem concur_map {x : Except ε α} {y : Except ε β} {f : α → γ} {g : β → δ} (h : Concur P x y)
    (hf : ∀ a b, P a b → Q (f a) (g b)) : Concur Q (f <$> x) (g <$> y) := by
  cases h with
  | ok h => exact .ok (hf _ _ h)
  | error e => exact .error e

theorem concur_mapM {f : α → Except ε γ} {g : β → Except ε δ} {xs : List α} {ys : List β}
    (h : List.Forall₂ P xs ys) (hf : ∀ a b, P a b → Concur Q (f a) (g b)) :
    Concur (List.Forall₂ Q) (xs.mapM f) (ys.mapM g) := by
  induction h with
  | nil => exact .ok .nil
  | cons hab _ ih =>
    simp only [List.mapM_cons]
    refine concur_bind (hf _ _ hab) fun c d hcd => ?_
    exact concur_bind ih fun cs ds hs => .ok (.cons hcd hs)

theorem concur_foldlM {f : γ → α → Except ε γ} {g : δ → β → Except ε δ} {xs : List α} {ys : List β}
    (h : List.Forall₂ P xs ys) {c : γ} {d : δ} (hcd : Q c d)
    (hf : ∀ c d a b, Q c d → P a b → Concur Q (f c a) (g d b)) :
    Concur Q (xs.foldlM f c) (ys.foldlM g d) := by
  induction h generalizing c d with
  | nil => exact .ok hcd
  | cons hab _ ih =>
    simp only [List.foldlM_cons]
    exact concur_bind (hf _ _ _ _ hcd hab) fun c d hcd => ih hcd

theorem mapM_congr {f : α → Except ε γ} {g : β → Except ε γ} {xs : List α} {ys : List β}
    (h : List.Forall₂ P xs ys) (hf : ∀ a b, P a b → f a = g b) : xs.mapM f = ys.mapM g := by
  have alike := concur_mapM h fun a b hab => concur_eq.mpr (hf a b hab)
  rw [List.forall₂_eq_eq_eq] at alike
  exact concur_eq.mp alike

theorem foldlM_congr {f : γ → α → Except ε γ} {g : γ → β → Except ε γ} {xs : List α} {ys : List β}
    (h : List.Forall₂ P xs ys) (c : γ) (hf : ∀ c a b, P a b → f c a = g c b) :
    xs.foldlM f c = ys.foldlM g c := by
  refine concur_eq.mp (concur_foldlM h rfl ?_)
  rintro c _ a b rfl hab
  exact concur_eq.mpr (hf c a b hab)

end Concur

end LoopScript
