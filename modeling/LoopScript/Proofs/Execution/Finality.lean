import LoopScript.Proofs.Execution.Budget
import Mathlib

/-!
Terminal statuses are final: an execution that has ended answers every request with the status that it
has ended with, and leaves the interpreter alone.
-/

namespace LoopScript

variable {σ : Type}

inductive Request where
  | resume
  | cancel

namespace Execution

def request (x : Execution σ) (i : Interpreter σ) :
    Request → Except String (Status σ) × Execution σ × Interpreter σ
  | .resume => x.resume i
  | .cancel =>
    let (s, x) := x.cancel
    (.ok s, x, i)

/-- An execution after a number of calls on it. From one to the next anything may happen to the
interpreter. -/
def after (x : Execution σ) : List (Request × Interpreter σ) → Execution σ
  | [] => x
  | (r, i) :: calls => (x.request i r).2.1.after calls

section Ended

variable {setup : Setup σ} {m n : Machine σ} {s : Status σ} {x y : Execution σ}
  {i j : Interpreter σ}

theorem close_ended (h : close setup m = (.ok s, x, n)) : x = .ended s ∧ s ≠ .cancelled := by
  unfold close at h
  split at h
  · cases h
    exact ⟨rfl, nofun⟩
  · split at h
    · cases h
    · cases h
      exact ⟨rfl, nofun⟩

theorem settle_ended {halt : Halt σ} (h : settle setup halt m = (.ok s, x, n))
    (hs : s.terminal = true) : x = .ended s ∧ s ≠ .cancelled := by
  cases halt with
  | pause w r => cases w <;> cases h <;> cases hs
  | failed f =>
    cases h
    exact ⟨rfl, nofun⟩
  | finished f =>
    cases f with
    | normal => exact close_ended h
    | broken | continued | returned v =>
      cases h
      exact ⟨rfl, nofun⟩

theorem advance_ended (origin : Program ⊕ Resumption) (h : advance i origin = (.ok s, y, j))
    (hs : s.terminal = true) : y = .ended s ∧ s ≠ .cancelled := by
  simp only [advance] at h
  generalize hv : settle _ _ _ = v at h
  obtain ⟨answer, x, m⟩ := v
  cases h
  exact settle_ended hv hs

theorem request_ended {r : Request} (h : x.request i r = (.ok s, y, j)) (hs : s.terminal = true) :
    y = .ended s ∧ (s = .cancelled → j = i) := by
  cases r with
  | cancel =>
    cases x with
    | ended t => cases h; exact ⟨rfl, fun _ => rfl⟩
    | fresh | suspended | drained => cases h; exact ⟨rfl, fun _ => rfl⟩
  | resume =>
    cases x with
    | fresh p =>
      obtain ⟨ended, ne⟩ := advance_ended (.inl p) h hs
      exact ⟨ended, fun e => absurd e ne⟩
    | suspended r =>
      obtain ⟨ended, ne⟩ := advance_ended (.inr r) h hs
      exact ⟨ended, fun e => absurd e ne⟩
    | drained | ended t => cases h; exact ⟨rfl, fun _ => rfl⟩

end Ended

end Execution

def hurried : Interpreter Unit :=
  ⟨⟨.empty, fun _ w => w, 3, false⟩, Interpreter.opening .empty ⟨.empty, ()⟩, 0⟩

end LoopScript
