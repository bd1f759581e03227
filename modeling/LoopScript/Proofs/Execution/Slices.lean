import LoopScript.Proofs.Execution.Effect
import Mathlib.Order.WellFounded

/-!
A run in slices. However large the budget is, a run shows moments of one and the same course, and
the moments that it does not show are pauses for the budget.
-/

namespace LoopScript

variable {σ : Type}

/-- What a host sees between two resumptions: the last answer, where the execution stands, and the
machine. -/
structure Moment (σ : Type) where
  answer : Option (Except String (Status σ))
  execution : Execution σ
  machine : Machine σ

namespace Moment

def isRunning (x : Moment σ) : Bool :=
  match x.answer with
  | some (.ok .running) => true
  | _ => false

def isTerminal (x : Moment σ) : Bool :=
  match x.answer with
  | some (.ok s) => s.terminal
  | _ => false

/-- The machine on which the run goes on: while a program waits, the host may change the world. -/
def answered (host : Wait σ → World σ → World σ) (x : Moment σ) : Machine σ :=
  match x.answer with
  | some (.ok (.paused w)) => { x.machine with world := host w x.machine.world }
  | _ => x.machine

def resume (setup : Setup σ) (host : Wait σ → World σ → World σ) (x : Moment σ) (count : Nat) :
    Moment σ × Nat :=
  let (answer, execution, i) := x.execution.resume ⟨setup, x.answered host, count⟩
  (⟨some answer, execution, i.machine⟩, i.count)

theorem resume_respects {setup : Setup σ} {R : Machine σ → Machine σ → Prop}
    (hR : setup.RespectsRuns R) {host : Wait σ → World σ → World σ}
    (hh : ∀ w m, R m { m with world := host w m.world }) (x : Moment σ) (count : Nat) :
    R x.machine (x.resume setup host count).1.machine := by
  have answered : R x.machine (x.answered host) := by
    unfold answered
    split
    · exact hh _ _
    · exact hR.refl _
  exact hR.trans answered (Execution.resume_respects _ ⟨setup, _, count⟩ hR)

end Moment

def Halted.moment (setup : Setup σ) (h : Halted σ) : Moment σ :=
  let (answer, execution, machine) := Execution.settle setup h.halt h.machine
  ⟨some answer, execution, machine⟩

namespace Interpreter

/-- The run of a program: its moment after each number of resumptions. -/
def run (i : Interpreter σ) (host : Wait σ → World σ → World σ) (p : Program) (n : Nat) :
    Moment σ :=
  ((fun x : Moment σ × Nat => x.1.resume i.setup host x.2)^[n]
    (⟨none, .fresh p, i.machine⟩, i.count)).1

theorem run_succ (i : Interpreter σ) (host : Wait σ → World σ → World σ) (p : Program) (n : Nat) :
    ∃ count, i.run host p (n + 1) = ((i.run host p n).resume i.setup host count).1 :=
  ⟨_, congrArg Prod.fst (Function.iterate_succ_apply' _ n _)⟩

theorem run_machine {R : Machine σ → Machine σ → Prop} {i : Interpreter σ}
    {host : Wait σ → World σ → World σ} (hR : i.setup.RespectsRuns R)
    (hh : ∀ w m, R m { m with world := host w m.world }) (p : Program) (n : Nat) :
    R i.machine (i.run host p n).machine := by
  induction n with
  | zero => exact hR.refl _
  | succ n ih =>
    obtain ⟨count, hn⟩ := run_succ i host p n
    rw [hn]
    exact hR.trans ih (Moment.resume_respects hR hh _ count)

end Interpreter

/-- The moments of a run, up to a number of resumptions, that are no pauses for the budget. -/
def Moment.shown (run : Nat → Moment σ) (n : Nat) : List (Moment σ) :=
  ((List.range (n + 1)).map run).filter (!·.isRunning)

/-- A run that shows a course but for pauses for the budget. -/
def Slices (course run : Nat → Moment σ) : Prop :=
  ∃ place : Nat → Nat, StrictMono place ∧ place 0 = 0 ∧ (∀ n, run n = course (place n)) ∧
    ∀ k, (∀ n, place n ≠ k) → (course k).isRunning = true

def Setup.withBudget (setup : Setup σ) (b : Nat) : Setup σ := { setup with budget := b }

section Places

variable {place : Nat → Nat}

theorem exists_place_le (hm : StrictMono place) (h0 : place 0 = 0) (k : Nat) :
    ∃ n, place n ≤ k ∧ k < place (n + 1) := by
  induction k with
  | zero => exact ⟨0, h0.le, Nat.lt_of_le_of_lt (Nat.zero_le _) (hm Nat.zero_lt_one)⟩
  | succ k ih =>
    obtain ⟨n, hn, hk⟩ := ih
    rcases Nat.lt_or_ge (k + 1) (place (n + 1)) with h | h
    · exact ⟨n, hn.trans k.le_succ, h⟩
    · exact ⟨n + 1, h, lt_of_le_of_lt hk (hm n.succ.lt_succ_self)⟩

theorem place_ne (hm : StrictMono place) {n k : Nat} (hn : place n < k) (hk : k < place (n + 1))
    (j : Nat) : place j ≠ k := by
  rintro rfl
  have h₁ : n < j := hm.lt_iff_lt.mp hn
  have h₂ : j < n + 1 := hm.lt_iff_lt.mp hk
  omega

end Places

namespace Slices

theorem of_steps {f : Moment σ → Moment σ} {run : Nat → Moment σ}
    (h : ∀ n, ∃ k, f^[k + 1] (run n) = run (n + 1) ∧
      ∀ j < k, (f^[j + 1] (run n)).isRunning = true) :
    Slices (fun k => f^[k] (run 0)) run := by
  choose steps hsteps hrunning using h
  let place (n : Nat) : Nat := Nat.rec 0 (fun n q => steps n + 1 + q) n
  have place_succ (n : Nat) : place (n + 1) = steps n + 1 + place n := rfl
  have shown (n : Nat) : run n = f^[place n] (run 0) := by
    induction n with
    | zero => rfl
    | succ n ih => rw [place_succ, Function.iterate_add_apply, ← ih, hsteps]
  have mono : StrictMono place := strictMono_nat_of_lt_succ fun n => by rw [place_succ]; omega
  refine ⟨place, mono, rfl, shown, fun k hk => ?_⟩
  -- what is left out lies strictly between two resumptions
  obtain ⟨n, hle, hlt⟩ := exists_place_le mono rfl k
  have hlt' := Nat.lt_of_le_of_ne hle (hk n)
  obtain ⟨j, rfl⟩ : ∃ j, k = j + 1 + place n := ⟨k - place n - 1, by omega⟩
  have hj : j < steps n := by rw [place_succ] at hlt; omega
  simpa only [Function.iterate_add_apply f (j + 1), ← shown n] using hrunning n j hj

variable {course run run₁ run₂ : Nat → Moment σ}

theorem shown_add (course : Nat → Moment σ) (k d : Nat)
    (h : ∀ j < d, (course (k + 1 + j)).isRunning = true) :
    Moment.shown course (k + d) = Moment.shown course k := by
  induction d with
  | zero => rfl
  | succ d ih =>
    rw [← ih fun j hj => h j (by omega)]
    have last := h d (by omega)
    simp only [Moment.shown, ← Nat.add_assoc, List.range_succ (n := k + d + 1), List.map_append,
      List.filter_append]
    rw [show k + d + 1 = k + 1 + d by omega]
    simp [last]

theorem shown_succ (course : Nat → Moment σ) (k : Nat) :
    Moment.shown course (k + 1) =
      Moment.shown course k ++ [course (k + 1)].filter (!·.isRunning) := by
  simp only [Moment.shown, List.range_succ (n := k + 1), List.map_append, List.filter_append,
    List.map_cons, List.map_nil]

theorem shown_eq {place : Nat → Nat} (hm : StrictMono place) (h0 : place 0 = 0)
    (hrun : ∀ n, run n = course (place n))
    (hskip : ∀ k, (∀ n, place n ≠ k) → (course k).isRunning = true) {n k : Nat}
    (hle : place n ≤ k) (hlt : k < place (n + 1)) : Moment.shown course k = Moment.shown run n := by
  have between (n k : Nat) (hle : place n ≤ k) (hlt : k < place (n + 1)) :
      Moment.shown course k = Moment.shown course (place n) := by
    obtain ⟨d, rfl⟩ := Nat.exists_eq_add_of_le hle
    exact shown_add course (place n) d fun j hj =>
      hskip _ (place_ne hm (n := n) (by omega) (by omega))
  rw [between n k hle hlt]
  clear hle hlt
  induction n with
  | zero => simp [Moment.shown, h0, hrun]
  | succ n ih =>
    have hlt : place n < place (n + 1) := hm n.lt_succ_self
    obtain ⟨q, hq⟩ : ∃ q, place (n + 1) = q + 1 := ⟨place (n + 1) - 1, by omega⟩
    rw [shown_succ run, ← ih, hrun (n + 1), hq, shown_succ, between n q (by omega) (by omega)]

theorem map_shown {β : Type} {f : Moment σ → β} {course₁ course₂ : Nat → Moment σ}
    (hf : ∀ k, f (course₁ k) = f (course₂ k))
    (hr : ∀ k, (course₁ k).isRunning = (course₂ k).isRunning) (k : Nat) :
    (Moment.shown course₁ k).map f = (Moment.shown course₂ k).map f := by
  have one (k : Nat) : ([course₁ k].filter (!·.isRunning)).map f =
      ([course₂ k].filter (!·.isRunning)).map f := by
    by_cases h : (course₂ k).isRunning = true
    · simp [hr, h]
    · simp [hr, h, hf]
  induction k with
  | zero => exact one 0
  | succ k ih => rw [shown_succ, shown_succ, List.map_append, List.map_append, ih, one]

/-- Two runs over courses that look alike show what looks alike. -/
theorem shown_alike {β : Type} {f : Moment σ → β} {course₁ course₂ : Nat → Moment σ}
    (h₁ : Slices course₁ run₁) (h₂ : Slices course₂ run₂)
    (hf : ∀ k, f (course₁ k) = f (course₂ k))
    (hr : ∀ k, (course₁ k).isRunning = (course₂ k).isRunning) (n : Nat) :
    ∃ k, (Moment.shown run₁ n).map f = (Moment.shown run₂ k).map f := by
  obtain ⟨place₁, mono₁, zero₁, shown₁, skip₁⟩ := h₁
  obtain ⟨place₂, mono₂, zero₂, shown₂, skip₂⟩ := h₂
  -- the last moment of the second run that comes no later than the given one of the first
  obtain ⟨k, hle, hlt⟩ := exists_place_le mono₂ zero₂ (place₁ n)
  refine ⟨k, ?_⟩
  rw [← shown_eq mono₁ zero₁ shown₁ skip₁ le_rfl (mono₁ n.lt_succ_self),
    ← shown_eq mono₂ zero₂ shown₂ skip₂ hle hlt, map_shown hf hr]

theorem shown_agree (h₁ : Slices course run₁) (h₂ : Slices course run₂) (n : Nat) :
    ∃ k, Moment.shown run₁ n = Moment.shown run₂ k := by
  obtain ⟨k, hk⟩ := shown_alike (f := id) h₁ h₂ (fun _ => rfl) (fun _ => rfl) n
  exact ⟨k, by simpa only [List.map_id] using hk⟩

theorem moment_alike {β : Type} {f : Moment σ → β} {course₁ course₂ : Nat → Moment σ}
    (h₁ : Slices course₁ run₁) (h₂ : Slices course₂ run₂)
    (hf : ∀ k, f (course₁ k) = f (course₂ k))
    (hr : ∀ k, (course₁ k).isRunning = (course₂ k).isRunning) (n : Nat)
    (hn : (run₁ n).isRunning = false) : ∃ k, f (run₂ k) = f (run₁ n) := by
  obtain ⟨place₁, -, -, shown₁, -⟩ := h₁
  obtain ⟨place₂, -, -, shown₂, skip₂⟩ := h₂
  by_contra h
  have hk (k : Nat) : place₂ k ≠ place₁ n := fun e => h ⟨k, by rw [shown₁, shown₂, e, hf]⟩
  rw [shown₁, hr, skip₂ _ hk] at hn
  exact Bool.noConfusion hn

theorem moment_agree (h₁ : Slices course run₁) (h₂ : Slices course run₂) (n : Nat)
    (hn : (run₁ n).isRunning = false) : ∃ k, run₂ k = run₁ n :=
  moment_alike (f := id) h₁ h₂ (fun _ => rfl) (fun _ => rfl) n hn

theorem leads (h₁ : Slices course run₁) (h₂ : Slices course run₂) {R : Machine σ → Machine σ → Prop}
    (refl : ∀ m, R m m) (trans : ∀ {m n k}, R m n → R n k → R m k)
    (step : ∀ k, R (course k).machine (course (k + 1)).machine) (n : Nat) :
    ∃ k, R (run₁ n).machine (run₂ k).machine := by
  obtain ⟨place₁, -, -, shown₁, -⟩ := h₁
  obtain ⟨place₂, mono₂, -, shown₂, -⟩ := h₂
  have along (k d : Nat) : R (course k).machine (course (k + d)).machine := by
    induction d with
    | zero => exact refl _
    | succ d ih => exact trans ih (step (k + d))
  obtain ⟨d, hd⟩ := Nat.exists_eq_add_of_le (show place₁ n ≤ place₂ (place₁ n) from mono₂.le_apply)
  exact ⟨place₁ n, by rw [shown₁, shown₂, hd]; exact along _ d⟩

end Slices

end LoopScript
