import LoopScript.Proofs.Execution.Budget
import LoopScript.Proofs.Execution.Trace
import LoopScript.Proofs.Machine.Beside

/-!
Two runs of a program side by side. If every step leads two machines that are alike to machines that
are alike, then the runs show moments that are alike, up to the first that fails apart.
-/

namespace LoopScript

variable {σ : Type}

/-- What two runs have in common: where they start, at each control that they come to, where they
wait, where they fail and where they have ended. -/
structure Pairing (σ : Type) where
  Start : Machine σ → Machine σ → Prop
  At : Control → Machine σ → Machine σ → Prop
  Paused : Wait σ → Resumption → Machine σ → Machine σ → Prop
  Failing : Machine σ → Machine σ → Prop
  Ended : Machine σ → Machine σ → Prop
  Same : RuntimeError → RuntimeError → Prop
  /-- How the first run may fail without the second. -/
  Apart : Fault → Machine σ → Prop

namespace Pairing

variable (L : Pairing σ)

def Next : LoopScript.Next σ → Machine σ → Machine σ → Prop
  | .go c => L.At c
  | .pause w r => L.Paused w r
  | .finished .normal => L.Ended
  | .finished _ => L.Failing

/-- Two moments that tell the same. -/
inductive Moments (p : Program) : Moment σ → Moment σ → Prop where
  | fresh {m n : Machine σ} (h : L.Start m n) :
      Moments p ⟨none, .fresh p, m⟩ ⟨none, .fresh p, n⟩
  | running {t : Task} {m n : Machine σ} (h : L.At (.task t) m n) :
      Moments p ⟨some (.ok .running), .suspended (.task t), m⟩
        ⟨some (.ok .running), .suspended (.task t), n⟩
  | paused {w : Wait σ} {r : Resumption} {m n : Machine σ} (h : L.Paused w r m n) :
      Moments p ⟨some (.ok (.paused w)), .suspended r, m⟩
        ⟨some (.ok (.paused w)), .suspended r, n⟩
  | completed {m n : Machine σ} (h : L.Ended m n) :
      Moments p ⟨some (.ok .completed), .ended .completed, m⟩
        ⟨some (.ok .completed), .ended .completed, n⟩
  | failed {e d : RuntimeError} {m n : Machine σ} (he : L.Same e d) (h : L.Ended m n) :
      Moments p ⟨some (.ok (.failed e)), .ended (.failed e), m⟩
        ⟨some (.ok (.failed d)), .ended (.failed d), n⟩
  | drained {m n : Machine σ} (h : L.Ended m n) :
      Moments p ⟨some (.error Execution.emptyStack), .drained, m⟩
        ⟨some (.error Execution.emptyStack), .drained, n⟩

/-- A moment of the first run after it has failed apart. -/
def Parted (setup : Setup σ) (x : Moment σ) : Prop :=
  ∃ f m, L.Apart f m ∧ x = (⟨.failed f, 0, m⟩ : Halted σ).moment setup

/-- The steps of two runs keep what they have in common. -/
structure Lockstep (s t : Setup σ) (host : Wait σ → World σ → World σ) (p : Program) : Prop where
  budget : s.budget = t.budget
  start {m n : Machine σ} (h : L.Start m n) :
    Act.Beside (fun _ m n => n.globals = m.globals ∧
        ∀ c, Act.continueWith (σ := σ) .program (Act.block p.statements m.globals .program) = .go c →
          L.At c m n)
      (fun _ => L.Failing) L.Apart (Execution.openModule s p m) (Execution.openModule t p n)
  step {c : Control} {m n : Machine σ} (h : L.At c m n) :
    Act.Beside L.Next (fun _ => L.Failing) L.Apart (c.step s m) (c.step t n)
  wake {w : Wait σ} {r : Resumption} {m n : Machine σ} (h : L.Paused w r m n) :
    Act.Beside L.At (fun _ => L.Failing) L.Apart
      (r.control s { m with world := host w m.world })
      (r.control t { n with world := host w n.world })
  current {m n : Machine σ} (h : L.Failing m n) : n.current = m.current
  report {m n : Machine σ} (h : L.Failing m n) (f : Fault) :
    L.Same (Execution.report s f m).1 (Execution.report t f n).1 ∧
      L.Ended (Execution.report s f m).2 (Execution.report t f n).2
  close {m n : Machine σ} (h : L.Ended m n) :
    L.Moments p (Halted.moment s ⟨.finished .normal, 0, m⟩)
      (Halted.moment t ⟨.finished .normal, 0, n⟩)

/-- Two machines that have halted for the same reason. -/
inductive Halts (L : Pairing σ) : Halted σ → Halted σ → Prop where
  | spent {t : Task} {count : Nat} {m n : Machine σ} (h : L.At (.task t) m n) :
      Halts L ⟨.pause none (.task t), count, m⟩ ⟨.pause none (.task t), count, n⟩
  | paused {w : Wait σ} {r : Resumption} {count : Nat} {m n : Machine σ} (h : L.Paused w r m n) :
      Halts L ⟨.pause (some w) r, count, m⟩ ⟨.pause (some w) r, count, n⟩
  | finished {f : Flow} {count : Nat} {m n : Machine σ} (h : L.Next (.finished f) m n) :
      Halts L ⟨.finished f, count, m⟩ ⟨.finished f, count, n⟩
  | failed {f : Fault} {count : Nat} {m n : Machine σ} (h : L.Failing m n) :
      Halts L ⟨.failed f, count, m⟩ ⟨.failed f, count, n⟩
  | apart {f : Fault} {count : Nat} {m : Machine σ} (h : L.Apart f m) (y : Halted σ) :
      Halts L ⟨.failed f, count, m⟩ y

variable {L} {s t : Setup σ} {host : Wait σ → World σ → World σ} {p : Program}

theorem Parted.resume {x : Moment σ} (h : L.Parted s x) (count : Nat) :
    L.Parted s (x.resume s host count).1 := by
  obtain ⟨f, m, h, rfl⟩ := h
  exact ⟨f, m, h, rfl⟩

section Lockstep

variable (hL : L.Lockstep s t host p)

include hL

theorem Lockstep.begin {u : Task} {m n : Machine σ} (h : L.At (.task u) m n) :
    Act.Beside L.At (fun _ => L.Failing) L.Apart (Act.begin s u m) (Act.begin t u n) := by
  have step := hL.step h
  rw [step_task, step_task] at step
  generalize Act.begin s u m = x, Act.begin t u n = y at step ⊢
  cases x with
  | ok c m =>
    cases y with
    | ok d n => cases step with | ok h => exact .ok h
    | error f n => cases step
  | error f m =>
    cases y with
    | ok d n => cases step with | apart h => exact .apart h _
    | error g n =>
      cases step with
      | error h => exact .error h
      | apart h => exact .apart h _

theorem Lockstep.advance {v : Move} {m n : Machine σ} (h : L.At (.move v) m n) :
    Act.Beside L.Next (fun _ => L.Failing) L.Apart (Act.advance s v m) (Act.advance t v n) :=
  hL.step h

theorem Lockstep.run (count : Nat) (c : Control) {m n : Machine σ} (h : L.At c m n) :
    L.Halts (LoopScript.run s count c m) (LoopScript.run t count c n) := by
  -- The second run has the same budget, so it goes on for as long as the first.
  fun_induction LoopScript.run s count c m generalizing n with
  | case1 count m u hb c' m' e ih =>
    obtain ⟨n', begun, h⟩ := (hL.begin h).of_ok e
    rw [LoopScript.run, dif_pos (hL.budget ▸ hb), begun]
    exact ih h
  | case2 count m u hb f m' e =>
    rcases (hL.begin h).of_error e with ⟨n', begun, h⟩ | h
    · rw [LoopScript.run, dif_pos (hL.budget ▸ hb), begun]
      exact .failed h
    · exact .apart h _
  | case3 count m u hb =>
    rw [LoopScript.run, dif_neg (hL.budget ▸ hb)]
    exact .spent h
  | case4 count m v c' m' e ih =>
    obtain ⟨n', moved, h⟩ := (hL.advance h).of_ok e
    rw [run_move, moved]
    exact ih h
  | case5 count m v w r m' e =>
    obtain ⟨n', moved, h⟩ := (hL.advance h).of_ok e
    rw [run_move, moved]
    exact .paused h
  | case6 count m v f m' e =>
    obtain ⟨n', moved, h⟩ := (hL.advance h).of_ok e
    rw [run_move, moved]
    exact .finished h
  | case7 count m v f m' e =>
    rcases (hL.advance h).of_error e with ⟨n', moved, h⟩ | h
    · rw [run_move, moved]
      exact .failed h
    · exact .apart h _

theorem Lockstep.moment {x y : Halted σ} (h : L.Halts x y) :
    L.Moments p (x.moment s) (y.moment t) ∧ y.count = x.count ∨ L.Parted s (x.moment s) := by
  have fails {m n : Machine σ} (h : L.Failing m n) (f : Fault) :
      L.Moments p ((⟨.failed f, 0, m⟩ : Halted σ).moment s)
        ((⟨.failed f, 0, n⟩ : Halted σ).moment t) :=
    .failed (hL.report h f).1 (hL.report h f).2
  cases h with
  | spent h => exact .inl ⟨.running h, rfl⟩
  | paused h => exact .inl ⟨.paused h, rfl⟩
  | failed h => exact .inl ⟨fails h _, rfl⟩
  | apart h y => exact .inr ⟨_, _, h, rfl⟩
  | @finished f count m n h =>
    cases f with
    | normal => exact .inl ⟨hL.close h, rfl⟩
    | broken | continued | returned v =>
      have stray (f : Flow) : Act.stray f n.current = Act.stray f m.current := by rw [hL.current h]
      refine .inl ⟨?_, rfl⟩
      change L.Moments p _ ((⟨.failed (Act.stray _ n.current), 0, n⟩ : Halted σ).moment t)
      rw [stray]
      exact fails h _

theorem Lockstep.wakes {r : Resumption} {m n : Machine σ} (count : Nat)
    (h : Act.Beside L.At (fun _ => L.Failing) L.Apart (r.control s m) (r.control t n)) :
    L.Halts (resumeFrom s count r m) (resumeFrom t count r n) := by
  rw [resumeFrom_eq, resumeFrom_eq]
  generalize r.control s m = x, r.control t n = y at h ⊢
  cases h with
  | ok h => exact hL.run _ _ h
  | error h => exact .failed h
  | apart h => exact .apart h _

theorem Lockstep.starts {m n : Machine σ} (count : Nat) (h : L.Start m n) :
    L.Halts (Execution.proceed s count m (.inl p)) (Execution.proceed t count n (.inl p)) := by
  have start := hL.start h
  simp only [Execution.proceed]
  generalize Execution.openModule s p m = x, Execution.openModule t p n = y at start ⊢
  cases start with
  | error h => exact .failed h
  | apart h => exact .apart h _
  | @ok u m n h =>
    obtain ⟨globals, onward⟩ := h
    simp only [globals]
    cases hp : p.statements with
    | nil =>
      have ended := hL.step (onward _ (by rw [hp]; rfl))
      cases ended with | ok h => exact .finished h
    | cons a as => exact hL.run _ _ (onward _ (by rw [hp]; rfl))

theorem Lockstep.resume {x y : Moment σ} (h : L.Moments p x y) (count : Nat) :
    L.Moments p (x.resume s host count).1 (y.resume t host count).1 ∧
        (y.resume t host count).2 = (x.resume s host count).2 ∨
      L.Parted s (x.resume s host count).1 := by
  cases h with
  | fresh h => exact hL.moment (hL.starts count h)
  | running h => exact hL.moment (hL.wakes (r := .task _) count (hL.begin h))
  | paused h => exact hL.moment (hL.wakes count (hL.wake h))
  | completed h => exact .inl ⟨.completed h, rfl⟩
  | failed he h => exact .inl ⟨.failed he h, rfl⟩
  | drained h => exact .inl ⟨.completed h, rfl⟩

/-- Two runs in lockstep show moments that tell the same, up to the first at which they part. -/
theorem Lockstep.moments {m n : Machine σ} (h : L.Start m n) (count k : Nat) :
    let x := (fun x : Moment σ × Nat => x.1.resume s host x.2)^[k] (⟨none, .fresh p, m⟩, count)
    let y := (fun y : Moment σ × Nat => y.1.resume t host y.2)^[k] (⟨none, .fresh p, n⟩, count)
    L.Moments p x.1 y.1 ∧ y.2 = x.2 ∨ L.Parted s x.1 := by
  intro x y
  induction k with
  | zero => exact .inl ⟨.fresh h, rfl⟩
  | succ k ih =>
    simp only [x, y, Function.iterate_succ_apply']
    rcases ih with ⟨together, counts⟩ | parted
    · rw [counts]
      exact hL.resume together _
    · exact .inr (Parted.resume parted _)

end Lockstep

end Pairing

end LoopScript
