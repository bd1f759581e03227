import LoopScript.Proofs.Execution.Slices
import LoopScript.Proofs.Machine.Evaluation
import LoopScript.Proofs.Machine.Log

/-!
The controls that a run comes to, one step after the other, and how its moments lie among them.
-/

namespace LoopScript

variable {σ : Type}

section Silent

variable {setup : Setup σ} (hh : setup.services.hooks = [])

include hh

theorem openModule_silent (p : Program) (m : Machine σ) :
    Execution.openModule setup p m = .ok ⟨⟩ { m with
      calls := [⟨"<module>", m.globals, m.issued, none⟩]
      issued := m.issued + 1 } := by
  simp only [Execution.openModule, emit_silent hh]
  rfl

theorem report_silent (f : Fault) (m : Machine σ) :
    Execution.report setup f m = (Execution.errorOf m f, m) := by
  simp only [Execution.report, emit_silent hh]
  rfl

theorem close_silent (m : Machine σ) :
    Execution.close setup m =
      match m.calls with
      | [] => (.error Execution.emptyStack, .drained, m)
      | _ :: calls => (.ok .completed, .ended .completed, { m with calls }) := by
  simp only [Execution.close, emit_silent hh]
  rfl

end Silent

section Halts

variable {setup : Setup σ}

theorem resumeFrom_eq (count : Nat) (r : Resumption) (m : Machine σ) :
    resumeFrom setup count r m =
      match r.control setup m with
      | .ok c n => run setup count c n
      | .error f n => ⟨.failed f, count, n⟩ := by
  cases r with
  | task t => rfl
  | waited name loc k =>
    simp only [resumeFrom, Resumption.control, bind, EStateM.bind]
    split <;> simp_all [pure, EStateM.pure]

/-- A machine that has halted on a step from a control of which something holds. -/
def Halted.From (setup : Setup σ) (P : Control → Machine σ → Prop) (h : Halted σ) : Prop :=
  match h.halt with
  | .pause none r => ∃ t, r = .task t ∧ P (.task t) h.machine
  | .pause (some w) r => ∃ c m, P c m ∧ c.step setup m = .ok (.pause w r) h.machine
  | .finished f => ∃ c m, P c m ∧ c.step setup m = .ok (.finished f) h.machine
  | .failed f => ∃ c m, P c m ∧ c.step setup m = .error f h.machine

theorem run_from {P : Control → Machine σ → Prop}
    (step : ∀ c m c' n, P c m → c.step setup m = .ok (.go c') n → P c' n)
    (count : Nat) (c : Control) (m : Machine σ) (h : P c m) :
    (run setup count c m).From setup P := by
  fun_induction run setup count c m with
  | case1 count m t hb c' m' e ih => exact ih (step _ _ _ _ h (by rw [step_task, e]))
  | case2 count m t hb f m' e => exact ⟨_, _, h, by rw [step_task, e]⟩
  | case3 count m t hb => exact ⟨t, rfl, h⟩
  | case4 count m v c' m' e ih => exact ih (step _ _ _ _ h e)
  | case5 count m v w r m' e => exact ⟨_, _, h, e⟩
  | case6 count m v f m' e => exact ⟨_, _, h, e⟩
  | case7 count m v f m' e => exact ⟨_, _, h, e⟩

end Halts

namespace Interpreter

variable (i : Interpreter σ) (host : Wait σ → World σ → World σ) (p : Program)

/-- The controls that a run comes to, and the machines on which it does. -/
inductive Comes : Control → Machine σ → Prop where
  | start {c : Control} {m : Machine σ} (h : Execution.openModule i.setup p i.machine = .ok ⟨⟩ m)
      (hc : Act.continueWith (σ := σ) .program (Act.block p.statements m.globals .program) = .go c) :
      Comes c m
  | step {c c' : Control} {m n : Machine σ} (h : Comes c m)
      (hc : c.step i.setup m = .ok (.go c') n) : Comes c' n
  | wait {c c' : Control} {m n n' : Machine σ} {w : Wait σ} {r : Resumption} (h : Comes c m)
      (hc : c.step i.setup m = .ok (.pause w r) n)
      (hr : r.control i.setup { n with world := host w n.world } = .ok c' n') : Comes c' n'

/-- The machines on which a run fails, each with the context of which the calls are then in
progress. -/
inductive FailsIn : Machine σ → (a : Awaits) × Context a → Prop where
  | start {f : Fault} {m : Machine σ}
      (h : Execution.openModule i.setup p i.machine = .error f m) : FailsIn m ⟨.flow, .program⟩
  | step {c : Control} {f : Fault} {m n : Machine σ} (h : i.Comes host p c m)
      (hc : c.step i.setup m = .error f n) : FailsIn n c.remainder
  | wait {c : Control} {f : Fault} {m n n' : Machine σ} {w : Wait σ} {r : Resumption}
      (h : i.Comes host p c m) (hc : c.step i.setup m = .ok (.pause w r) n)
      (hr : r.control i.setup { n with world := host w n.world } = .error f n') :
      FailsIn n' r.context
  | stray {c : Control} {f : Flow} {m n : Machine σ} (h : i.Comes host p c m)
      (hc : c.step i.setup m = .ok (.finished f) n) (hf : f ≠ .normal) :
      FailsIn n ⟨.flow, .program⟩
  | ending {c : Control} {f : Fault} {m n n' : Machine σ} (h : i.Comes host p c m)
      (hc : c.step i.setup m = .ok (.finished .normal) n)
      (he : Act.emit i.setup .programEnd n = .error f n') : FailsIn n' ⟨.flow, .program⟩

/-- The halts that a run comes to. -/
inductive Halts : Halted σ → Prop where
  | start {f : Fault} {count : Nat} {m : Machine σ}
      (h : Execution.openModule i.setup p i.machine = .error f m) : Halts ⟨.failed f, count, m⟩
  | step {h : Halted σ} (hf : h.From i.setup (i.Comes host p)) : Halts h
  | wait {c : Control} {f : Fault} {count : Nat} {m n n' : Machine σ} {w : Wait σ} {r : Resumption}
      (h : i.Comes host p c m) (hc : c.step i.setup m = .ok (.pause w r) n)
      (hr : r.control i.setup { n with world := host w n.world } = .error f n') :
      Halts ⟨.failed f, count, n'⟩

variable {i host p}

theorem halts_run {c : Control} {m : Machine σ} (h : i.Comes host p c m) (count : Nat) :
    i.Halts host p (LoopScript.run i.setup count c m) :=
  .step (run_from (fun _ _ _ _ hm hc => hm.step hc) count c m h)

theorem halts_start (count : Nat) :
    i.Halts host p (Execution.proceed i.setup count i.machine (.inl p)) := by
  simp only [Execution.proceed]
  cases ho : Execution.openModule i.setup p i.machine with
  | error f m => exact .start ho
  | ok _ m =>
    cases hp : p.statements with
    | nil =>
      have hc : i.Comes host p (.move (.give (a := .flow) .normal .program)) m :=
        .start ho (by rw [hp]; rfl)
      exact .step ⟨_, m, hc, rfl⟩
    | cons s ss => exact halts_run (.start ho (by rw [hp]; rfl)) count

theorem halts_resumeFrom {c : Control} {m n : Machine σ} {w : Wait σ} {r : Resumption}
    (h : i.Comes host p c m) (hc : c.step i.setup m = .ok (.pause w r) n) (count : Nat) :
    i.Halts host p (resumeFrom i.setup count r { n with world := host w n.world }) := by
  rw [resumeFrom_eq]
  split
  · next e => exact halts_run (.wait h hc e) count
  · next e => exact .wait h hc e

theorem halts_task {t : Task} {m : Machine σ} (h : i.Comes host p (.task t) m) (count : Nat) :
    i.Halts host p (resumeFrom i.setup count (.task t) m) := by
  have hstep : (Control.task t).step i.setup m = _ := step_task t m
  simp only [resumeFrom]
  split
  · next e => exact halts_run (.step h (by rw [hstep, e])) count
  · next e => exact .step ⟨_, m, h, by rw [hstep, e]⟩

end Interpreter

end LoopScript
