import LoopScript.Pacer
import LoopScript.Proofs.Execution.CallStack

/-!
An execution that has its interpreter to itself answers each resumption with a status: the call of
the module is still there when its program ends.
-/

namespace LoopScript

variable {σ : Type}

namespace Subject

/-- Since the execution began nobody else has changed more of the machine than the world. -/
inductive Undisturbed : Subject σ → Prop
  | fresh (p : Program) (i : Interpreter σ) : Undisturbed ⟨.fresh p, i⟩
  | resume {s : Subject σ} (h : Undisturbed s) : Undisturbed s.resume.2
  | world {s : Subject σ} (h : Undisturbed s) (w : World σ) : Undisturbed (s.setWorld w)

end Subject

/-- The calls of a machine are those that a control awaits the end of, with that of the module
last. -/
def Control.InModule (c : Control) (m : Machine σ) : Prop :=
  ∃ a : Activation, Stacked .program [a] c.context.2 m.calls

def Resumption.InModule (r : Resumption) (m : Machine σ) : Prop :=
  ∃ a : Activation, Stacked .program [a] r.context.2 m.calls

/-- The calls that an execution needs when it goes on are there. -/
def Execution.Supported (x : Execution σ) (m : Machine σ) : Prop :=
  match x with
  | .suspended r => r.InModule m
  | .drained => False
  | .fresh _ | .ended _ => True

variable {setup : Setup σ}

theorem inModule_step {c c' : Control} {m n : Machine σ} (h : c.InModule m)
    (hc : c.step setup m = .ok (.go c') n) : c'.InModule n := by
  obtain ⟨a, hs⟩ := h
  exact ⟨a, stands_of_step hs hc fun _ => nofun⟩

theorem inModule_run (count : Nat) {c : Control} {m : Machine σ} (h : c.InModule m) :
    (run setup count c m).From setup Control.InModule :=
  run_from (fun _ _ _ _ hm hc => inModule_step hm hc) count c m h

theorem settle_supported {h : Halted σ} (hf : h.From setup Control.InModule) :
    ∃ status x n, Execution.settle setup h.halt h.machine = (.ok status, x, n) ∧
      x.Supported n := by
  obtain ⟨halt, count, m⟩ := h
  cases halt with
  | failed f => exact ⟨_, _, _, rfl, trivial⟩
  | pause w r =>
    cases w with
    | none =>
      obtain ⟨t, rfl, ht⟩ := hf
      exact ⟨_, _, _, rfl, ht⟩
    | some w =>
      obtain ⟨c, m', ⟨a, hs⟩, hc⟩ := hf
      exact ⟨_, _, _, rfl, a, stands_of_step hs hc fun _ => nofun⟩
  | finished f =>
    obtain ⟨c, m', ⟨a, hs⟩, hc⟩ := hf
    cases f with
    | broken | continued | returned v => exact ⟨_, _, _, rfl, trivial⟩
    | normal =>
      have hm : m.calls = [a] := calls_of_finished hs hc
      have quiet := Act.closed_emit (Act.respects_calls setup).closed .programEnd
      simp only [Execution.settle, Execution.close]
      cases he : Act.emit setup .programEnd m with
      | error f n => exact ⟨_, _, _, rfl, trivial⟩
      | ok _ n =>
        simp only [(quiet.ok he).trans hm]
        exact ⟨_, _, _, rfl, trivial⟩

theorem settle_failed (f : Fault) (m : Machine σ) :
    ∃ status x n, Execution.settle setup (.failed f) m = (.ok status, x, n) ∧ x.Supported n :=
  ⟨_, _, _, rfl, trivial⟩

theorem proceed_supported (i : Interpreter σ) (origin : Program ⊕ Resumption)
    (h : ∀ r, origin = .inr r → r.InModule i.machine) :
    let h := Execution.proceed i.setup i.count i.machine origin
    ∃ status x n, Execution.settle i.setup h.halt h.machine = (.ok status, x, n) ∧
      x.Supported n := by
  intro halted
  cases origin with
  | inl p =>
    cases ho : Execution.openModule i.setup p i.machine with
    | error f m =>
      have hh : halted = ⟨.failed f, i.count, m⟩ := by simp only [halted, Execution.proceed, ho]
      exact hh ▸ settle_failed f m
    | ok _ m =>
      obtain ⟨a, -, hm⟩ := Act.ensures_of_ok (ensures_openModule p i.machine) ho
      cases hp : p.statements with
      | nil =>
        have hh : halted = ⟨.finished .normal, i.count, m⟩ := by
          simp only [halted, Execution.proceed, ho, hp, Act.block]
        refine hh ▸ settle_supported ⟨.move (.give (a := .flow) .normal .program), m, ⟨a, ?_⟩, rfl⟩
        exact hm ▸ .refl _ _
      | cons s ss =>
        have hh : halted = run i.setup i.count
            (.task (.exec s m.globals (.fill (.rest ss m.globals) .program))) m := by
          simp only [halted, Execution.proceed, ho, hp, Act.block]
        refine hh ▸ settle_supported (inModule_run _ ⟨a, ?_⟩)
        exact hm ▸ .of_over (.fill _ .refl) _
  | inr r =>
    obtain ⟨a, hs⟩ := h r rfl
    have control : Act.Ensures (r.control i.setup) i.machine _ _ := ensures_control r hs
    have hh : halted = resumeFrom i.setup i.count r i.machine := rfl
    rw [hh, resumeFrom_eq]
    split
    · next c n e =>
      exact settle_supported (inModule_run _ ⟨a, Act.ensures_of_ok control e⟩)
    · next f n e => exact settle_failed f n

theorem resume_supported {x : Execution σ} {i : Interpreter σ} (h : x.Supported i.machine) :
    ∃ status y j, x.resume i = (.ok status, y, j) ∧ y.Supported j.machine := by
  have advances (origin : Program ⊕ Resumption) (ho : ∀ r, origin = .inr r → r.InModule i.machine) :
      ∃ status y j, Execution.advance i origin = (.ok status, y, j) ∧ y.Supported j.machine := by
    obtain ⟨status, y, n, e, hy⟩ := proceed_supported i origin ho
    let halted := Execution.proceed i.setup i.count i.machine origin
    refine ⟨status, y, ⟨i.setup, n, halted.count⟩, ?_, hy⟩
    simp only [Execution.advance, e, halted]
  cases x with
  | fresh p => exact advances (.inl p) nofun
  | suspended r =>
    refine advances (.inr r) ?_
    rintro _ ⟨⟩
    exact h
  | drained => exact h.elim
  | ended s => exact ⟨s, _, _, rfl, trivial⟩

namespace Subject

theorem Undisturbed.supported {s : Subject σ} (h : s.Undisturbed) :
    s.execution.Supported s.interpreter.machine := by
  induction h with
  | fresh p i => trivial
  | @resume s h ih =>
    obtain ⟨status, y, j, e, hy⟩ := resume_supported ih
    simp only [Subject.resume, e]
    exact hy
  | world h w ih => exact ih

theorem Undisturbed.answers {s : Subject σ} (h : s.Undisturbed) :
    ∃ status, s.resume = (.ok status, s.resume.2) := by
  obtain ⟨status, y, j, e, -⟩ := resume_supported h.supported
  exact ⟨status, by simp only [Subject.resume, e]⟩

end Subject

end LoopScript
