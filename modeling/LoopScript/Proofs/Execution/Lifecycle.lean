import LoopScript.Proofs.Journal.Chronicle
import Mathlib

/-!
The events at the end of a run, and the status that it ends with.
-/

namespace LoopScript

variable {σ : Type}

/-- An error with the last step of a machine, and with a place if a statement has been started. -/
structure RuntimeError.Stamped (e : RuntimeError) (m : Machine σ) : Prop where
  step : ∀ entry, m.log.last = some entry → e.step = some entry.step
  place : ∀ loc, m.current = some loc → e.location.isSome = true

theorem RuntimeError.attach_isSome (e : RuntimeError) (loc : Location) :
    (e.attach (some loc)).location.isSome = true := by
  obtain ⟨cause, location, step⟩ := e
  cases location <;> rfl

theorem errorOf_stamped (m : Machine σ) (f : Fault) : (Execution.errorOf m f).Stamped m := by
  refine ⟨fun entry h => by simp only [Execution.errorOf, h], fun loc h => ?_⟩
  cases hl : m.log.last with
  | none | some entry =>
    simp only [Execution.errorOf, h, hl]
    cases f with
    | error e => exact e.attach_isSome loc
    | endless | foreign text => rfl

theorem Services.Fails.events {s : Services σ} {m n : Machine (Watched σ)} {e : RuntimeError}
    (h : s.Fails m n e) (hm : m.journal = []) (mild : ∀ f, ¬ s.Raises .onError f) :
    (Note.reports n.journal = [e] ∧ Note.endings n.journal = 0 ∧ e.Stamped n) ∨
      (Note.reports n.journal = [] ∧ Note.endings n.journal = 1 ∧ ∃ f, s.Raises .programEnd f ∧
        n.journal.getLast? = some (.raised (.handler .programEnd) f)) := by
  cases h with
  | @reported k f h hn =>
    obtain ⟨reports, endings, -⟩ := h.lists
    refine .inl ⟨?_, ?_, errorOf_stamped n f⟩
    · rw [hn, Note.reports_append, reports, hm]
      rfl
    · rw [hn, Note.endings_append, endings, hm]
      rfl
  | replaced _ _ hg => exact absurd hg (mild _)
  | @unended k g _ h hn hg =>
    obtain ⟨reports, endings, -⟩ := h.lists
    refine .inr ⟨?_, ?_, g, hg, ?_⟩
    · rw [hn, Note.reports_append, reports, hm]
      rfl
    · rw [hn, Note.endings_append, endings, hm]
      rfl
    · rw [hn, List.getLast?_append]
      rfl

theorem Interpreter.Shows.unended {i : Interpreter σ} {host : Wait σ → World σ → World σ}
    {p : Program} {x : Moment σ} (h : i.Shows host p x) (hx : x.execution.cancel.1 = .cancelled) :
    x.execution.status? = none := by
  cases h with
  | fresh | running | paused => rfl
  | completed | failed => cases hx

/-- The events of a run match the status that it ends with, as long as no handler of an error fails.
The journal is that of the run itself. A failure is reported once, with the error of the status,
stamped and placed; the exception is a failure of a handler of the end of the program, which is not
reported. Of a completed run the end is told once, and of a run that is cancelled neither is told. -/
theorem lifecycle_events (i : Interpreter σ) (host : Wait σ → World σ → World σ) (p : Program)
    (n : Nat) (mild : ∀ h ∈ i.setup.services.handlers .onError, ∀ e w, (h.handle e w).1 = none) :
    let x := i.run host p n
    let notes := i.journal host p n
    (i.watched.run (watchedWait host) p n).unwatched = x ∧
    (∀ e, x.answer = some (.ok (.failed e)) →
      (Note.reports notes = [e] ∧ Note.endings notes = 0 ∧ e.Stamped x.machine) ∨
      (Note.reports notes = [] ∧ Note.endings notes = 1 ∧
        ∃ f, i.setup.services.Raises .programEnd f ∧
          notes.getLast? = some (.raised (.handler .programEnd) f))) ∧
    (x.answer = some (.ok .completed) → Note.endings notes = 1 ∧ Note.reports notes = []) ∧
    (x.execution.cancel.1 = .cancelled → Note.endings notes = 0 ∧ Note.reports notes = []) := by
  have none_raised : ∀ f, ¬ i.setup.services.Raises .onError f := by
    rintro f ⟨h, hh, e, w, raised⟩
    rw [mild h hh e w] at raised
    cases raised
  have start : i.machine.watched.journal = [] := rfl
  have same := i.run_unwatched host p n
  refine ⟨same, fun e he => ?_, fun he => ?_, fun he => ?_⟩
  · have events := (i.chronicle_failed he).events start none_raised
    rw [← same]
    exact events.imp_left fun ⟨reports, endings, stamped⟩ =>
      ⟨reports, endings, stamped.step, stamped.place⟩
  · obtain ⟨m, calm, journal⟩ := i.chronicle_completed he
    obtain ⟨reports, endings, -⟩ := calm.lists
    rw [Interpreter.journal, journal, Note.endings_append, Note.reports_append, endings, reports]
    exact ⟨rfl, rfl⟩
  · obtain ⟨reports, endings, -⟩ := (i.chronicle_unended ((i.run_shows n).unended he)).lists
    exact ⟨endings, reports⟩

def finishing : Program :=
  let here : Location := ⟨"finishing", 1, 1, "pass"⟩
  ⟨here, [.pass_ here]⟩

def faultyEnd : Services Unit :=
  { Services.empty with hooks :=
    [⟨.programEnd, 0, fun _ w => (some (.foreign "boom"), w)⟩, ⟨.onError, 0, fun _ w => (none, w)⟩] }

/-- A handler of the end of the program fails, and nothing is reported: the error has no step. -/
theorem lifecycle_events_finishing : ∃ i : Interpreter Unit,
    Interpreter.create faultyEnd (fun _ w => w) 100 false ⟨.empty, ()⟩ = .ok i ∧
    (∀ h ∈ i.setup.services.handlers .onError, ∀ e w, (h.handle e w).1 = none) ∧
    (i.run (fun _ w => w) finishing 1).answer = some (.ok (.failed
      ⟨.hookFailed "program_end" "boom", some ⟨"finishing", 1, 1, "pass"⟩, none⟩)) ∧
    (i.run (fun _ w => w) finishing 1).machine.log.last.map LogEntry.step = some 0 ∧
    Note.reports (i.journal (fun _ w => w) finishing 1) = [] ∧
    Note.endings (i.journal (fun _ w => w) finishing 1) = 1 := by
  let i : Interpreter Unit :=
    ⟨⟨faultyEnd, fun _ w => w, 100, false⟩, Interpreter.opening faultyEnd ⟨.empty, ()⟩, 0⟩
  have mild : ∀ h ∈ i.setup.services.handlers .onError, ∀ e w, (h.handle e w).1 = none := by
    intro h hh e w
    obtain rfl := List.mem_singleton.mp hh
    rfl
  have failed : (i.run (fun _ w => w) finishing 1).answer = some (.ok (.failed
      ⟨.hookFailed "program_end" "boom", some ⟨"finishing", 1, 1, "pass"⟩, none⟩)) := by cbv
  have last : (i.run (fun _ w => w) finishing 1).machine.log.last =
      some ⟨0, some 0, ⟨"finishing", 1, 1, "pass"⟩, "PassStatement", none⟩ := by cbv
  obtain ⟨-, failures, -⟩ := lifecycle_events i (fun _ w => w) finishing 1 mild
  refine ⟨i, rfl, mild, failed, by rw [last]; rfl, ?_⟩
  rcases failures _ failed with ⟨-, -, stamped⟩ | ⟨reports, endings, -⟩
  · cases stamped.step _ last
  · exact ⟨reports, endings⟩

end LoopScript
