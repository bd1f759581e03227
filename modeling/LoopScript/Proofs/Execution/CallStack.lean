import LoopScript.Proofs.Execution.Trace

/-!
The calls in progress over a whole run: which they are wherever it is suspended or ends, how many
they can be, and by which numbers they are known.
-/

namespace LoopScript

variable {σ : Type}

section Program

variable {setup : Setup σ} {c : Control} {m n : Machine σ} {base : List Activation}

theorem step_program (x : Flow) (m : Machine σ) :
    (Control.move (.give (a := .flow) x .program)).step setup m = .ok (.finished x) m := rfl

theorem stands_of_step {v : Next σ} (hs : Stacked .program base c.context.2 m.calls)
    (h : c.step setup m = .ok v n) (hv : ∀ f, v ≠ .finished f) :
    v.Stands .program base n.calls := by
  refine Act.ensures_of_ok (Act.ensures_step c hs ?_) h
  rintro ⟨x, rfl⟩
  rw [step_program] at h
  cases h
  exact hv x rfl

theorem stacked_of_error {f : Fault} (hs : Stacked .program base c.context.2 m.calls)
    (h : c.step setup m = .error f n) : Stacked .program base c.remainder.2 n.calls := by
  refine Act.ensures_of_error (Act.ensures_step c hs ?_) h
  rintro ⟨x, rfl⟩
  rw [step_program] at h
  cases h

/-- When a program has ended the calls are those with which it began. -/
theorem calls_of_finished {f : Flow} (hs : Stacked .program base c.context.2 m.calls)
    (h : c.step setup m = .ok (.finished f) n) : n.calls = base := by
  by_cases hk : c.GivesTo .program
  · obtain ⟨x, rfl⟩ := hk
    rw [step_program] at h
    cases h
    exact hs.eq_of_same
  · exact (Act.ensures_of_ok (Act.ensures_step c hs hk) h).elim

theorem ensures_openModule (p : Program) (m : Machine σ) :
    Act.Ensures (Execution.openModule setup p) m
      (fun _ n => ∃ a : Activation, a.site = .module ∧ n.calls = [a])
      (fun _ n => ∃ a : Activation, a.site = .module ∧ n.calls = [a]) := by
  let a : Activation := ⟨"<module>", m.globals, m.issued, none⟩
  have quiet := Act.closed_emit (Act.respects_calls setup).closed (.programStart p m.globals)
  have opened : Act.Ensures (Execution.openModule setup p) m (fun _ n => n.calls = [a])
      (fun _ n => n.calls = [a]) := quiet { m with calls := [a], issued := m.issued + 1 }
  exact opened.mono (fun _ n hn => ⟨a, rfl, hn⟩) fun _ n hn => ⟨a, rfl, hn⟩

end Program

namespace Interpreter

variable {i : Interpreter σ} {host : Wait σ → World σ → World σ} {p : Program}

theorem comes_stacked {c : Control} {m : Machine σ} (h : i.Comes host p c m) :
    ∃ a : Activation, a.site = .module ∧ Stacked .program [a] c.context.2 m.calls := by
  induction h with
  | @start c m h hc =>
    obtain ⟨a, ha, hm⟩ := Act.ensures_of_ok (ensures_openModule p i.machine) h
    have inner := Act.block_inner (σ := σ) p.statements m.globals .program
    have stands := Act.continueWith_stands (inner.inside.stands m.calls)
    rw [hc] at stands
    exact ⟨a, ha, hm ▸ stands⟩
  | step _ hc ih =>
    obtain ⟨a, ha, hs⟩ := ih
    exact ⟨a, ha, stands_of_step hs hc fun _ => nofun⟩
  | @wait c c' m n n' w r _ hc hr ih =>
    obtain ⟨a, ha, hs⟩ := ih
    have paused := stands_of_step hs hc fun _ => nofun
    refine ⟨a, ha, ?_⟩
    exact Act.ensures_of_ok (ensures_control (m := { n with world := host w n.world }) r paused) hr

theorem failsIn_stacked {m : Machine σ} {k : (a : Awaits) × Context a} (h : i.FailsIn host p m k) :
    ∃ a : Activation, a.site = .module ∧ Stacked .program [a] k.2 m.calls := by
  have same {a : Activation} {m : Machine σ} (hm : m.calls = [a]) :
      Stacked .program [a] Context.program m.calls := hm ▸ .refl _ _
  cases h with
  | start h =>
    obtain ⟨a, ha, hm⟩ := Act.ensures_of_error (ensures_openModule p i.machine) h
    exact ⟨a, ha, same hm⟩
  | step h hc =>
    obtain ⟨a, ha, hs⟩ := comes_stacked h
    exact ⟨a, ha, stacked_of_error hs hc⟩
  | @wait c f m n n' w r h hc hr =>
    obtain ⟨a, ha, hs⟩ := comes_stacked h
    have paused := stands_of_step hs hc fun _ => nofun
    refine ⟨a, ha, ?_⟩
    exact Act.ensures_of_error (ensures_control (m := { n with world := host w n.world }) r paused) hr
  | stray h hc hf =>
    obtain ⟨a, ha, hs⟩ := comes_stacked h
    exact ⟨a, ha, same (calls_of_finished hs hc)⟩
  | ending h hc he =>
    obtain ⟨a, ha, hs⟩ := comes_stacked h
    have quiet := Act.closed_emit (Act.respects_calls i.setup).closed .programEnd
    exact ⟨a, ha, same ((quiet.error he).trans (calls_of_finished hs hc))⟩

/-- How a moment of a run comes about. -/
inductive Shows (i : Interpreter σ) (host : Wait σ → World σ → World σ) (p : Program) :
    Moment σ → Prop where
  | fresh : Shows i host p ⟨none, .fresh p, i.machine⟩
  | running {t : Task} {m : Machine σ} (h : i.Comes host p (.task t) m) :
      Shows i host p ⟨some (.ok .running), .suspended (.task t), m⟩
  | paused {c : Control} {m n : Machine σ} {w : Wait σ} {r : Resumption} (h : i.Comes host p c m)
      (hc : c.step i.setup m = .ok (.pause w r) n) :
      Shows i host p ⟨some (.ok (.paused w)), .suspended r, n⟩
  | completed {m : Machine σ} (hm : m.calls = []) :
      Shows i host p ⟨some (.ok .completed), .ended .completed, m⟩
  | failed {k : (a : Awaits) × Context a} {e : RuntimeError} {m n : Machine σ}
      (h : i.FailsIn host p m k) (hn : n.calls = m.calls) :
      Shows i host p ⟨some (.ok (.failed e)), .ended (.failed e), n⟩

theorem report_shows {k : (a : Awaits) × Context a} (f : Fault) {m : Machine σ}
    (h : i.FailsIn host p m k) :
    Shows i host p ⟨some (.ok (.failed (Execution.report i.setup f m).1)),
      .ended (.failed (Execution.report i.setup f m).1), (Execution.report i.setup f m).2⟩ :=
  .failed h (Execution.report_respects (Act.respects_calls i.setup) f m)

/-- A program that has ended is completed, unless a handler of its end fails. -/
theorem close_moment {c : Control} {m n : Machine σ} (h : i.Comes host p c m)
    (hc : c.step i.setup m = .ok (.finished .normal) n) (count : Nat) :
    (∃ n', n'.calls = [] ∧ Halted.moment i.setup ⟨.finished .normal, count, n⟩ =
      ⟨some (.ok .completed), .ended .completed, n'⟩) ∨
    ∃ f n' e, Act.emit i.setup .programEnd n = .error f n' ∧
      Halted.moment i.setup ⟨.finished .normal, count, n⟩ =
        ⟨some (.ok (.failed e)), .ended (.failed e), n'⟩ := by
  obtain ⟨a, -, hs⟩ := comes_stacked h
  have hn : n.calls = [a] := calls_of_finished hs hc
  have quiet := Act.closed_emit (Act.respects_calls i.setup).closed .programEnd
  simp only [Halted.moment, Execution.settle, Execution.close]
  cases he : Act.emit i.setup .programEnd n with
  | error f n' => exact .inr ⟨f, n', _, rfl, rfl⟩
  | ok _ n' =>
    simp only [(quiet.ok he).trans hn]
    exact .inl ⟨_, rfl, rfl⟩

theorem close_shows {c : Control} {m n : Machine σ} (h : i.Comes host p c m)
    (hc : c.step i.setup m = .ok (.finished .normal) n) (count : Nat) :
    Shows i host p (Halted.moment i.setup ⟨.finished .normal, count, n⟩) := by
  rcases close_moment h hc count with ⟨n', hn, hm⟩ | ⟨f, n', e, he, hm⟩
  · exact hm ▸ .completed hn
  · exact hm ▸ .failed (.ending h hc he) rfl

theorem moment_shows {h : Halted σ} (hf : h.From i.setup (i.Comes host p)) :
    Shows i host p (h.moment i.setup) := by
  obtain ⟨halt, count, m⟩ := h
  cases halt with
  | pause w r =>
    cases w with
    | none =>
      obtain ⟨t, rfl, ht⟩ := hf
      exact .running ht
    | some w =>
      obtain ⟨c, m', hm, hc⟩ := hf
      exact .paused hm hc
  | failed f =>
    obtain ⟨c, m', hm, hc⟩ := hf
    exact report_shows f (.step hm hc)
  | finished f =>
    obtain ⟨c, m', hm, hc⟩ := hf
    cases f with
    | normal => exact close_shows hm hc count
    | broken | continued | returned v => exact report_shows _ (.stray hm hc nofun)

theorem halts_shows {h : Halted σ} (hh : i.Halts host p h) : Shows i host p (h.moment i.setup) := by
  cases hh with
  | start h => exact report_shows _ (.start h)
  | step hf => exact moment_shows hf
  | wait h hc hr => exact report_shows _ (.wait h hc hr)

/-- Resumed once more, a run goes from one halt to the next, and stays with the last. -/
theorem halts_resume {h : Halted σ} (hh : i.Halts host p h) (count : Nat) :
    ∃ h', i.Halts host p h' ∧
      ((h.moment i.setup).resume i.setup host count).1 = h'.moment i.setup := by
  cases hh with
  | start h => exact ⟨_, .start h, rfl⟩
  | wait h hc hr => exact ⟨_, .wait h hc hr, rfl⟩
  | step hf =>
    have stays : i.Halts host p h := .step hf
    obtain ⟨halt, spent, m⟩ := h
    cases halt with
    | pause w r =>
      cases w with
      | none =>
        obtain ⟨t, rfl, ht⟩ := hf
        exact ⟨_, halts_task ht count, rfl⟩
      | some w =>
        obtain ⟨c, m', hm, hc⟩ := hf
        exact ⟨_, halts_resumeFrom hm hc count, rfl⟩
    | failed f => exact ⟨_, stays, rfl⟩
    | finished f =>
      cases f with
      | broken | continued | returned v => exact ⟨_, stays, rfl⟩
      | normal =>
        obtain ⟨c, m', hm, hc⟩ := hf
        refine ⟨_, stays, ?_⟩
        rcases close_moment hm hc spent with ⟨n', -, h⟩ | ⟨f, n', e, -, h⟩
        · rw [h]; rfl
        · rw [h]; rfl

/-- A run shows its beginning, and after that its halts. -/
theorem run_moment (n : Nat) : i.run host p n = ⟨none, .fresh p, i.machine⟩ ∨
    ∃ h, i.Halts host p h ∧ i.run host p n = h.moment i.setup := by
  induction n with
  | zero => exact .inl rfl
  | succ n ih =>
    obtain ⟨count, hn⟩ := run_succ i host p n
    rw [hn]
    refine .inr ?_
    rcases ih with h | ⟨h, hh, hm⟩
    · rw [h]
      exact ⟨_, halts_start _, rfl⟩
    · rw [hm]
      exact halts_resume hh count

/-- Why a run without hooks has failed: a step has, or the program was left in a stray way. -/
theorem halts_of_failed (hh : i.setup.services.hooks = []) {n : Nat} {e : RuntimeError}
    (he : (i.run host p n).execution = .ended (.failed e)) :
    ∃ halt count f, i.Halts host p ⟨halt, count, (i.run host p n).machine⟩ ∧
      e = Execution.errorOf (i.run host p n).machine f ∧
      (halt = .failed f ∨ ∃ x, halt = .finished x ∧ x ≠ .normal ∧
        f = Act.stray x (i.run host p n).machine.current) := by
  rcases (run_moment n : i.run host p n = _ ∨ _) with hm | ⟨⟨halt, count, m⟩, halts, hm⟩
  · rw [hm] at he
    cases he
  · rw [hm] at he ⊢
    cases halt with
    | pause w r => cases w <;> cases he
    | failed f =>
      simp only [Halted.moment, Execution.settle, report_silent hh] at he ⊢
      cases he
      exact ⟨_, count, f, halts, rfl, .inl rfl⟩
    | finished x =>
      cases x with
      | normal =>
        simp only [Halted.moment, Execution.settle, close_silent hh] at he
        cases hc : m.calls <;> simp [hc] at he
      | broken | continued | returned v =>
        simp only [Halted.moment, Execution.settle, report_silent hh] at he ⊢
        cases he
        exact ⟨_, count, _, halts, rfl, .inr ⟨_, rfl, nofun, rfl⟩⟩

theorem run_shows (n : Nat) : Shows i host p (i.run host p n) := by
  rcases (run_moment n : i.run host p n = _ ∨ _) with h | ⟨h, hh, hm⟩
  · rw [h]
    exact .fresh
  · rw [hm]
    exact halts_shows hh

theorem stacked_of_suspended {x : Moment σ} (h : Shows i host p x) {r : Resumption}
    (hr : x.execution = .suspended r) :
    ∃ a : Activation, a.site = .module ∧ Stacked .program [a] r.context.2 x.machine.calls := by
  cases h with
  | running h =>
    cases hr
    exact comes_stacked h
  | paused h hc =>
    cases hr
    obtain ⟨a, ha, hs⟩ := comes_stacked h
    exact ⟨a, ha, stands_of_step hs hc fun _ => nofun⟩
  | fresh | completed | failed => cases hr

theorem calls_of_completed {x : Moment σ} (h : Shows i host p x)
    (hx : x.execution = .ended .completed) : x.machine.calls = [] := by
  cases h with
  | completed hm => exact hm
  | fresh | running | paused | failed => cases hx

theorem failsIn_of_failed {x : Moment σ} (h : Shows i host p x) {e : RuntimeError}
    (hx : x.execution = .ended (.failed e)) :
    ∃ m k, i.FailsIn host p m k ∧ x.machine.calls = m.calls := by
  cases h with
  | failed h hn => exact ⟨_, _, h, hn⟩
  | fresh | running | paused | completed => cases hx

end Interpreter

/-- The calls that a machine opens on its way, one after the other. -/
inductive Machine.Opens : Machine σ → List Activation → Machine σ → Prop where
  | quiet {m n : Machine σ} (hc : n.calls = m.calls) (hi : n.issued = m.issued) : Opens m [] n
  | enter {m n : Machine σ} (a : Activation) (hm : m.calls.length ≤ callLimit)
      (ha : a.id = m.issued) (hc : n.calls = a :: m.calls) (hi : n.issued = m.issued + 1) :
      Opens m [a] n
  | exit {m n : Machine σ} (a : Activation) (hc : m.calls = a :: n.calls)
      (hi : n.issued = m.issued) : Opens m [] n
  | start {m n : Machine σ} (a : Activation) (ha : a.id = m.issued) (hc : n.calls = [a])
      (hi : n.issued = m.issued + 1) : Opens m [a] n
  | trans {m n n' : Machine σ} {xs ys : List Activation} (h₁ : Opens m xs n) (h₂ : Opens n ys n') :
      Opens m (xs ++ ys) n'

namespace Machine

variable {m n : Machine σ} {opened : List Activation}

theorem Opens.issued_eq (h : m.Opens opened n) : n.issued = m.issued + opened.length := by
  induction h with
  | quiet _ hi | enter _ _ _ _ hi | exit _ _ hi | start _ _ _ hi => exact hi
  | trans _ _ ih₁ ih₂ => rw [ih₂, ih₁, List.length_append, Nat.add_assoc]

theorem Opens.ids (h : m.Opens opened n) :
    opened.map Activation.id = List.range' m.issued opened.length := by
  induction h with
  | quiet | exit => rfl
  | enter a _ ha | start a ha => rw [List.map_singleton, ha]; rfl
  | trans h₁ _ ih₁ ih₂ =>
    rw [List.map_append, ih₁, ih₂, h₁.issued_eq, List.length_append, ← List.range'_append_1]

theorem Opens.length_le (h : m.Opens opened n) (hm : m.calls.length ≤ callLimit + 1) :
    n.calls.length ≤ callLimit + 1 := by
  induction h with
  | quiet hc => rwa [hc]
  | enter a hl _ hc => rw [hc]; exact Nat.succ_le_succ hl
  | exit a hc =>
    rw [hc, List.length_cons] at hm
    exact Nat.le_of_succ_le hm
  | start a _ hc => rw [hc]; exact Nat.succ_le_succ (Nat.zero_le _)
  | trans _ _ ih₁ ih₂ => exact ih₂ (ih₁ hm)

theorem Opens.mem (h : m.Opens opened n) {a : Activation} (ha : a ∈ n.calls) :
    a ∈ m.calls ∨ a ∈ opened := by
  induction h with
  | quiet hc => exact .inl (hc ▸ ha)
  | enter b _ _ hc =>
    rw [hc, List.mem_cons] at ha
    exact ha.symm.imp_right List.mem_singleton.mpr
  | exit b hc => exact .inl (hc ▸ List.mem_cons_of_mem b ha)
  | start b _ hc => exact .inr (hc ▸ ha)
  | trans _ _ ih₁ ih₂ =>
    rw [List.mem_append, ← or_assoc]
    exact (ih₂ ha).imp_left ih₁

theorem respects_opens (setup : Setup σ) :
    setup.RespectsRuns fun m n => ∃ opened, m.Opens opened n where
  refl _ := ⟨[], .quiet rfl rfl⟩
  trans := by
    rintro _ _ _ ⟨xs, h₁⟩ ⟨ys, h₂⟩
    exact ⟨xs ++ ys, h₁.trans h₂⟩
  world _ _ _ := ⟨[], .quiet rfl rfl⟩
  current _ _ := ⟨[], .quiet rfl rfl⟩
  forced _ _ := ⟨[], .quiet rfl rfl⟩
  record _ _ := ⟨[], .quiet rfl rfl⟩
  enter _ _ _ _ h := ⟨_, .enter _ h rfl rfl rfl⟩
  exit _ a _ h := ⟨[], .exit a h rfl⟩
  start _ := ⟨_, .start _ rfl rfl rfl⟩
  stop _ a _ h := ⟨[], .exit a h rfl⟩

end Machine

namespace Interpreter

variable {i : Interpreter σ} {host : Wait σ → World σ → World σ} {p : Program}

theorem run_opens (n : Nat) : ∃ opened, i.machine.Opens opened (i.run host p n).machine :=
  run_machine (Machine.respects_opens i.setup) (fun _ _ => ⟨[], .quiet rfl rfl⟩) p n

theorem comes_opens {c : Control} {m : Machine σ} (h : i.Comes host p c m) :
    ∃ opened, i.machine.Opens opened m := by
  have hR := Machine.respects_opens i.setup
  induction h with
  | start h hc => exact (Execution.keeps_openModule hR p).ok h
  | step _ hc ih => exact hR.trans ih ((Act.closed_step hR.closedBegin hR.closedCalls _).ok hc)
  | @wait c c' m n n' w r _ hc hr ih =>
    have paused := hR.trans ih ((Act.closed_step hR.closedBegin hR.closedCalls c).ok hc)
    have answered : ∃ opened, n.Opens opened { n with world := host w n.world } :=
      ⟨[], .quiet rfl rfl⟩
    refine hR.trans (hR.trans paused answered) ?_
    cases r with
    | task t => exact (Act.closed_begin hR.closedBegin t).ok hr
    | waited name loc k =>
      have onward := hR.closed.bind (Act.closed_emit hR.closed (.afterCall name .none loc))
        fun _ => hR.closed.pure (Control.move (.give (a := .value) .none k))
      exact onward.ok hr

end Interpreter

theorem create_calls {services : Services σ} {print : String → σ → σ} {budget : Int}
    {verbose : Bool} {world : World σ} {i : Interpreter σ}
    (h : Interpreter.create services print budget verbose world = .ok i) :
    i.machine.calls = [] ∧ i.machine.issued = 0 := by
  rw [Interpreter.create_eq h]
  exact ⟨rfl, rfl⟩

/-- The calls in progress on a fresh interpreter. Wherever a run is, is suspended or fails they are
the module and, one for one, the calls that the context awaits; when it is completed there are none.
They are never more than the limit allows, each has a number of its own, and what is evaluated
without an error leaves them as it found them. -/
theorem calls_disciplined {services : Services σ} {print : String → σ → σ} {budget : Int}
    {verbose : Bool} {world : World σ} {i : Interpreter σ}
    (h : Interpreter.create services print budget verbose world = .ok i)
    (host : Wait σ → World σ → World σ) (p : Program) :
    (∀ c m, i.Comes host p c m →
      m.calls.map Activation.site = c.context.2.sites ++ [.module] ∧
      m.calls.length ≤ callLimit + 1) ∧
    (∀ n r, (i.run host p n).execution = .suspended r →
      (i.run host p n).machine.calls.map Activation.site = r.context.2.sites ++ [.module]) ∧
    (∀ n, (i.run host p n).execution = .ended .completed → (i.run host p n).machine.calls = []) ∧
    (∀ n e, (i.run host p n).execution = .ended (.failed e) → ∃ m k, i.FailsIn host p m k ∧
      (i.run host p n).machine.calls = m.calls ∧
      m.calls.map Activation.site = k.2.sites ++ [.module]) ∧
    (∀ {a : Awaits} (k : Context a) c m x m', Begins k c → Evaluates i.setup k c m x m' →
      m'.calls = m.calls) ∧
    ∀ n, (i.run host p n).machine.calls.length ≤ callLimit + 1 ∧
      ∃ opened, i.machine.Opens opened (i.run host p n).machine ∧
        (i.run host p n).machine.calls ⊆ opened ∧
        opened.map Activation.id = List.range opened.length := by
  obtain ⟨hc, hi⟩ := create_calls h
  have sites {k : (a : Awaits) × Context a} {m : Machine σ}
      (hs : ∃ a : Activation, a.site = .module ∧ Stacked .program [a] k.2 m.calls) :
      m.calls.map Activation.site = k.2.sites ++ [.module] := by
    obtain ⟨a, ha, hs⟩ := hs
    rw [hs.map_site, List.map_singleton, ha]
  have few {m : Machine σ} (ho : ∃ opened, i.machine.Opens opened m) :
      m.calls.length ≤ callLimit + 1 := by
    obtain ⟨opened, ho⟩ := ho
    exact ho.length_le (by simp [hc])
  have shows (n : Nat) : Interpreter.Shows i host p (i.run host p n) := Interpreter.run_shows n
  refine ⟨fun c m hm => ?_, fun n r hr => ?_, fun n hn => ?_, fun n e he => ?_, ?_, fun n => ?_⟩
  · exact ⟨sites (Interpreter.comes_stacked hm), few (Interpreter.comes_opens hm)⟩
  · exact sites (Interpreter.stacked_of_suspended (shows n) hr)
  · exact Interpreter.calls_of_completed (shows n) hn
  · obtain ⟨m, k, hm, hcalls⟩ := Interpreter.failsIn_of_failed (shows n) he
    exact ⟨m, k, hm, hcalls, sites (Interpreter.failsIn_stacked hm)⟩
  · exact fun k c m x m' hb he => evaluates_calls hb he
  · obtain ⟨opened, ho⟩ : ∃ opened, i.machine.Opens opened (i.run host p n).machine :=
      Interpreter.run_opens n
    refine ⟨few ⟨opened, ho⟩, opened, ho, fun a ha => ?_, ?_⟩
    · simpa [hc] using ho.mem ha
    · rw [ho.ids, hi, List.range_eq_range']

def napper : Program :=
  let here : Location := ⟨"napper", 1, 1, ""⟩
  let call (name : String) (args : List Expr) : Stmt :=
    .expr here (.call here (.name here name) args [])
  ⟨here, [.function (.mk here "nap" [] [call "sleep" [.literal here (.num 1.0)]]), call "nap" []]⟩

theorem calls_disciplined_napping : ∃ i : Interpreter Unit,
    Interpreter.create .empty (fun _ w => w) 1 false ⟨.empty, ()⟩ = .ok i ∧
    (∀ n r, (i.run (fun _ w => w) napper n).execution = .suspended r →
      (i.run (fun _ w => w) napper n).machine.calls.map Activation.site =
        r.context.2.sites ++ [.module]) ∧
    ∀ n, (i.run (fun _ w => w) napper n).machine.calls.length ≤ callLimit + 1 := by
  obtain ⟨i, h⟩ : ∃ i : Interpreter Unit,
      Interpreter.create .empty (fun _ w => w) 1 false ⟨.empty, ()⟩ = .ok i := ⟨_, rfl⟩
  obtain ⟨-, suspended, -, -, -, ids⟩ := calls_disciplined h (fun _ w => w) napper
  exact ⟨i, h, suspended, fun n => (ids n).1⟩

end LoopScript
