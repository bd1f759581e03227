import LoopScript.Proofs.Execution.Budget
import LoopScript.Proofs.Execution.CallStack
import LoopScript.Proofs.Journal.Mirrors

/-!
The journal of a whole run. A run on a watched host shows what the run on the host by itself shows,
and its journal says how it has come to the status that it has.
-/

namespace LoopScript

variable {σ : Type}

def Halt.unwatched : Halt (Watched σ) → Halt σ
  | pause w r => pause (w.map Wait.unwatched) r
  | finished f => finished f
  | failed f => failed f

structure Halted.Mirrors (m : Machine (Watched σ)) (h : Halted (Watched σ)) (h' : Halted σ) :
    Prop where
  same : h' = ⟨h.halt.unwatched, h.count, h.machine.unwatched⟩
  journal : match h.halt with
    | .failed f => m.Troubled f h.machine
    | _ => m.Calm h.machine

section Runs

variable {m n : Machine (Watched σ)}

theorem Halted.Mirrors.after {h : Halted (Watched σ)} {h' : Halted σ} (hm : m.Calm n)
    (hn : Halted.Mirrors n h h') : Halted.Mirrors m h h' := by
  obtain ⟨same, journal⟩ := hn
  obtain ⟨halt, count, k⟩ := h
  refine ⟨same, ?_⟩
  cases halt with
  | pause w r | finished f => exact hm.trans journal
  | failed f => exact hm.troubled journal

variable (setup : Setup σ)

theorem run_mirrors (count : Nat) (c : Control) (m : Machine (Watched σ)) :
    Halted.Mirrors m (run setup.watched count c m) (run setup count c m.unwatched) := by
  fun_induction run setup.watched count c m with
  | case1 count m t hb c m' e ih =>
    obtain ⟨hy, hn⟩ := Act.ensures_of_ok (Act.mirrors_begin t m) e
    rw [run, dif_pos (show count + 1 < setup.budget from hb), hy]
    exact ih.after hn
  | case2 count m t hb f m' e =>
    obtain ⟨hy, hn⟩ := Act.ensures_of_error (Act.mirrors_begin t m) e
    rw [run, dif_pos (show count + 1 < setup.budget from hb), hy]
    exact ⟨rfl, hn⟩
  | case3 count m t hb =>
    rw [run, dif_neg (show ¬ count + 1 < setup.budget from hb)]
    exact ⟨rfl, .refl m⟩
  | case4 count m v c m' e ih =>
    obtain ⟨hy, hn⟩ := Act.ensures_of_ok (Act.mirrors_advance v m) e
    rw [run_move, hy]
    exact ih.after hn
  | case5 count m v w r m' e | case6 count m v f m' e =>
    obtain ⟨hy, hn⟩ := Act.ensures_of_ok (Act.mirrors_advance v m) e
    rw [run_move, hy]
    exact ⟨rfl, hn⟩
  | case7 count m v f m' e =>
    obtain ⟨hy, hn⟩ := Act.ensures_of_error (Act.mirrors_advance v m) e
    rw [run_move, hy]
    exact ⟨rfl, hn⟩

theorem proceed_mirrors (count : Nat) (m : Machine (Watched σ)) (origin : Program ⊕ Resumption) :
    Halted.Mirrors m (Execution.proceed setup.watched count m origin)
      (Execution.proceed setup count m.unwatched origin) := by
  cases origin with
  | inl p =>
    have opened := Act.mirrors_openModule setup p m
    simp only [Execution.proceed]
    cases e : Execution.openModule setup.watched p m with
    | error f n =>
      obtain ⟨hy, hn⟩ := Act.ensures_of_error opened e
      rw [hy]
      exact ⟨rfl, hn⟩
    | ok u n =>
      obtain ⟨hy, hn⟩ := Act.ensures_of_ok opened e
      rw [hy]
      cases hp : p.statements with
      | nil => exact ⟨rfl, hn⟩
      | cons s ss => exact (run_mirrors setup count _ n).after hn
  | inr r =>
    have woken := Act.mirrors_control setup r m
    simp only [Execution.proceed, resumeFrom_eq]
    cases e : r.control setup.watched m with
    | error f n =>
      obtain ⟨hy, hn⟩ := Act.ensures_of_error woken e
      rw [hy]
      exact ⟨rfl, hn⟩
    | ok c n =>
      obtain ⟨hy, hn⟩ := Act.ensures_of_ok woken e
      rw [hy]
      exact (run_mirrors setup count c n).after hn

end Runs

open Execution (errorOf)

/-- How a run comes to fail with an error: a fault is reported as this error, a handler of the report
puts this error in its place, or a handler of the end of the program raises it. -/
inductive Services.Fails (s : Services σ) (m n : Machine (Watched σ)) : RuntimeError → Prop where
  | reported {k : Machine (Watched σ)} {f : Fault} (h : m.Troubled f k)
      (hn : n.journal = k.journal ++ [.told (.onError (errorOf n f))]) : Fails s m n (errorOf n f)
  | replaced {k : Machine (Watched σ)} {f g : Fault} {e : RuntimeError} (h : m.Troubled f k)
      (hn : n.journal =
        k.journal ++ [.told (.onError (errorOf n f)), .raised (.handler .onError) g])
      (hg : s.Raises .onError g) (he : HostCode.PassesOn (.handler .onError) g (.error e)) :
      Fails s m n e
  | unended {k : Machine (Watched σ)} {g : Fault} {e : RuntimeError} (h : m.Calm k)
      (hn : n.journal = k.journal ++ [.told .programEnd, .raised (.handler .programEnd) g])
      (hg : s.Raises .programEnd g) (he : HostCode.PassesOn (.handler .programEnd) g (.error e)) :
      Fails s m n e

/-- What the journal says of a run from one machine to another, by where the execution stands. -/
def Services.Chronicle (s : Services σ) (m n : Machine (Watched σ)) : Execution (Watched σ) → Prop
  | .fresh _ | .suspended _ => m.Calm n
  | .drained | .ended .completed => ∃ k, m.Calm k ∧ n.journal = k.journal ++ [.told .programEnd]
  | .ended (.failed e) => s.Fails m n e
  | .ended _ => False

theorem closed_world (setup : Setup σ) :
    setup.Closed fun _ => Act.Keeps fun m n => ∃ w, n = { m with world := w } where
  pure _ m := ⟨m.world, rfl⟩
  throw _ m := ⟨m.world, rfl⟩
  bind hx hf m := by
    apply Act.ensures_bind
    refine (hx m).mono ?_ fun _ _ h => h
    rintro a _ ⟨w, rfl⟩
    exact hf a _
  onWorld f _ m := ⟨(f m.world).2, rfl⟩
  store m := ⟨m.world, rfl⟩
  current m := ⟨m.world, rfl⟩
  forced m := ⟨m.world, rfl⟩

theorem HostCode.PassesOn.error_of_handler {kind : EventKind} {g f : Fault}
    (h : HostCode.PassesOn (.handler kind) g f) : ∃ e, f = .error e := by
  cases h with
  | error _ err loc => exact ⟨_, rfl⟩
  | handler _ hf loc => exact ⟨_, rfl⟩

section Moments

variable (setup : Setup σ) {m n : Machine (Watched σ)}

theorem report_mirrors {f : Fault} (h : m.Troubled f n) :
    Execution.report setup f n.unwatched =
      ((Execution.report setup.watched f n).1, (Execution.report setup.watched f n).2.unwatched) ∧
      setup.services.Fails m (Execution.report setup.watched f n).2
        (Execution.report setup.watched f n).1 := by
  have told := Act.emit_watched setup (.onError (errorOf n f)) n
  have quiet := Act.closed_emit (closed_world setup.watched) (.onError (errorOf n f))
  have same : errorOf n.unwatched f = errorOf n f := rfl
  simp only [Execution.report, same]
  cases e : Act.emit setup.watched (.onError (errorOf n f)) n with
  | ok u k =>
    obtain ⟨hy, hk⟩ := Act.ensures_of_ok told e
    obtain ⟨w, rfl⟩ := quiet.ok e
    rw [show Act.emit setup (.onError (errorOf n f)) n.unwatched = _ from hy]
    exact ⟨rfl, .reported h hk⟩
  | error f' k =>
    obtain ⟨hy, g, hk, hg, hf⟩ := Act.ensures_of_error told e
    obtain ⟨w, rfl⟩ := quiet.error e
    obtain ⟨err, rfl⟩ := hf.error_of_handler
    rw [show Act.emit setup (.onError (errorOf n f)) n.unwatched = _ from hy]
    exact ⟨rfl, .replaced h hk hg hf⟩

theorem close_mirrors (h : m.Calm n) :
    let (answer, x, k) := Execution.close setup.watched n
    Execution.close setup n.unwatched =
      (answer.map Status.unwatched, x.unwatched, k.unwatched) ∧ setup.services.Chronicle m k x := by
  have told := Act.emit_watched setup .programEnd n
  simp only [Execution.close]
  cases e : Act.emit setup.watched .programEnd n with
  | ok u k =>
    obtain ⟨hy, hk⟩ := Act.ensures_of_ok told e
    rw [show Act.emit setup .programEnd n.unwatched = _ from hy]
    obtain ⟨world, globals, forced, current, log, calls, issued⟩ := k
    cases calls with
    | nil => exact ⟨rfl, n, h, hk⟩
    | cons a calls => exact ⟨rfl, n, h, hk⟩
  | error f k =>
    obtain ⟨hy, g, hk, hg, hf⟩ := Act.ensures_of_error told e
    obtain ⟨err, rfl⟩ := hf.error_of_handler
    rw [show Act.emit setup .programEnd n.unwatched = _ from hy]
    exact ⟨rfl, .unended h hk hg hf⟩

theorem settle_mirrors {h : Halted (Watched σ)} {h' : Halted σ} (hm : Halted.Mirrors m h h') :
    let (answer, x, k) := Execution.settle setup.watched h.halt h.machine
    Execution.settle setup h'.halt h'.machine =
      (answer.map Status.unwatched, x.unwatched, k.unwatched) ∧ setup.services.Chronicle m k x := by
  obtain ⟨rfl, journal⟩ := hm
  obtain ⟨halt, count, n⟩ := h
  have failed {f : Fault} (h : m.Troubled f n) :
      let (answer, x, k) := Execution.settle setup.watched (.failed f) n
      Execution.settle setup (.failed f) n.unwatched =
        (answer.map Status.unwatched, x.unwatched, k.unwatched) ∧ setup.services.Chronicle m k x := by
    obtain ⟨same, fails⟩ := report_mirrors setup h
    refine ⟨?_, fails⟩
    simp only [Execution.settle, same]
    rfl
  cases halt with
  | pause w r => cases w <;> exact ⟨rfl, journal⟩
  | failed f => exact failed journal
  | finished f =>
    cases f with
    | normal => exact close_mirrors setup journal
    | broken | continued | returned v => exact failed (.own journal)

theorem advance_mirrors (count : Nat) (calm : m.Calm n) (origin : Program ⊕ Resumption) :
    let (answer, x, i) := Execution.advance ⟨setup.watched, n, count⟩ origin
    Execution.advance ⟨setup, n.unwatched, count⟩ origin =
      (answer.map Status.unwatched, x.unwatched, ⟨setup, i.machine.unwatched, i.count⟩) ∧
      setup.services.Chronicle m i.machine x := by
  have hm := (proceed_mirrors setup count n origin).after calm
  obtain ⟨hs, hc⟩ := settle_mirrors setup hm
  refine ⟨?_, hc⟩
  simp only [Execution.advance, hs]
  rw [hm.same]

theorem resume_mirrors {x : Execution (Watched σ)} (count : Nat)
    (h : setup.services.Chronicle m n x) :
    let (answer, x', i) := x.resume ⟨setup.watched, n, count⟩
    x.unwatched.resume ⟨setup, n.unwatched, count⟩ =
      (answer.map Status.unwatched, x'.unwatched, ⟨setup, i.machine.unwatched, i.count⟩) ∧
      setup.services.Chronicle m i.machine x' := by
  cases x with
  | fresh p => exact advance_mirrors setup count h (.inl p)
  | suspended r => exact advance_mirrors setup count h (.inr r)
  | drained => exact ⟨rfl, h⟩
  | ended s => exact ⟨rfl, h⟩

theorem answered_watched (host : Wait σ → World σ → World σ) (x : Moment (Watched σ)) :
    (x.answered (watchedWait host)).unwatched = x.unwatched.answered host ∧
      ∃ w : World (Watched σ), w.host.journal = x.machine.journal ∧
        x.answered (watchedWait host) = { x.machine with world := w } := by
  obtain ⟨answer, execution, machine⟩ := x
  have same : ∃ w : World (Watched σ), w.host.journal = machine.journal ∧
      machine = { machine with world := w } := ⟨machine.world, rfl, rfl⟩
  cases answer with
  | none => exact ⟨rfl, same⟩
  | some answer =>
    cases answer with
    | error text => exact ⟨rfl, same⟩
    | ok s =>
      cases s with
      | paused w => exact ⟨rfl, watchedWait host w machine.world, rfl, rfl⟩
      | running | completed | failed | cancelled => exact ⟨rfl, same⟩

theorem Services.Chronicle.setWorld {s : Services σ} {x : Execution (Watched σ)}
    (h : s.Chronicle m n x) {w : World (Watched σ)} (hw : w.host.journal = n.journal) :
    s.Chronicle m { n with world := w } x := by
  have calm (h : m.Calm n) : m.Calm { n with world := w } := h.trans (.of_eq hw)
  have ended (h : ∃ k, m.Calm k ∧ n.journal = k.journal ++ [.told .programEnd]) :
      ∃ k, m.Calm k ∧ w.host.journal = k.journal ++ [.told .programEnd] := by
    rw [hw]
    exact h
  cases x with
  | fresh p | suspended r => exact calm h
  | drained => exact ended h
  | ended status =>
    cases status with
    | completed => exact ended h
    | running | paused w | cancelled => exact h
    | failed e =>
      cases h with
      | reported h hn => exact .reported h (hw.trans hn)
      | replaced h hn hg he => exact .replaced h (hw.trans hn) hg he
      | unended h hn hg he => exact .unended h (hw.trans hn) hg he

end Moments

structure Moment.Mirrors (s : Services σ) (m : Machine (Watched σ)) (x : Moment (Watched σ) × Nat)
    (y : Moment σ × Nat) : Prop where
  same : y = (x.1.unwatched, x.2)
  chronicle : s.Chronicle m x.1.machine x.1.execution

theorem Moment.Mirrors.resume {setup : Setup σ} {m : Machine (Watched σ)}
    {x : Moment (Watched σ) × Nat} {y : Moment σ × Nat} (h : Moment.Mirrors setup.services m x y)
    (host : Wait σ → World σ → World σ) :
    Moment.Mirrors setup.services m (x.1.resume setup.watched (watchedWait host) x.2)
      (y.1.resume setup host y.2) := by
  obtain ⟨rfl, chronicle⟩ := h
  obtain ⟨same, w, journal, hk⟩ := answered_watched host x.1
  obtain ⟨hy, hc⟩ := resume_mirrors setup x.2 (chronicle.setWorld journal)
  rw [← hk] at hy hc
  refine ⟨?_, hc⟩
  simp only [Moment.resume, ← same]
  rw [show x.1.unwatched.execution = x.1.execution.unwatched from rfl, hy]
  rfl

namespace Interpreter

variable (i : Interpreter σ) (host : Wait σ → World σ → World σ) (p : Program) (n : Nat)

theorem run_mirrors : (i.watched.run (watchedWait host) p n).unwatched = i.run host p n ∧
    i.setup.services.Chronicle i.machine.watched (i.watched.run (watchedWait host) p n).machine
      (i.watched.run (watchedWait host) p n).execution := by
  let start : Moment (Watched σ) × Nat := (⟨none, .fresh p, i.machine.watched⟩, i.count)
  have mirrors : Moment.Mirrors i.setup.services i.machine.watched
      ((fun x : Moment (Watched σ) × Nat => x.1.resume i.setup.watched (watchedWait host) x.2)^[n]
        start)
      ((fun x : Moment σ × Nat => x.1.resume i.setup host x.2)^[n]
        (⟨none, .fresh p, i.machine⟩, i.count)) := by
    induction n with
    | zero => exact ⟨rfl, .refl _⟩
    | succ n ih =>
      rw [Function.iterate_succ_apply', Function.iterate_succ_apply']
      exact ih.resume host
  exact ⟨congrArg Prod.fst mirrors.same.symm, mirrors.chronicle⟩

theorem run_unwatched : (i.watched.run (watchedWait host) p n).unwatched = i.run host p n :=
  (run_mirrors i host p n).1

theorem run_chronicle : ∃ x : Execution (Watched σ), x.unwatched = (i.run host p n).execution ∧
    i.setup.services.Chronicle i.machine.watched (i.watched.run (watchedWait host) p n).machine x :=
  ⟨_, congrArg Moment.execution (run_unwatched i host p n), (run_mirrors i host p n).2⟩

variable {i host p n}

theorem Shows.ended {x : Moment σ} (h : Shows i host p x) {s : Status σ}
    (ha : x.answer = some (.ok s)) (hs : s.terminal = true) : x.execution = .ended s := by
  cases h with
  | fresh => cases ha
  | running | paused => cases ha; cases hs
  | completed | failed => cases ha; rfl

theorem chronicle_failed {e : RuntimeError}
    (h : (i.run host p n).answer = some (.ok (.failed e))) :
    i.setup.services.Fails i.machine.watched (i.watched.run (watchedWait host) p n).machine e := by
  obtain ⟨x, hx, chronicle⟩ := run_chronicle i host p n
  rw [(run_shows n).ended h rfl] at hx
  cases x with
  | fresh | suspended | drained => cases hx
  | ended s => cases s <;> cases hx; exact chronicle

theorem chronicle_completed (h : (i.run host p n).answer = some (.ok .completed)) :
    ∃ m, i.machine.watched.Calm m ∧
      (i.watched.run (watchedWait host) p n).machine.journal = m.journal ++ [.told .programEnd] := by
  obtain ⟨x, hx, chronicle⟩ := run_chronicle i host p n
  rw [(run_shows n).ended h rfl] at hx
  cases x with
  | fresh | suspended | drained => cases hx
  | ended s => cases s <;> cases hx; exact chronicle

theorem chronicle_unended (h : (i.run host p n).execution.status? = none) :
    i.machine.watched.Calm (i.watched.run (watchedWait host) p n).machine := by
  obtain ⟨x, hx, chronicle⟩ := run_chronicle i host p n
  have shows : Shows i host p (i.run host p n) := run_shows n
  generalize i.run host p n = y at shows h hx
  cases shows with
  | fresh | running | paused =>
    cases x with
    | fresh | suspended => exact chronicle
    | drained | ended => cases hx
  | completed | failed => cases h

end Interpreter

end LoopScript
