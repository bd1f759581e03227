import LoopScript.Proofs.Journal.Bracketing
import LoopScript.Proofs.Journal.Chronicle
import Mathlib

/-!
The events of calls over a whole run. They are well bracketed, and a run pauses inside the brackets
of a call of a function of the host or the language, which is the first to close when the run goes
on.
-/

namespace LoopScript

variable {σ : Type}

open CallEvent (Bracketed Reach waits_append)

section Halts

variable (setup : Setup σ) (base : List (CallEvent σ)) (ws : List (Wait σ))

def Halted.Reach (h : Halted (Watched σ)) : Prop :=
  match h.halt with
  | .pause none r => ∃ t, r = .task t ∧ (Next.go (.task t)).Reach setup base ws h.machine
  | .pause (some w) r => r.Reach setup base ws w h.machine.callEvents
  | .finished _ => CallEvent.Reach base ws [] h.machine.callEvents
  | .failed _ => ∃ sites, CallEvent.Reach base ws sites h.machine.callEvents

/-- What a suspended program needs to go on. Behind a call that had to wait, this call closes. -/
def Resumption.Ready (r : Resumption) (events : List (CallEvent σ)) : Prop :=
  match r with
  | .task t => ∃ sites, t.context.2.Closes setup sites ∧ CallEvent.Reach base ws sites events
  | .waited name loc k => ∃ sites, k.Closes setup sites ∧
      CallEvent.Reach base ws sites (events ++ [.closed (name, some loc)])

def Execution.Ready (x : Execution (Watched σ)) (events : List (CallEvent σ)) : Prop :=
  match x with
  | .fresh _ | .drained | .ended .completed => CallEvent.Reach base ws [] events
  | .suspended r => r.Ready setup base ws events
  | .ended (.failed _) => ∃ sites, CallEvent.Reach base ws sites events
  | .ended _ => False

inductive Moment.Reach : Moment (Watched σ) → Prop where
  | running {t : Task} {m : Machine (Watched σ)} (h : (Next.go (.task t)).Reach setup base ws m) :
      Moment.Reach ⟨some (.ok .running), .suspended (.task t), m⟩
  | paused {w : Wait (Watched σ)} {r : Resumption} {m : Machine (Watched σ)}
      (h : r.Reach setup base ws w m.callEvents) :
      Moment.Reach ⟨some (.ok (.paused w)), .suspended r, m⟩
  | completed {m : Machine (Watched σ)} (h : CallEvent.Reach base ws [] m.callEvents) :
      Moment.Reach ⟨some (.ok .completed), .ended .completed, m⟩
  | drained {m : Machine (Watched σ)} (h : CallEvent.Reach base ws [] m.callEvents) :
      Moment.Reach ⟨some (.error Execution.emptyStack), .drained, m⟩
  | failed {e : RuntimeError} {m : Machine (Watched σ)} {sites : List Site}
      (h : CallEvent.Reach base ws sites m.callEvents) :
      Moment.Reach ⟨some (.ok (.failed e)), .ended (.failed e), m⟩

end Halts

section Runs

variable {setup : Setup σ} {base : List (CallEvent σ)} {ws : List (Wait σ)} {sites : List Site}
  {m : Machine (Watched σ)}

theorem report_callEvents (setup : Setup σ) (f : Fault) (m : Machine (Watched σ)) :
    (Execution.report setup.watched f m).2.callEvents = m.callEvents := by
  have told := Act.hushed_emit setup (e := .onError (Execution.errorOf m f)) rfl
  simp only [Execution.report]
  split
  · next e => exact told.ok e
  · next e => exact told.error e
  · next e => exact told.error e

theorem report_reaches (f : Fault) (h : ∃ sites, Reach base ws sites m.callEvents) (count : Nat) :
    (Halted.moment setup.watched ⟨.failed f, count, m⟩).Reach setup base ws := by
  obtain ⟨sites, h⟩ := h
  rw [← report_callEvents setup f m] at h
  exact .failed h

theorem close_reaches (h : Reach base ws [] m.callEvents) (count : Nat) :
    (Halted.moment setup.watched ⟨.finished .normal, count, m⟩).Reach setup base ws := by
  have told := Act.hushed_emit setup (e := .programEnd) rfl
  simp only [Halted.moment, Execution.settle, Execution.close]
  cases e : Act.emit setup.watched .programEnd m with
  | error f n => exact .failed (told.error e ▸ h)
  | ok _ n =>
    have hn : Reach base ws [] n.callEvents := told.ok e ▸ h
    obtain ⟨world, globals, forced, current, log, calls, issued⟩ := n
    cases calls with
    | nil => exact .drained hn
    | cons a calls => exact .completed hn

theorem Halted.Reach.moment {h : Halted (Watched σ)} (hh : h.Reach setup base ws) :
    (h.moment setup.watched).Reach setup base ws := by
  obtain ⟨halt, count, m⟩ := h
  cases halt with
  | pause w r =>
    cases w with
    | none =>
      obtain ⟨t, rfl, ht⟩ := hh
      exact .running ht
    | some w => exact .paused hh
  | failed f => exact report_reaches f hh count
  | finished f =>
    cases f with
    | normal => exact close_reaches hh count
    | broken | continued | returned v => exact report_reaches _ ⟨[], hh⟩ count

variable (named : setup.services.Named) (mild : ∀ f, ¬ setup.services.Raises .onPause f)

include named mild

theorem reaches_step (c : Control) (h : (Next.go c).Reach setup base ws m) :
    Act.Reaches base ws (c.step setup.watched) m (Next.Reach setup base ws) := by
  obtain ⟨sites, hc, hm⟩ := h
  cases c with
  | move v => exact Act.reaches_advance named mild v hc hm
  | task t =>
    rw [Control.step, ← bind_pure_comp]
    exact Act.ensures_bind ((Act.reaches_begin t hc hm).mono (fun _ _ h => h) fun _ _ h => h)

theorem run_reaches (count : Nat) (c : Control) (h : (Next.go c).Reach setup base ws m) :
    (run setup.watched count c m).Reach setup base ws := by
  have halts : (run setup.watched count c m).From setup.watched
      fun c m => (Next.go c).Reach setup base ws m :=
    run_from (fun c m c' n hm e => Act.ensures_of_ok (reaches_step named mild c hm) e) count c m h
  generalize run setup.watched count c m = h at halts
  obtain ⟨halt, count, n⟩ := h
  cases halt with
  | pause w r =>
    cases w with
    | none => exact halts
    | some w =>
      obtain ⟨c, m, hm, e⟩ := halts
      exact Act.ensures_of_ok (reaches_step named mild c hm) e
  | finished f =>
    obtain ⟨c, m, hm, e⟩ := halts
    exact Act.ensures_of_ok (reaches_step named mild c hm) e
  | failed f =>
    obtain ⟨c, m, hm, e⟩ := halts
    exact Act.ensures_of_error (reaches_step named mild c hm) e

theorem resumeFrom_reaches (count : Nat) (r : Resumption)
    (h : r.Ready setup base ws m.callEvents) :
    (resumeFrom setup.watched count r m).Reach setup base ws := by
  have woken : Act.Reaches base ws (r.control setup.watched) m
      fun c n => (Next.go c).Reach setup base ws n := by
    cases r with
    | task t =>
      obtain ⟨sites, hk, hm⟩ := h
      exact Act.reaches_begin t hk hm
    | waited name loc k =>
      obtain ⟨sites, hk, hm⟩ := h
      exact Act.reaches_telling rfl hm fun n hn => ⟨sites, hk, hn⟩
  rw [resumeFrom_eq]
  split
  · next c n e =>
    have hn : (Next.go c).Reach setup base ws n :=
      Act.ensures_of_ok (P := fun c n => (Next.go c).Reach setup base ws n) woken e
    exact run_reaches named mild count c hn
  · next e => exact Act.ensures_of_error woken e

theorem start_reaches (count : Nat) (p : Program) (h : Reach base ws [] m.callEvents) :
    (Execution.proceed setup.watched count m (.inl p)).Reach setup base ws := by
  have hR := (respects_callEvents setup).toRespects
  have opened : Act.Hushed (Execution.openModule setup.watched p) :=
    Act.keeps_bind hR (fun m => rfl) fun _ =>
      Act.keeps_bind hR (Act.keeps_get hR) fun n => Act.hushed_emit setup rfl
  simp only [Execution.proceed]
  split
  · next e => exact ⟨[], opened.error e ▸ h⟩
  · next n e =>
    have hn : Reach base ws [] n.callEvents := opened.ok e ▸ h
    have inner := Act.block_inner (σ := Watched σ) p.statements n.globals .program
    cases hb : Act.block (σ := Watched σ) p.statements n.globals .program with
    | start t =>
      rw [hb] at inner
      exact run_reaches named mild count _ ⟨[], Context.Inner.closes inner .program, hn⟩
    | give x => exact hn
    | pause w r => exact hn

theorem resume_reaches (host : Wait σ → World σ → World σ) {x : Moment (Watched σ)}
    (h : x.execution.Ready setup base ws x.machine.callEvents) (count : Nat) :
    (x.resume setup.watched (watchedWait host) count).1.Reach setup base ws := by
  obtain ⟨-, w, journal, answered⟩ := answered_watched host x
  have same : (x.answered (watchedWait host)).callEvents = x.machine.callEvents := by
    rw [answered]
    exact congrArg Note.calls journal
  rw [← same] at h
  obtain ⟨answer, execution, m⟩ := x
  cases execution with
  | fresh p => exact (start_reaches named mild count p h).moment
  | suspended r => exact (resumeFrom_reaches named mild count r h).moment
  | drained => exact .completed h
  | ended s =>
    cases s with
    | completed => exact .completed h
    | failed e =>
      obtain ⟨sites, h⟩ := h
      exact .failed h
    | running | paused | cancelled => exact h.elim

end Runs

section Moments

variable {setup : Setup σ} {base : List (CallEvent σ)} {ws : List (Wait σ)}

/-- The wait that an answer bears. -/
def Moment.wait? (x : Moment σ) : Option (Wait σ) :=
  match x.answer with
  | some (.ok (.paused w)) => some w
  | _ => none

theorem CallEvent.Reach.rebase {sites : List Site} {events : List (CallEvent σ)}
    (h : Reach base ws sites events) : Reach events (ws ++ []) sites events :=
  ⟨List.prefix_rfl, h.calls, by rw [List.append_nil, h.paused]⟩

/-- A program that has paused stands directly inside the brackets of a call, and goes on with the
end of this call. -/
theorem Resumption.Reach.ready {r : Resumption} {w : Wait (Watched σ)} {events : List (CallEvent σ)}
    (h : r.Reach setup base ws w events) : base <+: events ∧ ∃ b loc k before inner,
      setup.Knows b ∧ r = .waited b.name loc k ∧
      events = before ++ .opened (b.name, some loc) :: inner ++ [.paused w.unwatched] ∧
      Bracketed inner ∧ ∀ base', base' <+: events ++ [.closed (b.name, some loc)] →
        r.Ready setup base' (ws ++ [w.unwatched]) events := by
  obtain ⟨b, loc, k, sites, events, hb, rfl, hk, he, rfl⟩ := h
  obtain ⟨before, inner, rfl, hi⟩ := he.calls.innermost
  refine ⟨he.grown.trans (List.prefix_append _ _), b, loc, k, before, inner, hb, rfl, rfl, hi, ?_⟩
  intro base' hbase
  exact ⟨sites, hk, hbase, (he.calls.paused _).closed, by
    rw [waits_append, waits_append, he.paused]; exact List.append_nil _⟩

theorem Moment.Reach.grown {x : Moment (Watched σ)} (h : x.Reach setup base ws) :
    base <+: x.machine.callEvents := by
  cases h with
  | running h =>
    obtain ⟨sites, -, hm⟩ := h
    exact hm.grown
  | paused h => exact h.ready.1
  | completed h | drained h | failed h => exact h.grown

theorem Moment.Reach.ready {x : Moment (Watched σ)} (h : x.Reach setup base ws) :
    x.execution.Ready setup x.machine.callEvents (ws ++ x.unwatched.wait?.toList)
      x.machine.callEvents := by
  cases h with
  | running h =>
    obtain ⟨sites, hk, hm⟩ := h
    exact ⟨sites, hk, hm.rebase⟩
  | paused h =>
    obtain ⟨-, b, loc, k, before, inner, -, -, -, -, ready⟩ := h.ready
    exact ready _ (List.prefix_append _ _)
  | completed h | drained h => exact h.rebase
  | failed h => exact ⟨_, h.rebase⟩

theorem Execution.Ready.reach {x : Execution (Watched σ)} {events : List (CallEvent σ)}
    (h : x.Ready setup base ws events) : ∃ sites tail, Reach base ws sites (events ++ tail) ∧
      CallEvent.waits tail = [] := by
  have here {sites : List Site} (h : Reach base ws sites events) : ∃ sites tail,
      Reach base ws sites (events ++ tail) ∧ CallEvent.waits tail = [] :=
    ⟨sites, [], (List.append_nil events).symm ▸ h, rfl⟩
  cases x with
  | fresh | drained => exact here h
  | suspended r =>
    cases r with
    | task t =>
      obtain ⟨sites, -, h⟩ := h
      exact here h
    | waited name loc k =>
      obtain ⟨sites, -, h⟩ := h
      exact ⟨sites, _, h, rfl⟩
  | ended s =>
    cases s with
    | completed => exact here h
    | failed e =>
      obtain ⟨sites, h⟩ := h
      exact here h
    | running | paused | cancelled => exact h.elim

theorem Execution.Ready.bracketed {x : Execution (Watched σ)} {events : List (CallEvent σ)}
    (h : x.Ready setup base ws events) (hx : x.unwatched = .ended .completed) :
    Bracketed events := by
  cases x with
  | fresh | suspended | drained => cases hx
  | ended s =>
    cases s with
    | completed => exact h.calls.bracketed
    | running | paused | failed | cancelled => cases hx

namespace Interpreter

variable (i : Interpreter σ) (host : Wait σ → World σ → World σ) (p : Program)

/-- The events of calls that a run has told up to a moment. -/
def callEvents (n : Nat) : List (CallEvent σ) := Note.calls (i.journal host p n)

/-- The waits for which a run has paused up to a moment. -/
def pauses (n : Nat) : List (Wait σ) :=
  (List.range n).filterMap fun k => (i.run host p (k + 1)).wait?

theorem pauses_succ (n : Nat) :
    i.pauses host p (n + 1) = i.pauses host p n ++ (i.run host p (n + 1)).wait?.toList := by
  rw [pauses, List.range_succ, List.filterMap_append, pauses]
  cases h : (i.run host p (n + 1)).wait? <;> simp [h]

variable {i} (named : i.setup.services.Named) (mild : ∀ f, ¬ i.setup.services.Raises .onPause f)
  {n : Nat}

include named mild

theorem run_reaches_next {base : List (CallEvent σ)} {ws : List (Wait σ)}
    (h : (i.watched.run (watchedWait host) p n).execution.Ready i.setup base ws
      (i.callEvents host p n)) :
    (i.watched.run (watchedWait host) p (n + 1)).Reach i.setup base ws := by
  obtain ⟨count, hn⟩ := i.watched.run_succ (watchedWait host) p n
  rw [hn]
  exact resume_reaches named mild host h count

theorem run_ready (n : Nat) :
    (i.watched.run (watchedWait host) p n).execution.Ready i.setup (i.callEvents host p n)
      (i.pauses host p n) (i.callEvents host p n) := by
  -- One resumption after the other: what it leads to is what the next one needs.
  induction n with
  | zero => exact ⟨List.prefix_rfl, .none .nil, rfl⟩
  | succ n ih =>
    have ready := (run_reaches_next host p named mild ih).ready
    rw [run_unwatched, ← pauses_succ] at ready
    exact ready

theorem run_reaches (n : Nat) :
    (i.watched.run (watchedWait host) p (n + 1)).Reach i.setup (i.callEvents host p n)
      (i.pauses host p n) :=
  run_reaches_next host p named mild (run_ready host p named mild n)

end Interpreter

end Moments

/-- A function of the host that lets the program wait for a moment. -/
def rest : Offer Unit :=
  ⟨"rest", 0, some 0, true, "", [], .host fun _ w => (.wait (.condition fun w => (true, w)), w)⟩

end LoopScript
