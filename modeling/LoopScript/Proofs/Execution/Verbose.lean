import LoopScript.Proofs.Execution.Lockstep
import LoopScript.Proofs.Machine.Log

/-!
Verbose runs. A run that keeps the whole log goes like one that does not, up to the first statement
at which the innermost call binds a name to a value that has no text.
-/

namespace LoopScript

variable {σ : Type}

def LogEntry.bare (e : LogEntry) : LogEntry := { e with snapshot := none }

/-- What a log tells without its history and without the bindings that it shows. -/
def StepLog.bare (log : StepLog) : StepLog :=
  ⟨#[], log.next, log.last.map LogEntry.bare, log.tails.map fun e => (e.1, e.2.bare)⟩

def Machine.bare (m : Machine σ) : Machine σ := { m with log := m.log.bare }

def Moment.bare (x : Moment σ) : Moment σ := { x with machine := x.machine.bare }

section Tables

variable {κ ν μ : Type} [BEq κ]

theorem Table.map_put (t : Table κ ν) (key : κ) (value : ν) (f : ν → μ) :
    (t.put key value).map (fun e => (e.1, f e.2)) =
      Table.put (t.map fun e => (e.1, f e.2)) key (f value) := by
  induction t with
  | nil => rfl
  | cons e t ih =>
    obtain ⟨k, v⟩ := e
    by_cases h : (k == key) = true
    · simp [put, h]
    · simp [put, h, ih]

theorem Table.map_erase (t : Table κ ν) (key : κ) (f : ν → μ) :
    (t.erase key).map (fun e => (e.1, f e.2)) =
      Table.erase (t.map fun e => (e.1, f e.2)) key := by
  induction t with
  | nil => rfl
  | cons e t ih =>
    obtain ⟨k, v⟩ := e
    by_cases h : (k == key) = true
    · simp [erase, h]
    · simp [erase, h, ih]

end Tables

theorem StepLog.bare_record (log : StepLog) (keep : Bool) (e : LogEntry) :
    (log.record keep e).bare = log.bare.record false e.bare := by
  obtain ⟨history, next, last, tails⟩ := log
  obtain ⟨step, activation, location, rule, snapshot⟩ := e
  cases activation with
  | none => rfl
  | some id => simp only [record, bare, Table.map_put]; rfl

theorem StepLog.bare_forget (log : StepLog) (id : Nat) :
    (log.forget id).bare = log.bare.forget id := by
  simp only [forget, bare, Table.map_erase]

theorem bare_record (m : Machine σ) (keep : Bool) (e : LogEntry) :
    Machine.bare { m with log := m.log.record keep e } =
      { m.bare with log := m.bare.log.record false e.bare } := by
  simp only [Machine.bare, StepLog.bare_record]

theorem bare_forget (m : Machine σ) (calls : List Activation) (id : Nat) :
    Machine.bare { m with calls := calls, log := m.log.forget id } =
      { m.bare with calls := calls, log := m.bare.log.forget id } := by
  simp only [Machine.bare, StepLog.bare_forget]

theorem likeness_bare : Machine.Likeness fun m n : Machine σ => n.bare = m.bare where
  world h := (congrArg Machine.world h :)
  current h := (congrArg Machine.current h :)
  forced h := (congrArg Machine.forced h :)
  depth h := (congrArg (List.length ∘ Machine.calls) h :)
  setWorld h w := congrArg (fun m => { m with world := w }) h
  setCurrent h loc := congrArg (fun m => { m with current := loc }) h
  setForced h names := congrArg (fun m => { m with forced := names }) h
  enter h name scope loc := congrArg (fun m : Machine σ => { m with
    calls := ⟨name, scope, m.issued, some loc⟩ :: m.calls, issued := m.issued + 1 }) h
  exit {m n} h {a b as bs} ha hb := by
    have calls : n.bare.calls = m.bare.calls := congrArg Machine.calls h
    change n.calls = m.calls at calls
    rw [ha, hb] at calls
    obtain ⟨rfl, rfl⟩ := List.cons.inj calls
    rw [bare_forget, bare_forget, h]

section Step

variable {setup : Setup σ} {A : Fault → Machine σ → Prop}

theorem beside_record (rule : String) (loc : Location) (b : Option (List (String × String)))
    {m n : Machine σ} (h : n.bare = m.bare) :
    Act.Beside (fun _ m n => n.bare = m.bare) (fun _ m n => n.bare = m.bare) A
      (Act.record true rule loc b m) (Act.record false rule loc none n) := by
  have next : n.log.next = m.log.next := (congrArg (fun m : Machine σ => m.log.next) h :)
  have calls : n.calls = m.calls := (congrArg Machine.calls h :)
  have step : Act.record false rule loc none n = .ok m.log.next { n with
      log := n.log.record false ⟨m.log.next, m.calls.head?.map (·.id), loc, rule, none⟩ } := by
    rw [← next, ← calls]; rfl
  rw [step]
  refine .ok ?_
  rw [bare_record n, bare_record m, h]
  rfl

theorem beside_logStep (hv : setup.verbose = false) (rule : String) (loc : Location) {m n : Machine σ}
    (h : n.bare = m.bare) (ha : n.bindings = .error .endless → A .endless m) :
    Act.Beside (fun _ m n => n.bare = m.bare) (fun _ m n => n.bare = m.bare) A
      (Act.logStep { setup with verbose := true } rule loc m) (Act.logStep setup rule loc n) := by
  have shown : m.bindings = n.bindings := (congrArg Machine.bindings h.symm :)
  let call (step : Nat) : Act σ Unit := Act.callRules ⟨step, rule, some loc⟩ setup.services.rules
  have quiet : Act.logStep setup rule loc n = (Act.record false rule loc none >>= call) n := by
    simp only [Act.logStep, hv]; rfl
  rw [quiet]
  change Act.Beside _ _ _
    ((Act.snapshot loc >>= fun b => Act.record true rule loc b >>= call) m) _
  cases hb : m.bindings with
  | ok b =>
    have read : Act.snapshot loc m = .ok b m := by rw [snapshot_eq, hb]; rfl
    simp only [bind, EStateM.bind, read]
    exact Act.beside_bind (beside_record rule loc b h) fun step m n h =>
      Act.closed_callRules (likeness_bare.closed setup A) ⟨step, rule, some loc⟩ (fun _ h => h) m n h
  | error f =>
    -- The bindings are shown before the entry is written, so only the verbose run can fail here.
    obtain rfl : f = .endless := (raises_bindings m).error hb
    have read : Act.snapshot loc m = .error .endless m := by rw [snapshot_eq, hb]; rfl
    simp only [bind, EStateM.bind, read]
    exact .apart (ha (shown ▸ hb)) _

end Step

theorem errorOf_bare (m : Machine σ) (f : Fault) :
    Execution.errorOf m.bare f = Execution.errorOf m f := by
  obtain ⟨world, globals, forced, current, ⟨history, next, last, tails⟩, calls, issued⟩ := m
  cases last <;> rfl

theorem errorOf_agree {m n : Machine σ} (h : n.bare = m.bare) (f : Fault) :
    Execution.errorOf n f = Execution.errorOf m f := by
  rw [← errorOf_bare n, h, errorOf_bare]

theorem report_agree (setup : Setup σ) {m n : Machine σ} (h : n.bare = m.bare) (f : Fault) :
    (Execution.report setup f n).1 = (Execution.report setup f m).1 ∧
      (Execution.report setup f n).2.bare = (Execution.report setup f m).2.bare := by
  have agree := Act.closed_emit (likeness_bare.closed setup fun _ _ => False)
    (.onError (Execution.errorOf m f)) m n h
  simp only [Execution.report, errorOf_agree h]
  generalize Act.emit setup (.onError (Execution.errorOf m f)) m = x,
    Act.emit setup (.onError (Execution.errorOf m f)) n = y at agree ⊢
  cases agree with
  | ok h => exact ⟨rfl, h⟩
  | @error f m n h =>
    cases f with
    | error e => exact ⟨rfl, h⟩
    | endless => exact ⟨errorOf_agree h .endless, h⟩
    | foreign text => exact ⟨errorOf_agree h (.foreign text), h⟩
  | apart h => exact h.elim

namespace Interpreter

variable (i : Interpreter σ) (host : Wait σ → World σ → World σ) (p : Program)

/-- The tasks that a run takes up as it comes to them, or when it goes on after a wait. -/
inductive TakesUp : Task → Machine σ → Prop where
  | onward {t : Task} {m : Machine σ} (h : i.Comes host p (.task t) m) : TakesUp t m
  | woken {c : Control} {t : Task} {m n : Machine σ} {w : Wait σ} (h : i.Comes host p c m)
      (hc : c.step i.setup m = .ok (.pause w (.task t)) n) :
      TakesUp t { n with world := host w n.world }

/-- The machines on which a run records a statement. -/
def Records (s : Stmt) (m : Machine σ) : Prop :=
  ∃ scope k n, i.TakesUp host p (.exec s scope k) n ∧
    Act.emit i.setup (.beforeStatement s scope) { n with current := some s.location } = .ok ⟨⟩ m

/-- A run that keeps the whole log beside one that does not. -/
def verbosePairing : Pairing σ where
  Start m n := m = i.machine ∧ n = i.machine
  At c m n := n.bare = m.bare ∧ i.Comes host p c n
  Paused w r m n := n.bare = m.bare ∧
    ∃ c n', i.Comes host p c n' ∧ c.step i.setup n' = .ok (.pause w r) n
  Failing m n := n.bare = m.bare
  Ended m n := n.bare = m.bare
  Same e d := d = e
  Apart f m := f = .endless ∧
    ∃ s n, n.bare = m.bare ∧ i.Records host p s n ∧ n.bindings = .error .endless

variable {i host p}

theorem beside_begin (hv : i.setup.verbose = false) {t : Task} {m n : Machine σ}
    (h : n.bare = m.bare) (ht : i.TakesUp host p t n) :
    Act.Beside (fun _ m n => n.bare = m.bare) (fun _ m n => n.bare = m.bare)
      (i.verbosePairing host p).Apart
      (Act.begin { i.setup with verbose := true } t m) (Act.begin i.setup t n) := by
  have quiet := likeness_bare.closed i.setup (i.verbosePairing host p).Apart
  cases t with
  | eval e scope k => exact Act.closed_beginExpression quiet e scope k m n h
  | exec s scope k =>
    -- Both runs write here, and only here: `hn` keeps the machine that the statement began on.
    refine Act.beside_bind (P := fun _ m' n' => n'.bare = m'.bare ∧
      n' = { n with current := some s.location }) (.ok ⟨?_, rfl⟩) ?_
    · exact likeness_bare.setCurrent h _
    rintro _ m₁ n₁ ⟨h₁, hn⟩
    have emitted := Act.closed_emit quiet (.beforeStatement s scope) m₁ n₁ h₁
    refine Act.beside_bind emitted.right ?_
    rintro _ m₂ n₂ ⟨h₂, he⟩
    refine Act.beside_bind (beside_logStep hv s.rule s.location h₂ fun hb => ?_) fun _ m₃ n₃ h₃ => ?_
    · exact ⟨rfl, s, n₂, h₂, ⟨scope, k, n, ht, hn ▸ he⟩, hb⟩
    · exact Act.closed_beginStatement quiet (Act.agree_force likeness_bare) s scope k m₃ n₃ h₃

theorem beside_step (hv : i.setup.verbose = false) {c : Control} {m n : Machine σ}
    (h : n.bare = m.bare) (hc : i.Comes host p c n) :
    Act.Beside (fun _ m n => n.bare = m.bare) (fun _ m n => n.bare = m.bare)
      (i.verbosePairing host p).Apart
      (c.step { i.setup with verbose := true } m) (c.step i.setup n) := by
  cases c with
  | task t =>
    simp only [Control.step, ← bind_pure_comp]
    exact Act.beside_bind (beside_begin hv h (.onward hc)) fun c m n h => .ok h
  | move v => exact Act.closed_advance (likeness_bare.closedCalls i.setup _) v m n h

theorem beside_wake (hv : i.setup.verbose = false) {c : Control} {r : Resumption} {w : Wait σ}
    {m n n' : Machine σ} (h : n.bare = m.bare) (hc : i.Comes host p c n')
    (hw : c.step i.setup n' = .ok (.pause w r) n) :
    Act.Beside (fun _ m n => n.bare = m.bare) (fun _ m n => n.bare = m.bare)
      (i.verbosePairing host p).Apart
      (r.control { i.setup with verbose := true } { m with world := host w m.world })
      (r.control i.setup { n with world := host w n.world }) := by
  have world : n.world = m.world := likeness_bare.world h
  have awake : Machine.bare { n with world := host w n.world } =
      Machine.bare { m with world := host w m.world } := by
    rw [world]
    exact likeness_bare.setWorld h _
  cases r with
  | task t => exact beside_begin hv awake (.woken hc hw)
  | waited name loc k =>
    refine Act.beside_bind (Act.closed_emit (likeness_bare.closed i.setup _) _ _ _ awake) ?_
    exact fun _ m n h => .ok h

theorem moments_bare {x y : Moment σ} (h : (i.verbosePairing host p).Moments p x y) :
    x.bare = y.bare := by
  cases h with
  | fresh h => rw [h.1, h.2]
  | running h => exact congrArg (Moment.mk _ _) h.1.symm
  | paused h => exact congrArg (Moment.mk _ _) h.1.symm
  | completed h | drained h => exact congrArg (Moment.mk _ _) h.symm
  | failed he h =>
    obtain rfl : _ = _ := he
    exact congrArg (Moment.mk _ _) h.symm

theorem verbose_close {m n : Machine σ} (h : n.bare = m.bare) :
    (i.verbosePairing host p).Moments p
      (Halted.moment { i.setup with verbose := true } ⟨.finished .normal, 0, m⟩)
      (Halted.moment i.setup ⟨.finished .normal, 0, n⟩) := by
  have ended : Act.Beside (fun _ m n => n.bare = m.bare) (fun _ m n => n.bare = m.bare)
      (fun _ _ => False) (Act.emit { i.setup with verbose := true } .programEnd m)
      (Act.emit i.setup .programEnd n) :=
    Act.closed_emit (likeness_bare.closed i.setup fun _ _ => False) .programEnd m n h
  simp only [Halted.moment, Execution.settle, Execution.close]
  generalize Act.emit { i.setup with verbose := true } .programEnd m = x,
    Act.emit i.setup .programEnd n = y at ended ⊢
  -- The last event may fail in a handler, and then both runs report the same fault.
  cases ended with
  | @ok _ m n h =>
    have calls : n.calls = m.calls := (congrArg Machine.calls h :)
    simp only [calls]
    split
    · exact .drained h
    · next a rest _ =>
      have left := congrArg (fun m : Machine σ => { m with calls := rest }) h
      exact .completed left
  | @error f m n h =>
    cases f with
    | error e => exact .failed rfl h
    | endless => exact .failed (errorOf_agree h .endless) h
    | foreign text => exact .failed (errorOf_agree h (.foreign text)) h
  | apart h => exact h.elim

theorem verbose_lockstep (i : Interpreter σ) (host : Wait σ → World σ → World σ) (p : Program)
    (hv : i.setup.verbose = false) :
    (i.verbosePairing host p).Lockstep { i.setup with verbose := true } i.setup host p where
  budget := rfl
  start := by
    rintro m n ⟨rfl, rfl⟩
    change Act.Beside _ _ _ (Execution.openModule i.setup p i.machine)
      (Execution.openModule i.setup p i.machine)
    cases h : Execution.openModule i.setup p i.machine with
    | ok u m => exact .ok ⟨rfl, fun c hc => ⟨rfl, .start h hc⟩⟩
    | error f m => exact .error rfl
  step := by
    rintro c m n ⟨h, hc⟩
    refine (beside_step hv h hc).right.mono ?_ (fun _ _ _ h => h) fun _ _ h => h
    rintro (c' | ⟨w, r⟩ | f) m n' ⟨h, hs⟩
    · exact ⟨h, hc.step hs⟩
    · exact ⟨h, c, n, hc, hs⟩
    · cases f <;> exact h
  wake := by
    rintro w r m n ⟨h, c, n', hc, hw⟩
    refine (beside_wake hv h hc hw).right.mono ?_ (fun _ _ _ h => h) fun _ _ h => h
    rintro c' m n ⟨h, hs⟩
    exact ⟨h, hc.wait hw hs⟩
  current h := likeness_bare.current h
  report h f := report_agree i.setup h f
  close h := verbose_close h

end Interpreter

theorem create_verbose {services : Services σ} {print : String → σ → σ} {budget : Int}
    {world : World σ} {loud quiet : Interpreter σ}
    (h₁ : Interpreter.create services print budget true world = .ok loud)
    (h₂ : Interpreter.create services print budget false world = .ok quiet) :
    loud = { quiet with setup := { quiet.setup with verbose := true } } ∧
      quiet.setup.verbose = false := by
  rw [Interpreter.create_eq h₁, Interpreter.create_eq h₂]
  exact ⟨rfl, rfl⟩

/-- A verbose run beside one that is not. After every number of resumptions they have given the same
answer and left the same machine, but for the history and the bindings that the log shows; or else
the verbose run has failed where the other came to a statement at which the innermost call binds a
name to a value without a text. -/
theorem verbose_observes {services : Services σ} {print : String → σ → σ} {budget : Int}
    {world : World σ} {loud quiet : Interpreter σ}
    (h₁ : Interpreter.create services print budget true world = .ok loud)
    (h₂ : Interpreter.create services print budget false world = .ok quiet)
    (host : Wait σ → World σ → World σ) (p : Program) (n : Nat) :
    (loud.run host p n).bare = (quiet.run host p n).bare ∨
      ∃ s m, quiet.Records host p s m ∧ m.bindings = .error .endless ∧
        (loud.run host p n).answer =
          some (.ok (.failed (Execution.report quiet.setup .endless m).1)) := by
  obtain ⟨rfl, hv⟩ := create_verbose h₁ h₂
  have lockstep := quiet.verbose_lockstep host p hv
  rcases lockstep.moments ⟨rfl, rfl⟩ quiet.count n with ⟨together, -⟩ | ⟨f, m, h, hx⟩
  · exact .inl (Interpreter.moments_bare together)
  · obtain ⟨rfl, s, m', hm, hs, hb⟩ := h
    refine .inr ⟨s, m', hs, hb, ?_⟩
    rw [(report_agree quiet.setup hm .endless).1]
    exact congrArg Moment.answer hx

theorem verbose_observes_sleeping : ∃ loud quiet : Interpreter (List String),
    Interpreter.create .empty (scribe 1).print 1 true ⟨.empty, []⟩ = .ok loud ∧
    Interpreter.create .empty (scribe 1).print 1 false ⟨.empty, []⟩ = .ok quiet ∧
    ∀ n, (loud.run (fun _ w => w) sleeper n).bare = (quiet.run (fun _ w => w) sleeper n).bare ∨
      ∃ s m, quiet.Records (fun _ w => w) sleeper s m ∧ m.bindings = .error .endless ∧
        (loud.run (fun _ w => w) sleeper n).answer =
          some (.ok (.failed (Execution.report quiet.setup .endless m).1)) := by
  obtain ⟨loud, h₁⟩ : ∃ i,
      Interpreter.create .empty (scribe 1).print 1 true ⟨.empty, []⟩ = .ok i := ⟨_, rfl⟩
  obtain ⟨quiet, h₂⟩ : ∃ i,
      Interpreter.create .empty (scribe 1).print 1 false ⟨.empty, []⟩ = .ok i := ⟨_, rfl⟩
  exact ⟨loud, quiet, h₁, h₂, verbose_observes h₁ h₂ (fun _ w => w) sleeper⟩

end LoopScript
