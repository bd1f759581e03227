import LoopScript.Proofs.Execution.Lockstep
import LoopScript.Proofs.Machine.Log

/-!
A program that runs on an interpreter on which another one has run before. Of the first run the
second sees the store, the host and the names that were declared global, and nothing else.
-/

namespace LoopScript

variable {σ : Type}

/-- What a machine without handlers and without a log goes by: all but the numbers of calls and
steps. -/
def Machine.plain (m : Machine σ) : Machine σ :=
  { m with log := .empty, calls := m.calls.map fun a => { a with id := 0 }, issued := 0 }

/-- Likeness up to the place that was reached last. -/
def Machine.NearlyPlain (m n : Machine σ) : Prop :=
  Machine.plain { n with current := none } = Machine.plain { m with current := none }

theorem likeness_plain : Machine.Likeness fun m n : Machine σ => n.plain = m.plain where
  world h := (congrArg Machine.world h :)
  current h := (congrArg Machine.current h :)
  forced h := (congrArg Machine.forced h :)
  depth h := by
    have calls := congrArg (List.length ∘ Machine.calls) h
    simpa [Machine.plain] using calls
  setWorld h w := congrArg (fun m => { m with world := w }) h
  setCurrent h loc := congrArg (fun m => { m with current := loc }) h
  setForced h names := congrArg (fun m => { m with forced := names }) h
  enter h name scope loc := congrArg (fun m : Machine σ => { m with
    calls := ⟨name, scope, 0, some loc⟩ :: m.calls }) h
  exit {m n} h {a b as bs} ha hb := by
    have left := congrArg (fun m : Machine σ => { m with calls := m.calls.tail }) h
    simp only [Machine.plain, ha, hb, List.map_cons, List.tail_cons] at left
    exact left

theorem bindings_plain (m : Machine σ) : m.plain.bindings = m.bindings := by
  obtain ⟨world, globals, forced, current, log, calls, issued⟩ := m
  cases calls <;> rfl

section Silent

variable {setup : Setup σ} {A : Fault → Machine σ → Prop}

theorem agree_logStep (hr : setup.services.rules = []) (rule : String) (loc : Location) :
    Act.Agree (fun m n : Machine σ => n.plain = m.plain) A (Act.logStep setup rule loc)
      (Act.logStep setup rule loc) := by
  intro m n h
  have shown : n.bindings = m.bindings := by rw [← bindings_plain n, h, bindings_plain]
  rw [logStep_silent hr, logStep_silent hr, shown]
  split
  · exact .ok h
  · exact .error h

theorem beside_exec (hr : setup.services.rules = []) (s : Stmt) (scope : ScopeId)
    (k : Context .flow) {m n : Machine σ} (h : m.NearlyPlain n) :
    Act.Beside (fun _ m n => n.plain = m.plain) (fun _ m n => n.plain = m.plain) A
      (Act.begin setup (.exec s scope k) m) (Act.begin setup (.exec s scope k) n) := by
  have quiet := likeness_plain.closed setup A
  have placed : Machine.plain { n with current := some s.location } =
      Machine.plain { m with current := some s.location } := likeness_plain.setCurrent h _
  refine Act.beside_bind (P := fun _ m n => n.plain = m.plain) (.ok placed) fun _ m n h => ?_
  refine Act.beside_bind (Act.closed_emit quiet _ m n h) fun _ m n h => ?_
  refine Act.beside_bind (agree_logStep hr _ _ m n h) fun _ m n h => ?_
  exact Act.closed_beginStatement quiet (Act.agree_force likeness_plain) s scope k m n h

theorem agree_begin (hr : setup.services.rules = []) (t : Task) :
    Act.Agree (fun m n : Machine σ => n.plain = m.plain) A (Act.begin setup t)
      (Act.begin setup t) := by
  intro m n h
  cases t with
  | exec s scope k => exact beside_exec hr s scope k (likeness_plain.setCurrent h none)
  | eval e scope k => exact Act.closed_beginExpression (likeness_plain.closed setup A) e scope k m n h

theorem nearlyPlain_of_plain {m n : Machine σ} (h : n.plain = m.plain) : m.NearlyPlain n :=
  likeness_plain.setCurrent h none

theorem nearlyPlain_left {m n : Machine σ} (h : m.NearlyPlain n) {a b : Activation}
    {as bs : List Activation} (ha : m.calls = a :: as) (hb : n.calls = b :: bs) :
    Machine.NearlyPlain { m with calls := as } { n with calls := bs } := by
  have left := congrArg (fun m : Machine σ => { m with calls := m.calls.tail }) h
  simp only [Machine.plain, ha, hb, List.map_cons, List.tail_cons] at left
  exact left

def RuntimeError.unstamped (e : RuntimeError) : RuntimeError := { e with step := none }

theorem errorOf_plain {m n : Machine σ} (h : n.plain = m.plain) (f : Fault) :
    (Execution.errorOf n f).unstamped = (Execution.errorOf m f).unstamped := by
  have current : n.current = m.current := likeness_plain.current h
  simp only [Execution.errorOf, current]
  cases n.log.last <;> cases m.log.last <;> rfl

/-- The controls with which a program begins; they set the place that was reached last, or do not
need it. -/
inductive Control.Opens : Control → Prop where
  | exec (s : Stmt) (scope : ScopeId) (k : Context .flow) : Opens (.task (.exec s scope k))
  | empty : Opens (.move (.give (a := .flow) .normal .program))

/-- Two runs on machines of which neither has a handler. -/
def plainPairing : Pairing σ where
  Start m n := n.world = m.world ∧ n.globals = m.globals ∧ n.forced = m.forced
  At c m n := n.plain = m.plain ∨ c.Opens ∧ m.NearlyPlain n
  Paused _ _ m n := n.plain = m.plain
  Failing m n := n.plain = m.plain
  Ended m n := m.NearlyPlain n
  Same e d := d.unstamped = e.unstamped
  Apart _ _ := False

theorem opens_block {p : Program} {globals : ScopeId} {c : Control}
    (h : Act.continueWith (σ := σ) .program (Act.block p.statements globals .program) = .go c) :
    c.Opens := by
  cases hp : p.statements with
  | nil => rw [hp] at h; cases h; exact .empty
  | cons s ss => rw [hp] at h; cases h; exact .exec _ _ _

theorem plain_next (v : Next σ) {m n : Machine σ} (h : n.plain = m.plain) :
    plainPairing.Next v m n := by
  cases v with
  | go c => exact .inl h
  | pause w r => exact h
  | finished f =>
    cases f with
    | normal => exact nearlyPlain_of_plain h
    | broken | continued | returned v => exact h

theorem plain_step (hr : setup.services.rules = []) {c : Control} {m n : Machine σ}
    (h : plainPairing.At c m n) :
    Act.Beside plainPairing.Next (fun _ => plainPairing.Failing) plainPairing.Apart
      (c.step setup m) (c.step setup n) := by
  cases c with
  | task t =>
    have begun : Act.Beside (fun _ m n => n.plain = m.plain) (fun _ m n => n.plain = m.plain)
        (fun _ _ => False) (Act.begin setup t m) (Act.begin setup t n) := by
      rcases h with h | ⟨opens, h⟩
      · exact agree_begin hr t m n h
      · cases opens with
        | exec s scope k => exact beside_exec hr s scope k h
    simp only [Control.step, ← bind_pure_comp]
    exact Act.beside_bind begun fun c m n h => .ok (.inl h)
  | move v =>
    rcases h with h | ⟨opens, h⟩
    · have calls := likeness_plain.closedCalls setup fun _ _ => False
      have advanced := Act.closed_advance calls v m n h
      exact advanced.mono (fun v _ _ h => plain_next v h) (fun _ _ _ h => h) fun _ _ h => h
    · cases opens
      exact .ok h

theorem plain_close (hh : setup.services.hooks = []) (p : Program) {m n : Machine σ}
    (h : plainPairing.Ended m n) :
    plainPairing.Moments p (Halted.moment setup ⟨.finished .normal, 0, m⟩)
      (Halted.moment setup ⟨.finished .normal, 0, n⟩) := by
  have depth : n.calls.length = m.calls.length := by
    have calls := congrArg (List.length ∘ Machine.calls) h
    simpa [Machine.plain] using calls
  simp only [Halted.moment, Execution.settle, close_silent hh]
  cases ha : m.calls with
  | nil =>
    rw [ha, List.length_nil, List.length_eq_zero_iff] at depth
    rw [depth]
    exact .drained h
  | cons a as =>
    cases hb : n.calls with
    | nil => rw [ha, hb] at depth; cases depth
    | cons b bs => exact .completed (nearlyPlain_left h ha hb)

theorem plain_lockstep (setup : Setup σ) (hh : setup.services.hooks = []) (hr : setup.services.rules = [])
    (host : Wait σ → World σ → World σ) (p : Program) :
    plainPairing.Lockstep setup setup host p where
  budget := rfl
  start {m n} h := by
    -- The places that the two machines reached last differ until the first statement begins.
    obtain ⟨world, globals, forced⟩ := h
    rw [openModule_silent hh, openModule_silent hh]
    refine .ok ⟨globals, fun c hc => .inr ⟨opens_block hc, ?_⟩⟩
    simp only [Machine.NearlyPlain, Machine.plain, world, globals, forced]
    rfl
  step h := plain_step hr h
  wake {w r m n} h := by
    have world : n.world = m.world := likeness_plain.world h
    have awake : Machine.plain { n with world := host w n.world } =
        Machine.plain { m with world := host w m.world } := by
      rw [world]
      exact likeness_plain.setWorld h _
    cases r with
    | task t =>
      exact (agree_begin hr t _ _ awake).mono (fun _ _ _ h => .inl h) (fun _ _ _ h => h) fun _ _ h => h
    | waited name loc k =>
      simp only [Resumption.control, emit_silent hh]
      exact .ok (.inl awake)
  current h := likeness_plain.current h
  report h f := by
    rw [report_silent hh, report_silent hh]
    exact ⟨errorOf_plain h f, nearlyPlain_of_plain h⟩
  close h := plain_close hh p h

end Silent

def Status.unstamped : Status σ → Status σ
  | failed e => failed e.unstamped
  | s => s

/-- What a host sees of a moment: the answer up to the step of an error, the world and the
globals. -/
def Moment.sight (x : Moment σ) : Option (Except String (Status σ)) × World σ × ScopeId :=
  (x.answer.map (·.map Status.unstamped), x.machine.world, x.machine.globals)

theorem sight_eq {a b : Option (Except String (Status σ))} {x y : Execution σ} {m n : Machine σ}
    (ha : a.map (·.map Status.unstamped) = b.map (·.map Status.unstamped)) (h : m.NearlyPlain n) :
    Moment.sight ⟨a, x, m⟩ = Moment.sight ⟨b, y, n⟩ := by
  have world : n.world = m.world := (congrArg Machine.world h :)
  have globals : n.globals = m.globals := (congrArg Machine.globals h :)
  rw [Moment.sight, Moment.sight, ha, world, globals]

theorem moments_sight {p : Program} {x y : Moment σ} (h : plainPairing.Moments p x y) :
    x.sight = y.sight ∧ x.isRunning = y.isRunning := by
  cases h with
  | fresh h => rw [Moment.sight, Moment.sight, h.1, h.2.1]; exact ⟨rfl, rfl⟩
  | running h => exact ⟨sight_eq rfl (h.elim nearlyPlain_of_plain And.right), rfl⟩
  | paused h => exact ⟨sight_eq rfl (nearlyPlain_of_plain h), rfl⟩
  | completed h | drained h => exact ⟨sight_eq rfl h, rfl⟩
  | @failed e d m n he h =>
    have same : d.unstamped = e.unstamped := he
    refine ⟨sight_eq ?_ h, rfl⟩
    simp only [Option.map_some, Except.map, Status.unstamped, same]

theorem course_plain {setup : Setup σ} (hh : setup.services.hooks = [])
    (hr : setup.services.rules = []) (host : Wait σ → World σ → World σ) (p : Program)
    {m n : Machine σ} (hm : plainPairing.Start m n) (a b : Nat) (k : Nat) :
    plainPairing.Moments p (Interpreter.course ⟨setup, m, a⟩ host p k)
      (Interpreter.course ⟨setup, n, b⟩ host p k) := by
  have lockstep := plain_lockstep (setup.withBudget 1) hh hr host p
  induction k with
  | zero => exact .fresh hm
  | succ k ih =>
    simp only [Interpreter.course, Function.iterate_succ_apply'] at ih ⊢
    rcases lockstep.resume ih 0 with ⟨together, -⟩ | ⟨f, m, parted, -⟩
    · exact together
    · exact parted.elim

theorem respects_globals (setup : Setup σ) :
    setup.RespectsRuns fun m n => n.globals = m.globals where
  refl _ := rfl
  trans h₁ h₂ := h₂.trans h₁
  world _ _ _ := rfl
  current _ _ := rfl
  forced _ _ := rfl
  record _ _ := rfl
  enter _ _ _ _ _ := rfl
  exit _ _ _ _ := rfl
  start _ := rfl
  stop _ _ _ _ := rfl

/-- A program on an interpreter on which another has run, however far, shows and ends as on a fresh
one that is given the world of the first run and the names that it has declared global. -/
theorem reuse_agrees {services : Services σ} {print : String → σ → σ} {budget : Int}
    {verbose : Bool} {world : World σ} {i : Interpreter σ}
    (h : Interpreter.create services print budget verbose world = .ok i)
    (hh : services.hooks = []) (hr : services.rules = []) (host : Wait σ → World σ → World σ)
    (p₁ p₂ : Program) (n count : Nat) :
    let m := (i.run host p₁ n).machine
    let reused := Interpreter.run ⟨i.setup, m, count⟩ host p₂
    let fresh := Interpreter.run
      ⟨i.setup, { i.machine with world := m.world, forced := m.forced }, i.count⟩ host p₂
    (∀ k, ∃ j, (Moment.shown reused k).map Moment.sight = (Moment.shown fresh j).map Moment.sight) ∧
    (∀ k, ∃ j, (Moment.shown fresh k).map Moment.sight = (Moment.shown reused j).map Moment.sight) ∧
    (∀ k, (reused k).isTerminal = true → ∃ j, (fresh j).sight = (reused k).sight) ∧
    ∀ k, (fresh k).isTerminal = true → ∃ j, (reused j).sight = (fresh k).sight := by
  intro m reused fresh
  have setup : i.setup.services = services := by rw [Interpreter.create_eq h]
  have globals : m.globals = i.machine.globals :=
    Interpreter.run_machine (respects_globals i.setup) (fun _ _ => rfl) p₁ n
  have start : plainPairing.Start m { i.machine with world := m.world, forced := m.forced } :=
    ⟨rfl, globals.symm, rfl⟩
  have course := course_plain (setup ▸ hh) (setup ▸ hr) host p₂ start count i.count
  have sight (k : Nat) := (moments_sight (course k)).1
  have running (k : Nat) := (moments_sight (course k)).2
  have slices₁ : Slices _ reused := course_slices ⟨i.setup, m, count⟩ host p₂
  have slices₂ : Slices _ fresh := course_slices _ host p₂
  refine ⟨slices₁.shown_alike slices₂ sight running,
    slices₂.shown_alike slices₁ (fun k => (sight k).symm) (fun k => (running k).symm), ?_, ?_⟩
  · intro k hk
    exact slices₁.moment_alike slices₂ sight running k (isRunning_of_isTerminal hk)
  · intro k hk
    exact slices₂.moment_alike slices₁ (fun k => (sight k).symm) (fun k => (running k).symm) k
      (isRunning_of_isTerminal hk)

def declarer : Program :=
  let here : Location := ⟨"declarer", 1, 1, ""⟩
  ⟨here, [.global_ here ["x"]]⟩

theorem reuse_agrees_declaring : ∃ i : Interpreter (List String),
    Interpreter.create .empty (scribe 1).print 1 true ⟨.empty, []⟩ = .ok i ∧
    let m := (i.run (fun _ w => w) declarer 2).machine
    let reused := Interpreter.run ⟨i.setup, m, 1⟩ (fun _ w => w) sleeper
    let fresh := Interpreter.run
      ⟨i.setup, { i.machine with world := m.world, forced := m.forced }, i.count⟩
      (fun _ w => w) sleeper
    ∀ k, ∃ j, (Moment.shown reused k).map Moment.sight =
      (Moment.shown fresh j).map Moment.sight := by
  obtain ⟨i, h⟩ : ∃ i, Interpreter.create .empty (scribe 1).print 1 true ⟨.empty, []⟩ = .ok i :=
    ⟨_, rfl⟩
  exact ⟨i, h, (reuse_agrees h rfl rfl (fun _ w => w) declarer sleeper 2 1).1⟩

end LoopScript
