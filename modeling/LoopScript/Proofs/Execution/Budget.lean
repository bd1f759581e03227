import LoopScript.Proofs.Execution.Slices

/-!
The budget decides only where a run is cut into slices: of what it does, and of how it ends,
nothing depends on it.
-/

namespace LoopScript

variable {σ : Type}

/-- The moment after one more instruction. -/
def Moment.next (setup : Setup σ) (host : Wait σ → World σ → World σ) (x : Moment σ) : Moment σ :=
  (x.resume (setup.withBudget 1) host 0).1

section Instructions

variable (setup : Setup σ) (host : Wait σ → World σ → World σ)

theorem begin_withBudget (b : Nat) (t : Task) :
    Act.begin (setup.withBudget b) t = Act.begin setup t := rfl

theorem advance_withBudget (b : Nat) (v : Move) :
    Act.advance (setup.withBudget b) v = Act.advance setup v := rfl

theorem emit_withBudget (b : Nat) (e : Event σ) :
    Act.emit (setup.withBudget b) e = Act.emit setup e := rfl

theorem openModule_withBudget (b : Nat) (p : Program) :
    Execution.openModule (setup.withBudget b) p = Execution.openModule setup p := rfl

theorem run_task (t : Task) (count : Nat) (m : Machine σ) :
    run (setup.withBudget 1) count (.task t) m = ⟨.pause none (.task t), 0, m⟩ := by
  rw [run, dif_neg]
  simp [Setup.withBudget]

theorem run_move (v : Move) (count : Nat) (m : Machine σ) :
    run setup count (.move v) m =
      match Act.advance setup v m with
      | .ok (.go c) n => run setup count c n
      | .ok (.pause w r) n => ⟨.pause (some w) r, 0, n⟩
      | .ok (.finished f) n => ⟨.finished f, count, n⟩
      | .error f n => ⟨.failed f, count, n⟩ := by
  rw [run]
  split <;> simp_all

def Moment.Leads (x y : Moment σ) : Prop :=
  ∃ k, (Moment.next setup host)^[k] x = y ∧
    ∀ j < k, ((Moment.next setup host)^[j] x).isRunning = true

variable {setup host}

theorem Moment.Leads.refl (x : Moment σ) : Moment.Leads setup host x x :=
  ⟨0, rfl, fun _ h => absurd h (Nat.not_lt_zero _)⟩

theorem Moment.Leads.cons {x y : Moment σ} (hx : x.isRunning = true)
    (h : Moment.Leads setup host (x.next setup host) y) : Moment.Leads setup host x y := by
  obtain ⟨k, hk, hr⟩ := h
  refine ⟨k + 1, hk, fun j hj => ?_⟩
  cases j with
  | zero => exact hx
  | succ j => exact hr j (Nat.lt_of_succ_lt_succ hj)

theorem next_task (t : Task) (m : Machine σ) :
    (Halted.moment setup ⟨.pause none (.task t), 0, m⟩).next setup host =
      (resumeFrom (setup.withBudget 1) 0 (.task t) m).moment setup := rfl

theorem run_leads (count : Nat) (c : Control) (m : Machine σ) :
    Moment.Leads setup host ((run (setup.withBudget 1) 0 c m).moment setup)
      ((run setup count c m).moment setup) := by
  -- the induction is on the run under the larger budget: each task that it begins is one pause of
  -- the run by single instructions
  fun_induction run setup count c m with
  | case1 count m t hb c' m' e ih =>
    rw [run_task]
    refine .cons rfl ?_
    rw [next_task]
    simpa only [resumeFrom, begin_withBudget, e] using ih
  | case2 count m t hb f m' e =>
    rw [run_task]
    refine .cons rfl ?_
    rw [next_task]
    simp only [resumeFrom, begin_withBudget, e]
    exact .refl _
  | case3 count m t hb =>
    rw [run_task]
    exact .refl _
  | case4 count m v c' m' e ih =>
    rw [run_move, advance_withBudget, e]
    exact ih
  | case5 count m v w r m' e | case6 count m v f m' e | case7 count m v f m' e =>
    rw [run_move, advance_withBudget, e]
    exact .refl _

theorem resumeFrom_leads (count : Nat) (r : Resumption) (m : Machine σ) :
    Moment.Leads setup host ((resumeFrom (setup.withBudget 1) 0 r m).moment setup)
      ((resumeFrom setup count r m).moment setup) := by
  cases r with
  | task t =>
    simp only [resumeFrom, begin_withBudget]
    split
    · exact run_leads _ _ _
    · exact .refl _
  | waited name loc k =>
    simp only [resumeFrom, emit_withBudget]
    split
    · exact run_leads _ _ _
    · exact .refl _

theorem proceed_leads (count : Nat) (m : Machine σ) (origin : Program ⊕ Resumption) :
    Moment.Leads setup host
      ((Execution.proceed (setup.withBudget 1) 0 m origin).moment setup)
      ((Execution.proceed setup count m origin).moment setup) := by
  cases origin with
  | inl p =>
    simp only [Execution.proceed, openModule_withBudget]
    split
    · exact .refl _
    · split
      · exact run_leads _ _ _
      · exact .refl _
  | inr r => exact resumeFrom_leads count r m

theorem resume_leads (x : Moment σ) (count : Nat) :
    Moment.Leads setup host (x.next setup host) (x.resume setup host count).1 := by
  obtain ⟨answer, execution, machine⟩ := x
  cases execution with
  | fresh p => exact proceed_leads count _ (.inl p)
  | suspended r => exact proceed_leads count _ (.inr r)
  | drained | ended s => exact .refl _

end Instructions

/-- The course of a program: its moments when every instruction is a slice of its own. -/
def Interpreter.course (i : Interpreter σ) (host : Wait σ → World σ → World σ) (p : Program)
    (n : Nat) : Moment σ :=
  (Moment.next i.setup host)^[n] ⟨none, .fresh p, i.machine⟩

theorem course_slices (i : Interpreter σ) (host : Wait σ → World σ → World σ) (p : Program) :
    Slices (i.course host p) (i.run host p) := by
  change Slices (fun k => (Moment.next i.setup host)^[k] (i.run host p 0)) (i.run host p)
  apply Slices.of_steps
  intro n
  obtain ⟨count, last⟩ := i.run_succ host p n
  obtain ⟨k, hk, hr⟩ := @resume_leads _ i.setup host (i.run host p n) count
  exact ⟨k, hk.trans last.symm, hr⟩

theorem course_withBudget (i : Interpreter σ) (b count : Nat) (host : Wait σ → World σ → World σ)
    (p : Program) :
    Interpreter.course ⟨i.setup.withBudget b, i.machine, count⟩ host p = i.course host p := rfl

theorem touches_withBudget {setup : Setup σ} {b : Nat} {w w' : World σ}
    (h : (setup.withBudget b).Touches w w') : setup.Touches w w' := by
  cases h with
  | store s => exact .store w s
  | print line => exact .print w line
  | hook h e hh => exact .hook w h e hh
  | rule r c hr => exact .rule w r c hr
  | reply b f c name hb hf => exact .reply w b f c name hb hf
  | finish b f v loc name hb hf => exact .finish w b f v loc name hb hf

/-- A record that a host keeps and only ever adds to. -/
def Setup.Extends {α : Type} (setup : Setup σ) (seen : σ → List α) : Prop :=
  ∀ w w' : World σ, setup.Touches w w' → seen w.host <+: seen w'.host

theorem respects_history (setup : Setup σ) :
    setup.RespectsRuns fun m n => m.log.history.toList <+: n.log.history.toList where
  refl _ := List.prefix_rfl
  trans h₁ h₂ := h₁.trans h₂
  world _ _ _ := List.prefix_rfl
  current _ _ := List.prefix_rfl
  forced _ _ := List.prefix_rfl
  record m e := by
    simp only [StepLog.record]
    split <;> simp
  enter _ _ _ _ _ := List.prefix_rfl
  exit _ _ _ _ := List.prefix_rfl
  start _ := List.prefix_rfl
  stop _ _ _ _ := List.prefix_rfl

theorem respects_seen {α : Type} {setup : Setup σ} {seen : σ → List α} (hs : setup.Extends seen) :
    setup.RespectsRuns fun m n => seen m.world.host <+: seen n.world.host where
  refl _ := List.prefix_rfl
  trans h₁ h₂ := h₁.trans h₂
  world _ _ h := hs _ _ h
  current _ _ := List.prefix_rfl
  forced _ _ := List.prefix_rfl
  record _ _ := List.prefix_rfl
  enter _ _ _ _ _ := List.prefix_rfl
  exit _ _ _ _ := List.prefix_rfl
  start _ := List.prefix_rfl
  stop _ _ _ _ := List.prefix_rfl

theorem course_respects {R : Machine σ → Machine σ → Prop} {i : Interpreter σ}
    {host : Wait σ → World σ → World σ} (hR : (i.setup.withBudget 1).RespectsRuns R)
    (hh : ∀ w m, R m { m with world := host w m.world }) (p : Program) (n : Nat) :
    R (i.course host p n).machine (i.course host p (n + 1)).machine := by
  have next : i.course host p (n + 1) = (i.course host p n).next i.setup host := by
    simp only [Interpreter.course, Function.iterate_succ_apply']
  rw [next]
  exact Moment.resume_respects hR hh _ 0

theorem create_withBudget {services : Services σ} {print : String → σ → σ} {b₁ b₂ : Int}
    {verbose : Bool} {world : World σ} {i₁ i₂ : Interpreter σ}
    (h₁ : Interpreter.create services print b₁ verbose world = .ok i₁)
    (h₂ : Interpreter.create services print b₂ verbose world = .ok i₂) :
    i₂ = ⟨i₁.setup.withBudget b₂.toNat, i₁.machine, 0⟩ := by
  rw [Interpreter.create_eq h₁, Interpreter.create_eq h₂]
  rfl

theorem isRunning_of_isTerminal {x : Moment σ} (h : x.isTerminal = true) : x.isRunning = false := by
  unfold Moment.isTerminal at h
  unfold Moment.isRunning
  split <;> simp_all [Status.terminal]

/-- Two interpreters that differ only in their budgets run a program alike. Both show one course,
that of single instructions, but for pauses for the budget; what one shows and how it ends the other
shows and ends, too; and the log of one, like any record that the host keeps of lines and events, is
a beginning of what the other comes to. -/
theorem runs_agree {services : Services σ} {print : String → σ → σ} {b₁ b₂ : Int} {verbose : Bool}
    {world : World σ} {i₁ i₂ : Interpreter σ}
    (h₁ : Interpreter.create services print b₁ verbose world = .ok i₁)
    (h₂ : Interpreter.create services print b₂ verbose world = .ok i₂)
    (host : Wait σ → World σ → World σ) (p : Program) :
    (Slices (i₁.course host p) (i₁.run host p) ∧ Slices (i₁.course host p) (i₂.run host p)) ∧
    (∀ n, ∃ k, Moment.shown (i₁.run host p) n = Moment.shown (i₂.run host p) k) ∧
    (∀ n, (i₁.run host p n).isTerminal = true → ∃ k, i₂.run host p k = i₁.run host p n) ∧
    (∀ n, ∃ k, (i₁.run host p n).machine.log.history.toList <+:
      (i₂.run host p k).machine.log.history.toList) ∧
    ∀ {α : Type} (seen : σ → List α), i₁.setup.Extends seen →
      (∀ w x, seen x.host <+: seen (host w x).host) →
      ∀ n, ∃ k, seen (i₁.run host p n).machine.world.host <+:
        seen (i₂.run host p k).machine.world.host := by
  have slices₁ := course_slices i₁ host p
  have slices₂ : Slices (i₁.course host p) (i₂.run host p) := by
    rw [create_withBudget h₁ h₂, ← course_withBudget i₁ b₂.toNat 0]
    exact course_slices _ host p
  refine ⟨⟨slices₁, slices₂⟩, slices₁.shown_agree slices₂, ?_, ?_, ?_⟩
  · intro n hn
    exact slices₁.moment_agree slices₂ n (isRunning_of_isTerminal hn)
  · refine slices₁.leads slices₂
      (R := fun m n => m.log.history.toList <+: n.log.history.toList)
      (fun _ => List.prefix_rfl) List.IsPrefix.trans fun k => ?_
    exact course_respects (respects_history _) (fun _ _ => List.prefix_rfl) p k
  · intro α seen hseen hhost
    refine slices₁.leads slices₂ (R := fun m n => seen m.world.host <+: seen n.world.host)
      (fun _ => List.prefix_rfl) List.IsPrefix.trans fun k => ?_
    refine course_respects (respects_seen fun w w' h => ?_) (fun w m => hhost w _) p k
    exact hseen w w' (touches_withBudget h)

def sleeper : Program :=
  let here : Location := ⟨"sleeper", 1, 1, ""⟩
  let call (name : String) (e : Expr) : Stmt := .expr here (.call here (.name here name) [e] [])
  ⟨here, [.loop here (.literal here (.bool true)) [
    call "print" (.literal here (.str "zz")), call "sleep" (.literal here (.num 1.0))]]⟩

def scribe (budget : Nat) : Setup (List String) :=
  ⟨.empty, fun line lines => lines ++ [line], budget, true⟩

theorem scribe_extends (budget : Nat) : (scribe budget).Extends id := by
  have core {name : String} {b : Builtin (List String)}
      (hb : (scribe budget).builtin? name = some b) : ∃ f, b.action = .core f := by
    have found : coreBuiltins.get? name = some b := by
      simpa [Setup.builtin?, scribe, Services.empty, Table.get?] using hb
    exact action_of_coreBuiltins found
  intro w w' h
  cases h with
  | store s => exact List.prefix_rfl
  | print line => exact List.prefix_append _ _
  | hook h e hh => cases hh
  | rule r c hr => cases hr
  | reply b f c name hb hf =>
    obtain ⟨g, hg⟩ := core hb
    cases hf.symm.trans hg
  | finish b f v loc name hb hf =>
    obtain ⟨g, hg⟩ := core hb
    cases hf.symm.trans hg

theorem runs_agree_sleeping : ∃ i₁ i₂ : Interpreter (List String),
    Interpreter.create .empty (scribe 1).print 1 true ⟨.empty, []⟩ = .ok i₁ ∧
    Interpreter.create .empty (scribe 1).print 100 true ⟨.empty, []⟩ = .ok i₂ ∧
    (∀ n, ∃ k, Moment.shown (i₁.run (fun _ w => w) sleeper) n =
      Moment.shown (i₂.run (fun _ w => w) sleeper) k) ∧
    ∀ n, ∃ k, (i₁.run (fun _ w => w) sleeper n).machine.world.host <+:
      (i₂.run (fun _ w => w) sleeper k).machine.world.host := by
  obtain ⟨i₁, h₁, hs⟩ : ∃ i,
      Interpreter.create .empty (scribe 1).print 1 true ⟨.empty, []⟩ = .ok i ∧
      i.setup = scribe 1 := ⟨_, rfl, rfl⟩
  obtain ⟨i₂, h₂⟩ : ∃ i, Interpreter.create .empty (scribe 1).print 100 true ⟨.empty, []⟩ = .ok i :=
    ⟨_, rfl⟩
  obtain ⟨-, shown, -, -, seen⟩ := runs_agree h₁ h₂ (fun _ w => w) sleeper
  refine ⟨i₁, i₂, h₁, h₂, shown, seen id ?_ fun _ _ => List.prefix_rfl⟩
  rw [hs]
  exact scribe_extends 1

end LoopScript
