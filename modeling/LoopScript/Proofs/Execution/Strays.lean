import LoopScript.Proofs.Execution.Budget
import LoopScript.Proofs.Execution.Failures
import LoopScript.Proofs.Execution.Obedience
import LoopScript.Proofs.Execution.Trace
import LoopScript.Proofs.Machine.Policy
import LoopScript.Proofs.Program.Spelling

/-!
Statements that leave a loop or a function where there is none: a run that executes one fails there,
and no other run fails for that reason. The controls that a run comes to lie on its way. The policy that
shows it keeps a machine to the code of one program: each statement stands where it does in the program,
and no other statement is met.
-/

namespace LoopScript

variable {σ : Type}

section Placement

variable (p : Program)

/-- The faults of a program: errors of other rules than those of stray statements, and these where a
statement is misplaced. -/
inductive Fault.From : Fault → Prop where
  | clear {f : Fault} (h : f.Clear p.Spells) : From f
  | stray {looped inside : Bool} {s : Stmt} {f : Flow} (hs : p.Has looped inside s)
      (hm : s.mayStand looped inside = false) (hf : s.Gives f) (loc : Option Location) :
      From (Act.stray f loc)

theorem Fault.From.attach {p : Program} {f : Fault} (h : f.From p) (loc : Location) :
    (f.attach (some loc)).From p := by
  cases h with
  | clear h => exact .clear (h.attach _)
  | @stray _ _ _ f hs hm hf place =>
    cases place with
    | none => exact .stray hs hm hf (some loc)
    | some place => exact .stray hs hm hf (some place)

def Program.policy : Policy where
  stmt := p.Has
  expr := p.Says
  name := p.Spells
  names _ := True
  waits op := p.Spells op.text
  joins op := p.Spells op.text
  signs op := p.Spells op.text
  word := p.Spells
  fault f := f.From p
  part hs he := .part hs he
  inner he hf := .inner he hf
  branch h hs := by
    rcases hs with hs | ⟨ss, rfl, hs⟩
    · exact .branch h hs
    · exact .otherwise h hs
  loop h hs := .loop h hs
  each h hs := .each h hs
  function h := ⟨.inl ⟨_, _, _, h, List.mem_cons_self⟩, trivial, fun _ hs => .function h hs⟩
  class_ h := by
    refine ⟨.inl ⟨_, _, _, h, List.mem_cons_self⟩, fun d hd => ⟨?_, trivial, ?_⟩⟩
    · exact .inl ⟨_, _, _, h, List.mem_cons_of_mem _ (List.mem_map_of_mem hd)⟩
    · exact fun _ hs => .method h hd hs
  call _ := trivial
  no_names := trivial
  fewer _ _ := trivial
  assign h b hb := by
    refine .inl ⟨_, _, _, h, List.mem_map_of_mem (f := BinaryOp.text) ?_⟩
    exact Option.mem_toList.mpr hb
  binary h := .inr ⟨_, h, List.mem_cons_self⟩
  unary h := .inr ⟨_, h, List.mem_cons_self⟩
  joined h _ _ := h
  word_name h := h
  word_joins h := h
  word_signs h := h
  ruled h := .clear h.clear
  attach h loc := h.attach loc
  unjoined _ _ loc := .clear (Fault.clear_unruled rfl loc)
  unsigned _ _ loc := .clear (Fault.clear_unruled rfl loc)
  stray hs hm hf loc := .stray hs hm hf loc

end Placement

namespace Interpreter

variable {i : Interpreter σ} {host : Wait σ → World σ → World σ} {p : Program}

/-- A run goes through every control that it comes to, with some part of the budget spent. -/
theorem comes_run {c : Control} {m : Machine σ} (h : i.Comes host p c m) :
    ∃ n count, (fun x : Moment σ × Nat => x.1.resume i.setup host x.2)^[n]
      (⟨none, .fresh p, i.machine⟩, i.count) =
      ((LoopScript.run i.setup count c m).moment i.setup, (LoopScript.run i.setup count c m).count) := by
  induction h with
  | @start c m ho hc =>
    refine ⟨1, i.count, ?_⟩
    simp only [Function.iterate_one, Moment.resume, Execution.resume, Execution.advance,
      Execution.proceed, Moment.answered, ho]
    cases hp : p.statements with
    | nil =>
      rw [hp] at hc
      cases hc
      rw [run_move]
      rfl
    | cons s ss =>
      rw [hp] at hc
      cases hc
      rfl
  | @step c c' m m' h hc ih =>
    obtain ⟨n, count, ih⟩ := ih
    cases c with
    | task t =>
      rw [step_task] at hc
      cases hb : Act.begin i.setup t m with
      | error f m' => simp [hb] at hc
      | ok d m' =>
        rw [hb] at hc
        cases hc
        by_cases budget : count + 1 < i.setup.budget
        · refine ⟨n, count + 1, ?_⟩
          rw [ih, LoopScript.run, dif_pos budget, hb]
        · refine ⟨n + 1, 0, ?_⟩
          rw [Function.iterate_succ_apply', ih, LoopScript.run, dif_neg budget]
          simp only [Halted.moment, Execution.settle, Moment.resume, Moment.answered,
            Execution.resume, Execution.advance, Execution.proceed, resumeFrom, hb]
    | move v =>
      refine ⟨n, count, ?_⟩
      have hc : Act.advance i.setup v m = .ok (.go c') m' := hc
      rw [ih, run_move, hc]
  | @wait c c' m m' n' w r h hc hr ih =>
    obtain ⟨n, count, ih⟩ := ih
    refine ⟨n + 1, 0, ?_⟩
    cases c with
    | task t =>
      rw [step_task] at hc
      cases hb : Act.begin i.setup t m <;> simp [hb] at hc
    | move v =>
      have hc : Act.advance i.setup v m = .ok (.pause w r) m' := hc
      rw [Function.iterate_succ_apply', ih, run_move, hc]
      simp only [Halted.moment, Execution.settle, Moment.resume, Moment.answered,
        Execution.resume, Execution.advance, Execution.proceed, resumeFrom_eq, hr]

end Interpreter

namespace Flow

/-- Whether there is something to leave. -/
def mayReach (looped inside : Bool) : Flow → Bool
  | normal => true
  | broken | continued => looped
  | returned _ => inside

def strayCause : Flow → Cause
  | broken => .strayBreak
  | continued => .strayContinue
  | _ => .strayReturn

theorem stray_eq (f : Flow) (loc : Option Location) :
    Act.stray f loc = .error ⟨f.strayCause, loc, none⟩ := by
  cases f <;> rfl

end Flow

theorem Stmt.Gives.mayReach {s : Stmt} {f : Flow} (h : s.Gives f) (looped inside : Bool) :
    f.mayReach looped inside = s.mayStand looped inside := by
  cases h <;> rfl

theorem errorOf_stray (m : Machine σ) (f : Flow) :
    Execution.errorOf m (Act.stray f m.current) =
      ⟨f.strayCause, m.current, m.log.last.map (·.step)⟩ := by
  rw [f.stray_eq, Execution.errorOf]
  cases m.current <;> cases m.log.last <;> rfl

section Unwinding

variable (setup : Setup σ) (count : Nat) (m : Machine σ)

/-- What finds nothing to leave is handed on, through blocks and the loops of a function that returns,
up to the end of the body. -/
theorem run_stray : (f : Flow) → (k : Context .flow) → f.mayReach k.looped k.inside = false →
    ∃ halt, run setup count (.move (.give (a := .flow) f k)) m = ⟨halt, count, m⟩ ∧
      (halt = .finished f ∨ halt = .failed (Act.stray f m.current))
  | f, .program, _ => ⟨.finished f, by rw [run_move]; rfl, .inl rfl⟩
  | f, .fill (.rest ss scope) k, h => by
    have handed : Act.advance setup (.give (a := .flow) f (.fill (.rest ss scope) k)) m =
        .ok (.go (.move (.give (a := .flow) f k))) m := by
      cases ss with
      | nil => rfl
      | cons s ss =>
        cases f with
        | normal => cases h
        | broken | continued | returned v => rfl
    rw [run_move, handed]
    exact run_stray f k h
  | f, .fill (.loopBody test body scope) k, h => by
    cases f with
    | normal | broken | continued => cases h
    | returned v =>
      rw [run_move]
      exact run_stray (.returned v) k h
  | f, .fill (.eachBody item todo body scope) k, h => by
    cases f with
    | normal | broken | continued => cases h
    | returned v =>
      rw [run_move]
      exact run_stray (.returned v) k h
  | f, .fill (.body name loc) k, h => by
    cases f with
    | normal | returned v => cases h
    | broken | continued => exact ⟨_, by rw [run_move]; rfl, .inr rfl⟩

end Unwinding

namespace Interpreter

variable {i : Interpreter σ} {host : Wait σ → World σ → World σ} {p : Program}

/-- A run fails with an error, and leaves a machine as it was. -/
def FailsWith (i : Interpreter σ) (host : Wait σ → World σ → World σ) (p : Program)
    (e : RuntimeError) (m : Machine σ) : Prop :=
  ∃ n, (i.run host p n).execution = .ended (.failed e) ∧ (i.run host p n).machine = m

theorem failsWith_stray (hooks : i.setup.services.hooks = []) {f : Flow} {k : Context .flow}
    {m : Machine σ} (h : i.Comes host p (.move (.give (a := .flow) f k)) m)
    (hf : f.mayReach k.looped k.inside = false) :
    i.FailsWith host p ⟨f.strayCause, m.current, m.log.last.map (·.step)⟩ m := by
  obtain ⟨n, count, hn⟩ := comes_run h
  obtain ⟨halt, hrun, hhalt⟩ := run_stray i.setup count m f k hf
  refine ⟨n, ?_⟩
  rw [Interpreter.run, hn, hrun]
  -- Both ends of the unwinding are reported alike.
  have settled : Execution.settle i.setup halt m =
      (.ok (.failed (Execution.errorOf m (Act.stray f m.current))),
        .ended (.failed (Execution.errorOf m (Act.stray f m.current))), m) := by
    rcases hhalt with rfl | rfl
    · cases f with
      | normal => cases hf
      | broken | continued | returned v => simp only [Execution.settle, report_silent hooks]
    · simp only [Execution.settle, report_silent hooks]
  simp only [Halted.moment, settled, errorOf_stray, and_self]

section Places

/-- A run that begins with code of its program only, and whose host adds no other. -/
structure Obedient (i : Interpreter σ) (host : Wait σ → World σ → World σ) (p : Program) : Prop where
  services : i.setup.services = .empty
  store : i.machine.world.store.Under p.policy
  host : ∀ w u, u.store.Under p.policy → (host w u).store.Under p.policy

variable (h : Obedient i host p)

include h

theorem Obedient.hosts : p.policy.Hosts i.setup := Policy.hosts_of_empty h.services

theorem Obedient.control {w : Wait σ} {r : Resumption} {m : Machine σ}
    (hm : m.world.store.Under p.policy) (hr : r.Under p.policy) :
    Act.Ensures (r.control i.setup) { m with world := host w m.world }
      (fun c n => n.world.store.Under p.policy ∧ c.Under p.policy)
      fun f n => n.world.store.Under p.policy ∧ f.From p :=
  Act.obeys_control h.hosts hr _ (h.host w m.world hm)

theorem Obedient.comes {c : Control} {m : Machine σ} (hc : i.Comes host p c m) :
    m.world.store.Under p.policy ∧ c.Under p.policy :=
  comes_under h.hosts h.store h.host (fun _ hs => .top hs) hc

/-- The statement that a run executes stands in the program as its context says. -/
theorem Obedient.has {s : Stmt} {scope : ScopeId} {k : Context .flow} {m : Machine σ}
    (hc : i.Comes host p (.task (.exec s scope k)) m) : p.Has k.looped k.inside s :=
  (h.comes hc).2.1

theorem Obedient.fails {f : Fault} {count : Nat} {m : Machine σ}
    (hf : i.Halts host p ⟨.failed f, count, m⟩) : f.From p := by
  cases hf with
  | start ho =>
    rw [openModule_silent (Setup.hooks_of_empty h.services)] at ho
    cases ho
  | step hf =>
    obtain ⟨c, n, hc, hs⟩ := hf
    have come := h.comes hc
    exact (Act.ensures_of_error (Act.obeys_step h.hosts come.2 _ come.1) hs).2
  | wait hc hs hr =>
    have come := h.comes hc
    have paused := Act.ensures_of_ok (Act.obeys_step h.hosts come.2 _ come.1) hs
    exact (Act.ensures_of_error (h.control paused.1 paused.2) hr).2

theorem Obedient.finishes {f : Flow} {count : Nat} {m : Machine σ}
    (hf : i.Halts host p ⟨.finished f, count, m⟩) : f.Under p.policy false false := by
  cases hf with
  | step hf =>
    obtain ⟨c, n, hc, hs⟩ := hf
    have come := h.comes hc
    exact (Act.ensures_of_ok (Act.obeys_step h.hosts come.2 _ come.1) hs).2

/-- A failed run has an error of the program. -/
theorem Obedient.run_failed {n : Nat} {e : RuntimeError}
    (he : (i.run host p n).execution = .ended (.failed e)) :
    ∃ (f : Fault) (m : Machine σ), f.From p ∧ e = Execution.errorOf m f := by
  obtain ⟨halt, count, f, halts, rfl, how⟩ := halts_of_failed (Setup.hooks_of_empty h.services) he
  refine ⟨f, _, ?_, rfl⟩
  rcases how with rfl | ⟨x, rfl, hx, rfl⟩
  · exact h.fails halts
  · exact (h.finishes halts).stray hx _

end Places

end Interpreter

theorem clear_errorOf {N : String → Prop} (m : Machine σ) {f : Fault} (h : f.Clear N) :
    (Execution.errorOf m f).cause.Clear N := by
  have fixed {c : Cause} {rule : String} (hc : c.rule = some rule) (hr : rule ∉ flowWords) :
      c.Clear N := by
    intro word hw hword
    cases hc.symm.trans hw
    exact absurd hword hr
  unfold Execution.errorOf
  cases f with
  | error e =>
    have placed : (e.attach m.current).cause.Clear N := e.attach_cause _ ▸ h e rfl
    cases m.log.last <;> exact placed
  | endless => cases m.log.last <;> exact fixed rfl (by decide)
  | foreign text => cases m.log.last <;> exact fixed rfl (by decide)

/-- How a statement ends that leaves a loop or a function with nothing to evaluate. -/
def Stmt.leaves? : Stmt → Option Flow
  | break_ _ => some .broken
  | continue_ _ => some .continued
  | return_ _ none => some (.returned .none)
  | _ => none

theorem Stmt.gives_of_leaves? {s : Stmt} {f : Flow} (h : s.leaves? = some f) : s.Gives f := by
  cases s with
  | break_ loc => cases h; exact .broken loc
  | continue_ loc => cases h; exact .continued loc
  | return_ loc e =>
    cases e with
    | none => cases h; exact .returned loc none _
    | some e => cases h
  | _ => cases h

theorem begin_leaving {setup : Setup σ} (hs : setup.services = .empty) {s : Stmt} {f : Flow}
    (hf : s.leaves? = some f) {scope : ScopeId} {k : Context .flow} {m n : Machine σ} {c : Control}
    (h : Act.begin setup (.exec s scope k) m = .ok c n) :
    c = .move (.give (a := .flow) f k) ∧ ∃ b, n = Machine.record setup.verbose
      { m with current := some s.location } (m.entry s.rule s.location b) := by
  have leaves (m : Machine σ) : Act.beginStatement s scope k m =
      .ok (.move (.give (a := .flow) f k)) m := by
    cases s with
    | break_ | continue_ => cases hf; rfl
    | return_ loc e =>
      cases e with
      | none => cases hf; rfl
      | some e => cases hf
    | _ => cases hf
  rw [begin_exec hs] at h
  split at h
  · next b hb =>
    rw [leaves] at h
    cases h
    exact ⟨rfl, b, rfl⟩
  · cases h

section Opening

variable {p : Program}

theorem create_obedient {print : String → σ → σ} {budget : Int} {verbose : Bool} {world : World σ}
    {i : Interpreter σ} (h : Interpreter.create .empty print budget verbose world = .ok i)
    (hw : ∀ o ∈ world.store.objects, o.isCode = false) {host : Wait σ → World σ → World σ}
    (hh : ∀ w u, ∀ o ∈ (host w u).store.objects, o.isCode = true → o ∈ u.store.objects) :
    i.Obedient host p := by
  obtain rfl := Interpreter.create_eq h
  have old : world.store.Under p.policy := fun o ho => Obj.under_of_not_isCode (hw o ho)
  refine ⟨rfl, opening_under .empty old, fun w u hu o ho => ?_⟩
  cases hc : o.isCode with
  | false => exact Obj.under_of_not_isCode hc
  | true => exact hu o (hh w u o ho hc)

end Opening

theorem Fault.From.rule_clear {p : Program} {f : Fault} (h : f.From p)
    (hp : ∀ w, p.Spells w → w ∉ flowWords) (ho : p.Orderly) (m : Machine σ) :
    ∀ w ∈ flowWords, (Execution.errorOf m f).rule ≠ some w := by
  intro w hw hr
  cases h with
  | clear h => exact hp w (clear_errorOf m h w hr hw) hw
  | stray hs hm => simp [ho _ _ _ hs] at hm

/-- Stray statements on an interpreter without extensions, with no code but that of the program. If
every statement that leaves a loop or a function stands inside one, a program that is read from a text
does not fail by the rule of such a statement. And in any program a run that executes one that stands
nowhere inside one fails there, with nothing else done: the calls in progress and the world are left
as they were. -/
theorem strays_caught {print : String → σ → σ} {budget : Int} {verbose : Bool} {world : World σ}
    {i : Interpreter σ} (h : Interpreter.create .empty print budget verbose world = .ok i)
    (hw : ∀ o ∈ world.store.objects, o.isCode = false) {host : Wait σ → World σ → World σ}
    (hh : ∀ w u, ∀ o ∈ (host w u).store.objects, o.isCode = true → o ∈ u.store.objects)
    (p : Program) :
    (∀ text file, Program.ofSource text file = .ok p → p.Orderly → ∀ n e,
      (i.run host p n).execution = .ended (.failed e) → ∀ w ∈ flowWords, e.rule ≠ some w) ∧
    (∀ s f scope k m c n, p.Misplaces s → s.leaves? = some f →
      i.Comes host p (.task (.exec s scope k)) m →
      Act.begin i.setup (.exec s scope k) m = .ok c n →
      n.calls = m.calls ∧ n.world = m.world ∧
        i.FailsWith host p ⟨f.strayCause, some s.location, some m.log.next⟩ n) ∧
    (∀ loc e scope k m v n, p.Misplaces (.return_ loc (some e)) →
      i.Comes host p (.task (.exec (.return_ loc (some e)) scope k)) m →
      i.Comes host p (.move (.give (a := .value) v (.fill .leave k))) n →
      i.FailsWith host p ⟨.strayReturn, n.current, n.log.last.map (·.step)⟩ n) := by
  have obedient : i.Obedient host p := create_obedient h hw hh
  have hooks := Setup.hooks_of_empty obedient.services
  refine ⟨?_, ?_, ?_⟩
  · intro text file hp ho n e he
    obtain ⟨f, m, hf, rfl⟩ := obedient.run_failed he
    exact hf.rule_clear (fun w hw => Program.spells_clear hp hw) ho m
  · intro s f scope k m c n hs hf hc hb
    have gives := Stmt.gives_of_leaves? hf
    obtain ⟨rfl, b, rfl⟩ := begin_leaving obedient.services hf hb
    have given := Interpreter.Comes.step hc (by rw [step_task, hb])
    refine ⟨rfl, rfl, Interpreter.failsWith_stray hooks given ?_⟩
    rw [gives.mayReach]
    exact hs _ _ (obedient.has hc)
  · intro loc e scope k m v n hs hc hv
    have given : i.Comes host p (.move (.give (a := .flow) (.returned v) k)) n := .step hv rfl
    refine Interpreter.failsWith_stray hooks given ?_
    rw [(Stmt.Gives.returned loc (some e) v).mayReach]
    exact hs _ _ (obedient.has hc)

def breakerLine (n : Nat) : Location := ⟨"breaker", n, 1, ""⟩

def breakerCall : Expr := .call (breakerLine 4) (.name (breakerLine 4) "f") [] []

/-- A loop around the call of a function that breaks without one. -/
def breaker : Program :=
  ⟨breakerLine 5, [.function (.mk (breakerLine 1) "f" [] [.break_ (breakerLine 2)]),
    .loop (breakerLine 3) (.literal (breakerLine 3) (.bool true)) [.expr (breakerLine 4) breakerCall]]⟩

theorem breaker_misplaces : breaker.Misplaces (.break_ (breakerLine 2)) := by
  have places {looped inside : Bool} {s : Stmt} (h : breaker.Has looped inside s) :
      s ∈ breaker.statements ∨ s = .break_ (breakerLine 2) ∧ looped = false ∨
        s = .expr (breakerLine 4) breakerCall := by
    induction h <;> simp_all [breaker, FunctionDef.body]
  intro looped inside h
  rcases places h with hs | ⟨-, rfl⟩ | hs
  · simp [breaker] at hs
  · rfl
  · cases hs

/-- The call stands in the loop when the function comes to its break. -/
theorem breaker_executes : ∃ scope k m c n,
    mute.Comes (fun _ w => w) breaker (.task (.exec (.break_ (breakerLine 2)) scope k)) m ∧
    Act.begin mute.setup (.exec (.break_ (breakerLine 2)) scope k) m = .ok c n ∧
    m.log.next = 3 ∧ m.calls.map (·.name) = ["f", "<module>"] := by
  have defining := @Interpreter.Comes.start Unit mute (fun _ w => w) breaker _ _ rfl rfl
  have defined := Interpreter.Comes.step defining (by conv_lhs => cbv)
  have looping := Interpreter.Comes.step defined rfl
  have testing := Interpreter.Comes.step looping (by conv_lhs => cbv)
  have tested := Interpreter.Comes.step testing (by conv_lhs => cbv)
  have turning := Interpreter.Comes.step tested rfl
  have calling := Interpreter.Comes.step turning (by conv_lhs => cbv)
  have naming := Interpreter.Comes.step calling (by conv_lhs => cbv)
  have named := Interpreter.Comes.step naming (by conv_lhs => cbv)
  have called := Interpreter.Comes.step named rfl
  have breaking := Interpreter.Comes.step called rfl
  exact ⟨_, _, _, _, _, breaking, rfl, rfl, rfl⟩

theorem strays_caught_breaking :
    Interpreter.create .empty (fun _ w => w) 100 false ⟨.empty, ()⟩ = .ok mute ∧
    (joiner.Orderly ∧ Program.ofSource "x = 'a' | None\n" "joiner" = .ok joiner ∧
      (mute.run (fun _ w => w) joiner 1).execution =
        .ended (.failed ⟨.operands "|" "string" "None", some (joinerPlace 9), some 0⟩) ∧
      (Cause.operands "|" "string" "None").rule ≠ some "break") ∧
    breaker.Misplaces (.break_ (breakerLine 2)) ∧ ∃ m : Machine Unit,
      m.calls.map (·.name) = ["f", "<module>"] ∧
      mute.FailsWith (fun _ w => w) breaker ⟨.strayBreak, some (breakerLine 2), some 3⟩ m := by
  have created : Interpreter.create .empty (fun _ w => w) 100 false ⟨.empty, ()⟩ = .ok mute := rfl
  have plain : ∀ o ∈ Store.empty.objects, o.isCode = false := fun o ho => by cases ho; contradiction
  have orderly : joiner.Orderly := by
    have assigns {looped inside : Bool} {s : Stmt} (h : joiner.Has looped inside s) :
        s ∈ joiner.statements := by
      induction h <;> simp_all [joiner]
    intro looped inside s hs
    obtain rfl := List.mem_singleton.mp (assigns hs)
    rfl
  have read : Program.ofSource "x = 'a' | None\n" "joiner" = .ok joiner := by cbv
  have failed : (mute.run (fun _ w => w) joiner 1).execution =
      .ended (.failed ⟨.operands "|" "string" "None", some (joinerPlace 9), some 0⟩) := by cbv
  have caught := strays_caught created plain (fun (_ : Wait Unit) (_ : World Unit) _ h _ => h)
  have kept := (caught joiner).1 _ _ read orderly 1 _ failed "break" (by decide)
  obtain ⟨scope, k, m, c, n, comes, begun, steps, names⟩ := breaker_executes
  obtain ⟨calls, -, fails⟩ :=
    (caught breaker).2.1 _ _ _ _ _ _ _ breaker_misplaces rfl comes begun
  refine ⟨created, ⟨orderly, read, failed, kept⟩, breaker_misplaces, n, ?_, ?_⟩
  · rw [calls, names]
  · rw [steps] at fails
    exact fails

end LoopScript
