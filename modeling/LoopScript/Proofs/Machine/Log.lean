import LoopScript.Machine.Step
import LoopScript.Proofs.Value.Ends

/-!
What a machine records of the statements that start.
-/

namespace LoopScript

variable {σ : Type}

/-- The bindings of the innermost call, as a verbose log shows them. -/
def Machine.bindings (m : Machine σ) : Except Fault (Option (List (String × String))) :=
  match m.calls with
  | [] => .ok none
  | a :: _ => some <$> m.world.store.snapshot a.scope

theorem raises_bindings (m : Machine σ) : Raises (· = .endless) m.bindings := by
  unfold Machine.bindings
  split
  · trivial
  · exact ends_map (m.world.store.ends_snapshot _)

theorem snapshot_eq (loc : Location) (m : Machine σ) :
    Act.snapshot loc m = Act.placed loc m.bindings m := by
  have read (x : Except Fault (List (String × String))) :
      (some <$> Act.placed loc x : Act σ _) m = Act.placed loc (some <$> x) m := by
    cases x <;> rfl
  obtain ⟨world, globals, forced, current, log, calls, issued⟩ := m
  cases calls with
  | nil => rfl
  | cons a calls => exact read (world.store.snapshot a.scope)

/-- The entry for a statement that starts now. -/
def Machine.entry (m : Machine σ) (rule : String) (loc : Location)
    (b : Option (List (String × String))) : LogEntry :=
  ⟨m.log.next, m.calls.head?.map (·.id), loc, rule, b⟩

def Machine.record (keep : Bool) (m : Machine σ) (e : LogEntry) : Machine σ :=
  { m with log := m.log.record keep e }

variable {setup : Setup σ}

theorem Setup.hooks_of_empty (h : setup.services = .empty) : setup.services.hooks = [] := by
  rw [h]
  rfl

theorem Setup.rules_of_empty (h : setup.services = .empty) : setup.services.rules = [] := by
  rw [h]
  rfl

theorem emit_silent (hh : setup.services.hooks = []) (e : Event σ) :
    Act.emit setup e = pure ⟨⟩ := by
  simp only [Act.emit, Services.handlers, hh, List.filter_nil, Act.callHooks]

theorem logStep_silent (hr : setup.services.rules = []) (rule : String) (loc : Location)
    (m : Machine σ) :
    Act.logStep setup rule loc m =
      match if setup.verbose then m.bindings else .ok none with
      | .ok b => .ok ⟨⟩ (m.record setup.verbose (m.entry rule loc b))
      | .error f => .error (f.attach (some loc)) m := by
  simp only [Act.logStep, hr, Act.callRules]
  cases setup.verbose with
  | false => rfl
  | true =>
    change (Act.snapshot loc >>= fun b => Act.record true rule loc b >>= fun _ => (pure ⟨⟩ : Act σ Unit)) m = _
    simp only [bind, EStateM.bind, snapshot_eq, if_true]
    cases m.bindings <;> rfl

/-- Without extensions a statement is begun once the log has recorded it. -/
theorem begin_exec (hs : setup.services = .empty) (s : Stmt) (scope : ScopeId) (k : Context .flow)
    (m : Machine σ) :
    let n := { m with current := some s.location }
    Act.begin setup (.exec s scope k) m =
      match if setup.verbose then n.bindings else .ok none with
      | .ok b => Act.beginStatement s scope k (n.record setup.verbose (n.entry s.rule s.location b))
      | .error f => .error (f.attach (some s.location)) n := by
  intro n
  have begun : Act.begin setup (.exec s scope k) m =
      (Act.logStep setup s.rule s.location >>= fun _ => Act.beginStatement s scope k) n := by
    simp only [Act.begin, emit_silent (Setup.hooks_of_empty hs)]
    rfl
  rw [begun]
  simp only [bind, EStateM.bind, logStep_silent (Setup.rules_of_empty hs)]
  split <;> rename_i h <;> split at h <;> simp_all

end LoopScript
