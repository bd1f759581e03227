import LoopScript.Proofs.Execution.Budget
import LoopScript.Proofs.Execution.Trace
import LoopScript.Proofs.Gap.Calls

/-!
Runs of a program on two machines of which the second one has gaps in its store: whatever the one shows,
the other shows, too.
-/

namespace LoopScript

variable {σ : Type} {d : Distance σ} {setup : Setup σ}

/-- Two reasons for control to go back to the host that are the same. -/
inductive Halt.Matches (d : Distance σ) : Halt σ → Halt σ → Prop where
  | spent (r : Resumption) : Matches d (.pause none r) (.pause none (r.past d))
  | pause {w w' : Wait σ} (h : w.Matches d w') (r : Resumption) :
      Matches d (.pause (some w) r) (.pause (some w') (r.past d))
  | finished (f : Flow) : Matches d (.finished f) (.finished (f.past d))
  | failed (f : Fault) : Matches d (.failed f) (.failed f)

inductive Halted.Matches (d : Distance σ) : Halted σ → Halted σ → Prop where
  | mk {halt halt' : Halt σ} {count : Nat} {m : Machine σ} {v : World σ}
      (h : halt.Matches d halt') (hv : m.world.Matches d v) :
      Matches d ⟨halt, count, m⟩ ⟨halt', count, m.past d v⟩

theorem Halted.Matches.count {h h' : Halted σ} (hh : h.Matches d h') : h'.count = h.count := by
  cases hh
  rfl

inductive Status.Matches (d : Distance σ) : Status σ → Status σ → Prop where
  | running : Matches d .running .running
  | paused {w w' : Wait σ} (h : w.Matches d w') : Matches d (.paused w) (.paused w')
  | completed : Matches d .completed .completed
  | failed (e : RuntimeError) : Matches d (.failed e) (.failed e)
  | cancelled : Matches d .cancelled .cancelled

inductive Execution.Matches (d : Distance σ) : Execution σ → Execution σ → Prop where
  | fresh (p : Program) : Matches d (.fresh p) (.fresh p)
  | suspended (r : Resumption) : Matches d (.suspended r) (.suspended (r.past d))
  | drained : Matches d .drained .drained
  | ended {s s' : Status σ} (h : s.Matches d s') : Matches d (.ended s) (.ended s')

/-- Two moments of which a host cannot tell the one from the other. -/
inductive Moment.Matches (d : Distance σ) : Moment σ → Moment σ → Prop where
  | mk {answer answer' : Option (Except String (Status σ))} {x y : Execution σ} {m : Machine σ}
      {v : World σ} (ha : Option.Rel (Concur (Status.Matches d)) answer answer')
      (hx : x.Matches d y) (hv : m.world.Matches d v) :
      Matches d ⟨answer, x, m⟩ ⟨answer', y, m.past d v⟩

namespace Distance.Ends

variable {α β : Type} {R : α → β → Prop} {r : EStateM.Result Fault (Machine σ) α}
  {r' : EStateM.Result Fault (Machine σ) β} (h : d.Ends R r r')

include h

theorem of_ok {a : α} {m : Machine σ} (e : r = .ok a m) :
    ∃ b v, r' = .ok b (m.past d v) ∧ R a b ∧ m.world.Matches d v := by
  subst e
  cases h with
  | ok h hv => exact ⟨_, _, rfl, h, hv⟩

theorem of_error {f : Fault} {m : Machine σ} (e : r = .error f m) :
    ∃ v, r' = .error f (m.past d v) ∧ m.world.Matches d v := by
  subst e
  cases h with
  | error f hv => exact ⟨_, rfl, hv⟩

end Distance.Ends

section Machines

variable (hs : setup.Keeps d)

include hs

theorem run_matches (count : Nat) (c : Control) (m : Machine σ) {v : World σ}
    (hv : m.world.Matches d v) :
    (run setup count c m).Matches d (run setup count (c.past d) (m.past d v)) := by
  -- the second machine has the same budget, so it goes on for as long as the first
  have begins (t : Task) {m : Machine σ} {v : World σ} := Act.passes_begin hs t m v
  have moves (u : Move) {m : Machine σ} {v : World σ} := Act.tallies_advance hs u m v
  fun_induction run setup count c m generalizing v with
  | case1 count m t hb c m' e ih =>
    obtain ⟨_, w, begun, rfl, hw⟩ := (begins t hv).of_ok e
    rw [Control.past, run, dif_pos hb, begun]
    exact ih hw
  | case2 count m t hb f m' e =>
    obtain ⟨w, begun, hw⟩ := (begins t hv).of_error e
    rw [Control.past, run, dif_pos hb, begun]
    exact .mk (.failed f) hw
  | case3 count m t hb =>
    rw [Control.past, run, dif_neg hb]
    exact .mk (.spent (.task t)) hv
  | case4 count m u c m' e ih =>
    obtain ⟨_, w, moved, h, hw⟩ := (moves u hv).of_ok e
    rw [Control.past, run_move, moved]
    cases h with | go h => exact h ▸ ih hw
  | case5 count m u w r m' e =>
    obtain ⟨_, w, moved, h, hw⟩ := (moves u hv).of_ok e
    rw [Control.past, run_move, moved]
    cases h with | pause h r => exact .mk (.pause h r) hw
  | case6 count m u f m' e =>
    obtain ⟨_, w, moved, h, hw⟩ := (moves u hv).of_ok e
    rw [Control.past, run_move, moved]
    cases h with | finished f => exact .mk (.finished f) hw
  | case7 count m u f m' e =>
    obtain ⟨w, moved, hw⟩ := (moves u hv).of_error e
    rw [Control.past, run_move, moved]
    exact .mk (.failed f) hw

theorem Act.passes_control (r : Resumption) :
    Passes d (Control.past d) (r.control setup) ((r.past d).control setup) := by
  cases r with
  | task t => exact passes_begin hs t
  | waited name loc k =>
    exact tallies_seq (tallies_emit hs (.afterCall name .none loc)) fun _ => tallies_pure rfl

theorem resumeFrom_matches (count : Nat) (r : Resumption) (m : Machine σ) {v : World σ}
    (hv : m.world.Matches d v) :
    (resumeFrom setup count r m).Matches d (resumeFrom setup count (r.past d) (m.past d v)) := by
  rw [resumeFrom_eq, resumeFrom_eq]
  have ends := Act.passes_control hs r m v hv
  generalize r.control setup m = x, (r.past d).control setup (m.past d v) = y at ends ⊢
  cases ends with
  | ok h hw =>
    subst h
    exact run_matches hs _ _ _ hw
  | error f hw => exact .mk (.failed f) hw

end Machines

namespace Execution

variable (hs : setup.Keeps d)

theorem errorOf_past (m : Machine σ) (f : Fault) (v : World σ) :
    errorOf (m.past d v) f = errorOf m f := rfl

include hs

theorem tallies_openModule (p : Program) :
    Act.Tallies d Eq (openModule setup p) (openModule setup p) := by
  refine Act.tallies_seq (Act.tallies_change (fun _ _ => rfl) fun _ => rfl) fun _ => ?_
  exact Act.tallies_get fun m v hv => Act.tallies_emit hs (.programStart p m.globals) m v hv

theorem proceed_matches (count : Nat) (m : Machine σ) {v : World σ} (hv : m.world.Matches d v)
    (origin : Program ⊕ Resumption) :
    (proceed setup count m origin).Matches d
      (proceed setup count (m.past d v) (origin.map id (Resumption.past d))) := by
  cases origin with
  | inr r => exact resumeFrom_matches hs count r m hv
  | inl p =>
    have ends := tallies_openModule hs p m v hv
    simp only [proceed, Sum.map_inl, id]
    generalize openModule setup p m = x, openModule setup p (m.past d v) = y at ends ⊢
    cases ends with
    | error f hw => exact .mk (.failed f) hw
    | @ok _ _ m w h hw =>
      cases hp : p.statements with
      | nil => exact .mk (.finished .normal) hw
      | cons s ss => exact run_matches hs count (.task (.exec s m.globals _)) m hw

theorem report_matches (f : Fault) (m : Machine σ) {v : World σ} (hv : m.world.Matches d v) :
    ∃ w, (report setup f m).2.world.Matches d w ∧
      report setup f (m.past d v) = ((report setup f m).1, (report setup f m).2.past d w) := by
  have ends := Act.tallies_emit hs (.onError (errorOf m f)) m v hv
  simp only [report, errorOf_past]
  generalize Act.emit setup _ m = x, Act.emit setup _ (m.past d v) = y at ends ⊢
  cases ends with
  | ok h hw => exact ⟨_, hw, rfl⟩
  | error g hw => cases g <;> exact ⟨_, hw, rfl⟩

theorem closed_matches (count : Nat) (m : Machine σ) {v : World σ} (hv : m.world.Matches d v) :
    (Halted.moment setup ⟨.finished .normal, count, m⟩).Matches d
      (Halted.moment setup ⟨.finished .normal, count, m.past d v⟩) := by
  have ends := Act.tallies_emit hs .programEnd m v hv
  simp only [Halted.moment, settle, close]
  generalize Act.emit setup _ m = x, Act.emit setup _ (m.past d v) = y at ends ⊢
  cases ends with
  | error f hw =>
    cases f with
    | error e => exact .mk (.some (.ok (.failed e))) (.ended (.failed e)) hw
    | endless | foreign =>
      simp only [errorOf_past]
      exact .mk (.some (.ok (.failed _))) (.ended (.failed _)) hw
  | @ok _ _ m w _ hw =>
    obtain ⟨world, globals, forced, current, log, calls, issued⟩ := m
    cases calls with
    | nil => exact .mk (.some (.error _)) .drained hw
    | cons a calls =>
      exact .mk (m := ⟨world, globals, forced, current, log, calls, issued⟩)
        (.some (.ok .completed)) (.ended .completed) hw

theorem failed_matches (count : Nat) (f : Fault) (m : Machine σ) {v : World σ}
    (hv : m.world.Matches d v) :
    (Halted.moment setup ⟨.failed f, count, m⟩).Matches d
      (Halted.moment setup ⟨.failed f, count, m.past d v⟩) := by
  obtain ⟨w, hw, reported⟩ := report_matches hs f m hv
  simp only [Halted.moment, settle, reported]
  exact .mk (.some (.ok (.failed _))) (.ended (.failed _)) hw

theorem settle_matches {h h' : Halted σ} (hh : h.Matches d h') :
    (h.moment setup).Matches d (h'.moment setup) := by
  obtain ⟨halt, hv⟩ := hh
  cases halt with
  | spent r => exact .mk (.some (.ok .running)) (.suspended r) hv
  | pause hw r => exact .mk (.some (.ok (.paused hw))) (.suspended r) hv
  | failed f => exact failed_matches hs _ f _ hv
  | finished f =>
    cases f with
    | normal => exact closed_matches hs _ _ hv
    | broken | continued | returned => exact failed_matches hs 0 (Act.stray _ _) _ hv

end Execution

/-- Two hosts that answer a program that waits in the same way. -/
def Distance.Answers (d : Distance σ) (host host' : Wait σ → World σ → World σ) : Prop :=
  ∀ w w', w.Matches d w' → ∀ world v, world.Matches d v → (host w world).Matches d (host' w' v)

/-- A host that does no more about a wait than to ask whether it is over. -/
def Wait.poll : Wait σ → World σ → World σ
  | .seconds _, world => world
  | .condition holds, world => (holds world).2

theorem Distance.answers_poll (d : Distance σ) : d.Answers Wait.poll Wait.poll := by
  intro w w' hw world v hv
  cases hw with
  | seconds s => exact hv
  | condition h => exact (h world v hv).2

section Moments

variable (hs : setup.Keeps d) {host host' : Wait σ → World σ → World σ} (hh : d.Answers host host')

include hh

theorem Moment.Matches.answered {x y : Moment σ} (h : x.Matches d y) :
    ∃ v, (x.answered host).world.Matches d v ∧ y.answered host' = (x.answered host).past d v := by
  obtain ⟨ha, -, hv⟩ := h
  cases ha with
  | none => exact ⟨_, hv, rfl⟩
  | some ha =>
    cases ha with
    | error e => exact ⟨_, hv, rfl⟩
    | ok ha =>
      cases ha with
      | paused hw => exact ⟨_, hh _ _ hw _ _ hv, rfl⟩
      | running | completed | failed | cancelled => exact ⟨_, hv, rfl⟩

include hs

theorem Moment.Matches.resume {x y : Moment σ} (h : x.Matches d y) (count : Nat) :
    (x.resume setup host count).1.Matches d (y.resume setup host' count).1 ∧
      (y.resume setup host' count).2 = (x.resume setup host count).2 := by
  obtain ⟨v, hv, answered⟩ := h.answered hh
  have advanced (origin : Program ⊕ Resumption) :
      let halted := Execution.proceed setup count (x.answered host) origin
      let halted' := Execution.proceed setup count (y.answered host')
        (origin.map id (Resumption.past d))
      (halted.moment setup).Matches d (halted'.moment setup) ∧ halted'.count = halted.count := by
    have proceeded := Execution.proceed_matches hs count _ hv origin
    rw [← answered] at proceeded
    exact ⟨Execution.settle_matches hs proceeded, proceeded.count⟩
  simp only [Moment.resume]
  obtain ⟨-, hx, -⟩ := h
  cases hx with
  | fresh p => exact advanced (.inl p)
  | suspended r => exact advanced (.inr r)
  | drained =>
    simp only [Execution.resume, answered, and_true]
    exact .mk (.some (.ok .completed)) (.ended .completed) hv
  | ended hs =>
    simp only [Execution.resume, answered, and_true]
    exact .mk (.some (.ok hs)) (.ended hs) hv

/-- Two runs of one program from the same machine, of which the second has the gaps, are the same to a
host at every step. -/
theorem Interpreter.run_matches (count : Nat) (m : Machine σ) {v : World σ}
    (hv : m.world.Matches d v) (p : Program) (n : Nat) :
    (Interpreter.run ⟨setup, m, count⟩ host p n).Matches d
      (Interpreter.run ⟨setup, m.past d v, count⟩ host' p n) := by
  let step (host : Wait σ → World σ → World σ) (x : Moment σ × Nat) := x.1.resume setup host x.2
  suffices ∀ x y : Moment σ × Nat, x.1.Matches d y.1 → y.2 = x.2 →
      ((step host)^[n] x).1.Matches d ((step host')^[n] y).1 from
    this (⟨none, .fresh p, m⟩, count) (⟨none, .fresh p, m.past d v⟩, count)
      (.mk .none (.fresh p) hv) rfl
  induction n with
  | zero => exact fun x y h _ => h
  | succ n ih =>
    intro x y h counts
    obtain ⟨moments, rest⟩ := h.resume hs hh x.2
    refine ih _ _ ?_ ?_
    · simpa only [step, counts] using moments
    · simpa only [step, counts] using rest

end Moments

end LoopScript
