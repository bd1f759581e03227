import LoopScript.Proofs.Execution.CallStack
import LoopScript.Proofs.Execution.Verbose
import LoopScript.Proofs.Machine.Invocations
import LoopScript.Proofs.Program.Spans

/-!
How runs without extensions fail. A run keeps its controls fitting, so that where it fails the log and
the calls in progress tell which statement is to blame, and a program that is read from a text fails for
a cause that belongs to the language.
-/

namespace LoopScript

variable {σ : Type}

namespace Interpreter

variable (i : Interpreter σ) (host : Wait σ → World σ → World σ) (p : Program)

/-- The statements that a run begins, and the entries by which the log records them. -/
def Begins (s : Stmt) (e : LogEntry) : Prop :=
  ∃ m b, i.Records host p s m ∧ e = m.entry s.rule s.location b

variable {i host p} {N : Prop}

section Fits

/-- A run that begins on a machine without calls, and whose host puts nothing else than native values
into the store. -/
structure Proper (N : Prop) (i : Interpreter σ) (host : Wait σ → World σ → World σ) (p : Program) :
    Prop where
  services : i.setup.services = .empty
  machine : i.machine.Accords N (i.Begins host p) i.setup.verbose []
  clean : N → p.Clean
  host : ∀ w u, u.store.Native N → (host w u).store.Native N

theorem begins_of_takesUp (hooks : i.setup.services.hooks = []) {s : Stmt} {scope : ScopeId}
    {k : Context .flow} {m : Machine σ} (h : i.TakesUp host p (.exec s scope k) m)
    (b : Option (List (String × String))) : i.Begins host p s (m.entry s.rule s.location b) := by
  refine ⟨{ m with current := some s.location }, b, ⟨scope, k, m, h, ?_⟩, rfl⟩
  rw [emit_silent hooks]
  rfl

variable (h : Proper N i host p)

include h

theorem Proper.hooks : i.setup.services.hooks = [] :=
  Setup.hooks_of_empty h.services

theorem Proper.leads_control {c : Control} {m n : Machine σ} {w : Wait σ} {r : Resumption} {F : Begun}
    {L : Prop} (hc : i.Comes host p c m) (hs : c.step i.setup m = .ok (.pause w r) n)
    (hn : n.Accords N (i.Begins host p) i.setup.verbose F) (hr : r.Fits N F) :
    Act.Leads N L (i.Begins host p) i.setup.verbose (r.control i.setup)
      { n with world := host w n.world } fun F c => c.Fits N F := by
  have answered := hn.world (h.host w n.world hn.native)
  cases r with
  | task t =>
    refine Act.leads_begin h.services answered hr ?_
    rintro s scope k b rfl
    exact begins_of_takesUp h.hooks (.woken hc hs) b
  | waited name loc k =>
    refine Act.leads_bind (Act.stays_emit h.hooks answered _) fun _ n hn _ => ?_
    exact ⟨F, hn, native_none, hr⟩

theorem Proper.leads_step {c : Control} {m : Machine σ} {F : Begun} (hc : i.Comes host p c m)
    (hm : m.Accords N (i.Begins host p) i.setup.verbose F) (hf : c.Fits N F) :
    Act.Leads N (¬N ∨ c.Strains m) (i.Begins host p) i.setup.verbose (c.step i.setup) m
      fun F v => v.Fits N F := by
  refine Act.leads_step h.services hm hf ?_
  rintro s scope k b rfl
  exact begins_of_takesUp h.hooks (.onward hc) b

/-- Every control that a run comes to fits the statements that the calls in progress have begun. -/
theorem Proper.comes_fits {c : Control} {m : Machine σ} (hc : i.Comes host p c m) :
    ∃ F, m.Accords N (i.Begins host p) i.setup.verbose F ∧ c.Fits N F := by
  -- Along the run `F` records what each call in progress has begun; the log alone forgets it.
  induction hc with
  | @start c m ho hc =>
    rw [openModule_silent h.hooks] at ho
    cases ho
    have calls : i.machine.calls = [] := List.length_eq_zero_iff.mp h.machine.length
    have opened := h.machine.enter (a := ⟨"<module>", i.machine.globals, i.machine.issued, none⟩) rfl
    rw [calls] at opened
    have block : (Act.block (σ := σ) p.statements i.machine.globals .program).Fits N [[]] .program :=
      Act.block_fits h.clean _ rfl
    have fits := Act.continueWith_fits block
    rw [hc] at fits
    exact ⟨[[]], opened, fits⟩
  | step hc hs ih =>
    obtain ⟨F, hm, hf⟩ := ih
    exact Act.ensures_of_ok (h.leads_step hc hm hf) hs
  | wait hc hs hr ih =>
    obtain ⟨F, hm, hf⟩ := ih
    obtain ⟨G, hn, hr'⟩ := Act.ensures_of_ok (h.leads_step hc hm hf) hs
    exact Act.ensures_of_ok (h.leads_control (L := True) hc hs hn hr') hr

theorem Proper.failed_fits {f : Fault} {count : Nat} {m : Machine σ}
    (hh : i.Halts host p ⟨.failed f, count, m⟩) :
    ∃ F, m.Accords N (i.Begins host p) i.setup.verbose F ∧
      f.Fits (¬N ∨ ∃ c n, i.Comes host p c n ∧ c.Strains n) F m := by
  cases hh with
  | start ho =>
    rw [openModule_silent h.hooks] at ho
    cases ho
  | step hf =>
    obtain ⟨c, n, hc, hs⟩ := hf
    obtain ⟨F, hn, hf⟩ := h.comes_fits hc
    obtain ⟨G, hm, hfault⟩ := Act.ensures_of_error (h.leads_step hc hn hf) hs
    exact ⟨G, hm, hfault.mono (Or.imp_right fun strains => ⟨c, n, hc, strains⟩)⟩
  | wait hc hs hr =>
    obtain ⟨F, hn, hf⟩ := h.comes_fits hc
    obtain ⟨G, hm, hr'⟩ := Act.ensures_of_ok (h.leads_step hc hn hf) hs
    exact Act.ensures_of_error (h.leads_control hc hs hm hr') hr

theorem Proper.finished_accords {f : Flow} {count : Nat} {m : Machine σ}
    (hh : i.Halts host p ⟨.finished f, count, m⟩) :
    ∃ F, m.Accords N (i.Begins host p) i.setup.verbose F := by
  cases hh with
  | step hf =>
    obtain ⟨c, n, hc, hs⟩ := hf
    obtain ⟨F, hn, hf⟩ := h.comes_fits hc
    obtain ⟨G, hm, -⟩ := Act.ensures_of_ok (h.leads_step hc hn hf) hs
    exact ⟨G, hm⟩

theorem Proper.run_failed {n : Nat} {e : RuntimeError}
    (he : (i.run host p n).execution = .ended (.failed e)) :
    ∃ F f, (i.run host p n).machine.Accords N (i.Begins host p) i.setup.verbose F ∧
      f.Fits (¬N ∨ ∃ c m, i.Comes host p c m ∧ c.Strains m) F (i.run host p n).machine ∧
      e = Execution.errorOf (i.run host p n).machine f := by
  obtain ⟨halt, count, f, halts, he, how⟩ := halts_of_failed h.hooks he
  rcases how with rfl | ⟨x, rfl, -, rfl⟩
  · obtain ⟨F, hn, hf⟩ := h.failed_fits halts
    exact ⟨F, f, hn, hf, he⟩
  · obtain ⟨F, hn⟩ := h.finished_accords halts
    exact ⟨F, _, hn, .stray _, he⟩

end Fits

theorem native_globalObjects {s : Store} (hs : s.Native N) :
    (∀ e ∈ (globalObjects (σ := σ) .empty s).1, e.2.Native N) ∧
      (globalObjects (σ := σ) .empty s).2.Native N := by
  apply globalObjects_induction
    (P := fun x => (∀ e ∈ x.1, e.2.Native N) ∧ x.2.Native N) ⟨List.forall_mem_nil _, hs⟩
  · rintro x name ⟨bound, native⟩
    exact ⟨Table.values_put bound (native_ref _), Store.native_alloc native trivial⟩
  · exact fun _ _ none => absurd none List.not_mem_nil
  · exact fun _ _ none => absurd none List.not_mem_nil

theorem accords_opening {world : World σ} (hw : world.store.Native N)
    (B : Stmt → LogEntry → Prop) (keep : Bool) :
    (opening (σ := σ) .empty world).Accords N B keep [] := by
  obtain ⟨globals, made⟩ := native_globalObjects (σ := σ) hw
  constructor
  case native => exact Store.native_openScope made none globals
  case length => rfl
  case tells => exact List.forall_mem_nil _
  case ids => exact List.pairwise_singleton _ _
  case unused => exact fun _ _ => rfl
  case last => exact nofun
  case later => exact nofun
  case current => exact fun _ => rfl

theorem create_proper {print : String → σ → σ} {budget : Int} {verbose : Bool}
    {world : World σ} {i : Interpreter σ}
    (h : create .empty print budget verbose world = .ok i) (hw : world.store.Native N)
    {host : Wait σ → World σ → World σ}
    (hh : ∀ w u, u.store.Native N → (host w u).store.Native N) {p : Program} (hp : N → p.Clean) :
    Proper N i host p := by
  obtain rfl := create_eq h
  exact ⟨rfl, accords_opening hw _ _, hp, hh⟩

end Interpreter

section Errors

variable {L : Prop} {F : Begun} {m : Machine σ} {f : Fault}

/-- The causes of errors that have no place of their own. -/
def Cause.isPlaceless : Cause → Bool
  | strayReturn | strayBreak | strayContinue | callsTooDeep | internal _ => true
  | _ => false

theorem errorOf_step (h : f.Fits L F m) :
    (Execution.errorOf m f).step = m.log.last.map (·.step) := by
  unfold Execution.errorOf
  cases m.log.last with
  | some e => rfl
  | none =>
    cases h with
    | error | endless | large => rfl
    | stray f => cases m.current <;> rfl

theorem errorOf_location (h : f.Fits L F m) :
    (∃ loc, (Execution.errorOf m f).location = some loc ∧ F.Blames loc) ∨
      (Execution.errorOf m f).location = m.current ∧
        (Execution.errorOf m f).cause.isPlaceless = true := by
  unfold Execution.errorOf
  cases h with
  | @error c loc _ hl =>
    refine .inl ⟨loc, ?_, hl⟩
    cases m.log.last <;> rfl
  | stray f =>
    refine .inr ?_
    cases hc : m.current <;> cases m.log.last <;> cases f <;> exact ⟨rfl, rfl⟩
  | endless | large =>
    refine .inr ?_
    cases m.log.last <;> exact ⟨rfl, rfl⟩

theorem errorOf_cause (h : f.Fits L F m) :
    (Execution.errorOf m f).cause.isOwn = true ∨
      (Execution.errorOf m f).cause = .internal "int too large to convert to float" ∧ L := by
  unfold Execution.errorOf
  cases h with
  | error h =>
    refine .inl ?_
    cases m.log.last <;> exact h
  | stray f =>
    refine .inl ?_
    cases m.current <;> cases m.log.last <;> cases f <;> rfl
  | endless =>
    refine .inl ?_
    cases m.log.last <;> rfl
  | large h =>
    refine .inr ⟨?_, h⟩
    cases m.log.last <;> rfl

end Errors

theorem Machine.Accords.innermost {N : Prop} {B : Stmt → LogEntry → Prop} {keep : Bool} {F : Begun}
    {m : Machine σ} (h : m.Accords N B keep F) {a : Activation} {calls : List Activation}
    (hc : m.calls = a :: calls) {entry : LogEntry} (he : m.log.tails.get? a.id = some entry) :
    entry.activation = some a.id ∧ ∃ s ss rest, F = (s :: ss) :: rest ∧ B s entry ∧
      ∀ t ∈ s :: ss, ∃ e, e.activation = some a.id ∧ B t e := by
  have length := h.length
  have tells := h.tells
  rw [hc] at length tells
  cases F with
  | nil => cases length
  | cons ss rest =>
    obtain ⟨begun, tail⟩ := tells (a, ss) List.mem_cons_self
    obtain ⟨active, s, hs, hB⟩ := tail entry he
    cases ss with
    | nil => cases hs
    | cons t ss =>
      cases hs
      exact ⟨active, s, ss, rest, rfl, hB, begun⟩

/-- Where a run without extensions fails in a call that has begun a statement. The step of the error
is that of the last statement that the run has begun, which is the last one of the call itself unless
a call that has ended since began one; and the place of the error is that of the call's last statement
or of an expression inside it, or else inside the test of a loop that the call has begun. Only errors
that have no place of their own stand at the current place, which is that of the last statement that
the run has begun. -/
theorem failures_pinned {print : String → σ → σ} {budget : Int} {verbose : Bool} {world : World σ}
    {i : Interpreter σ} (h : Interpreter.create .empty print budget verbose world = .ok i)
    (host : Wait σ → World σ → World σ) (p : Program) {n : Nat} {e : RuntimeError}
    (he : (i.run host p n).execution = .ended (.failed e)) {a : Activation}
    {calls : List Activation} (hc : (i.run host p n).machine.calls = a :: calls) {entry : LogEntry}
    (ht : (i.run host p n).machine.log.tails.get? a.id = some entry) :
    e.step = (i.run host p n).machine.log.last.map (·.step) ∧
    (∀ last, (i.run host p n).machine.log.last = some last →
      ∀ b ∈ a :: calls, last.activation = some b.id → last = entry) ∧
    (verbose = false → (i.run host p n).machine.current =
      (i.run host p n).machine.log.last.map (·.location)) ∧
    entry.activation = some a.id ∧
    ∃ s, i.Begins host p s entry ∧
      ((∃ loc, e.location = some loc ∧ (s.Covers loc ∨
        ∃ place test body d, i.Begins host p (.loop place test body) d ∧
          d.activation = some a.id ∧ ∃ f : Expr, f.Inside test ∧ loc = f.location)) ∨
      e.location = (i.run host p n).machine.current ∧ e.cause.isPlaceless = true) := by
  have proper : i.Proper False host p :=
    Interpreter.create_proper h (Store.native_of_not id) (fun _ _ _ => Store.native_of_not id) False.elim
  have verbosity : i.setup.verbose = verbose := by rw [Interpreter.create_eq h]
  obtain ⟨F, f, hm, hf, rfl⟩ := proper.run_failed he
  obtain ⟨active, s, ss, rest, rfl, begun, earlier⟩ := hm.innermost hc ht
  refine ⟨errorOf_step hf, fun last hl b hb ha => ?_, fun quiet => ?_, active, s, begun, ?_⟩
  -- The last entry is that of a call in progress. Were it an outer one, the innermost call would
  -- have been opened after it, and so would not have begun anything.
  · have later := hm.later last b.id hl ha
    have tail := (hm.last last b.id hl ha).2
    rw [hc] at later tail
    rcases List.mem_cons.mp hb with rfl | hb
    · exact Option.some.inj ((tail List.mem_cons_self).symm.trans ht)
    · have lower := (hm.below hc).2 b.id (List.mem_map_of_mem hb)
      cases later _ List.mem_cons_self lower
  · exact hm.current (verbosity.trans quiet)
  · refine (errorOf_location hf).imp_left ?_
    rintro ⟨loc, hloc, blames⟩
    refine ⟨loc, hloc, (blames s ss rfl).imp_right ?_⟩
    -- A loop tests again after its body, when its own entry is no longer the last one of the call.
    rintro ⟨test, body, ⟨place, tt, hF, hmem⟩, d, hd, rfl⟩
    cases hF
    obtain ⟨e, ha, hB⟩ := earlier _ hmem
    exact ⟨place, test, body, e, hB, ha, d, hd, rfl⟩

def mute : Interpreter Unit :=
  ⟨⟨.empty, fun _ w => w, 100, false⟩, Interpreter.opening .empty ⟨.empty, ()⟩, 0⟩

def adderLine (n : Nat) : Location := ⟨"adder", n, 1, ""⟩

/-- A sum that fails once the call on its left has ended. -/
def adder : Program :=
  let call : Expr := .call (adderLine 3) (.name (adderLine 3) "f") [] []
  ⟨adderLine 4, [.function (.mk (adderLine 1) "f" [] [.pass_ (adderLine 2)]),
    .expr (adderLine 3) (.binary (adderLine 3) .add call (.literal (adderLine 3) .none))]⟩

/-- The error bears the step of the statement inside the call, though it stands in the sum. -/
theorem failures_pinned_adding :
    Interpreter.create .empty (fun _ w => w) 100 false ⟨.empty, ()⟩ = .ok mute ∧
    (mute.run (fun _ w => w) adder 1).execution =
      .ended (.failed ⟨.operands "+" "None" "None", some (adderLine 3), some 2⟩) ∧
    ∃ s, mute.Begins (fun _ w => w) adder s ⟨1, some 0, adderLine 3, "ExpressionStatement", none⟩ ∧
      ∃ loc, some (adderLine 3) = some loc ∧ (s.Covers loc ∨
        ∃ place test body d, mute.Begins (fun _ w => w) adder (.loop place test body) d ∧
          d.activation = some 0 ∧ ∃ f : Expr, f.Inside test ∧ loc = f.location) := by
  have created : Interpreter.create .empty (fun _ w => w) 100 false ⟨.empty, ()⟩ = .ok mute := rfl
  have failed : (mute.run (fun _ w => w) adder 1).execution =
      .ended (.failed ⟨.operands "+" "None" "None", some (adderLine 3), some 2⟩) := by cbv
  have calls : (mute.run (fun _ w => w) adder 1).machine.calls = [⟨"<module>", 0, 0, none⟩] := by cbv
  have tail : (mute.run (fun _ w => w) adder 1).machine.log.tails.get? 0 =
      some ⟨1, some 0, adderLine 3, "ExpressionStatement", none⟩ := by cbv
  obtain ⟨-, -, -, -, s, begun, placed | ⟨-, placeless⟩⟩ :=
    failures_pinned created (fun _ w => w) adder failed calls tail
  · exact ⟨created, failed, s, begun, placed⟩
  · cases placeless

/-- A failed run of a program that was read from a text fails for a cause of the language. Only where
the run has come to a whole number without a float is the cause that of the host. -/
theorem failures_own {print : String → σ → σ} {budget : Int} {verbose : Bool} {world : World σ}
    {i : Interpreter σ} (h : Interpreter.create .empty print budget verbose world = .ok i)
    (hw : world.store.Native True) {host : Wait σ → World σ → World σ}
    (hh : ∀ w u, u.store.Native True → (host w u).store.Native True) {text file : String}
    {p : Program} (hp : Program.ofSource text file = .ok p) {n : Nat} {e : RuntimeError}
    (he : (i.run host p n).execution = .ended (.failed e)) :
    e.cause.isOwn = true ∨ e.cause = .internal "int too large to convert to float" ∧
      ∃ c m, i.Comes host p c m ∧ c.Strains m := by
  have proper : i.Proper True host p :=
    Interpreter.create_proper h hw hh fun _ => Program.clean_ofSource hp
  obtain ⟨F, f, -, hf, rfl⟩ := proper.run_failed he
  refine (errorOf_cause hf).imp_right ?_
  rintro ⟨cause, native | strains⟩
  · exact (native trivial).elim
  · exact ⟨cause, strains⟩

def joinerPlace (column : Nat) : Location := ⟨"joiner", 1, column, "x = 'a' | None"⟩

/-- A text joined bit by bit with nothing. -/
def joiner : Program :=
  let text : Expr := .literal (joinerPlace 5) (.str "a")
  let join : Expr := .binary (joinerPlace 9) .bitOr text (.literal (joinerPlace 11) .none)
  ⟨⟨"joiner", 2, 1, ""⟩, [.assign (joinerPlace 1) (.name (joinerPlace 1) "x") .set join]⟩

theorem failures_own_joining :
    Interpreter.create .empty (fun _ w => w) 100 false ⟨.empty, ()⟩ = .ok mute ∧
    Store.empty.Native True ∧ Program.ofSource "x = 'a' | None\n" "joiner" = .ok joiner ∧
    (mute.run (fun _ w => w) joiner 1).execution =
      .ended (.failed ⟨.operands "|" "string" "None", some (joinerPlace 9), some 0⟩) ∧
    (Cause.operands "|" "string" "None").isOwn = true := by
  have created : Interpreter.create .empty (fun _ w => w) 100 false ⟨.empty, ()⟩ = .ok mute := rfl
  have read : Program.ofSource "x = 'a' | None\n" "joiner" = .ok joiner := by cbv
  have failed : (mute.run (fun _ w => w) joiner 1).execution =
      .ended (.failed ⟨.operands "|" "string" "None", some (joinerPlace 9), some 0⟩) := by cbv
  refine ⟨created, Store.native_empty, read, failed, ?_⟩
  rcases failures_own created Store.native_empty (fun _ _ h => h) read failed with own | ⟨host, -⟩
  · exact own
  · cases host

end LoopScript
