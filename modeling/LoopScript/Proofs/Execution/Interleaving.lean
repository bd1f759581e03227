import LoopScript.Proofs.Execution.Cohort

/-!
Executions that share an interpreter, resumed and cancelled in any order. They keep out of each other's
values; what they do not keep apart is the stack of calls.
-/

namespace LoopScript

namespace Cohort

variable {ι : Type}

/-- How often an execution is resumed. -/
def resumes [DecidableEq ι] (k : ι) (calls : List (ι × Request)) : Nat :=
  calls.countP fun
    | (j, .resume) => j = k
    | (_, .cancel) => false

end Cohort

/-- The same values for some global names, but for the addresses of objects. -/
def Store.SameNames (globals : ScopeId) (names : Set String) (s t : Store) : Prop :=
  ∃ L : Link, s.Moved L t ∧
    ∀ x ∈ names, Option.Rel (Value.Moved L) (s.lookup? globals x) (t.lookup? globals x)

/-- Where an execution of a cohort stands after some calls, beside the machine on which its program has
been completed alone: if it has come to its end, with the same output and the same values, and if it has
failed, over the calls in progress. -/
def Cohort.Beside {ι : Type} (x : Cohort ι) (calls : List (ι × Request)) (k : ι) (names : Set String)
    (alone : Machine (List String)) : Prop :=
  match x.execution k with
  | .fresh _ | .suspended _ => True
  | .drained | .ended .completed => x.output k = alone.world.host ∧
      alone.world.store.SameNames alone.globals names x.store
  | .ended .cancelled => (k, .cancel) ∈ calls
  | .ended (.failed e) => e.cause = .callsTooDeep ∨ e.cause = .internal Execution.emptyStack
  | .ended _ => False

section Calls

variable {ι : Type} [DecidableEq ι] {i : Interpreter (List String)} {p : ι → Program}
  {N W : ι → Set String} {D : ι → Link} {x : Cohort ι} {final : Machine (List String)} {k : ι}
  {left : Nat} {L : Link}

section Separate

variable (hs : i.setup.services = .empty) (hi : i.setup.print = fun line out => out ++ [line])
  (hp : Cohort.Separate p N W)

include hs hi hp

theorem tracked_request (h : x.Confined i p N W D)
    (tracked : x.Tracked i (p k) (N k) (W k) D final k left L) (call : ι × Request) :
    ∃ D' left' L', (x.request call.1 call.2).2.Confined i p N W D' ∧
      (x.request call.1 call.2).2.Tracked i (p k) (N k) (W k) D' final k left' L' ∧
      (left' + Cohort.resumes k [call] ≤ left ∨ left' = 0) := by
  obtain ⟨j, r⟩ := call
  obtain ⟨L', confined, grows, kept⟩ := confined_request hs hp h j r
  by_cases hj : j = k
  · subst hj
    cases r with
    | resume =>
      obtain ⟨left', L'', tracked', less⟩ := tracked_resume hs hi hp h tracked kept
      refine ⟨_, left', L'', confined, tracked', less.imp_left fun less => ?_⟩
      simpa [Cohort.resumes] using less
    | cancel =>
      obtain ⟨left', tracked', less⟩ := tracked_cancel tracked
      refine ⟨_, left', L, confined, tracked', .inl ?_⟩
      simpa [Cohort.resumes] using less
  · refine ⟨_, left, L, confined, tracked_other hp h tracked hj grows kept confined.forced, .inl ?_⟩
    have none : Cohort.resumes k [(j, r)] = 0 := by cases r <;> simp [Cohort.resumes, hj]
    rw [none, Nat.add_zero]

/-- Each resumption brings an execution nearer to its end, and nothing that others do sets it back. -/
theorem tracked_after (calls : List (ι × Request)) (h : x.Confined i p N W D)
    (tracked : x.Tracked i (p k) (N k) (W k) D final k left L) :
    ∃ D' left' L', (x.after calls).Confined i p N W D' ∧
      (x.after calls).Tracked i (p k) (N k) (W k) D' final k left' L' ∧
      (left' + Cohort.resumes k calls ≤ left ∨ left' = 0) := by
  -- along the calls, with the links as they are by then
  induction calls generalizing x D left L with
  | nil => exact ⟨D, left, L, h, tracked, .inl le_rfl⟩
  | cons call calls ih =>
    obtain ⟨D', left', L', confined, tracked', less⟩ := tracked_request hs hi hp h tracked call
    obtain ⟨D'', left'', L'', confined', tracked'', less'⟩ := ih confined tracked'
    refine ⟨D'', left'', L'', confined', tracked'', ?_⟩
    have sum : Cohort.resumes k (call :: calls) =
        Cohort.resumes k [call] + Cohort.resumes k calls := by
      simp only [Cohort.resumes, List.countP_cons, List.countP_nil]
      omega
    omega

end Separate

theorem after_cancelled (calls : List (ι × Request))
    (h : (x.after calls).execution k = .ended .cancelled) :
    x.execution k = .ended .cancelled ∨ (k, .cancel) ∈ calls := by
  induction calls generalizing x with
  | nil => exact .inl h
  | cons call calls ih =>
    obtain ⟨j, r⟩ := call
    rcases ih h with now | later
    · by_cases hj : j = k
      · subst hj
        cases r with
        | cancel => exact .inr List.mem_cons_self
        | resume =>
          by_contra open_
          rw [not_or] at open_
          refine (x.execution j).resume_ne_cancelled x.interpreter open_.1 ?_
          simpa only [Cohort.request, Execution.request, Function.update_self] using now
      · refine .inl ?_
        simpa only [Cohort.request, Function.update_of_ne (Ne.symm hj)] using now
    · exact .inr (List.mem_cons_of_mem _ later)

namespace Cohort

theorem after_concat (x : Cohort ι) (calls : List (ι × Request)) (call : ι × Request) :
    x.after (calls ++ [call]) = ((x.after calls).request call.1 call.2).2 := by
  simp only [Cohort.after, List.foldl_append, List.foldl_cons, List.foldl_nil]

theorem request_error {e : String}
    (h : (x.request k .resume).1 = .error e) :
    e = Execution.emptyStack ∧ (x.request k .resume).2.interpreter.machine.calls = [] ∧
      (x.request k .resume).2.execution k = .drained := by
  obtain ⟨rfl, drained, calls⟩ := (x.execution k).resume_error x.interpreter h
  refine ⟨rfl, calls, ?_⟩
  simpa only [Cohort.request, Execution.request, Function.update_self] using drained

theorem request_drained (h : x.execution k = .drained) :
    (x.request k .resume).1 = .ok .completed := by
  simp only [Cohort.request, Execution.request, h, Execution.resume]

end Cohort

theorem beside_of_abreast {ι : Type} {x : Cohort ι} {k : ι} {i : Interpreter (List String)}
    {p : Program} {N : Set String} {final alone : Machine (List String)} {L : Link} {left : Nat}
    (hi : i.setup.print = fun line out => out ++ [line]) (host : i.machine.world.host = [])
    (abreast : (x.execution k).Abreast i p final L x.interpreter.machine (x.output k) left)
    (root : L.root = alone.globals) (usable : L.usable L.root = N)
    (world : alone.world = final.world) {calls : List (ι × Request)}
    (cancelled : x.execution k = .ended .cancelled → (k, .cancel) ∈ calls) :
    x.Beside calls k N alone := by
  have ended {lines : List String} (h : final.Moved L x.interpreter.machine)
      (hl : final.world.host = i.setup.printed lines i.machine.world.host) :
      lines = alone.world.host ∧ alone.world.store.SameNames alone.globals N x.store := by
    rw [printed_append hi, host, List.nil_append] at hl
    rw [world]
    refine ⟨hl.symm, L, h.store, fun name hn => ?_⟩
    rw [← root]
    exact lookup?_moved h.store L.root_linked (usable ▸ hn)
  unfold Cohort.Beside
  generalize x.execution k = y, x.output k = lines at abreast cancelled ⊢
  cases abreast with
  | fresh | suspended => trivial
  | drained h hl => exact ended h hl
  | completed h hl => exact ended h hl
  | cancelled => exact cancelled rfl
  | failed _ he => exact he

end Calls

/-- Executions that share an interpreter without extensions, resumed and cancelled in any order. No
program declares a name global, and none uses a global name that another one assigns or defines. The
only thing through which an execution suffers from the others is the stack of calls: it fails to answer
only when its program has ended and no call is left to close, and is then completed when it is resumed
once more; and if its program is completed alone, it comes to the same output and the same values of its
names, unless it is cancelled or fails over the calls in progress. -/
theorem interleaving_apart {ι : Type} [DecidableEq ι] {budget : Int} {verbose : Bool}
    {i : Interpreter (List String)}
    (hi : Interpreter.create .empty (fun line out => out ++ [line]) budget verbose ⟨.empty, []⟩ = .ok i)
    {p : ι → Program} {N W : ι → Set String} (hp : Cohort.Separate p N W) (k : ι) :
    (∀ calls e,
      let x := (Cohort.start i p).after calls
      (x.request k .resume).1 = .error e → e = Execution.emptyStack ∧
        (x.request k .resume).2.interpreter.machine.calls = [] ∧
        ((x.request k .resume).2.request k .resume).1 = .ok .completed) ∧
    ∀ n, (i.run (fun _ w => w) (p k) n).execution = .ended .completed →
      ∃ bound, ∀ calls,
        let x := (Cohort.start i p).after calls
        x.Beside calls k (N k) (i.run (fun _ w => w) (p k) n).machine ∧
        (bound ≤ Cohort.resumes k calls → ∃ s, x.execution k = .ended s) := by
  refine ⟨fun calls e => ?_, fun n completed => ?_⟩
  · intro x he
    obtain ⟨rfl, empty, drained⟩ := Cohort.request_error he
    exact ⟨rfl, empty, Cohort.request_drained drained⟩
  · have hm := congrArg Interpreter.machine (Interpreter.create_eq hi)
    have setup := congrArg Interpreter.setup (Interpreter.create_eq hi)
    have hs : i.setup.services = .empty := congrArg Setup.services setup
    have print := congrArg Setup.print setup
    obtain ⟨final, len, completes, world⟩ := completes_of_run (i.setup.hooks_of_empty hs) completed
    have globals : (i.run (fun _ w => w) (p k) n).machine.globals = i.machine.globals :=
      i.run_machine (respects_globals i.setup) (fun _ _ => rfl) (p k) n
    obtain ⟨D, L, confined, tracked⟩ := tracked_start hp hm k completes
    refine ⟨len + 2, fun calls => ?_⟩
    obtain ⟨D', left, L', -, tracked', less⟩ :=
      tracked_after hs print hp calls confined tracked
    refine ⟨?_, fun enough => ?_⟩
    · refine beside_of_abreast print (hm ▸ rfl) tracked'.abreast (tracked'.root.trans globals.symm)
        tracked'.usable world fun h => ?_
      exact (after_cancelled calls h).resolve_left nofun
    · have none : left = 0 := by omega
      have abreast := tracked'.abreast
      rw [none] at abreast
      generalize ((Cohort.start i p).after calls).execution k = y,
        ((Cohort.start i p).after calls).output k = lines at abreast ⊢
      cases abreast with
      | completed | cancelled | failed => exact ⟨_, rfl⟩

/-- A program that sets a name of its own and prints it. -/
def teller (name text : String) : Program :=
  let here : Location := ⟨"teller", 1, 1, ""⟩
  ⟨here, [.assign here (.name here name) .set (.literal here (.str text)),
    .expr here (.call here (.name here "print") [.name here name] [])]⟩

def ownName : Bool → String
  | true => "x"
  | false => "y"

def tellers (k : Bool) : Program := teller (ownName k) "a"

theorem tellers_separate :
    Cohort.Separate tellers (fun k => {ownName k, "print"}) (fun k => {ownName k}) where
  within k := by
    intro s hs
    rcases List.mem_pair.mp hs with rfl | rfl
    · exact .assignName _ _ _ (.inl rfl) rfl (.literal _ _)
    · refine .expr _ (.call _ (.name _ (.inr rfl)) ?_ nofun)
      intro e he
      rw [List.mem_singleton.mp he]
      exact .name _ (.inl rfl)
  subset k := by
    rintro x rfl
    exact .inl rfl
  disjoint j k h := by
    rw [Set.disjoint_singleton_left]
    cases j <;> cases k <;> simp_all [ownName]

def brief : Interpreter (List String) :=
  ⟨⟨.empty, fun line out => out ++ [line], 4, false⟩, Interpreter.opening .empty ⟨.empty, []⟩, 0⟩

/-- The second teller is completed while the first one is under way, and closes its call. -/
def intrusion : List (Bool × Request) :=
  [(true, .resume), (false, .resume), (false, .resume), (true, .resume)]

theorem interleaving_apart_tellers :
    Interpreter.create .empty (fun line out => out ++ [line]) 4 false ⟨.empty, []⟩ = .ok brief ∧
    Cohort.Separate tellers (fun k => {ownName k, "print"}) (fun k => {ownName k}) ∧
    (brief.run (fun _ w => w) (tellers true) 2).execution = .ended .completed ∧
    let x := ((Cohort.start brief tellers).after intrusion).request true .resume
    x.1 = .error Execution.emptyStack ∧ (x.2.request true .resume).1 = .ok .completed ∧
      x.2.output true = ["a"] := by
  have created : Interpreter.create .empty (fun line out => out ++ [line]) 4 false ⟨.empty, []⟩ =
      .ok brief := rfl
  have alone : (brief.run (fun _ w => w) (tellers true) 2).execution = .ended .completed := by cbv
  have printed : (brief.run (fun _ w => w) (tellers true) 2).machine.world.host = ["a"] := by cbv
  have raised : (((Cohort.start brief tellers).after intrusion).request true .resume).1 =
      .error Execution.emptyStack := by cbv
  obtain ⟨raises, harmless⟩ := interleaving_apart created tellers_separate true
  obtain ⟨-, -, later⟩ := raises intrusion _ raised
  obtain ⟨_, beside⟩ := harmless 2 alone
  obtain ⟨-, -, drained⟩ := Cohort.request_error raised
  have stands := (beside (intrusion ++ [(true, .resume)])).1
  rw [Cohort.after_concat] at stands
  unfold Cohort.Beside at stands
  rw [drained, printed] at stands
  exact ⟨created, tellers_separate, alone, raised, later, stands.1⟩

end LoopScript
