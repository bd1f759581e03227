import LoopScript.Proofs.Execution.Finality
import LoopScript.Proofs.Execution.Trace
import LoopScript.Proofs.Machine.Grounding
import LoopScript.Proofs.Services.Provisions

/-!
Interpreters at work. Whatever executions share one, in whichever order they are resumed and cancelled,
its store is in order, and what is left of a suspended execution stands on it.
-/

namespace LoopScript

variable {σ : Type}

structure Machine.Grounded (m : Machine σ) : Prop where
  store : m.world.store.Grounded
  globals : m.globals < m.world.store.scopes.size

/-- What a run leaves of a machine. -/
structure Machine.Leaves (m n : Machine σ) : Prop where
  store : n.world.store.Grounded
  grows : m.world.store.Grows True n.world.store
  globals : n.globals = m.globals

namespace Machine

variable {m n k : Machine σ}

theorem Leaves.trans (h : m.Leaves n) (h' : n.Leaves k) : m.Leaves k where
  store := h'.store
  grows := h.grows.trans h'.grows
  globals := h'.globals.trans h.globals

theorem Grounded.leaves (h : m.Grounded) (left : m.Leaves n) : n.Grounded where
  store := left.store
  globals := left.globals ▸ left.grows.lt h.globals

end Machine

def Halt.Grounded (s : Store) : Halt σ → Prop
  | .pause _ r => r.Grounded s
  | _ => True

def Execution.Grounded (s : Store) : Execution σ → Prop
  | .suspended r => r.Grounded s
  | _ => True

theorem Execution.Grounded.mono {s t : Store} {x : Execution σ} (h : x.Grounded s)
    (grows : s.Grows True t) : x.Grounded t := by
  cases x with
  | suspended r => exact Resumption.Grounded.mono grows h
  | fresh | drained | ended => trivial

theorem respectsRuns_globals (setup : Setup σ) :
    setup.RespectsRuns fun m n => n.globals = m.globals where
  refl _ := rfl
  trans h h' := h'.trans h
  world _ _ _ := rfl
  current _ _ := rfl
  forced _ _ := rfl
  record _ _ := rfl
  enter _ _ _ _ _ := rfl
  exit _ _ _ _ := rfl
  start _ := rfl
  stop _ _ _ _ := rfl

section Runs

variable {setup : Setup σ} (hosts : setup.Grounds True) {m n : Machine σ}

theorem leaves_of_lays {α : Type} {x : Act σ α} (hm : m.world.store.Grounded)
    (hx : Act.Lays True m.world.store x)
    (same : Act.Keeps (fun m n => n.globals = m.globals) x) :
    Act.Ensures x m (fun _ n => m.Leaves n) fun _ n => m.Leaves n := by
  have both := (hx m hm (.refl True _)).and (same m)
  exact both.mono (fun _ _ h => ⟨h.1.1, h.1.2.1, h.2⟩) fun _ _ h => ⟨h.1.1, h.1.2, h.2⟩

include hosts

theorem step_grounded {c : Control} {v : Next σ} (hm : m.world.store.Grounded)
    (hc : c.Grounded m.world.store) (e : c.step setup m = .ok v n) :
    n.world.store.Grounded ∧ m.world.store.Grows True n.world.store ∧ v.Grounded n.world.store :=
  Act.ensures_of_ok (Act.grounds_step hosts hc (fun _ => trivial) m hm (.refl True _)) e

theorem run_grounded (count : Nat) {c : Control} (hm : m.world.store.Grounded)
    (hc : c.Grounded m.world.store) :
    let h := run setup count c m
    h.machine.world.store.Grounded ∧ m.world.store.Grows True h.machine.world.store ∧
      h.halt.Grounded h.machine.world.store := by
  have begun {m : Machine σ} {t : Task} (hm : m.world.store.Grounded)
      (ht : t.Grounded m.world.store) :=
    Act.grounds_begin hosts ht (fun _ => trivial) m hm (.refl True _)
  have stepped {m : Machine σ} {c : Control} (hm : m.world.store.Grounded)
      (hc : c.Grounded m.world.store) :=
    Act.grounds_step hosts hc (fun _ => trivial) m hm (.refl True _)
  fun_induction run setup count c m with
  | case1 count m t _ c m' e ih =>
    obtain ⟨hm', grows, hc'⟩ := Act.ensures_of_ok (begun hm hc) e
    obtain ⟨order, later, halt⟩ := ih hm' hc'
    exact ⟨order, grows.trans later, halt⟩
  | case2 count m t _ f m' e =>
    obtain ⟨order, grows⟩ := Act.ensures_of_error (begun hm hc) e
    exact ⟨order, grows, trivial⟩
  | case3 count m t => exact ⟨hm, .refl True _, hc⟩
  | case4 count m v c m' e ih =>
    obtain ⟨hm', grows, hc'⟩ := Act.ensures_of_ok (stepped hm hc) e
    obtain ⟨order, later, halt⟩ := ih hm' hc'
    exact ⟨order, grows.trans later, halt⟩
  | case5 count m v w r m' e => exact Act.ensures_of_ok (stepped hm hc) e
  | case6 count m v f m' e =>
    obtain ⟨order, grows, -⟩ := Act.ensures_of_ok (stepped hm hc) e
    exact ⟨order, grows, trivial⟩
  | case7 count m v f m' e =>
    obtain ⟨order, grows⟩ := Act.ensures_of_error (stepped hm hc) e
    exact ⟨order, grows, trivial⟩

theorem lays_openModule {s : Store} (p : Program) :
    Act.Lays True s (Execution.openModule setup p) := by
  refine Act.grounds_then (Act.lays_silent fun _ => rfl) fun _ => ?_
  exact Act.grounds_get fun n => Act.lays_emit hosts _

theorem opened_grounded {p : Program} {c : Control} (hm : m.Grounded)
    (h : Execution.openModule setup p m = .ok ⟨⟩ n)
    (hc : Act.continueWith (σ := σ) .program (Act.block p.statements n.globals .program) = .go c) :
    m.Leaves n ∧ c.Grounded n.world.store := by
  have same := Execution.keeps_openModule (respectsRuns_globals setup) p
  have left := Act.ensures_of_ok (leaves_of_lays hm.store (lays_openModule hosts p) same) h
  refine ⟨left, ?_⟩
  have here := (hm.leaves left).globals
  cases hp : p.statements with
  | nil =>
    rw [hp] at hc
    cases hc
    trivial
  | cons q qs =>
    rw [hp] at hc
    cases hc
    exact ⟨here, here, trivial⟩

theorem proceed_grounded (count : Nat) (hm : m.Grounded) {origin : Program ⊕ Resumption}
    (ho : origin.elim (fun _ => True) (·.Grounded m.world.store)) :
    let h := Execution.proceed setup count m origin
    m.Leaves h.machine ∧ h.halt.Grounded h.machine.world.store := by
  have same := Execution.proceed_respects (respectsRuns_globals setup) count m origin
  cases origin with
  | inl p =>
    have opening := leaves_of_lays hm.store (lays_openModule hosts p)
      (Execution.keeps_openModule (respectsRuns_globals setup) p)
    simp only [Execution.proceed] at same ⊢
    split at same
    · next f n e => exact ⟨Act.ensures_of_error opening e, trivial⟩
    · next n e =>
      have left := Act.ensures_of_ok (P := fun _ n => m.Leaves n) opening e
      have here := (hm.leaves left).globals
      cases hp : p.statements with
      | nil =>
        rw [hp] at same
        exact ⟨left, trivial⟩
      | cons q qs =>
        simp only [hp, Act.block] at same ⊢
        have first : (Control.task (.exec q n.globals (.fill (.rest qs n.globals) .program))).Grounded
            n.world.store := ⟨here, here, trivial⟩
        obtain ⟨order, grows, halt⟩ := run_grounded hosts count left.store first
        exact ⟨⟨order, left.grows.trans grows, same⟩, halt⟩
  | inr r =>
    simp only [Execution.proceed, resumeFrom_eq] at same ⊢
    have control := Act.grounds_resumption hosts ho trivial m hm.store (.refl True _)
    split at same
    · next c n e =>
      obtain ⟨order, grows, hc⟩ := Act.ensures_of_ok control e
      obtain ⟨order', grows', halt⟩ := run_grounded hosts count order hc
      exact ⟨⟨order', grows.trans grows', same⟩, halt⟩
    · next f n e =>
      obtain ⟨order, grows⟩ := Act.ensures_of_error control e
      exact ⟨⟨order, grows, same⟩, trivial⟩

theorem emit_leaves (hm : m.world.store.Grounded) (e : Event σ) :
    Act.Ensures (Act.emit setup e) m (fun _ n => m.Leaves n) fun _ n => m.Leaves n :=
  leaves_of_lays hm (Act.lays_emit hosts e)
    (Act.closed_emit (respectsRuns_globals setup).toRespects.closed e)

theorem report_leaves (hm : m.world.store.Grounded) (f : Fault) :
    m.Leaves (Execution.report setup f m).2 := by
  have told := emit_leaves hosts hm (.onError (Execution.errorOf m f))
  simp only [Execution.report]
  split
  · next e => exact Act.ensures_of_ok (P := fun _ n => m.Leaves n) told e
  · next e => exact Act.ensures_of_error told e
  · next e => exact Act.ensures_of_error told e

theorem settle_grounded {h : Halt σ} (hm : m.world.store.Grounded)
    (hh : h.Grounded m.world.store) :
    let left := Execution.settle setup h m
    m.Leaves left.2.2 ∧ left.2.1.Grounded left.2.2.world.store := by
  have same : m.Leaves m := ⟨hm, .refl True _, rfl⟩
  cases h with
  | pause w r => cases w <;> exact ⟨same, hh⟩
  | failed f => exact ⟨report_leaves hosts hm f, trivial⟩
  | finished f =>
    cases f with
    | broken | continued | returned v => exact ⟨report_leaves hosts hm _, trivial⟩
    | normal =>
      have told := emit_leaves hosts hm .programEnd
      simp only [Execution.settle, Execution.close]
      split
      · next e => exact ⟨Act.ensures_of_error told e, trivial⟩
      · next n e =>
        have left := Act.ensures_of_ok (P := fun _ n => m.Leaves n) told e
        split
        · exact ⟨left, trivial⟩
        · exact ⟨⟨left.store, left.grows, left.globals⟩, trivial⟩

end Runs

namespace Interpreter

variable {i i₀ : Interpreter σ} {xs : List (Execution σ)} {x : Execution σ}

theorem request_grounded (hosts : i.setup.Grounds True) (hm : i.machine.Grounded)
    (hx : x.Grounded i.machine.world.store) (r : Request) :
    let left := x.request i r
    left.2.2.setup = i.setup ∧ i.machine.Leaves left.2.2.machine ∧
      left.2.1.Grounded left.2.2.machine.world.store := by
  have same : i.machine.Leaves i.machine := ⟨hm.store, .refl True _, rfl⟩
  have advanced (origin : Program ⊕ Resumption)
      (ho : origin.elim (fun _ => True) (·.Grounded i.machine.world.store)) :
      let left := Execution.advance i origin
      i.machine.Leaves left.2.2.machine ∧ left.2.1.Grounded left.2.2.machine.world.store := by
    obtain ⟨left, halt⟩ := proceed_grounded hosts i.count hm ho
    obtain ⟨left', suspended⟩ := settle_grounded hosts left.store halt
    exact ⟨left.trans left', suspended⟩
  cases r with
  | cancel => cases x <;> exact ⟨rfl, same, trivial⟩
  | resume =>
    cases x with
    | fresh p => exact ⟨rfl, advanced (.inl p) trivial⟩
    | suspended r => exact ⟨rfl, advanced (.inr r) hx⟩
    | drained | ended s => exact ⟨rfl, same, trivial⟩

/-- An interpreter and the executions on it, as calls of the host leave them: programs are loaded, and
executions resumed and cancelled in any order. Between two calls the host may change the world in the
ways that `H` allows. -/
inductive Hosts (H : World σ → World σ → Prop) (i₀ : Interpreter σ) :
    Interpreter σ → List (Execution σ) → Prop where
  | start : Hosts H i₀ i₀ []
  | load {i : Interpreter σ} {xs : List (Execution σ)} (h : Hosts H i₀ i xs) (p : Program) :
      Hosts H i₀ i (xs ++ [.fresh p])
  | call {i : Interpreter σ} {xs : List (Execution σ)} {k : Nat} {x : Execution σ}
      (h : Hosts H i₀ i xs) (hx : xs[k]? = some x) (r : Request) :
      Hosts H i₀ (x.request i r).2.2 (xs.set k (x.request i r).2.1)
  | host {i : Interpreter σ} {xs : List (Execution σ)} (h : Hosts H i₀ i xs) {w : World σ}
      (hw : H i.machine.world w) :
      Hosts H i₀ { i with machine := { i.machine with world := w } } xs

/-- A change of the world that keeps the store in order. -/
def Orderly (w u : World σ) : Prop :=
  w.store.Grounded → u.store.Grounded ∧ w.store.Grows True u.store

theorem hosts_grounded (hosts : i₀.setup.Grounds True) (hm : i₀.machine.Grounded)
    (h : Hosts Orderly i₀ i xs) :
    i.setup = i₀.setup ∧ i.machine.Grounded ∧ ∀ x ∈ xs, x.Grounded i.machine.world.store := by
  induction h with
  | start => exact ⟨rfl, hm, nofun⟩
  | load h p ih =>
    obtain ⟨setup, machine, stands⟩ := ih
    exact ⟨setup, machine, List.forall_mem_append.mpr ⟨stands, List.forall_mem_singleton.mpr trivial⟩⟩
  | @call i xs k x h hx r ih =>
    obtain ⟨setup, machine, stands⟩ := ih
    obtain ⟨setup', left, stands'⟩ :=
      request_grounded (setup ▸ hosts) machine (stands x (List.mem_of_getElem? hx)) r
    refine ⟨setup'.trans setup, machine.leaves left, fun y hy => ?_⟩
    rcases List.mem_or_eq_of_mem_set hy with hy | rfl
    · exact (stands y hy).mono left.grows
    · exact stands'
  | @host i xs h w hw ih =>
    obtain ⟨setup, machine, stands⟩ := ih
    obtain ⟨order, grows⟩ := hw machine.store
    exact ⟨setup, ⟨order, grows.lt machine.globals⟩, fun x hx => (stands x hx).mono grows⟩

end Interpreter

section Opening

variable {services : Services σ} {world : World σ}

theorem members_keyed (s : Store) {members : Table String Value} (h : members.keys.Nodup) :
    s.Keyed (members.map fun (n, v) => (.str n, v)) where
  hashable e he := by
    obtain ⟨member, -, rfl⟩ := List.mem_map.mp he
    rfl
  distinct := by
    simp only [Table.Distinct, List.pairwise_map]
    have names : members.Pairwise fun e f => e.1 ≠ f.1 := List.pairwise_map.mp h
    apply names.imp
    intro e f differ
    change (e.1 == f.1) = false
    exact beq_eq_false_iff_ne.mpr differ

/-- A new interpreter is in order, as the members of an enumeration have different names. -/
theorem opening_grounded (sound : services.Sound) (hw : world.store.Grounded) :
    (Interpreter.opening services world).Grounded := by
  have objects := Interpreter.globalObjects_induction (s := world.store)
    (P := fun x => x.2.Grounded) hw (fun _ _ hx => Store.grounded_alloc hx trivial)
    (fun _ e he hx => Store.grounded_alloc hx (members_keyed _ (sound.members e he).1))
    fun _ _ _ hx => hx
  constructor
  · exact Store.grounded_openScope objects none _
  · simp [Interpreter.opening, Store.openScope]

theorem create_grounded {print : String → σ → σ} {budget : Int} {verbose : Bool}
    {i : Interpreter σ} (h : Interpreter.create services print budget verbose world = .ok i)
    (sound : services.Sound) (hw : world.store.Grounded) : i.machine.Grounded := by
  rw [Interpreter.create_eq h]
  exact opening_grounded sound hw

end Opening

namespace Execution

/-- The controls that a resumption comes to as far as its budget allows, and the machines on which it
does. -/
inductive Comes (setup : Setup σ) (m : Machine σ) : Execution σ → Control → Machine σ → Prop where
  | fresh {p : Program} {n : Machine σ} {c : Control} (h : openModule setup p m = .ok ⟨⟩ n)
      (hc : Act.continueWith (σ := σ) .program (Act.block p.statements n.globals .program) = .go c) :
      Comes setup m (.fresh p) c n
  | suspended {r : Resumption} {n : Machine σ} {c : Control} (h : r.control setup m = .ok c n) :
      Comes setup m (.suspended r) c n
  | step {x : Execution σ} {c c' : Control} {n n' : Machine σ} (h : Comes setup m x c n)
      (hc : c.step setup n = .ok (.go c') n') : Comes setup m x c' n'

theorem comes_grounded {setup : Setup σ} (hosts : setup.Grounds True) {m n : Machine σ}
    {x : Execution σ} {c : Control} (hm : m.Grounded) (hx : x.Grounded m.world.store)
    (h : Comes setup m x c n) : n.world.store.Grounded ∧ c.Grounded n.world.store := by
  induction h with
  | fresh h hc =>
    obtain ⟨left, stands⟩ := opened_grounded hosts hm h hc
    exact ⟨left.store, stands⟩
  | suspended h =>
    have control := Act.grounds_resumption hosts hx trivial m hm.store (.refl True _)
    obtain ⟨order, -, stands⟩ := Act.ensures_of_ok control h
    exact ⟨order, stands⟩
  | step h hc ih =>
    obtain ⟨order, -, stands⟩ := step_grounded hosts (ih hx).1 (ih hx).2 hc
    exact ⟨order, stands⟩

end Execution

end LoopScript
