import LoopScript.Proofs.Execution.Grounded
import LoopScript.Proofs.Execution.Sameness
import LoopScript.Proofs.Machine.Realm
import LoopScript.Proofs.Services.Globals

/-!
The environments of a run. Whatever a run reaches, the scopes around it end with that of the
globals, unless extensions have registered functions of an earlier run, and an assignment changes
one binding alone.
-/

namespace LoopScript

variable {σ : Type}

namespace Store

variable {s t : Store} {i o r : ScopeId} {name other : String} {v : Value}

/-- The outermost of the scopes around a scope. -/
inductive Outermost (s : Store) : ScopeId → ScopeId → Prop where
  | here {i : ScopeId} (h : (s.scope i).parent = none) : Outermost s i i
  | around {i p r : ScopeId} (h : (s.scope i).parent = some p) (hr : Outermost s p r) :
      Outermost s i r

/-- The nearest scope that binds a name, if any does. -/
inductive Nearest (s : Store) (name : String) : ScopeId → Option ScopeId → Prop where
  | here {i : ScopeId} (h : (s.scope i).bindings.has name = true) : Nearest s name i (some i)
  | nowhere {i : ScopeId} (h : (s.scope i).bindings.has name = false)
      (hp : (s.scope i).parent = none) : Nearest s name i none
  | around {i p : ScopeId} {o : Option ScopeId} (h : (s.scope i).bindings.has name = false)
      (hp : (s.scope i).parent = some p) (hn : Nearest s name p o) : Nearest s name i o

/-- In the second store one name is bound to a value in one scope, and all else is as in the first.
No other name is seen differently from any scope. -/
structure Rebinds (s t : Store) (o : ScopeId) (name : String) (v : Value) : Prop where
  objects : t.objects = s.objects
  scopes : t.scopes.size = s.scopes.size
  parents : ∀ i, (t.scope i).parent = (s.scope i).parent
  bound : (t.scope o).bindings.get? name = some v
  others : ∀ i other, (i, other) ≠ (o, name) →
    (t.scope i).bindings.get? other = (s.scope i).bindings.get? other
  lookups : ∀ i other, other ≠ name → t.lookup i other = s.lookup i other

theorem Outermost.top (h : s.Outermost i r) : (s.scope r).parent = none := by
  induction h with
  | here h => exact h
  | around _ _ ih => exact ih

theorem get?_define (ho : o < s.scopes.size) {i : ScopeId} {other : String}
    (differ : (i, other) ≠ (o, name)) :
    ((s.define o name v).scope i).bindings.get? other = (s.scope i).bindings.get? other := by
  rw [scope_define ho]
  split
  · next e =>
    apply Table.get?_put_of_ne
    rintro rfl
    exact differ (e ▸ rfl)
  · rfl

theorem rebinds_define (ho : o < s.scopes.size) (name : String) (v : Value) :
    s.Rebinds (s.define o name v) o name v where
  objects := rfl
  scopes := by simp [define]
  parents := parent_define ho
  bound := by
    rw [scope_define ho, if_pos rfl]
    exact Table.get?_put_self _ _ _
  others _ _ differ := get?_define ho differ
  lookups i other ne := by
    have same (k : ScopeId) : ((s.define o name v).scope k).bindings.get? other =
        (s.scope k).bindings.get? other := get?_define ho fun e => ne (Prod.mk.inj e).2
    have owner : (s.define o name v).owner? i other = s.owner? i other := by
      apply owner?_congr
      · exact fun k _ => parent_define ho k
      · intro k _
        rw [Table.has, Table.has, same]
    simp only [lookup, lookup?, owner, same]

theorem Rebinds.lookup_self (h : s.Rebinds t o name v) : t.lookup o name = .ok v := by
  have here : (t.scope o).bindings.has name = true := by
    rw [Table.has, h.bound]
    rfl
  simp [lookup, lookup?, owner?_of_has here, h.bound]

theorem lookup_assign (hi : i < s.scopes.size) (name : String) (v : Value) :
    (s.assign i name v).lookup i name = .ok v := by
  have visible : ¬ s.Shadowed [] i name := fun h => List.not_mem_nil h.1
  have found := (reads_written hi [] name v).plain visible
  simp only [lookup]
  rw [show s.assign i name v = s.written [] i name v by simp [assign, written, target], found]

end Store

namespace Realm

variable {D : Realm σ} {s : Store} {i : ScopeId} (own : D.Rules s)
  (hi : D.Has s.scopes.size (.scope i))

include own hi

theorem parent_of_none (h : s.parent? i = none) : (s.scope i).parent = none := by
  -- the search for a name stops at a parent that is not older, and within the realm there is none
  cases hp : (s.scope i).parent with
  | none => rfl
  | some p => simp [Store.parent?, hp, own.outer i p hi hp] at h

theorem parent_of_some {p : { p : ScopeId // p < i }} (h : s.parent? i = some p) :
    (s.scope i).parent = some p.1 := by
  cases hp : (s.scope i).parent with
  | none => simp [Store.parent?, hp] at h
  | some q =>
    simp only [Store.parent?, hp, own.outer i q hi hp, dite_true, Option.some.injEq] at h
    rw [← h]

theorem outermost_root : s.Outermost i (s.root i) := by
  induction i using s.outward with
  | top i h =>
    rw [Store.root_of_none h]
    exact .here (parent_of_none own hi h)
  | inner i p h ih =>
    rw [Store.root_of_parent h]
    exact .around (parent_of_some own hi h) (ih (own.parent? hi h))

theorem nearest_owner (name : String) : s.Nearest name i (s.owner? i name) := by
  induction i using s.outward with
  | top i h =>
    cases hb : (s.scope i).bindings.has name with
    | true =>
      rw [Store.owner?_of_has hb]
      exact .here hb
    | false =>
      rw [Store.owner?_of_none hb h]
      exact .nowhere hb (parent_of_none own hi h)
  | inner i p h ih =>
    cases hb : (s.scope i).bindings.has name with
    | true =>
      rw [Store.owner?_of_has hb]
      exact .here hb
    | false =>
      rw [Store.owner?_of_parent hb h]
      exact .around hb (parent_of_some own hi h) (ih (own.parent? hi h))

theorem root_le_globals : s.root i ≤ D.globals := by
  by_contra later
  exact own.inner _ (own.root hi) (Nat.lt_of_not_le later) (outermost_root own hi).top

end Realm

@[simp] def Halt.nodes : Halt σ → List Node
  | .pause _ r => r.nodes
  | .finished _ | .failed _ => []

def Execution.nodes : Execution σ → List Node
  | .suspended r => r.nodes
  | .fresh _ | .drained | .ended _ => []

/-- The values that extensions have registered. -/
def Services.nodes (services : Services σ) : List Node :=
  services.enums.flatMap (fun e => Bindings.nodes e.2) ++ Bindings.nodes services.constants

namespace Realm

variable {D : Realm σ} {setup : Setup σ} {m n : Machine σ}

/-- A realm becomes another one when the host changes the world. What belonged to it belongs to it
still, and no scope older than the globals is taken in. -/
structure Passes (D D' : Realm σ) (w u : World σ) : Prop where
  houses : D'.Houses u
  kept : ∀ x, D.Has w.store.scopes.size x → D'.Has u.store.scopes.size x
  globals : D'.globals = D.globals
  held : D'.held = D.held
  older : ∀ i < D.globals, i ∈ D'.scopes → i ∈ D.scopes

theorem derives_openModule (hosts : D.Hosts setup) (p : Program) :
    D.Derives [] (Execution.openModule setup p) fun _ => [] := by
  have started : D.Derives [] (modify fun m : Machine σ =>
      { m with calls := [⟨"<module>", m.globals, m.issued, none⟩], issued := m.issued + 1 })
      fun _ => [] := by
    intro m own _
    have globals := (holds_cons.mp own.nodes).1
    exact ⟨⟨⟨own.houses, own.globals, by simp [Machine.nodes, globals]⟩, le_rfl⟩, holds_nil⟩
  refine derives_bind started (by simp) fun _ => derives_get fun m => ?_
  exact (derives_emit hosts _).given (by simp +contextual [Machine.nodes])

section Runs

variable (hosts : D.Hosts setup)

include hosts

theorem run_stays (count : Nat) {c : Control} (own : D.Governs m) (hc : D.Holds m.extent c.nodes) :
    let h := run setup count c m
    D.Stays m h.machine ∧ D.Holds h.machine.extent h.halt.nodes := by
  fun_induction run setup count c m with
  | case1 count m t _ c m' e ih =>
    obtain ⟨stays, held⟩ := Act.ensures_of_ok (derives_begin hosts t m own hc) e
    obtain ⟨later, halt⟩ := ih stays.governs held
    exact ⟨stays.trans later, halt⟩
  | case2 count m t _ f m' e =>
    exact ⟨Act.ensures_of_error (derives_begin hosts t m own hc) e, holds_nil⟩
  | case3 count m t => exact ⟨own.stays, hc⟩
  | case4 count m v c m' e ih =>
    obtain ⟨stays, held⟩ := Act.ensures_of_ok (derives_step hosts (.move v) m own hc) e
    obtain ⟨later, halt⟩ := ih stays.governs held
    exact ⟨stays.trans later, halt⟩
  | case5 count m v w r m' e => exact Act.ensures_of_ok (derives_step hosts (.move v) m own hc) e
  | case6 count m v f m' e =>
    exact ⟨(Act.ensures_of_ok (derives_step hosts (.move v) m own hc) e).1, holds_nil⟩
  | case7 count m v f m' e =>
    exact ⟨Act.ensures_of_error (derives_step hosts (.move v) m own hc) e, holds_nil⟩

theorem opened_stays {p : Program} {c : Control} (own : D.Governs m)
    (h : Execution.openModule setup p m = .ok ⟨⟩ n)
    (hc : Act.continueWith (σ := σ) .program (Act.block p.statements n.globals .program) = .go c) :
    D.Stays m n ∧ D.Holds n.extent c.nodes := by
  have stays := (Act.ensures_of_ok (derives_openModule hosts p m own holds_nil) h).1
  have globals := (holds_cons.mp stays.governs.nodes).1
  refine ⟨stays, ?_⟩
  cases hp : p.statements with
  | nil =>
    rw [hp] at hc
    cases hc
    exact holds_nil
  | cons q qs =>
    rw [hp] at hc
    cases hc
    simp [globals]

theorem proceed_stays (count : Nat) (own : D.Governs m) {origin : Program ⊕ Resumption}
    (ho : origin.elim (fun _ => True) (fun r => D.Holds m.extent r.nodes)) :
    let h := Execution.proceed setup count m origin
    D.Stays m h.machine ∧ D.Holds h.machine.extent h.halt.nodes := by
  cases origin with
  | inl p =>
    have opening := derives_openModule hosts p m own holds_nil
    simp only [Execution.proceed]
    split
    · next f n e => exact ⟨Act.ensures_of_error opening e, holds_nil⟩
    · next n e =>
      have stays := (Act.ensures_of_ok opening e).1
      have globals := (holds_cons.mp stays.governs.nodes).1
      cases hp : p.statements with
      | nil => exact ⟨stays, holds_nil⟩
      | cons q qs =>
        have first : D.Holds n.extent
            (Control.task (.exec q n.globals (.fill (.rest qs n.globals) .program))).nodes := by
          simp [globals]
        obtain ⟨later, halt⟩ := run_stays hosts count stays.governs first
        exact ⟨stays.trans later, halt⟩
  | inr r =>
    have control := derives_resumption hosts r m own ho
    simp only [Execution.proceed, resumeFrom_eq]
    split
    · next c n e =>
      obtain ⟨stays, held⟩ := Act.ensures_of_ok control e
      obtain ⟨later, halt⟩ := run_stays hosts count stays.governs held
      exact ⟨stays.trans later, halt⟩
    · next f n e => exact ⟨Act.ensures_of_error control e, holds_nil⟩

theorem report_stays (own : D.Governs m) (f : Fault) :
    D.Stays m (Execution.report setup f m).2 := by
  have told := derives_emit hosts (.onError (Execution.errorOf m f)) m own holds_nil
  simp only [Execution.report]
  split
  · next e => exact (Act.ensures_of_ok told e).1
  · next e => exact Act.ensures_of_error told e
  · next e => exact Act.ensures_of_error told e

theorem settle_stays {h : Halt σ} (own : D.Governs m) (hh : D.Holds m.extent h.nodes) :
    let left := Execution.settle setup h m
    D.Stays m left.2.2 ∧ D.Holds left.2.2.extent left.2.1.nodes := by
  cases h with
  | pause w r => cases w <;> exact ⟨own.stays, hh⟩
  | failed f => exact ⟨report_stays hosts own f, holds_nil⟩
  | finished f =>
    cases f with
    | broken | continued | returned v => exact ⟨report_stays hosts own _, holds_nil⟩
    | normal =>
      have told := derives_emit hosts .programEnd m own holds_nil
      simp only [Execution.settle, Execution.close]
      split
      · next e => exact ⟨Act.ensures_of_error told e, holds_nil⟩
      · next n e =>
        have stays := (Act.ensures_of_ok told e).1
        have nodes := stays.governs.nodes
        split
        · exact ⟨stays, holds_nil⟩
        · next a calls hcalls =>
          simp only [Machine.nodes, hcalls, List.map_cons, holds_cons] at nodes
          have left := holds_cons.mpr ⟨nodes.1, nodes.2.2⟩
          exact ⟨⟨⟨stays.governs.houses, stays.governs.globals, left⟩, stays.grows⟩, holds_nil⟩

theorem comes_stays {x : Execution σ} {c : Control} (own : D.Governs m)
    (hx : D.Holds m.extent x.nodes) (h : Execution.Comes setup m x c n) :
    D.Stays m n ∧ D.Holds n.extent c.nodes := by
  induction h with
  | fresh h hc => exact opened_stays hosts own h hc
  | suspended h => exact Act.ensures_of_ok (derives_resumption hosts _ m own hx) h
  | step h hc ih =>
    obtain ⟨stays, held⟩ := ih hx
    obtain ⟨later, held⟩ := Act.ensures_of_ok (derives_step hosts _ _ stays.governs held) hc
    exact ⟨stays.trans later, held⟩

end Runs

end Realm

namespace Interpreter

open Realm

variable {D : Realm σ} {i i₀ : Interpreter σ} {xs : List (Execution σ)} {x : Execution σ}
  {services : Services σ} {world : World σ}

theorem request_stays (hosts : D.Hosts i.setup) (own : D.Governs i.machine)
    (hx : D.Holds i.machine.extent x.nodes) (r : Request) :
    let left := x.request i r
    left.2.2.setup = i.setup ∧ D.Stays i.machine left.2.2.machine ∧
      D.Holds left.2.2.machine.extent left.2.1.nodes := by
  have advanced (origin : Program ⊕ Resumption)
      (ho : origin.elim (fun _ => True) (fun r => D.Holds i.machine.extent r.nodes)) :
      let left := Execution.advance i origin
      D.Stays i.machine left.2.2.machine ∧ D.Holds left.2.2.machine.extent left.2.1.nodes := by
    obtain ⟨stays, halt⟩ := proceed_stays hosts i.count own ho
    obtain ⟨later, suspended⟩ := settle_stays hosts stays.governs halt
    exact ⟨stays.trans later, suspended⟩
  cases r with
  | cancel => cases x <;> exact ⟨rfl, own.stays, holds_nil⟩
  | resume =>
    cases x with
    | fresh p => exact ⟨rfl, advanced (.inl p) trivial⟩
    | suspended r => exact ⟨rfl, advanced (.inr r) hx⟩
    | drained | ended s => exact ⟨rfl, own.stays, holds_nil⟩

/-- What a new interpreter makes over a store is within the realm, and no scope is made. -/
structure Furnishes (D : Realm σ) (s : Store) (x : Table String Value × Store) : Prop where
  rules : D.Rules x.2
  scopes : x.2.scopes = s.scopes
  names : D.Holds s.scopes.size (Bindings.nodes x.1)

theorem Furnishes.bind {s : Store} {x : Table String Value × Store} (h : Furnishes D s x)
    (name : String) {o : Obj} (ho : D.Holds s.scopes.size o.nodes) :
    Furnishes D s (x.1.put name (x.2.alloc o).1, (x.2.alloc o).2) := by
  have object : D.Holds s.scopes.size (x.2.alloc o).1.nodes :=
    holds_cons.mpr ⟨h.rules.objects _ le_rfl, holds_nil⟩
  exact ⟨h.rules.alloc (h.scopes ▸ ho), h.scopes, holds_bindings_put h.names name object⟩

theorem globalObjects_furnishes {s : Store} (own : D.Rules s)
    (registered : D.Holds s.scopes.size services.nodes) :
    Furnishes D s (globalObjects services s) := by
  obtain ⟨members, constants⟩ := holds_append.mp registered
  rw [holds_flatMap] at members
  apply globalObjects_induction (P := Furnishes D s) ⟨own, rfl, holds_bindings_nil⟩
  · exact fun x name hx => hx.bind name holds_nil
  · intro x e he hx
    have values := holds_bindings.mp (members e he)
    refine hx.bind e.1 (holds_entries.mpr fun d hd => ?_)
    obtain ⟨member, hm, rfl⟩ := List.mem_map.mp hd
    exact ⟨holds_nil, values member hm⟩
  · intro x e he hx
    have value := holds_bindings.mp constants e he
    exact ⟨hx.rules, hx.scopes, holds_bindings_put hx.names e.1 value⟩

theorem opening_governed (fresh : D.globals = world.store.scopes.size) (own : D.Houses world)
    (registered : D.Holds world.store.scopes.size services.nodes) :
    D.Governs (opening services world) ∧
      world.store.scopes.size ≤ (opening services world).extent := by
  obtain ⟨rules, scopes, names⟩ := globalObjects_furnishes own.rules registered
  -- no scope has been made so far, so that of the globals comes right after the older ones
  have same := congrArg Array.size scopes
  have opened : D.Rules (opening services world).world.store :=
    rules.openScope (by simp) (fun _ => same.trans fresh.symm) (same ▸ names)
  have size : (opening services world).extent = world.store.scopes.size + 1 := by
    rw [← same]
    exact Array.size_push _
  have here : D.Has (opening services world).extent (.scope (opening services world).globals) :=
    ⟨own.rules.scopes _ same.ge, size ▸ Nat.lt_succ_of_le same.le⟩
  have grows : world.store.scopes.size ≤ (opening services world).extent := size ▸ Nat.le_succ _
  exact ⟨⟨⟨opened, own.host.mono grows⟩, same.trans fresh.symm, holds_cons.mpr ⟨here, holds_nil⟩⟩,
    grows⟩

/-- An interpreter and the executions on it, as calls of the host leave them, with the realm that
they are in. Programs are loaded, and executions resumed and cancelled in any order. Between two
calls the host may do other things, such as running programs on other interpreters. -/
inductive ServesIn (D₀ : Realm σ) (i₀ : Interpreter σ) :
    Realm σ → Interpreter σ → List (Execution σ) → Prop where
  | start : ServesIn D₀ i₀ D₀ i₀ []
  | load {D : Realm σ} {i : Interpreter σ} {xs : List (Execution σ)} (h : ServesIn D₀ i₀ D i xs)
      (p : Program) : ServesIn D₀ i₀ D i (xs ++ [.fresh p])
  | call {D : Realm σ} {i : Interpreter σ} {xs : List (Execution σ)} {k : Nat} {x : Execution σ}
      (h : ServesIn D₀ i₀ D i xs) (hx : xs[k]? = some x) (r : Request) :
      ServesIn D₀ i₀ D (x.request i r).2.2 (xs.set k (x.request i r).2.1)
  | host {D D' : Realm σ} {i : Interpreter σ} {xs : List (Execution σ)} (h : ServesIn D₀ i₀ D i xs)
      {w : World σ} (passes : D.Passes D' i.machine.world w) (hosts : D'.Hosts i.setup) :
      ServesIn D₀ i₀ D' { i with machine := { i.machine with world := w } } xs

/-- Nothing that an interpreter or an execution on it holds on to is outside of a realm. -/
structure Within (D : Realm σ) (i : Interpreter σ) (xs : List (Execution σ)) : Prop where
  hosts : D.Hosts i.setup
  governs : D.Governs i.machine
  services : D.Holds i.machine.extent i.setup.services.nodes
  executions : ∀ x ∈ xs, D.Holds i.machine.extent x.nodes

variable {D₀ : Realm σ}

theorem serves_within (start : Within D₀ i₀ []) (h : ServesIn D₀ i₀ D i xs) : Within D i xs := by
  induction h with
  | start => exact start
  | load h p ih =>
    refine ⟨ih.hosts, ih.governs, ih.services, List.forall_mem_append.mpr ⟨ih.executions, ?_⟩⟩
    exact List.forall_mem_singleton.mpr holds_nil
  | @call D i xs k x h hx r ih =>
    obtain ⟨setup, stays, held⟩ :=
      request_stays ih.hosts ih.governs (ih.executions x (List.mem_of_getElem? hx)) r
    refine ⟨setup ▸ ih.hosts, stays.governs, setup ▸ ih.services.mono stays.grows, fun y hy => ?_⟩
    rcases List.mem_or_eq_of_mem_set hy with hy | rfl
    · exact (ih.executions y hy).mono stays.grows
    · exact held
  | @host D D' i xs h w passes hosts ih =>
    -- what the interpreter held on to is moved to the new realm, whatever else the host has made
    have kept {l : List Node} (hl : D.Holds i.machine.extent l) : D'.Holds w.store.scopes.size l :=
      fun x hx => passes.kept x (hl x hx)
    have globals := ih.governs.globals.trans passes.globals.symm
    exact ⟨hosts, ⟨passes.houses, globals, kept ih.governs.nodes⟩, kept ih.services,
      fun x hx => kept (ih.executions x hx)⟩

theorem serves_older (h : ServesIn D₀ i₀ D i xs) :
    D.globals = D₀.globals ∧ D.held = D₀.held ∧
      ∀ j < D₀.globals, j ∈ D.scopes → j ∈ D₀.scopes := by
  induction h with
  | start => exact ⟨rfl, rfl, fun _ _ h => h⟩
  | load h p ih => exact ih
  | call h hx r ih => exact ih
  | host h passes hosts ih =>
    obtain ⟨globals, held, older⟩ := ih
    refine ⟨passes.globals.trans globals, passes.held.trans held, fun j hj belongs => ?_⟩
    exact older j hj (passes.older j (globals ▸ hj) belongs)

/-- What can be named where a machine of the interpreter is found: what extensions have registered,
what the executions and the host hold on to, and what the machine does. -/
def named (i : Interpreter σ) (xs : List (Execution σ)) (held : σ → List Node) (m : Machine σ) :
    List Node :=
  i.setup.services.nodes ++ xs.flatMap Execution.nodes ++ held m.world.host ++ m.nodes

/-- The machines that the host, or one of the executions, finds an interpreter in, with the nodes that
can be named there. -/
inductive Visits (i : Interpreter σ) (xs : List (Execution σ)) (held : σ → List Node) :
    List Node → Machine σ → Prop where
  | idle : Visits i xs held (i.named xs held i.machine) i.machine
  | running {x : Execution σ} (hx : x ∈ xs) {c : Control} {m : Machine σ}
      (h : x.Comes i.setup i.machine c m) : Visits i xs held (i.named xs held m ++ c.nodes) m

theorem visits_within (within : Within D i xs) {l : List Node} {m : Machine σ}
    (visit : i.Visits xs D.held l m) : D.Governs m ∧ D.Holds m.extent l := by
  have known {m : Machine σ} (stays : D.Stays i.machine m) :
      D.Holds m.extent (i.named xs D.held m) := by
    have executions := (holds_flatMap.mpr within.executions).mono stays.grows
    have services := within.services.mono stays.grows
    simp only [named, holds_append]
    exact ⟨⟨⟨services, executions⟩, stays.governs.houses.host⟩, stays.governs.nodes⟩
  cases visit with
  | idle => exact ⟨within.governs, known within.governs.stays⟩
  | running hx comes =>
    obtain ⟨stays, hc⟩ := comes_stays within.hosts within.governs (within.executions _ hx) comes
    exact ⟨stays.governs, holds_append.mpr ⟨known stays, hc⟩⟩

/-- Whatever environment a run reaches, the scopes around it end with that of the globals, or with
one of an earlier run that registered values reach. An assignment in it changes one binding: that of
the name in the nearest scope that has one, or else a new one in the environment itself. -/
theorem assignment_rebinds_one {print : String → σ → σ} {budget : Int} {verbose : Bool}
    (created : create services print budget verbose world = .ok i₀)
    (fresh : D₀.globals = world.store.scopes.size) (own : D₀.Houses world)
    (registered : D₀.Holds world.store.scopes.size services.nodes) (hosts : D₀.Hosts i₀.setup)
    (h : ServesIn D₀ i₀ D i xs) {l : List Node} {m : Machine σ} (visit : i.Visits xs D₀.held l m)
    {env : ScopeId} (reached : m.world.store.Reach l (.scope env)) :
    let s := m.world.store
    ∃ top, s.Outermost env top ∧
      (top = m.globals ∨ top ∈ D₀.scopes ∧ top < world.store.scopes.size) ∧
      ∀ name v,
        (∃ o, s.Nearest name env o ∧ s.Rebinds (s.assign env name v) (o.getD env) name v ∧
          (s.assign env name v).lookup env name = .ok v) ∧
        s.Rebinds (s.setGlobal env name v) top name v ∧
          (s.setGlobal env name v).lookup top name = .ok v := by
  rw [create_eq created] at hosts h
  obtain ⟨opened, grows⟩ := opening_governed fresh own registered
  have start := Within.mk hosts opened (registered.mono grows) (List.forall_mem_nil _)
  obtain ⟨globals, kept, older⟩ := serves_older h
  rw [← kept] at visit
  obtain ⟨governs, held⟩ := visits_within (serves_within start h) visit
  have rules := governs.rules
  have here := rules.reach held reached
  have outermost := rules.root here
  refine ⟨_, outermost_root rules here, ?_, fun name v => ⟨?_, ?_⟩⟩
  · -- a younger scope would have a parent, and an older one was in the realm from the start
    rcases Nat.lt_or_eq_of_le (root_le_globals rules here) with earlier | same
    · rw [globals] at earlier
      exact .inr ⟨older _ earlier outermost.1, fresh ▸ earlier⟩
    · exact .inl (same.trans governs.globals.symm)
  · refine ⟨_, nearest_owner rules here name, ?_, Store.lookup_assign here.2 name v⟩
    apply Store.rebinds_define
    cases found : m.world.store.owner? env name with
    | none => exact here.2
    | some o => exact (rules.owner here found).2
  · have rebinds := Store.rebinds_define outermost.2 name v
    exact ⟨rebinds, rebinds.lookup_self⟩

end Interpreter

/-- A function is made in the scope of a comprehension. -/
def nester : Program :=
  let place : Location := ⟨"nester", 1, 1, ""⟩
  ⟨place, [.expr place (.comprehension place (.lambda place [] (.name place "x")) "x"
    (.list place [.literal place .none]) none)]⟩

theorem nester_nests : ∃ c m, (Execution.fresh nester).Comes mute.setup mute.machine c m ∧
    m.world.store.Reach c.nodes (.scope 1) := by
  have stating := @Execution.Comes.fresh Unit mute.setup mute.machine nester _ _ rfl rfl
  have comprehending := Execution.Comes.step stating (by conv_lhs => cbv)
  have listing := Execution.Comes.step comprehending rfl
  have naming := Execution.Comes.step listing rfl
  have named := Execution.Comes.step naming rfl
  have listed := Execution.Comes.step named rfl
  have making := Execution.Comes.step listed rfl
  have made := Execution.Comes.step making rfl
  refine ⟨_, _, made, .step (.root List.mem_cons_self) (y := .scope 1) ?_⟩
  change Node.scope 1 ∈ [Node.scope 1]
  exact List.mem_singleton_self _

/-- The realm of the first interpreter: there is nothing outside, and nothing came before. -/
def Realm.whole (σ : Type) : Realm σ := ⟨Set.univ, Set.univ, 0, fun _ => []⟩

theorem Realm.whole_rules : (whole σ).Rules .empty where
  closed x hx := by
    cases x with
    | object a =>
      rw [Store.refs, Store.read_of_le (Nat.zero_le a)]
      exact holds_nil
    | scope i => exact absurd hx.2 (Nat.not_lt_zero i)
  outer i _ hi := absurd hi.2 (Nat.not_lt_zero i)
  inner i hi := absurd hi.2 (Nat.not_lt_zero i)
  objects _ _ := Set.mem_univ _
  scopes _ _ := Set.mem_univ _

theorem assignment_rebinds_one_nested :
    Interpreter.create .empty (fun _ w => w) 100 false ⟨.empty, ()⟩ = .ok mute ∧
    ∃ l m, mute.Visits [.fresh nester] (fun _ => []) l m ∧ m.world.store.Reach l (.scope 1) ∧
      m.world.store.Outermost 1 m.globals ∧ ∃ o, m.world.store.Nearest "y" 1 o ∧
        m.world.store.Rebinds (m.world.store.assign 1 "y" .none) (o.getD 1) "y" .none := by
  have created : Interpreter.create .empty (fun _ w => w) 100 false ⟨.empty, ()⟩ = .ok mute := rfl
  have started : Interpreter.ServesIn (.whole Unit) mute (.whole Unit) mute [] := .start
  have loaded := started.load nester
  obtain ⟨c, m, comes, reached⟩ := nester_nests
  have visit : mute.Visits [.fresh nester] (fun _ => []) _ m :=
    .running (List.mem_singleton_self _) comes
  have own : (Realm.whole Unit).Houses ⟨.empty, ()⟩ := ⟨Realm.whole_rules, Realm.holds_nil⟩
  have hosts : (Realm.whole Unit).Hosts mute.setup := Realm.hosts_of_empty rfl fun _ => rfl
  have rebound := Interpreter.assignment_rebinds_one created rfl own Realm.holds_nil hosts loaded
    visit (reached.mono (List.subset_append_right _ _))
  obtain ⟨top, outermost, globals, assigned⟩ := rebound
  obtain ⟨⟨o, nearest, rebinds, -⟩, -⟩ := assigned "y" .none
  have last : top = m.globals := globals.resolve_right fun earlier => Nat.not_lt_zero top earlier.2
  exact ⟨created, _, m, visit, reached.mono (List.subset_append_right _ _), last ▸ outermost,
    o, nearest, rebinds⟩

end LoopScript
