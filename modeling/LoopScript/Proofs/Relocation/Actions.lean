import LoopScript.Execution
import LoopScript.Proofs.Machine.Log
import LoopScript.Proofs.Relocation.Changes

/-!
Actions on two machines that hold the same things at different addresses. They go on in parallel, except
that one may fail over the calls in progress, which the machines need not share.
-/

namespace LoopScript

variable {σ : Type}

/-- Machines with moved stores. What the calls in progress are, and what the log tells, is left
open. -/
structure Machine.Moved (L : Link) (m n : Machine σ) : Prop where
  store : m.world.store.Moved L n.world.store
  left : m.forced = []
  right : n.forced = []

/-- A machine whose store was changed in a region only, and which has declared no name global. -/
structure Machine.Remains (R : Region) (s : Store) (m : Machine σ) : Prop where
  keeps : s.Keeps R m.world.store
  forced : m.forced = []

abbrev Done {α β : Type} (_ : Link) (_ : α) (_ : β) : Prop := True

namespace Setup

variable (setup : Setup σ)

/-- What becomes of a host when lines are printed. -/
def printed (lines : List String) (host : σ) : σ :=
  lines.foldl (fun h line => setup.print line h) host

/-- A fault that nothing but the calls in progress bring about: there are too many of them, or none is
left, or a verbose log cannot show the bindings of the innermost one. -/
inductive Jammed (calls : List Activation) : Fault → Prop where
  | full (loc : Location) (h : callLimit < calls.length) :
      Jammed calls (.error ⟨.callsTooDeep, some loc, none⟩)
  | empty (h : calls = []) : Jammed calls (.foreign Execution.emptyStack)
  | hidden (h : setup.verbose = true) : Jammed calls .endless

/-- How machines end that go on in parallel. If both fail, one of them has changed nothing but what
was linked. -/
inductive Outcomes {α β : Type} (R : Link → α → β → Prop) (L : Link) (m n : Machine σ) :
    EStateM.Result Fault (Machine σ) α → EStateM.Result Fault (Machine σ) β → Prop where
  | ok {a : α} {b : β} {m' n' : Machine σ} {L' : Link} (lines : List String)
      (evolves : L.Evolves L' m.world.store m'.world.store n.world.store n'.world.store)
      (moved : m'.Moved L' n') (left : m'.world.host = setup.printed lines m.world.host)
      (right : n'.world.host = setup.printed lines n.world.host) (h : R L' a b) :
      Outcomes R L m n (.ok a m') (.ok b n')
  | error {f g : Fault} {m' n' : Machine σ}
      (h : m'.Remains L.domain m.world.store ∨ n'.Remains L.range n.world.store) :
      Outcomes R L m n (.error f m') (.error g n')
  | left {f : Fault} {m' n' : Machine σ} {b : β}
      (h : m'.Remains L.domain m.world.store) :
      Outcomes R L m n (.error f m') (.ok b n')
  | right {a : α} {g : Fault} {m' n' : Machine σ}
      (h : n'.Remains L.range n.world.store) (hg : setup.Jammed n'.calls g) :
      Outcomes R L m n (.ok a m') (.error g n')

def Parallel {α β : Type} (R : Link → α → β → Prop) (L : Link) (x : Act σ α) (y : Act σ β) : Prop :=
  ∀ m n, m.Moved L n → setup.Outcomes R L m n (x m) (y n)

end Setup

namespace Act

variable {setup : Setup σ} {α β γ δ : Type} {L : Link} {P : Link → α → β → Prop}
  {R : Link → γ → δ → Prop}

theorem parallel_pure {a : α} {b : β} (h : P L a b) :
    setup.Parallel P L (pure a : Act σ α) (pure b) :=
  fun _ _ hm => .ok [] (.refl L _ _) hm rfl rfl h

theorem parallel_throw (f g : Fault) : setup.Parallel P L (throw f : Act σ α) (throw g : Act σ β) :=
  fun _ _ hm => .error (.inr ⟨.refl _ _, hm.right⟩)

theorem Outcomes.after {m n m' n' : Machine σ} {L' : Link} {lines : List String}
    (evolves : L.Evolves L' m.world.store m'.world.store n.world.store n'.world.store)
    (left : m'.world.host = setup.printed lines m.world.host)
    (right : n'.world.host = setup.printed lines n.world.host)
    {r : EStateM.Result Fault (Machine σ) γ} {r' : EStateM.Result Fault (Machine σ) δ}
    (h : setup.Outcomes R L' m' n' r r') : setup.Outcomes R L m n r r' := by
  cases h with
  | ok more evolves' moved left' right' h =>
    refine .ok (lines ++ more) (evolves.trans evolves') moved ?_ ?_ h
    · rw [left', left, Setup.printed, Setup.printed, Setup.printed, List.foldl_append]
    · rw [right', right, Setup.printed, Setup.printed, Setup.printed, List.foldl_append]
  | error h =>
    exact .error (h.imp (fun h => ⟨evolves.keeps_left h.keeps, h.forced⟩)
      fun h => ⟨evolves.keeps_right h.keeps, h.forced⟩)
  | left h => exact .left ⟨evolves.keeps_left h.keeps, h.forced⟩
  | right h hg => exact .right ⟨evolves.keeps_right h.keeps, h.forced⟩ hg

theorem parallel_bind {x : Act σ α} {y : Act σ β} {f : α → Act σ γ} {g : β → Act σ δ}
    (h : setup.Parallel P L x y)
    (hf : ∀ L' a b, L ≤ L' → P L' a b → setup.Parallel R L' (f a) (g b)) :
    setup.Parallel R L (x >>= f) (y >>= g) := by
  intro m n hm
  have outcomes := h m n hm
  simp only [bind, EStateM.bind]
  generalize x m = r, y n = r' at outcomes ⊢
  cases outcomes with
  | ok lines evolves moved left right h =>
    exact Outcomes.after evolves left right (hf _ _ _ evolves.le h _ _ moved)
  | error h => exact .error h
  -- only what the first machine does counts once it has failed, however the second one goes on
  | @left f' m' n' b h =>
    dsimp only
    cases g b n' with
    | ok => exact .left h
    | error => exact .error (.inl h)
  | @right a g' m' n' h hg =>
    dsimp only
    cases f a m' with
    | ok => exact .right h hg
    | error => exact .error (.inr h)

theorem parallel_seq {x : Act σ α} {y : Act σ β} {f : α → Act σ γ} {g : β → Act σ δ}
    (h : setup.Parallel P L x y) (hf : ∀ L', L ≤ L' → ∀ a b, setup.Parallel R L' (f a) (g b)) :
    setup.Parallel R L (x >>= f) (y >>= g) :=
  parallel_bind h fun L' a b hL _ => hf L' hL a b

theorem parallel_map {x : Act σ α} {y : Act σ β} {f : α → γ} {g : β → δ}
    (h : setup.Parallel P L x y) (hf : ∀ L' a b, P L' a b → R L' (f a) (g b)) :
    setup.Parallel R L (f <$> x) (g <$> y) := by
  rw [map_eq_pure_bind, map_eq_pure_bind]
  exact parallel_bind h fun _ _ _ _ hP => parallel_pure (hf _ _ _ hP)

section Store

theorem parallel_placed (loc : Location) {x : Except Fault α} {y : Except Fault β}
    (h : Concur (P L) x y) : setup.Parallel (σ := σ) P L (placed loc x) (placed loc y) := by
  cases h with
  | ok h => exact parallel_pure h
  | error e => exact parallel_throw _ _

theorem parallel_store {f : Store → Act σ α} {g : Store → Act σ β}
    (h : ∀ m n, m.Moved L n →
      setup.Outcomes P L m n (f m.world.store m) (g n.world.store n)) :
    setup.Parallel P L (store >>= f) (store >>= g) :=
  h

theorem parallel_reading (loc : Location) {f : Store → Except Fault α} {g : Store → Except Fault β}
    (h : ∀ s t, s.Moved L t → Concur (P L) (f s) (g t)) :
    setup.Parallel (σ := σ) P L (reading loc f) (reading loc g) :=
  parallel_store fun m n hm => parallel_placed loc (h _ _ hm.store) m n hm

theorem parallel_onStore {f : Store → α × Store} {g : Store → β × Store}
    (h : ∀ s t, s.Moved L t → ∃ L', L.Evolves L' s (f s).2 t (g t).2 ∧ (f s).2.Moved L' (g t).2 ∧
      P L' (f s).1 (g t).1) : setup.Parallel (σ := σ) P L (onStore f) (onStore g) := by
  intro m n hm
  obtain ⟨L', evolves, moved, hP⟩ := h _ _ hm.store
  exact .ok [] evolves ⟨moved, hm.left, hm.right⟩ rfl rfl hP

theorem parallel_modifyStore {f g : Store → Store}
    (h : ∀ s t, s.Moved L t → L.Evolves L s (f s) t (g t) ∧ (f s).Moved L (g t)) :
    setup.Parallel (σ := σ) Done L (modifyStore f) (modifyStore g) :=
  parallel_onStore fun s t hs => ⟨L, (h s t hs).1, (h s t hs).2, trivial⟩

theorem parallel_alloc {o o' : Obj} (h : o.Moved L o') :
    setup.Parallel (σ := σ) Value.Moved L (alloc o) (alloc o') :=
  parallel_onStore fun _ _ hs => alloc_moved hs h

theorem parallel_making (loc : Location) {f g : Store → Except Fault Made}
    (h : ∀ s t, s.Moved L t → Concur (Made.Moved L) (f s) (g t)) :
    setup.Parallel (σ := σ) Value.Moved L (making loc f) (making loc g) := by
  refine parallel_bind (P := Made.Moved) (parallel_reading loc h) fun L' a b _ hab => ?_
  cases hab with
  | value h => exact parallel_pure h
  | object h => exact parallel_alloc h

theorem parallel_openScope {p q : ScopeId} (hpq : L.scopes p q)
    {bindings bindings' : Table String Value}
    (hb : Table.Paired Eq (Value.Moved L) bindings bindings') (names : Set String)
    (hn : ∀ x ∈ names, bindings.has x = true) :
    setup.Parallel (σ := σ) (fun L' i j => L'.scopes i j ∧ L'.usable i = L.usable p ∪ names ∧
      L'.assignable i = L.assignable p ∪ names) L (openScope p bindings) (openScope q bindings') :=
  parallel_onStore fun _ _ hs => openScope_moved hs hpq hb names hn

theorem parallel_define {i j : ScopeId} (hij : L.scopes i j) {x : String} (hx : x ∈ L.assignable i)
    {v w : Value} (hv : v.Moved L w) :
    setup.Parallel (σ := σ) Done L (define i x v) (define j x w) :=
  parallel_modifyStore fun _ _ hs =>
    ⟨define_evolves hij (fun h => h ▸ hx) v w, define_moved hs hij x hv⟩

theorem parallel_assign {i j : ScopeId} (hij : L.scopes i j) {x : String} (hx : x ∈ L.assignable i)
    {v w : Value} (hv : v.Moved L w) :
    setup.Parallel (σ := σ) Done L (assign i x v) (assign j x w) := by
  intro m n hm
  have free {k : ScopeId} {u : Value} {m : Machine σ} (hf : m.forced = []) :
      assign k x u m = modifyStore (·.assign k x u) m := by
    change (if x ∈ m.forced then modifyStore (·.setGlobal k x u)
      else modifyStore (·.assign k x u) : Act σ Unit) m = _
    rw [hf, if_neg List.not_mem_nil]
  rw [free hm.left, free hm.right]
  exact parallel_modifyStore (fun _ _ hs => assign_moved hs hij hx hv) m n hm

theorem parallel_isTruthy {v w : Value} (hv : v.Moved L w) :
    setup.Parallel (σ := σ) (fun _ => Eq) L (isTruthy v) (isTruthy w) :=
  parallel_store fun m n hm => parallel_pure (P := fun _ => Eq) (truthy_moved hm.store hv) m n hm

end Store

section Calls

theorem parallel_emit (hh : setup.services.hooks = []) (e e' : Event σ) :
    setup.Parallel Done L (emit setup e) (emit setup e') := by
  rw [emit_silent hh, emit_silent hh]
  exact parallel_pure trivial

theorem outcomes_keep {m n m' n' : Machine σ} (hm : m.Moved L n) (left : m'.world = m.world)
    (right : n'.world = n.world) (hf : m'.forced = m.forced) (hf' : n'.forced = n.forced) {a : α}
    {b : β} (h : P L a b) : setup.Outcomes P L m n (.ok a m') (.ok b n') := by
  refine .ok [] ?_ ⟨?_, hf.trans hm.left, hf'.trans hm.right⟩ ?_ ?_ h
  · rw [left, right]
    exact .refl L _ _
  · rw [left, right]
    exact hm.store
  · rw [left]
    rfl
  · rw [right]
    rfl

theorem parallel_logStep (hr : setup.services.rules = []) (rule rule' : String)
    (loc loc' : Location) :
    setup.Parallel Done L (logStep setup rule loc) (logStep setup rule' loc') := by
  intro m n hm
  have shown (m : Machine σ) : ∀ f, (if setup.verbose then m.bindings else .ok none) = .error f →
      f = .endless ∧ setup.verbose = true := by
    intro f e
    split at e
    · next h => exact ⟨(raises_bindings m).error e, h⟩
    · cases e
  rw [logStep_silent hr, logStep_silent hr]
  split <;> split
  · refine outcomes_keep hm ?_ ?_ ?_ ?_ trivial <;> rfl
  · next e =>
    obtain ⟨rfl, h⟩ := shown n _ e
    exact .right ⟨.refl _ _, hm.right⟩ (.hidden h)
  · exact .left ⟨.refl _ _, hm.left⟩
  · exact .error (.inl ⟨.refl _ _, hm.left⟩)

theorem enter_eq (name : String) (scope : ScopeId) (loc : Location) (m : Machine σ) :
    enter name scope loc m =
      if callLimit < m.calls.length then .error (.error ⟨.callsTooDeep, some loc, none⟩) m
      else .ok ⟨⟩ { m with
        calls := ⟨name, scope, m.issued, some loc⟩ :: m.calls
        issued := m.issued + 1 } := by
  change (if callLimit < m.calls.length then fail loc .callsTooDeep else set _ : Act σ Unit) m = _
  split <;> rfl

theorem parallel_enter (name name' : String) (scope scope' : ScopeId) (loc loc' : Location) :
    setup.Parallel (σ := σ) Done L (enter name scope loc)
      (enter name' scope' loc') := by
  intro m n hm
  rw [enter_eq, enter_eq]
  split_ifs with h h' h'
  · exact .error (.inl ⟨.refl _ _, hm.left⟩)
  · exact .left ⟨.refl _ _, hm.left⟩
  · exact .right ⟨.refl _ _, hm.right⟩ (.full loc' h')
  · refine outcomes_keep hm ?_ ?_ ?_ ?_ trivial <;> rfl

theorem exit_eq (m : Machine σ) :
    exit m = match m.calls with
      | [] => .error (.foreign Execution.emptyStack) m
      | a :: calls => .ok ⟨⟩ { m with calls, log := m.log.forget a.id } := by
  obtain ⟨world, globals, forced, current, log, calls, issued⟩ := m
  cases calls <;> rfl

theorem parallel_exit : setup.Parallel (σ := σ) Done L exit exit := by
  intro m n hm
  rw [exit_eq, exit_eq]
  split <;> split
  · exact .error (.inl ⟨.refl _ _, hm.left⟩)
  · exact .left ⟨.refl _ _, hm.left⟩
  · next h => exact .right ⟨.refl _ _, hm.right⟩ (.empty h)
  · refine outcomes_keep hm ?_ ?_ ?_ ?_ trivial <;> rfl

end Calls

end Act

end LoopScript
