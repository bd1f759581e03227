import LoopScript.Proofs.Machine.Reach
import LoopScript.Proofs.Machine.Policy
import LoopScript.Proofs.Machine.Effect

/-!
Machines within a realm. No step comes to hold on to anything outside of it, as long as the
extensions bring nothing in.
-/

namespace LoopScript

variable {σ α β γ : Type}

abbrev Machine.extent (m : Machine σ) : Nat := m.world.store.scopes.size

theorem Store.scopes_setField (s : Store) (a : Addr) (name : String) (v : Value) :
    (s.setField a name v).scopes = s.scopes := by
  unfold setField
  split <;> rfl

namespace Realm

open Act

/-- A world within a realm: neither its store nor its host holds on to anything outside. -/
structure Houses (D : Realm σ) (w : World σ) : Prop where
  rules : D.Rules w.store
  host : D.Holds w.store.scopes.size (D.held w.host)

/-- What may become of the world. -/
structure Admits (D : Realm σ) (w u : World σ) : Prop where
  houses : D.Houses u
  grows : w.store.scopes.size ≤ u.store.scopes.size

/-- Extensions that are given nothing from outside of a realm bring nothing in. -/
structure Hosts (D : Realm σ) (setup : Setup σ) : Prop where
  hook {h : Hook σ} (hh : h ∈ setup.services.hooks) (e : Event σ) (w : World σ)
    (own : D.Houses w) (he : D.Holds w.store.scopes.size e.nodes) : D.Admits w (h.handle e w).2
  rule {r : StepRule σ} (hr : r ∈ setup.services.rules) (c : StepContext) (w : World σ)
    (own : D.Houses w) : D.Admits w (r.handle c w).2
  reply {b : Builtin σ} {f : Call → World σ → Reply σ × World σ} {name : String}
    (hb : setup.builtin? name = some b) (hf : b.action = .host f) (c : Call) (w : World σ)
    (own : D.Houses w) (hc : D.Holds w.store.scopes.size c.nodes) :
    D.Admits w (f c w).2 ∧ D.Holds (f c w).2.store.scopes.size (f c w).1.nodes
  finish {b : Builtin σ} {f : Value → Location → World σ → Reply σ × World σ} {name : String}
    (hb : setup.builtin? name = some b) (hf : b.action = .forward f) (v : Value) (loc : Location)
    (w : World σ) (own : D.Houses w) (hv : D.Holds w.store.scopes.size v.nodes) :
    D.Admits w (f v loc w).2 ∧ D.Holds (f v loc w).2.store.scopes.size (f v loc w).1.nodes
  print (line : String) (host : σ) : D.Gives (D.held host) (D.held (setup.print line host))

theorem hosts_of_empty {D : Realm σ} {setup : Setup σ} (hs : setup.services = .empty)
    (held : ∀ host, D.held host = []) : D.Hosts setup where
  hook hh := by
    rw [hs] at hh
    cases hh
  rule hr := by
    rw [hs] at hr
    cases hr
  reply hb hf := by
    obtain ⟨f, -, rfl⟩ := builtin?_eq_some hs hb
    cases hf
  finish hb hf := by
    obtain ⟨f, -, rfl⟩ := builtin?_eq_some hs hb
    cases hf
  print line host := by
    rw [held (setup.print line host)]
    exact fun _ _ => holds_nil

/-- A machine within a realm. -/
structure Governs (D : Realm σ) (m : Machine σ) : Prop where
  houses : D.Houses m.world
  globals : m.globals = D.globals
  nodes : D.Holds m.extent m.nodes

structure Stays (D : Realm σ) (m n : Machine σ) : Prop where
  governs : D.Governs n
  grows : m.extent ≤ n.extent

/-- Given the nodes, an action comes to nothing outside of the realm. -/
def Derives (D : Realm σ) (l : List Node) (x : Act σ α) (f : α → List Node) : Prop :=
  ∀ m, D.Governs m → D.Holds m.extent l →
    Ensures x m (fun a n => D.Stays m n ∧ D.Holds n.extent (f a)) fun _ n => D.Stays m n

variable {D : Realm σ} {l l' : List Node} {loc : Location} {m n : Machine σ}

theorem Governs.rules (h : D.Governs m) : D.Rules m.world.store := h.houses.rules

theorem Governs.stays (h : D.Governs m) : D.Stays m m := ⟨h, le_rfl⟩

theorem Stays.trans {k : Machine σ} (h : D.Stays m n) (h' : D.Stays n k) : D.Stays m k :=
  ⟨h'.governs, h.grows.trans h'.grows⟩

theorem Governs.admits (h : D.Governs m) {w : World σ} (hw : D.Admits m.world w) :
    D.Stays m { m with world := w } :=
  ⟨⟨hw.houses, h.globals, h.nodes.mono hw.grows⟩, hw.grows⟩

section Derivations

variable {x : Act σ α} {g : α → Act σ β} {f : α → List Node} {f' : β → List Node}

theorem derives_pure {a : α} (h : D.Gives l (f a)) :
    D.Derives l (pure a : Act σ α) f :=
  fun _ own hl => ⟨own.stays, h _ hl⟩

theorem derives_throw (e : Fault) : D.Derives l (throw e : Act σ α) f :=
  fun _ own _ => own.stays

theorem Derives.given (h : D.Derives l' x f) (hl : D.Gives l l') :
    D.Derives l x f :=
  fun m own held => h m own (hl _ held)

theorem derives_bind (hx : D.Derives l' x f) (hl : D.Gives l l')
    (hg : ∀ a, D.Derives (f a ++ l) (g a) f') : D.Derives l (x >>= g) f' := by
  intro m own held
  apply ensures_bind
  refine (hx m own (hl _ held)).mono ?_ fun _ _ h => h
  rintro a n ⟨stays, ha⟩
  -- what was at hand before is so still, as scopes are never given up
  have later := hg a n stays.governs (holds_append.mpr ⟨ha, held.mono stays.grows⟩)
  refine later.mono ?_ fun _ _ h => stays.trans h
  rintro b k ⟨stays', hb⟩
  exact ⟨stays.trans stays', hb⟩

theorem derives_then (hx : D.Derives l' x f) (hl : D.Gives l l') {h : α → β}
    (hf : ∀ a, D.Gives (f a ++ l) (f' (h a))) : D.Derives l (do return h (← x)) f' :=
  derives_bind hx hl fun a => derives_pure (hf a)

theorem derives_get {g : Machine σ → Act σ β} (h : ∀ m, D.Derives (m.nodes ++ l) (g m) f') :
    D.Derives l (get >>= g) f' :=
  fun m own held => ensures_get (h m m own (holds_append.mpr ⟨own.nodes, held⟩))

theorem ensures_store {g : Store → Act σ β} {P : β → Machine σ → Prop}
    {E : Fault → Machine σ → Prop}
    (h : Ensures (g m.world.store) m P E) : Ensures (store >>= g) m P E := h

theorem derives_silent {g : Machine σ → α × Machine σ}
    (h : ∀ m, (g m).2.world = m.world ∧ (g m).2.globals = m.globals ∧ (g m).2.calls = m.calls) :
    D.Derives l (modifyGet g : Act σ α) fun _ => [] := by
  intro m own _
  obtain ⟨world, globals, calls⟩ := h m
  have nodes : (g m).2.nodes = m.nodes := by rw [Machine.nodes, Machine.nodes, globals, calls]
  refine ⟨⟨⟨?_, globals.trans own.globals, ?_⟩, ?_⟩, holds_nil⟩
  · exact world ▸ own.houses
  · rw [Machine.extent, world, nodes]
    exact own.nodes
  · rw [Machine.extent, Machine.extent, world]

theorem derives_world {g : World σ → α × World σ}
    (h : ∀ w : World σ, D.Houses w → D.Holds w.store.scopes.size l →
      D.Admits w (g w).2 ∧ D.Holds (g w).2.store.scopes.size (f (g w).1)) :
    D.Derives l (onWorld g) f := by
  intro m own held
  obtain ⟨admits, brought⟩ := h m.world own.houses held
  exact ⟨own.admits admits, brought⟩

theorem derives_store {c : Store → α × Store} (h : ∀ s, D.Rules s → D.Holds s.scopes.size l →
      D.Rules (c s).2 ∧ s.scopes.size ≤ (c s).2.scopes.size ∧
        D.Holds (c s).2.scopes.size (f (c s).1)) :
    D.Derives l (onStore (σ := σ) c) f := by
  intro m own held
  obtain ⟨rules, grows, brought⟩ := h m.world.store own.rules held
  have houses : D.Houses (⟨(c m.world.store).2, m.world.host⟩ : World σ) :=
    ⟨rules, own.houses.host.mono grows⟩
  exact ⟨own.admits ⟨houses, grows⟩, brought⟩

theorem derives_change {c : Store → Store} (h : ∀ s, D.Rules s → D.Holds s.scopes.size l →
      D.Rules (c s) ∧ s.scopes.size ≤ (c s).scopes.size) :
    D.Derives l (modifyStore (σ := σ) c) fun _ => [] := by
  refine derives_store fun s own held => ?_
  obtain ⟨rules, grows⟩ := h s own held
  exact ⟨rules, grows, holds_nil⟩

theorem derives_placed {c : Except Fault α}
    (h : ∀ s : Store, D.Holds s.scopes.size l → D.Brings s f c) :
    D.Derives l (placed (σ := σ) loc c) f := by
  intro m own held
  have brought := h m.world.store held
  cases c with
  | ok a => exact ⟨own.stays, brought⟩
  | error e => exact own.stays

theorem derives_reading {c : Store → Except Fault α}
    (h : ∀ s, D.Rules s → D.Holds s.scopes.size l → D.Brings s f (c s)) :
    D.Derives l (reading (σ := σ) loc c) f := by
  intro m own held
  have brought := h m.world.store own.rules held
  change Ensures (placed loc (c m.world.store)) m _ _
  revert brought
  cases c m.world.store with
  | ok a => exact fun brought => ⟨own.stays, brought⟩
  | error e => exact fun _ => own.stays

theorem derives_look (c : Store → Except Fault α) :
    D.Derives l (reading (σ := σ) loc c) fun _ => [] :=
  derives_reading fun s _ _ => (raises_anything (c s)).mono (fun _ _ => holds_nil) fun _ h => h

theorem derives_check (c : Except Fault α) : D.Derives l (placed (σ := σ) loc c) fun _ => [] :=
  derives_placed fun _ _ => (raises_anything c).mono (fun _ _ => holds_nil) fun _ h => h

theorem derives_fail (c : Cause) : D.Derives l (fail loc c : Act σ α) f :=
  derives_throw _

theorem derives_truth (v : Value) : D.Derives l (isTruthy (σ := σ) v) fun _ => [] :=
  fun _ own _ => ⟨own.stays, holds_nil⟩

theorem derives_alloc (o : Obj) : D.Derives o.nodes (alloc (σ := σ) o) Value.nodes := by
  refine derives_store fun s own held => ⟨own.alloc held, le_rfl, ?_⟩
  exact holds_cons.mpr ⟨own.objects _ le_rfl, holds_nil⟩

theorem derives_making {c : Store → Except Fault Made}
    (h : ∀ s, D.Rules s → D.Holds s.scopes.size l → D.Brings s Made.nodes (c s)) :
    D.Derives l (making (σ := σ) loc c) Value.nodes := by
  refine derives_bind (derives_reading h) (by simp +contextual) fun made => ?_
  cases made with
  | value v => exact derives_pure (by simp +contextual)
  | object o => exact (derives_alloc o).given (by simp +contextual)

theorem derives_openScope (parent : ScopeId) (bindings : Table String Value) :
    D.Derives (.scope parent :: Bindings.nodes bindings) (openScope (σ := σ) parent bindings)
      fun i => [.scope i] := by
  refine derives_store fun s own held => ?_
  obtain ⟨hp, hb⟩ := holds_cons.mp held
  have size : (s.openScope (some parent) bindings).2.scopes.size = s.scopes.size + 1 := by
    simp [Store.openScope]
  refine ⟨own.openScope ?_ ?_ hb, ?_, ?_⟩
  · rintro p ⟨⟩
    exact hp
  · intro h
    cases h
  · exact size ▸ Nat.le_succ _
  · apply holds_cons.mpr
    exact ⟨⟨own.scopes _ le_rfl, size ▸ Nat.lt_succ_self _⟩, holds_nil⟩

theorem derives_defineIn {scope : ScopeId} (target : Store → ScopeId)
    (within : ∀ s, D.Rules s → D.Has s.scopes.size (.scope scope) →
      D.Has s.scopes.size (.scope (target s))) (name : String) (v : Value) :
    D.Derives (.scope scope :: v.nodes)
      (modifyStore (σ := σ) fun s => s.define (target s) name v) fun _ => [] := by
  refine derives_change fun s own held => ?_
  obtain ⟨hi, hv⟩ := holds_cons.mp held
  exact ⟨own.define (within s own hi) name hv, by simp [Store.define]⟩

theorem derives_define (scope : ScopeId) (name : String) (v : Value) :
    D.Derives (.scope scope :: v.nodes) (define (σ := σ) scope name v) fun _ => [] :=
  derives_defineIn (fun _ => scope) (fun _ _ here => here) name v

theorem derives_assign (scope : ScopeId) (name : String) (v : Value) :
    D.Derives (.scope scope :: v.nodes) (assign (σ := σ) scope name v) fun _ => [] := by
  have outermost (s : Store) (own : D.Rules s) (here : D.Has s.scopes.size (.scope scope)) :
      D.Has s.scopes.size (.scope (s.root scope)) := own.root here
  have nearest (s : Store) (own : D.Rules s) (here : D.Has s.scopes.size (.scope scope)) :
      D.Has s.scopes.size (.scope ((s.owner? scope name).getD scope)) := by
    cases h : s.owner? scope name with
    | none => exact here
    | some o => exact own.owner here h
  refine derives_get fun m => ?_
  split
  · exact (derives_defineIn _ outermost name v).given (by simp +contextual)
  · exact (derives_defineIn _ nearest name v).given (by simp +contextual)

theorem derives_oldValue (op : AssignOp) {read : Act σ Value} (hr : D.Derives l read Value.nodes) :
    D.Derives l (oldValue op read) Old.nodes := by
  unfold oldValue
  split
  · exact derives_pure (by simp +contextual)
  · apply derives_then hr <;> simp +contextual

theorem derives_map (h : α → β) (hx : D.Derives l x f)
    (hf : ∀ a, D.Gives (f a ++ l) (f' (h a))) : D.Derives l (h <$> x) f' := by
  rw [← bind_pure_comp]
  exact derives_then hx (fun _ held => held) hf

theorem derives_lookup (loc : Location) (scope : ScopeId) (name : String) :
    D.Derives [.scope scope] (reading (σ := σ) loc (·.lookup scope name)) Value.nodes :=
  derives_reading fun _ own held => own.lookup (holds_cons.mp held).1

theorem derives_items (loc : Location) (v : Value) :
    D.Derives v.nodes (reading (σ := σ) loc (·.items v)) Values.nodes :=
  derives_reading fun _ own held => own.items held

theorem derives_index (loc : Location) (v w : Value) :
    D.Derives v.nodes (reading (σ := σ) loc (·.getIndex v w)) Value.nodes :=
  derives_reading fun _ own held => own.getIndex held

theorem derives_member (loc : Location) (v : Value) (name : String) :
    D.Derives v.nodes (making (σ := σ) loc (·.getMember v name)) Value.nodes :=
  derives_making fun _ own held => own.getMember held

theorem derives_binary (loc : Location) (op : BinaryOp) (v w : Value) :
    D.Derives (v.nodes ++ w.nodes) (making (σ := σ) loc (·.binary op v w)) Value.nodes :=
  derives_making fun _ own held => own.binary op (holds_append.mp held).1 (holds_append.mp held).2

theorem derives_combine (loc : Location) (old : Old) (v : Value) :
    D.Derives (old.nodes ++ v.nodes) (combine (σ := σ) loc old v) Value.nodes := by
  cases old with
  | none => exact derives_pure (by simp +contextual)
  | some o => exact derives_binary loc o.1 o.2 v

theorem derives_forM {c : γ → Act σ PUnit} {cs : List γ}
    (h : ∀ a ∈ cs, D.Derives l (c a) fun _ => []) : D.Derives l (cs.forM c) fun _ => [] := by
  induction cs with
  | nil => exact derives_pure (by simp +contextual)
  | cons a cs ih =>
    refine derives_bind (h a List.mem_cons_self) (by simp +contextual) fun _ => ?_
    exact ih fun b hb => h b (List.mem_cons_of_mem a hb)

end Derivations

section Reports

variable {setup : Setup σ} (hosts : D.Hosts setup)

include hosts

theorem derives_callHooks {e : Event σ} {hooks : List (Hook σ)}
    (hh : ∀ h ∈ hooks, h ∈ setup.services.hooks) :
    D.Derives e.nodes (callHooks e hooks) fun _ => [] := by
  induction hooks with
  | nil => exact derives_pure (by simp +contextual)
  | cons h hooks ih =>
    have called : D.Derives e.nodes (onWorld (h.handle e)) fun _ => [] :=
      derives_world fun w own he => ⟨hosts.hook (hh h List.mem_cons_self) e w own he, holds_nil⟩
    refine derives_bind called (by simp +contextual) fun answer => ?_
    split
    · exact ih fun g hg => hh g (List.mem_cons_of_mem h hg)
    · exact derives_throw _
    · exact derives_get fun m => derives_throw _

theorem derives_emit (e : Event σ) : D.Derives e.nodes (emit setup e) fun _ => [] :=
  derives_callHooks hosts fun _ h => (List.mem_filter.mp h).1

theorem derives_callRules (c : StepContext) {rules : List (StepRule σ)}
    (hr : ∀ r ∈ rules, r ∈ setup.services.rules) : D.Derives l (callRules c rules) fun _ => [] := by
  induction rules with
  | nil => exact derives_pure (by simp +contextual)
  | cons r rules ih =>
    have rest := ih fun g hg => hr g (List.mem_cons_of_mem r hg)
    have called : D.Derives l (onWorld (r.handle c)) fun _ => [] :=
      derives_world fun w own _ => ⟨hosts.rule (hr r List.mem_cons_self) c w own, holds_nil⟩
    simp only [callRules]
    split
    · refine derives_bind called (by simp +contextual) fun answer => ?_
      split
      · exact rest
      · exact derives_throw _
      · exact derives_throw _
    · exact rest

theorem derives_logStep (rule : String) (loc : Location) :
    D.Derives l (logStep setup rule loc) fun _ => [] := by
  have rest (b : Option (List (String × String))) : D.Derives l (do
      let step ← record setup.verbose rule loc b
      callRules ⟨step, rule, some loc⟩ setup.services.rules) fun _ => [] :=
    derives_bind (derives_silent (l := []) fun _ => ⟨rfl, rfl, rfl⟩) (by simp +contextual) fun _ =>
      derives_callRules hosts _ fun _ h => h
  have shown : D.Derives l (snapshot (σ := σ) loc) fun _ => [] := by
    refine derives_get fun m => ?_
    split
    · exact derives_pure (by simp +contextual)
    · exact derives_map _ (derives_look _) (by simp +contextual)
  unfold logStep
  split
  · exact derives_bind shown (by simp +contextual) rest
  · exact rest none

end Reports

section Begin

theorem derives_defineMethods (scope : ScopeId) (ds : List FunctionDef) :
    D.Derives [.scope scope] (defineMethods (σ := σ) scope ds)
      Methods.nodes := by
  induction ds with
  | nil => exact derives_pure (by simp +contextual)
  | cons d ds ih =>
    refine derives_bind (derives_alloc _) (by simp +contextual) fun v => ?_
    cases v with
    | ref a => apply derives_then ih <;> simp +contextual
    | atom c => exact ih.given (by simp +contextual)

theorem derives_beginExpression (e : Expr) (scope : ScopeId) (k : Context .value) :
    D.Derives (.scope scope :: k.nodes) (beginExpression (σ := σ) e scope k) Control.nodes := by
  cases e with
  | literal | binary | unary | call | index | slice | member | comprehension =>
    exact derives_pure (by simp +contextual)
  | name loc id =>
    apply derives_then (derives_lookup loc scope id) <;> simp +contextual
  | list loc items | tuple loc items =>
    cases items with
    | nil => apply derives_then (derives_alloc _) <;> simp +contextual
    | cons e es => exact derives_pure (by simp +contextual)
  | dict loc entries =>
    cases entries with
    | nil => apply derives_then (derives_alloc _) <;> simp +contextual
    | cons e es => exact derives_pure (by simp +contextual)
  | lambda loc params body => apply derives_then (derives_alloc _) <;> simp +contextual

theorem derives_beginStatement (q : Stmt) (scope : ScopeId) (k : Context .flow) :
    D.Derives (.scope scope :: k.nodes) (beginStatement (σ := σ) q scope k) Control.nodes := by
  cases q with
  | expr | cond | loop | each | break_ | continue_ | pass_ =>
    exact derives_pure (by simp +contextual)
  | assign loc target op e =>
    cases target with
    | name place id =>
      apply derives_then (derives_oldValue op (derives_lookup place scope id)) <;> simp +contextual
    | member | index => exact derives_pure (by simp +contextual)
  | function d =>
    refine derives_bind (derives_alloc _) (by simp +contextual) fun v => ?_
    apply derives_then (derives_define scope d.name v) <;> simp +contextual
  | class_ loc name methods =>
    refine derives_bind (derives_defineMethods scope methods) (by simp +contextual) fun table => ?_
    refine derives_bind (derives_alloc _) ?_ fun v => ?_
    · intro k held
      have methods := holds_methods.mp (holds_append.mp held).1
      exact holds_methods.mpr (Table.values_ofList (Q := fun a => D.Has k (.object a)) methods)
    · refine derives_bind (derives_define scope name v) (by simp +contextual) fun _ => ?_
      exact derives_pure (by simp +contextual)
  | return_ loc value => cases value <;> exact derives_pure (by simp +contextual)
  | global_ loc names =>
    apply derives_then (derives_silent (l := []) fun _ => ⟨rfl, rfl, rfl⟩) <;> simp +contextual
  | import_ loc name member =>
    refine derives_bind (derives_lookup loc scope name) (by simp +contextual) fun v => ?_
    cases member with
    | none => exact derives_pure (by simp +contextual)
    | some member => apply derives_then (derives_member loc v member) <;> simp +contextual

theorem derives_begin {setup : Setup σ} (hosts : D.Hosts setup) (t : Task) :
    D.Derives t.nodes (begin setup t) Control.nodes := by
  cases t with
  | eval e scope k => exact derives_beginExpression e scope k
  | exec q scope k =>
    refine derives_bind (derives_silent (l := []) fun _ => ⟨rfl, rfl, rfl⟩) (by simp) fun _ => ?_
    refine derives_bind (derives_emit hosts _) (by simp +contextual) fun _ => ?_
    refine derives_bind (derives_logStep (l := []) hosts _ _) (by simp +contextual) fun _ => ?_
    exact (derives_beginStatement q scope k).given (by simp +contextual)

end Begin

section React

theorem gives_block (body : List Stmt) (scope : ScopeId) (k : Context .flow) :
    D.Gives (.scope scope :: k.nodes) (block (σ := σ) body scope k).nodes := by
  cases body <;> simp +contextual [block]

theorem derives_nextRound (item : String) (todo : List Value) (body : List Stmt) (scope : ScopeId)
    (k : Context .flow) :
    D.Derives (.scope scope :: (Values.nodes todo ++ k.nodes))
      (nextRound (σ := σ) item todo body scope k) Reaction.nodes := by
  unfold nextRound
  split
  · exact derives_pure (by simp +contextual)
  · have bound : D.Derives (.scope scope :: Values.nodes todo)
        (todo.forM fun v => assign (σ := σ) scope item v) fun _ => [] := by
      refine derives_forM fun v hv => (derives_assign scope item v).given ?_
      intro k held
      obtain ⟨hi, values⟩ := holds_cons.mp held
      exact holds_cons.mpr ⟨hi, holds_values.mp values v hv⟩
    apply derives_then bound <;> simp +contextual
  · apply derives_then (derives_assign scope item _) <;> simp +contextual

theorem derives_nextItem (c : Comprehension) (todo done : List Value) (k : Context .value) :
    D.Derives (.scope c.scope :: (Values.nodes todo ++ Values.nodes done ++ k.nodes))
      (nextItem (σ := σ) c todo done k) Reaction.nodes := by
  unfold nextItem
  split
  · apply derives_then (derives_alloc _) <;> simp +contextual
  · refine derives_bind (derives_openScope c.scope _) (by simp +contextual) fun inner => ?_
    split
    · exact derives_pure (by simp +contextual)
    · exact derives_pure (by simp +contextual)

theorem derives_nextBound (loc : Location) (base : Value) (scope : ScopeId) (k : Context .value)
    (done : List (Option Int)) (todo : List (Option Expr)) :
    D.Derives (.scope scope :: (base.nodes ++ k.nodes))
      (nextBound (σ := σ) loc base scope k done todo) Reaction.nodes := by
  induction todo generalizing done with
  | nil =>
    have sliced : D.Derives base.nodes (making (σ := σ) loc fun s =>
        .ok (s.slice base (done.reverse[0]?).join (done.reverse[1]?).join (done.reverse[2]?).join))
        Value.nodes :=
      derives_making fun s own held => own.slice held _ _ _
    apply derives_then sliced <;> simp +contextual
  | cons bound todo ih =>
    cases bound with
    | none => exact ih _
    | some e => exact derives_pure (by simp +contextual)

theorem derives_exit : D.Derives l (exit (σ := σ)) fun _ => [] := by
  intro m own _
  apply ensures_get
  split
  · exact own.stays
  · next a calls e =>
    have nodes := own.nodes
    simp only [Machine.nodes, e, List.map_cons, holds_cons] at nodes
    exact ⟨⟨⟨own.houses, own.globals, holds_cons.mpr ⟨nodes.1, nodes.2.2⟩⟩, le_rfl⟩, holds_nil⟩

theorem derives_enter (name : String) (scope : ScopeId) (loc : Location) :
    D.Derives [.scope scope] (enter (σ := σ) name scope loc) fun _ => [] := by
  intro m own held
  apply ensures_get
  split
  · exact own.stays
  · obtain ⟨globals, calls⟩ := holds_cons.mp own.nodes
    have entered := holds_cons.mpr ⟨(holds_cons.mp held).1, calls⟩
    exact ⟨⟨⟨own.houses, own.globals, holds_cons.mpr ⟨globals, entered⟩⟩, le_rfl⟩, holds_nil⟩

theorem derives_leaveFunction (f : Flow) :
    D.Derives f.nodes (leaveFunction (σ := σ) f) Value.nodes := by
  cases f with
  | normal => apply derives_then (derives_exit (l := [])) <;> simp +contextual
  | returned v => apply derives_then (derives_exit (l := [])) <;> simp +contextual
  | broken | continued => exact derives_get fun m => derives_throw _

variable {setup : Setup σ} (hosts : D.Hosts setup)

include hosts

theorem derives_answer (name : String) (v : Value) :
    D.Derives v.nodes (do
      emit setup (.afterCall name v loc)
      return Reaction.give (σ := σ) (b := .value) v) Reaction.nodes := by
  apply derives_then (derives_emit hosts _) <;> simp +contextual

theorem derives_settle (name : String) (k : Context .value) (r : Reply σ) :
    D.Derives (r.nodes ++ k.nodes) (settle setup name loc k r) Reaction.nodes := by
  cases r with
  | fault f => exact derives_throw f
  | wait w => apply derives_then (derives_emit hosts _) <;> simp +contextual
  | value v =>
    simp only [settle]
    split
    · next i =>
      have converted : D.Derives [] (Value.num <$> placed (σ := σ) loc (floatOfInt i))
          Value.nodes :=
        derives_map _ (derives_check _) (by simp +contextual)
      refine derives_bind converted (by simp) fun v => ?_
      exact (derives_answer hosts name v).given (by simp +contextual)
    · exact (derives_answer hosts name _).given (by simp +contextual)

theorem derives_react {a b : Awaits} (h : Hole a b) (x : a.Input) (k : Context b) :
    D.Derives (Awaits.nodes x ++ (h.nodes ++ k.nodes)) (react setup h x k) Reaction.nodes := by
  cases h with
  | rest ss scope =>
    cases ss with
    | nil => exact derives_pure (by simp +contextual)
    | cons q ss => cases x <;> exact derives_pure (by simp +contextual)
  | discard => exact derives_pure (by simp +contextual)
  | branch body otherwise scope =>
    refine derives_bind (derives_truth (l := []) x) (by simp +contextual) fun t => ?_
    split
    · exact (derives_pure (gives_block body scope k)).given (by simp +contextual)
    · exact (derives_pure (gives_block _ scope k)).given (by simp +contextual)
  | loopTest test body scope =>
    refine derives_bind (derives_truth (l := []) x) (by simp +contextual) fun t => ?_
    split
    · cases body <;> exact derives_pure (by simp +contextual)
    · exact derives_pure (by simp +contextual)
  | loopBody test body scope => cases x <;> exact derives_pure (by simp +contextual)
  | eachOver loc item body scope =>
    refine derives_bind (derives_items loc x) (by simp +contextual) fun items => ?_
    exact (derives_nextRound item items body scope k).given (by simp +contextual)
  | eachBody item todo body scope =>
    cases x with
    | broken | returned v => exact derives_pure (by simp +contextual)
    | normal | continued =>
      exact (derives_nextRound item todo body scope k).given (by simp +contextual)
  | leave => exact derives_pure (by simp +contextual)
  | assignName loc id old scope =>
    refine derives_bind (derives_combine loc old x) (by simp +contextual) fun v => ?_
    apply derives_then (derives_assign scope id v) <;> simp +contextual
  | memberBase loc name op e scope =>
    have settable : D.Derives x.nodes (reading (σ := σ) loc (·.settable x)) fun a => [.object a] :=
      derives_reading fun _ _ held => brings_settable held
    refine derives_bind settable (by simp +contextual) fun base => ?_
    apply derives_then (derives_oldValue op (derives_member loc x name)) <;> simp +contextual
  | assignMember loc base name old =>
    refine derives_bind (derives_combine loc old x) (by simp +contextual) fun v => ?_
    have changed : D.Derives (.object base :: v.nodes)
        (modifyStore (σ := σ) (·.setField base name v)) fun _ => [] := by
      refine derives_change fun s own held => ?_
      obtain ⟨hb, hv⟩ := holds_cons.mp held
      have scopes := s.scopes_setField base name v
      exact ⟨own.setField hb name hv, (congrArg Array.size scopes).ge⟩
    apply derives_then changed <;> simp +contextual
  | itemBase loc index op e scope => exact derives_pure (by simp +contextual)
  | itemIndex loc base op e scope =>
    apply derives_then (derives_oldValue op (derives_index loc base x)) <;> simp +contextual
  | assignItem loc base index old =>
    refine derives_bind (derives_combine loc old x) (by simp +contextual) fun v => ?_
    have changed : D.Derives (base.nodes ++ index.nodes ++ v.nodes)
        (reading (σ := σ) loc (·.setIndex base index v)) fun p => p.2.nodes := by
      refine derives_reading fun s own held => ?_
      simp only [holds_append] at held
      exact own.setIndex held.1.1 held.1.2 held.2
    refine derives_bind changed (by simp +contextual) fun p => ?_
    have written : D.Derives p.2.nodes (modifyStore (σ := σ) (·.write p.1 p.2)) fun _ => [] :=
      derives_change fun s own held => ⟨own.write p.1 held, le_rfl⟩
    apply derives_then written <;> simp +contextual
  | left loc op right scope =>
    refine derives_bind (derives_truth (l := []) x) (by simp +contextual) fun t => ?_
    split <;> exact derives_pure (by simp +contextual)
  | right loc op left =>
    apply derives_then (derives_binary loc op left x) <;> simp +contextual
  | operand loc op =>
    have computed : D.Derives [] (reading (σ := σ) loc (·.unary op x)) Value.nodes :=
      derives_reading fun _ _ _ => brings_unary op x
    apply derives_then computed <;> simp +contextual
  | indexBase loc index scope => exact derives_pure (by simp +contextual)
  | index loc base => apply derives_then (derives_index loc base x) <;> simp +contextual
  | sliceBase loc bounds scope =>
    refine derives_bind (derives_look (l := []) _) (by simp +contextual) fun _ => ?_
    exact (derives_nextBound loc x scope k [] bounds).given (by simp +contextual)
  | sliceBound loc base done todo scope =>
    have given (v : Value) : D.Derives (.scope scope :: (base.nodes ++ k.nodes)) (do
        nextBound (σ := σ) loc base scope k (some (← reading loc (·.toIndex v)) :: done) todo)
        Reaction.nodes := by
      refine derives_bind (derives_look (l := []) _) (by simp) fun _ => ?_
      exact (derives_nextBound loc base scope k _ todo).given (by simp +contextual)
    cases x with
    | atom c =>
      cases c with
      | none => exact (derives_nextBound loc base scope k _ todo).given (by simp +contextual)
      | bool | int | num | str => exact (given _).given (by simp +contextual)
    | ref a => exact (given _).given (by simp +contextual)
  | member loc name => apply derives_then (derives_member loc x name) <;> simp +contextual
  | listItem done todo scope =>
    cases todo with
    | nil => apply derives_then (derives_alloc _) <;> simp +contextual
    | cons e todo => exact derives_pure (by simp +contextual)
  | dictKey loc value done todo scope =>
    apply derives_then (derives_look (l := []) _) <;> simp +contextual
  | dictValue key done todo scope =>
    cases todo with
    | nil => apply derives_then (derives_alloc _) <;> simp +contextual
    | cons e todo => exact derives_pure (by simp +contextual)
  | comprehendOver loc c =>
    refine derives_bind (derives_items loc x) (by simp +contextual) fun items => ?_
    exact (derives_nextItem c items [] k).given (by simp +contextual)
  | comprehendTest c inner todo done =>
    refine derives_bind (derives_truth (l := []) x) (by simp +contextual) fun t => ?_
    split
    · exact derives_pure (by simp +contextual)
    · exact (derives_nextItem c todo done k).given (by simp +contextual)
  | comprehendItem c todo done =>
    exact (derives_nextItem c todo (x :: done) k).given (by simp +contextual)
  | body name loc =>
    refine derives_bind (derives_leaveFunction x) (by simp +contextual) fun v => ?_
    exact (derives_answer hosts name v).given (by simp +contextual)
  | lambdaBody loc =>
    refine derives_bind (derives_exit (l := [])) (by simp) fun _ => ?_
    exact (derives_answer hosts "<lambda>" x).given (by simp +contextual)
  | construct object => exact derives_pure (by simp +contextual)
  | forwarded name loc =>
    simp only [react]
    split
    · next finish hb =>
      have finished : D.Derives x.nodes (onWorld (finish x loc)) Reply.nodes :=
        derives_world fun w own held => hosts.finish hb rfl x loc w own held
      refine derives_bind finished (by simp +contextual) fun r => ?_
      exact (derives_settle hosts name k r).given (by simp +contextual)
    · exact derives_pure (by simp +contextual)

end React

section Calls

variable {setup : Setup σ}

theorem brings_rangeItems (s : Store) (args : List Value) :
    D.Brings s Values.nodes (s.rangeItems args) := by
  have made (start stop step : Int) : D.Brings s Values.nodes
      (if step = 0 then .error (.of .zeroStep)
        else (rangeOf start stop step).mapM fun i => return Value.num (← floatOfInt i)) := by
    split
    · trivial
    · have numbers := ends_mapM (E := fun _ => True)
        (P := fun v : Value => D.Holds s.scopes.size v.nodes)
        (f := fun i => return Value.num (← floatOfInt i)) (rangeOf start stop step)
        fun i _ => brings_atom (s := s) _ _
      exact numbers.mono (fun _ h => holds_values.mpr h) fun _ h => h
  refine ends_bind (raises_anything _) fun bounds _ => ?_
  split
  all_goals exact made _ _ _

theorem derives_onlyOnce (c : Call) (key : String) (place : Nat) (more : List Value) :
    D.Derives l (onlyOnce (σ := σ) c key place more) fun _ => [] := by
  unfold onlyOnce
  split
  · exact derives_fail _
  · exact derives_pure (by simp)

theorem gives_sortingKey {named : Table String Value} {more : List Value} {key : Value}
    (h : sortingKey? named more = some key) :
    D.Gives (Values.nodes more ++ Bindings.nodes named) key.nodes := by
  intro k held
  obtain ⟨hm, hn⟩ := holds_append.mp held
  have found : more.head?.or (named.get? "key") = some key := by
    unfold sortingKey? at h
    split at h
    · cases h
    · exact h
  cases more with
  | nil =>
    exact Table.value_of_get? (Q := fun v : Value => D.Holds k v.nodes) (holds_bindings.mp hn) found
  | cons v vs =>
    cases found
    exact (holds_values_cons.mp hm).1

variable (hosts : D.Hosts setup)

include hosts

theorem derives_reply (f : CoreFunction) (c : Call) :
    D.Derives c.nodes (f.reply setup c) Reply.nodes := by
  have told {γ : Type} (look : Store → Except Fault γ) (g : γ → Reply σ)
      (hg : ∀ a, (g a).nodes = []) :
      D.Derives c.nodes (do return g (← reading (σ := σ) c.location look)) Reply.nodes := by
    refine derives_bind (derives_look (l := []) look) (by simp) fun a => derives_pure fun _ _ => ?_
    rw [hg]
    exact holds_nil
  cases f with
  | print =>
    refine derives_bind (derives_look (l := []) _) (by simp) fun texts => ?_
    have printed : D.Derives [] (onWorld fun w : World σ =>
        ((), ⟨w.store, setup.print (" ".intercalate texts) w.host⟩)) fun _ => [] :=
      derives_world fun w own _ =>
        ⟨⟨⟨own.rules, hosts.print _ w.host _ own.host⟩, le_rfl⟩, holds_nil⟩
    apply derives_then printed <;> simp
  | range =>
    have counted : D.Derives [] (reading (σ := σ) c.location (·.rangeItems c.args)) Values.nodes :=
      derives_reading fun s _ _ => brings_rangeItems s c.args
    refine derives_bind counted (by simp) fun items => ?_
    apply derives_then (derives_alloc _) <;> simp +contextual
  | sorted => exact derives_pure (by simp)
  | min | max =>
    have picked (rule : String) (beats : Ordering) : D.Derives (Values.nodes c.args)
        (reading (σ := σ) c.location (·.extreme rule beats c.args)) Value.nodes :=
      derives_reading fun s own held => own.extreme rule beats held
    apply derives_then (picked _ _) <;> simp +contextual
  | sleep | len | str | int | float | abs | sum => exact told _ _ fun _ => rfl

theorem derives_endSort (loc : Location) (reversed : Bool) (keys items : List Value) :
    D.Derives (Values.nodes items) (endSort setup loc reversed keys items) Value.nodes := by
  refine derives_bind (derives_reading fun s _ held => brings_sortBy reversed keys held)
    (fun _ held => held) fun sorted => ?_
  refine derives_bind (derives_alloc _) (by simp +contextual) fun v => ?_
  apply derives_then (derives_emit hosts _) <;> simp +contextual

theorem derives_endMap (name : String) (loc : Location) (results : List Value) :
    D.Derives (Values.nodes results) (endMap setup name loc results) Value.nodes := by
  refine derives_bind (derives_alloc _) (by simp +contextual) fun v => ?_
  apply derives_then (derives_emit hosts _) <;> simp +contextual

theorem derives_startSort (c : Call) (k : Context .value) :
    D.Derives (c.nodes ++ k.nodes) (startSort setup c k) Invocation.nodes := by
  unfold startSort
  split
  · exact derives_throw _
  · next x more hargs =>
    rw [Call.nodes, hargs]
    refine derives_bind (derives_onlyOnce (l := []) c _ _ _) (by simp) fun _ => ?_
    refine derives_bind (derives_onlyOnce (l := []) c _ _ _) (by simp) fun _ => ?_
    refine derives_bind (derives_items c.location x) (by simp +contextual) fun items => ?_
    refine derives_bind (derives_truth (l := []) _) (by simp) fun reversed => ?_
    split
    · next key i todo hkey =>
      refine derives_pure fun n held => ?_
      have here := gives_sortingKey (D := D) hkey n
      simp_all
    · refine derives_bind (derives_endSort hosts _ _ _ _) (by simp +contextual) fun v => ?_
      exact derives_pure (by simp +contextual)

theorem derives_startMap (name : String) (c : Call) (k : Context .value) :
    D.Derives (c.nodes ++ k.nodes) (startMap setup name c k) Invocation.nodes := by
  unfold startMap
  split
  · next f xs more hargs =>
    rw [Call.nodes, hargs]
    refine derives_bind (derives_items c.location xs) (by simp +contextual) fun items => ?_
    split
    · refine derives_bind (derives_endMap hosts _ _ _) (by simp) fun v => ?_
      exact derives_pure (by simp +contextual)
    · exact derives_pure (by simp +contextual)
  · exact derives_throw _

theorem derives_callBuiltin {name : String} {b : Builtin σ} (hb : setup.builtin? name = some b)
    (c : Call) (k : Context .value) :
    D.Derives (c.nodes ++ k.nodes) (callBuiltin setup b c k) Invocation.nodes := by
  refine derives_bind (derives_check (l := []) _) (by simp) fun _ => ?_
  refine derives_bind (derives_emit hosts _) (by simp +contextual) fun _ => ?_
  split
  · exact (derives_startSort hosts c k).given (by simp +contextual)
  · refine derives_bind (derives_reply hosts _ c) (by simp +contextual) fun r => ?_
    refine derives_bind (derives_settle hosts _ k r) (by simp +contextual) fun r => ?_
    exact derives_pure (by simp +contextual)
  · next reply hf =>
    have replied : D.Derives c.nodes (onWorld (reply c)) Reply.nodes :=
      derives_world fun w own held => hosts.reply hb hf c w own held
    refine derives_bind replied (by simp +contextual) fun r => ?_
    refine derives_bind (derives_settle hosts _ k _) ?_ fun r => derives_pure (by simp +contextual)
    cases r
    all_goals simp +contextual
  · split
    · exact derives_throw _
    · next f args hargs =>
      rw [Call.nodes, hargs]
      exact derives_pure (by simp +contextual)
  · exact (derives_startMap hosts _ c k).given (by simp +contextual)

theorem derives_callFunction (f : Closure) (label : String) (implicit : Nat) (c : Call)
    (k : Context .value) :
    D.Derives (.scope f.scope :: (c.nodes ++ k.nodes)) (callFunction setup f label implicit c k)
      fun task => task.elim [] Task.nodes := by
  have bound : D.Derives c.nodes
      (placed (σ := σ) c.location (bindArguments label f.params c.args c.named implicit))
      Bindings.nodes :=
    derives_placed fun s held =>
      brings_bindArguments label f.params implicit (holds_append.mp held).1 (holds_append.mp held).2
  refine derives_bind bound (by simp +contextual) fun bindings => ?_
  refine derives_bind (derives_openScope f.scope bindings) (by simp +contextual) fun scope => ?_
  refine derives_bind (derives_emit hosts _) (by simp +contextual) fun _ => ?_
  refine derives_bind (derives_enter f.name scope c.location) (by simp +contextual) fun _ => ?_
  split
  · refine derives_bind (derives_exit (l := [])) (by simp) fun _ => ?_
    apply derives_then (derives_emit hosts _) <;> simp
  · exact derives_pure (by simp +contextual)

theorem derives_callLambda (params : List String) (body : Expr) (scope : ScopeId) (c : Call)
    (k : Context .value) :
    D.Derives (.scope scope :: (c.nodes ++ k.nodes)) (callLambda setup params body scope c k)
      Task.nodes := by
  have bound : D.Derives c.nodes
      (placed (σ := σ) c.location (bindArguments "<lambda>" params c.args c.named 0))
      Bindings.nodes :=
    derives_placed fun s held =>
      brings_bindArguments _ params 0 (holds_append.mp held).1 (holds_append.mp held).2
  refine derives_bind bound (by simp +contextual) fun bindings => ?_
  refine derives_bind (derives_openScope scope bindings) (by simp +contextual) fun inner => ?_
  refine derives_bind (derives_emit hosts _) (by simp +contextual) fun _ => ?_
  refine derives_bind (derives_enter "<lambda>" inner c.location) (by simp +contextual) fun _ => ?_
  exact derives_pure (by simp +contextual)

theorem derives_construct (cls : Addr) (name : String) (methods : Table String Addr) (c : Call)
    (k : Context .value) :
    D.Derives (.object cls :: (Methods.nodes methods ++ c.nodes ++ k.nodes))
      (construct setup cls name methods c k) Reaction.nodes := by
  refine derives_bind (derives_alloc _) (by simp +contextual) fun object => ?_
  -- which method is called is read from the store, so the machine is fixed from here on
  intro m own held
  apply ensures_store
  split
  · next f hf =>
    obtain ⟨a, ha, read⟩ := Option.map_eq_some_iff.mp hf
    have methods : D.Holds m.extent (Methods.nodes methods) := by simp_all
    have here := own.rules.read (holds_methods.mp methods _ (Table.mem_of_get? ha))
    rw [read] at here
    split
    · exact derives_fail (l := []) _ m own holds_nil
    · have called := derives_callFunction hosts f name 1
        { c with args := object :: c.args } (.fill (.construct object) k)
      have given : D.Holds m.extent (.scope f.scope :: (object.nodes ++ c.nodes ++ k.nodes)) := by
        simp_all
      refine derives_bind called (by simp +contextual) (fun task => ?_) m own given
      cases task with
      | none => exact derives_pure (by simp +contextual)
      | some t => exact derives_pure (by simp +contextual)
  · split
    · exact derives_pure (l := object.nodes) (by simp +contextual) m own (by simp_all)
    · exact derives_fail (l := []) _ m own holds_nil

theorem derives_invoke (callee : Value) (c : Call) (k : Context .value) :
    D.Derives (callee.nodes ++ c.nodes ++ k.nodes) (invoke setup callee c k) Invocation.nodes := by
  have called (f : Closure) (label : String) (implicit : Nat) (c : Call) :
      D.Derives (.scope f.scope :: (c.nodes ++ k.nodes)) (do
        return Invocation.react (σ := σ) (bodyOf (← callFunction setup f label implicit c k)))
        Invocation.nodes := by
    refine derives_bind (derives_callFunction hosts f label implicit c k) (fun _ held => held) ?_
    intro task
    cases task with
    | none => exact derives_pure (by simp [bodyOf])
    | some t => exact derives_pure (by simp +contextual [bodyOf])
  have refused {l : List Node} :
      D.Derives l (notCallable callee c : Act σ (Invocation σ)) Invocation.nodes :=
    fun m own _ => own.stays
  intro m own held
  rw [List.append_assoc] at held
  obtain ⟨hcallee, rest⟩ := holds_append.mp held
  have known {o : Obj} (h : m.world.store.object? callee = some o) : D.Holds m.extent o.nodes :=
    own.rules.object hcallee h
  apply ensures_store
  split
  · split
    · next hb => exact derives_callBuiltin hosts hb c k m own rest
    · exact refused m own held
  · next f hf => exact called f f.name 0 c m own (holds_append.mpr ⟨known hf, rest⟩)
  · next r f hf =>
    obtain ⟨hr, hf⟩ := holds_cons.mp (known hf)
    split
    · next g hread =>
      split
      · exact derives_fail (l := []) _ m own holds_nil
      · have scope := own.rules.read (holds_cons.mp hf).1
        rw [hread] at scope
        have inner : D.Holds m.extent ({ c with args := .ref r :: c.args }.nodes ++ k.nodes) := by
          simpa [hr] using rest
        exact called g _ 1 _ m own (holds_append.mpr ⟨scope, inner⟩)
    · exact refused m own held
  · next params body scope hf =>
    refine derives_bind (derives_callLambda hosts params body scope c k) (fun _ held => held)
      (fun t => ?_) m own (holds_append.mpr ⟨known hf, rest⟩)
    exact derives_pure (by simp +contextual)
  · next name methods a hf =>
    refine derives_bind (derives_construct hosts a name methods c k) (fun _ held => held)
      (fun r => ?_) m own ?_
    · exact derives_pure (by simp +contextual)
    · rw [List.append_assoc]
      exact holds_cons.mpr ⟨(holds_cons.mp hcallee).1, holds_append.mpr ⟨known hf, rest⟩⟩
  · exact refused m own held

end Calls

section Step

variable {setup : Setup σ}

theorem gives_continueWith {b : Awaits} (k : Context b) (r : Reaction σ b) :
    D.Gives (r.nodes ++ k.nodes) (continueWith k r).nodes := by
  cases r <;> simp +contextual [continueWith]

theorem gives_receive (p : PendingCall) (v : Value) :
    D.Gives (v.nodes ++ p.nodes) (p.receive v).nodes := by
  unfold PendingCall.receive
  split <;> simp_all +contextual

theorem gives_call (p : PendingCall) :
    D.Gives p.nodes ((p.callee.getD .none).nodes ++ (Call.mk p.args p.named p.loc).nodes) := by
  cases h : p.callee
  all_goals simp +contextual [h]

variable (hosts : D.Hosts setup)

include hosts

theorem derives_giveTo {a : Awaits} (x : a.Input) (k : Context a) :
    D.Derives (Awaits.nodes x ++ k.nodes) (giveTo setup x k) Next.nodes := by
  cases k with
  | program => exact derives_pure (by simp)
  | fill h k =>
    refine derives_bind (derives_react hosts h x k) (fun _ held => held) fun r => ?_
    refine derives_pure fun n held => gives_continueWith k r n ?_
    simp_all
  | argument p k =>
    have received (n : Nat) (held : D.Holds n (Value.nodes x ++ (p.nodes ++ k.nodes))) :
        D.Holds n (p.receive x).nodes ∧ D.Holds n k.nodes := by
      rw [← List.append_assoc, holds_append] at held
      exact ⟨gives_receive p x n held.1, held.2⟩
    simp only [giveTo]
    split
    · refine derives_pure fun n held => ?_
      obtain ⟨hp, hk⟩ := received n held
      exact holds_append.mpr ⟨gives_call (p.receive x) n hp, hk⟩
    · refine derives_pure fun n held => ?_
      obtain ⟨hp, hk⟩ := received n held
      simp_all
  | sortKey o k =>
    simp only [giveTo]
    split
    · refine derives_bind (derives_endSort hosts _ _ _ _) (by simp +contextual) fun v => ?_
      exact derives_pure (by simp +contextual [continueWith])
    · exact derives_pure (by simp_all +contextual)
  | mapItem o k =>
    simp only [giveTo]
    split
    · refine derives_bind (derives_endMap hosts _ _ _) (by simp +contextual) fun v => ?_
      exact derives_pure (by simp +contextual [continueWith])
    · exact derives_pure (by simp_all +contextual)

theorem derives_step (c : Control) : D.Derives c.nodes (c.step setup) Next.nodes := by
  cases c with
  | task t => exact derives_map _ (derives_begin hosts t) (by simp +contextual)
  | move v =>
    cases v with
    | give x k => exact derives_giveTo hosts x k
    | call callee c k =>
      refine derives_bind (derives_invoke hosts callee c k) (fun _ held => held) fun v => ?_
      cases v with
      | react r =>
        refine derives_pure fun n held => gives_continueWith k r n ?_
        simp_all
      | again callee c k => exact derives_pure (by simp +contextual)

theorem derives_resumption (r : Resumption) : D.Derives r.nodes (r.control setup) Control.nodes := by
  cases r with
  | task t => exact derives_begin hosts t
  | waited name loc k =>
    apply derives_then (derives_emit hosts _) <;> simp +contextual

end Step

end Realm

end LoopScript
