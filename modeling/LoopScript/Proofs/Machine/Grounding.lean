import LoopScript.Proofs.Machine.Evaluation
import LoopScript.Proofs.Machine.Grounded

/-!
The steps of a machine leave it on what it stands on. A step that assigns no name, makes no function or
class and calls nothing leaves the bindings of every scope as they are.
-/

namespace LoopScript

variable {σ α β : Type}

/-- A change of the world by a handler of events or a rule about steps. -/
inductive Setup.Reports (setup : Setup σ) (w : World σ) : World σ → Prop where
  | hook (h : Hook σ) (hh : h ∈ setup.services.hooks) (e : Event σ) :
      Reports setup w (h.handle e w).2
  | rule (r : StepRule σ) (hr : r ∈ setup.services.rules) (c : StepContext) :
      Reports setup w (r.handle c w).2

theorem Setup.Reports.calls {setup : Setup σ} {w u : World σ} (h : setup.Reports w u) :
    ∃ answer, setup.Calls w answer u := by
  cases h with
  | hook h hh e => exact ⟨_, .hook h hh e⟩
  | rule r hr c => exact ⟨_, .rule r hr c⟩

/-- Extensions that keep the store in order. Their handlers and rules bind names only if that is
allowed. -/
structure Setup.Grounds (setup : Setup σ) (free : Prop) : Prop where
  call {w u : World σ} {answer : Option Fault} (h : setup.Calls w answer u)
    (hw : w.store.Grounded) : u.store.Grounded ∧ w.store.Grows True u.store
  report {w u : World σ} (h : setup.Reports w u) (hw : w.store.Grounded) :
    w.store.Grows free u.store

/-- What a hole does with what fills it: it assigns a name, or it goes on in a function of the host. -/
def Hole.acts : {a b : Awaits} → Hole a b → a.Input → Bool
  | _, _, .assignName .., _ | _, _, .eachOver .., _ | _, _, .forwarded .., _ => true
  | _, _, .eachBody _ todo _ _, .normal | _, _, .eachBody _ todo _ _, .continued => !todo.isEmpty
  | _, _, _, _ => false

def Stmt.defines : Stmt → Bool
  | .function _ | .class_ .. => true
  | _ => false

/-- The steps that may assign a name, define a function or a class, or call. -/
def Control.acts : Control → Bool
  | .task (.exec s _ _) => s.defines
  | .task (.eval ..) => false
  | .move (.give x (.fill h _)) => h.acts x
  | .move (.give ..) => false
  | .move (.call ..) => true

namespace Act

variable {free : Prop}

/-- An action that leaves a store in order, whatever has become of `s` before it. -/
def Grounds (free : Prop) (s : Store) (x : Act σ α) (P : Store → α → Prop) : Prop :=
  ∀ m, m.world.store.Grounded → s.Grows True m.world.store →
    Ensures x m
      (fun a n => n.world.store.Grounded ∧ m.world.store.Grows free n.world.store ∧
        P n.world.store a)
      fun _ n => n.world.store.Grounded ∧ m.world.store.Grows free n.world.store

/-- An action of whose result nothing is said. -/
abbrev Lays (free : Prop) (s : Store) (x : Act σ α) : Prop := Grounds free s x fun _ _ => True

section Quiet

variable {s : Store} {P : Store → α → Prop} {Q : Store → β → Prop} {x : Act σ α} {loc : Location}

theorem grounds_pure {a : α} (h : ∀ t, s.Grows True t → P t a) :
    Grounds free s (pure a : Act σ α) P :=
  fun _ hm grows => ⟨hm, .refl free _, h _ grows⟩

theorem grounds_throw (f : Fault) : Grounds free s (throw f : Act σ α) P :=
  fun _ hm _ => ⟨hm, .refl free _⟩

theorem grounds_bind {f : α → Act σ β} (hx : Grounds free s x P)
    (hf : ∀ a t, s.Grows True t → P t a → Grounds free t (f a) Q) :
    Grounds free s (x >>= f) Q := by
  intro m hm grows
  apply ensures_bind
  refine (hx m hm grows).mono ?_ fun _ _ h => h
  rintro a n ⟨hn, kept, ha⟩
  have later := hf a n.world.store (grows.trans kept.weaken) ha n hn (.refl True _)
  refine later.mono ?_ fun _ _ h => ⟨h.1, kept.trans h.2⟩
  rintro b k ⟨hk, kept', hb⟩
  exact ⟨hk, kept.trans kept', hb⟩

theorem Grounds.later {t : Store} (h : Grounds free s x P) (grows : s.Grows True t) :
    Grounds free t x P :=
  fun m hm later => h m hm (grows.trans later)

theorem grounds_then {f : α → Act σ β} (hx : Lays free s x) (hf : ∀ a, Grounds free s (f a) Q) :
    Grounds free s (x >>= f) Q :=
  grounds_bind hx fun a _ grows _ => (hf a).later grows

theorem lays_map (f : α → β) (hx : Lays free s x) : Lays free s (f <$> x) := by
  rw [← bind_pure_comp]
  exact grounds_then hx fun _ => grounds_pure fun _ _ => trivial

theorem grounds_get {f : Machine σ → Act σ α} (h : ∀ m, Grounds free s (f m) P) :
    Grounds free s (get >>= f) P :=
  fun m hm grows => ensures_get (h m m hm grows)

theorem grounds_store {f : Store → Act σ α}
    (h : ∀ t, s.Grows True t → t.Grounded → Grounds free t (f t) P) :
    Grounds free s (store >>= f) P :=
  fun m hm grows => h m.world.store grows hm m hm (.refl True _)

theorem lays_silent {f : Machine σ → α × Machine σ} (h : ∀ m, (f m).2.world.store = m.world.store) :
    Lays free s (modifyGet f : Act σ α) := by
  intro m hm _
  have same := h m
  exact ⟨same ▸ hm, same ▸ .refl free _, trivial⟩

theorem grounds_onStore {f : Store → α × Store}
    (h : ∀ t, s.Grows True t → t.Grounded → (f t).2.Grounded ∧ t.Grows free (f t).2 ∧ P (f t).2 (f t).1) :
    Grounds free s (onStore (σ := σ) f) P :=
  fun m hm grows => h m.world.store grows hm

theorem grounds_placed {x : Except Fault α} (h : ∀ a, x = .ok a → ∀ t, s.Grows True t → P t a) :
    Grounds free s (placed (σ := σ) loc x) P := by
  cases x with
  | ok a => exact grounds_pure (h a rfl)
  | error f => exact grounds_throw _

theorem lays_placed (x : Except Fault α) : Lays free s (placed (σ := σ) loc x) :=
  grounds_placed fun _ _ _ _ => trivial

theorem lays_reading (f : Store → Except Fault α) : Lays free s (reading (σ := σ) loc f) :=
  grounds_store fun _ _ _ => lays_placed _

theorem grounds_reading {f : Store → Except Fault α} {g : α → Act σ β}
    (h : ∀ m : Machine σ, m.world.store.Grounded → ∀ a, f m.world.store = .ok a →
      Ensures (g a) m
        (fun b n => n.world.store.Grounded ∧ m.world.store.Grows free n.world.store ∧
          Q n.world.store b)
        fun _ n => n.world.store.Grounded ∧ m.world.store.Grows free n.world.store) :
    Grounds free s (reading loc f >>= g) Q := by
  intro m hm _
  have here : (reading loc f >>= g) m = (placed loc (f m.world.store) >>= g) m := rfl
  rw [Ensures, here]
  cases e : f m.world.store with
  | ok a => exact h m hm a e
  | error f => exact ⟨hm, .refl free _⟩

theorem lays_alloc {o : Obj} (ho : o.Grounded s) : Lays free s (alloc (σ := σ) o) :=
  grounds_onStore fun t grows ht =>
    ⟨Store.grounded_alloc ht (ho.mono grows), Store.grows_alloc free t o, trivial⟩

theorem lays_making {f : Store → Except Fault Made}
    (h : ∀ t o, f t = .ok (.object o) → ∀ s, o.Grounded s) :
    Lays free s (making (σ := σ) loc f) := by
  refine grounds_bind (P := fun _ made => ∀ o, made = .object o → ∀ t, o.Grounded t) ?_ ?_
  · refine grounds_store fun t _ _ => grounds_placed ?_
    rintro a e u _ o rfl
    exact h t o e
  · intro made t _ ho
    cases made with
    | value v => exact grounds_pure fun _ _ => trivial
    | object o => exact lays_alloc (ho o rfl t)

theorem lays_fail (c : Cause) : Grounds free s (fail loc c : Act σ α) P :=
  grounds_throw _

theorem lays_isTruthy (v : Value) : Lays free s (isTruthy (σ := σ) v) :=
  grounds_store fun _ _ _ => grounds_pure fun _ _ => trivial

theorem lays_openScope (parent : ScopeId) (bindings : Table String Value) :
    Grounds free s (openScope (σ := σ) parent bindings) fun t i => i < t.scopes.size := by
  refine grounds_onStore fun t _ ht => ⟨Store.grounded_openScope ht _ _, ?_, ?_⟩
  · exact Store.grows_openScope free t _ _
  · simp [Store.openScope]

theorem lays_modifyStore {f : Store → Store}
    (h : ∀ t, t.Grounded → (f t).Grounded ∧ t.Grows free (f t)) :
    Lays free s (modifyStore (σ := σ) f) :=
  grounds_onStore fun t _ ht => ⟨(h t ht).1, (h t ht).2, trivial⟩

theorem grows_free (hfree : free) {s t : Store} (h : s.Grows True t) : s.Grows free t where
  hashable := h.hashable
  scopes i p hp := by
    obtain ⟨q, hq, parent, -⟩ := h.scopes i p hp
    exact ⟨q, hq, parent, fun bound => absurd hfree bound⟩

theorem define_grounded (hfree : free) {t : Store} (ht : t.Grounded) (scope : ScopeId)
    (name : String) (v : Value) :
    (t.define scope name v).Grounded ∧ t.Grows free (t.define scope name v) :=
  ⟨Store.grounded_define ht scope name v, grows_free hfree (Store.grows_define t scope name v)⟩

theorem lays_define (hfree : free) (scope : ScopeId) (name : String) (v : Value) :
    Lays free s (define (σ := σ) scope name v) :=
  lays_modifyStore fun _ ht => define_grounded hfree ht scope name v

theorem lays_assign (hfree : free) (scope : ScopeId) (name : String) (v : Value) :
    Lays free s (assign (σ := σ) scope name v) := by
  refine grounds_get fun m => ?_
  split
  · exact lays_modifyStore fun t ht => define_grounded hfree ht (t.root scope) name v
  · exact lays_modifyStore fun t ht => define_grounded hfree ht _ name v

theorem lays_combine (loc : Location) (old : Old) (v : Value) :
    Lays free s (combine (σ := σ) loc old v) := by
  cases old with
  | none => exact grounds_pure fun _ _ => trivial
  | some o => exact lays_making fun _ _ h t => Store.binary_grounded t h

theorem lays_oldValue (op : AssignOp) {read : Act σ Value} (hr : Lays free s read) :
    Lays free s (oldValue op read) := by
  unfold oldValue
  split
  · exact grounds_pure fun _ _ => trivial
  · exact grounds_then hr fun _ => grounds_pure fun _ _ => trivial

theorem lays_forM {γ : Type} {f : γ → Act σ PUnit} (h : ∀ c, Lays free s (f c)) (cs : List γ) :
    Lays free s (cs.forM f) := by
  induction cs with
  | nil => exact grounds_pure fun _ _ => trivial
  | cons c cs ih => exact grounds_then (h c) fun _ => ih

end Quiet

section Hosts

variable {s : Store} {setup : Setup σ} (hosts : setup.Grounds free)

include hosts

theorem lays_reporting {f : World σ → α × World σ} (h : ∀ w, setup.Reports w (f w).2) :
    Lays free s (onWorld f) := by
  intro m hm _
  have report := h m.world
  obtain ⟨answer, call⟩ := report.calls
  exact ⟨(hosts.call call hm).1, hosts.report report hm, trivial⟩

theorem lays_calling (hfree : free) {f : World σ → α × World σ}
    (h : ∀ w, ∃ answer, setup.Calls w answer (f w).2) : Lays free s (onWorld f) := by
  intro m hm _
  obtain ⟨answer, call⟩ := h m.world
  obtain ⟨order, grows⟩ := hosts.call call hm
  exact ⟨order, grows_free hfree grows, trivial⟩

theorem lays_callHooks (e : Event σ) {hooks : List (Hook σ)}
    (hh : ∀ h ∈ hooks, h ∈ setup.services.hooks) : Lays free s (callHooks e hooks) := by
  induction hooks with
  | nil => exact grounds_pure fun _ _ => trivial
  | cons h hooks ih =>
    have here := hh h List.mem_cons_self
    refine grounds_then (lays_reporting hosts fun w => .hook h here e) fun answer => ?_
    split
    · exact ih fun g hg => hh g (List.mem_cons_of_mem h hg)
    · exact grounds_throw _
    · exact grounds_get fun m => grounds_throw _

theorem lays_emit (e : Event σ) : Lays free s (emit setup e) :=
  lays_callHooks hosts e fun _ h => (List.mem_filter.mp h).1

theorem lays_callRules (c : StepContext) {rules : List (StepRule σ)}
    (hr : ∀ r ∈ rules, r ∈ setup.services.rules) : Lays free s (callRules c rules) := by
  induction rules with
  | nil => exact grounds_pure fun _ _ => trivial
  | cons r rules ih =>
    have here := hr r List.mem_cons_self
    have rest := ih fun g hg => hr g (List.mem_cons_of_mem r hg)
    simp only [callRules]
    split
    · refine grounds_then (lays_reporting hosts fun w => .rule r here c) fun answer => ?_
      split
      · exact rest
      · exact grounds_throw _
      · exact grounds_throw _
    · exact rest

theorem lays_logStep (rule : String) (loc : Location) : Lays free s (logStep setup rule loc) := by
  have rest (b : Option (List (String × String))) : Lays free s (do
      let step ← record setup.verbose rule loc b
      callRules ⟨step, rule, some loc⟩ setup.services.rules) :=
    grounds_then (lays_silent fun _ => rfl) fun _ => lays_callRules hosts _ fun _ h => h
  unfold logStep
  split
  · refine grounds_then (grounds_get fun m => ?_) rest
    split
    · exact grounds_pure fun _ _ => trivial
    · exact lays_map _ (lays_reading _)
  · exact rest none

end Hosts

section Begin

variable {s : Store}

theorem grounds_control {c : Control} (h : c.Grounded s) :
    Grounds free s (pure c : Act σ Control) Control.Grounded :=
  grounds_pure fun _ grows => h.mono grows

theorem grounds_next {v : Next σ} (h : v.Grounded s) : Grounds free s (pure v : Act σ _) Next.Grounded :=
  grounds_pure fun _ grows => h.mono grows

theorem lays_defineMethods (scope : ScopeId) (ds : List FunctionDef) :
    Lays free s (defineMethods (σ := σ) scope ds) := by
  induction ds with
  | nil => exact grounds_pure fun _ _ => trivial
  | cons d ds ih =>
    refine grounds_then (lays_alloc trivial) fun v => ?_
    split
    · exact lays_map _ ih
    · exact ih

variable {scope : ScopeId} (hi : scope < s.scopes.size)

include hi

theorem grounds_beginExpression (e : Expr) {k : Context .value} (hk : k.Grounded s) :
    Grounds free s (beginExpression (σ := σ) e scope k) Control.Grounded := by
  have given {x : Act σ Value} (hx : Lays free s x) :
      Grounds free s (do return Control.move (.give (a := .value) (← x) k)) Control.Grounded :=
    grounds_then hx fun _ => grounds_control hk
  cases e with
  | literal loc a => exact grounds_control hk
  | name loc id => exact given (lays_reading _)
  | binary | unary | call | index | slice | member => exact grounds_control ⟨hi, by trivial, hk⟩
  | comprehension => exact grounds_control ⟨hi, hi, hk⟩
  | list loc items | tuple loc items =>
    cases items with
    | nil => exact given (lays_alloc trivial)
    | cons d ds => exact grounds_control ⟨hi, hi, hk⟩
  | dict loc entries =>
    cases entries with
    | nil => exact given (lays_alloc s.keyed_nil)
    | cons e es => exact grounds_control ⟨hi, ⟨hi, s.keyed_nil⟩, hk⟩
  | lambda loc params body => exact given (lays_alloc trivial)

theorem grounds_beginStatement {q : Stmt} (hq : q.defines = true → free) {k : Context .flow}
    (hk : k.Grounded s) :
    Grounds free s (beginStatement (σ := σ) q scope k) Control.Grounded := by
  cases q with
  | expr | cond | loop | each => exact grounds_control ⟨hi, by trivial, hk⟩
  | assign loc target op e =>
    cases target with
    | name place id =>
      refine grounds_then (lays_oldValue op (lays_reading _)) fun old => ?_
      exact grounds_control ⟨hi, hi, hk⟩
    | member | index => exact grounds_control ⟨hi, hi, hk⟩
  | function d =>
    refine grounds_then (lays_alloc trivial) fun v => ?_
    exact grounds_then (lays_define (hq rfl) scope d.name v) fun _ => grounds_control hk
  | class_ loc name methods =>
    refine grounds_then (lays_defineMethods scope methods) fun table => ?_
    refine grounds_then (lays_alloc trivial) fun v => ?_
    exact grounds_then (lays_define (hq rfl) scope name v) fun _ => grounds_control hk
  | return_ loc value =>
    cases value with
    | none => exact grounds_control hk
    | some e => exact grounds_control ⟨hi, trivial, hk⟩
  | break_ | continue_ | pass_ => exact grounds_control hk
  | global_ loc names =>
    exact grounds_then (lays_silent fun _ => rfl) fun _ => grounds_control hk
  | import_ loc name member =>
    refine grounds_then (lays_reading _) fun v => ?_
    cases member with
    | none => exact grounds_control hk
    | some member =>
      refine grounds_then (lays_making fun _ _ h t => Store.getMember_grounded t h) fun _ => ?_
      exact grounds_control hk

omit hi

theorem grounds_begin {setup : Setup σ} (hosts : setup.Grounds free) {t : Task} (ht : t.Grounded s)
    (hf : (Control.task t).acts = true → free) :
    Grounds free s (begin setup t) Control.Grounded := by
  cases t with
  | eval e scope k => exact grounds_beginExpression ht.1 e ht.2
  | exec q scope k =>
    refine grounds_then (lays_silent fun _ => rfl) fun _ => ?_
    refine grounds_then (lays_emit hosts _) fun _ => ?_
    refine grounds_then (lays_logStep hosts _ _) fun _ => ?_
    exact grounds_beginStatement ht.1 hf ht.2

end Begin

section React

variable {s : Store} {loc : Location}

theorem grounds_reaction {b : Awaits} {r : Reaction σ b} (h : r.Grounded s) :
    Grounds free s (pure r : Act σ _) Reaction.Grounded := by
  refine grounds_pure fun t grows => ?_
  cases r with
  | give x => trivial
  | start q => exact Task.Grounded.mono grows h
  | pause w r => exact Resumption.Grounded.mono grows h

theorem grounds_give {x : Act σ Value} (hx : Lays free s x) :
    Grounds free s (do return Reaction.give (σ := σ) (b := .value) (← x)) Reaction.Grounded :=
  grounds_then hx fun _ => grounds_reaction trivial

theorem grounds_block (body : List Stmt) {scope : ScopeId} {k : Context .flow}
    (hi : scope < s.scopes.size) (hk : k.Grounded s) :
    Grounds free s (pure (block (σ := σ) body scope k) : Act σ _) Reaction.Grounded := by
  cases body with
  | nil => exact grounds_reaction trivial
  | cons q ss => exact grounds_reaction ⟨hi, hi, hk⟩

theorem grounds_nextRound (item : String) (todo : List Value) (body : List Stmt) {scope : ScopeId}
    {k : Context .flow} (hi : scope < s.scopes.size) (hk : k.Grounded s)
    (hf : todo ≠ [] → free) :
    Grounds free s (nextRound (σ := σ) item todo body scope k) Reaction.Grounded := by
  unfold nextRound
  split
  · exact grounds_reaction trivial
  · next nonempty =>
    refine grounds_then (lays_forM (fun v => lays_assign (hf ?_) scope item v) _) fun _ => ?_
    · rintro rfl
      exact nonempty rfl
    · exact grounds_reaction trivial
  · refine grounds_then (lays_assign (hf (List.cons_ne_nil _ _)) scope item _) fun _ => ?_
    exact grounds_reaction ⟨hi, hi, hi, hk⟩

theorem grounds_nextItem {c : Comprehension} (hc : c.scope < s.scopes.size) (todo done : List Value)
    {k : Context .value} (hk : k.Grounded s) :
    Grounds free s (nextItem (σ := σ) c todo done k) Reaction.Grounded := by
  unfold nextItem
  split
  · exact grounds_give (lays_alloc trivial)
  · refine grounds_bind (lays_openScope c.scope _) fun inner t grows hinner => ?_
    have hc := grows.lt hc
    have hk := hk.mono grows
    split
    · exact grounds_reaction ⟨hinner, ⟨hc, hinner⟩, hk⟩
    · exact grounds_reaction ⟨hinner, hc, hk⟩

theorem grounds_nextBound (loc : Location) (base : Value) {scope : ScopeId} {k : Context .value}
    (hi : scope < s.scopes.size) (hk : k.Grounded s) (done : List (Option Int))
    (todo : List (Option Expr)) :
    Grounds free s (nextBound (σ := σ) loc base scope k done todo) Reaction.Grounded := by
  induction todo generalizing done with
  | nil =>
    apply grounds_give
    apply lays_making
    intro _ o h t
    exact Store.slice_grounded t (Except.ok.inj h)
  | cons bound todo ih =>
    cases bound with
    | none => exact ih _
    | some e => exact grounds_reaction ⟨hi, hi, hk⟩

theorem grounds_givenBound (loc : Location) (base : Value) {scope : ScopeId} {k : Context .value}
    (hi : scope < s.scopes.size) (hk : k.Grounded s) (done : List (Option Int))
    (todo : List (Option Expr)) (x : Value) :
    Grounds free s (do
      nextBound (σ := σ) loc base scope k (some (← reading loc (·.toIndex x)) :: done) todo)
      Reaction.Grounded :=
  grounds_then (lays_reading _) fun _ => grounds_nextBound loc base hi hk _ todo

theorem lays_exit : Lays free s (exit (σ := σ)) := by
  intro m hm _
  apply ensures_get
  split
  · exact ⟨hm, .refl free _⟩
  · exact ⟨hm, .refl free _, trivial⟩

theorem lays_enter (name : String) (scope : ScopeId) (loc : Location) :
    Lays free s (enter (σ := σ) name scope loc) := by
  intro m hm _
  apply ensures_get
  split
  · exact ⟨hm, .refl free _⟩
  · exact ⟨hm, .refl free _, trivial⟩

theorem lays_leaveFunction (f : Flow) : Lays free s (leaveFunction (σ := σ) f) := by
  cases f with
  | normal | returned v => exact grounds_then lays_exit fun _ => grounds_pure fun _ _ => trivial
  | broken | continued => exact grounds_get fun m => grounds_throw _

variable {setup : Setup σ} (hosts : setup.Grounds free) {k : Context .value} (hk : k.Grounded s)

include hosts

theorem grounds_answer (name : String) (v : Value) :
    Grounds free s (do
      emit setup (.afterCall name v loc)
      return Reaction.give (σ := σ) (b := .value) v) Reaction.Grounded :=
  grounds_then (lays_emit hosts _) fun _ => grounds_reaction trivial

include hk

theorem grounds_settle (name : String) (r : Reply σ) :
    Grounds free s (settle setup name loc k r) Reaction.Grounded := by
  cases r with
  | fault f => exact grounds_throw f
  | wait w => exact grounds_then (lays_emit hosts _) fun _ => grounds_reaction hk
  | value v =>
    simp only [settle]
    split
    · refine grounds_then (lays_map _ (lays_placed _)) fun v => ?_
      exact grounds_answer hosts name v
    · exact grounds_answer hosts name _

omit hk

theorem grounds_react {a b : Awaits} {h : Hole a b} {x : a.Input} {k : Context b}
    (hh : h.Grounded s) (hk : k.Grounded s) (hf : h.acts x = true → free) :
    Grounds free s (react setup h x k) Reaction.Grounded := by
  have normal {b : Awaits} {y : b.Input} :
      Grounds free s (pure (Reaction.give y) : Act σ (Reaction σ b)) Reaction.Grounded :=
    grounds_reaction trivial
  cases h with
  | rest ss scope =>
    cases ss with
    | nil => exact normal
    | cons q ss =>
      cases x with
      | normal => exact grounds_reaction ⟨hh, hh, hk⟩
      | broken | continued | returned v => exact normal
  | discard => exact normal
  | branch body otherwise scope =>
    refine grounds_then (lays_isTruthy x) fun t => ?_
    split
    · exact grounds_block body hh hk
    · exact grounds_block _ hh hk
  | loopTest test body scope =>
    refine grounds_then (lays_isTruthy x) fun t => ?_
    split
    · cases body with
      | nil => exact grounds_reaction ⟨hh, hh, hk⟩
      | cons q ss => exact grounds_reaction ⟨hh, hh, hh, hk⟩
    · exact normal
  | loopBody test body scope =>
    cases x with
    | broken | returned v => exact normal
    | normal | continued => exact grounds_reaction ⟨hh, hh, hk⟩
  | eachOver loc item body scope =>
    refine grounds_then (lays_reading _) fun items => ?_
    exact grounds_nextRound item items body hh hk fun _ => hf rfl
  | eachBody item todo body scope =>
    have nonempty (h : todo ≠ []) : (!todo.isEmpty) = true := by
      cases todo with
      | nil => exact absurd rfl h
      | cons => rfl
    cases x with
    | broken | returned v => exact normal
    | normal | continued =>
      exact grounds_nextRound item todo body hh hk fun h => hf (nonempty h)
  | leave => exact normal
  | assignName loc id old scope =>
    refine grounds_then (lays_combine loc old x) fun v => ?_
    exact grounds_then (lays_assign (hf rfl) scope id v) fun _ => normal
  | memberBase loc name op e scope =>
    refine grounds_then (lays_reading _) fun base => ?_
    refine grounds_then (lays_oldValue op (lays_making ?_)) fun old => ?_
    · exact fun _ _ h t => Store.getMember_grounded t h
    · exact grounds_reaction ⟨hh, trivial, hk⟩
  | assignMember loc base name old =>
    refine grounds_then (lays_combine loc old x) fun v => ?_
    refine grounds_then (lays_modifyStore fun t ht => ?_) fun _ => normal
    exact ⟨Store.grounded_setField ht name v, Store.grows_setField free t base name v⟩
  | itemBase loc index op e scope => exact grounds_reaction ⟨hh, hh, hk⟩
  | itemIndex loc base op e scope =>
    refine grounds_then (lays_oldValue op (lays_reading _)) fun old => ?_
    exact grounds_reaction ⟨hh, trivial, hk⟩
  | assignItem loc base index old =>
    refine grounds_then (lays_combine loc old x) fun v => ?_
    -- the object is written into the very store in which it was found
    refine grounds_reading fun m hm place found => ?_
    obtain ⟨order, container⟩ := Store.setIndex_grounded hm found
    exact ⟨Store.grounded_write hm order container, Store.grows_write free container, trivial⟩
  | left loc op right scope =>
    refine grounds_then (lays_isTruthy x) fun t => ?_
    split
    · exact normal
    · exact normal
    · exact grounds_reaction ⟨hh, hk⟩
    · exact grounds_reaction ⟨hh, hk⟩
    · exact grounds_reaction ⟨hh, trivial, hk⟩
  | right loc op left => exact grounds_give (lays_making fun _ _ h t => Store.binary_grounded t h)
  | operand loc op => exact grounds_give (lays_reading _)
  | indexBase loc index scope => exact grounds_reaction ⟨hh, trivial, hk⟩
  | index loc base => exact grounds_give (lays_reading _)
  | sliceBase loc bounds scope =>
    refine grounds_then (lays_reading _) fun _ => ?_
    exact grounds_nextBound loc x hh hk [] bounds
  | sliceBound loc base done todo scope =>
    cases x with
    | atom a =>
      cases a with
      | none => exact grounds_nextBound loc base hh hk _ todo
      | bool | int | num | str => exact grounds_givenBound loc base hh hk done todo _
    | ref a => exact grounds_givenBound loc base hh hk done todo _
  | member loc name => exact grounds_give (lays_making fun _ _ h t => Store.getMember_grounded t h)
  | listItem done todo scope =>
    cases todo with
    | nil => exact grounds_give (lays_alloc trivial)
    | cons e todo => exact grounds_reaction ⟨hh, hh, hk⟩
  | dictKey loc value done todo scope =>
    obtain ⟨hi, keyed⟩ := hh
    refine grounds_bind (P := fun t _ => t.requireKey x = .ok ()) ?_ fun _ t grows hkey => ?_
    · exact grounds_store fun t _ _ => grounds_placed fun _ h u grows => grows.hashable x h
    · exact grounds_reaction ⟨grows.lt hi, ⟨grows.lt hi, keyed.mono grows, hkey⟩, hk.mono grows⟩
  | dictValue key done todo scope =>
    obtain ⟨hi, keyed, hkey⟩ := hh
    cases todo with
    | nil => exact grounds_give (lays_alloc (o := .dict (done.put key x)) (keyed.put hkey x))
    | cons e todo => exact grounds_reaction ⟨hi, ⟨hi, keyed.put hkey x⟩, hk⟩
  | comprehendOver loc c =>
    refine grounds_then (lays_reading _) fun items => ?_
    exact grounds_nextItem hh items [] hk
  | comprehendTest c inner todo done =>
    refine grounds_then (lays_isTruthy x) fun t => ?_
    split
    · exact grounds_reaction ⟨hh.2, hh.1, hk⟩
    · exact grounds_nextItem hh.1 todo done hk
  | comprehendItem c todo done => exact grounds_nextItem hh todo (x :: done) hk
  | body name loc =>
    exact grounds_then (lays_leaveFunction x) fun v => grounds_answer hosts name v
  | lambdaBody loc => exact grounds_then lays_exit fun _ => grounds_answer hosts "<lambda>" x
  | construct object => exact normal
  | forwarded name loc =>
    simp only [react]
    split
    · next finish hb =>
      refine grounds_then (lays_calling hosts (hf rfl) fun w => ?_) fun r =>
        grounds_settle hosts hk name r
      exact ⟨_, .finish _ finish x loc name hb rfl⟩
    · exact normal

end React

section Calls

variable {s : Store} {setup : Setup σ} {k : Context .value}

theorem grounds_invocation {v : Invocation σ} (h : v.Grounded s) :
    Grounds free s (pure v : Act σ _) Invocation.Grounded := by
  refine grounds_pure fun t grows => ?_
  cases v with
  | again callee c l => exact Context.Grounded.mono grows h
  | react r =>
    cases r with
    | give x => trivial
    | start q => exact Task.Grounded.mono grows h
    | pause w r => exact Resumption.Grounded.mono grows h

theorem grounds_reacting {x : Act σ (Reaction σ .value)} (hx : Grounds free s x Reaction.Grounded) :
    Grounds free s (do return Invocation.react (← x)) Invocation.Grounded :=
  grounds_bind hx fun r _ _ hr => grounds_invocation (v := .react r) hr

theorem lays_giving {x : Act σ Value} (hx : Lays free s x) :
    Grounds free s (do return Invocation.react (σ := σ) (.give (← x))) Invocation.Grounded :=
  grounds_then hx fun _ => grounds_invocation (v := .react (.give (b := .value) _)) trivial

theorem lays_reply (f : CoreFunction) (c : Call) : Lays free s (f.reply setup c) := by
  have done {x : Reply σ} : Lays free s (pure x : Act σ (Reply σ)) := grounds_pure fun _ _ => trivial
  cases f with
  | print =>
    refine grounds_then (lays_reading _) fun texts => ?_
    exact grounds_then (lays_silent fun _ => rfl) fun _ => done
  | range =>
    refine grounds_then (lays_reading _) fun items => ?_
    exact grounds_then (lays_alloc trivial) fun _ => done
  | sorted => exact done
  | sleep | len | str | int | float | abs | min | max | sum =>
    exact grounds_then (lays_reading _) fun _ => done

theorem lays_onlyOnce (c : Call) (key : String) (place : Nat) (more : List Value) :
    Lays free s (onlyOnce (σ := σ) c key place more) := by
  unfold onlyOnce
  split
  · exact lays_fail _
  · exact grounds_pure fun _ _ => trivial

variable (hosts : setup.Grounds free)

include hosts

theorem lays_endSort (loc : Location) (reversed : Bool) (keys items : List Value) :
    Lays free s (endSort setup loc reversed keys items) := by
  refine grounds_then (lays_reading _) fun sorted => ?_
  refine grounds_then (lays_alloc trivial) fun v => ?_
  exact grounds_then (lays_emit hosts _) fun _ => grounds_pure fun _ _ => trivial

theorem lays_endMap (name : String) (loc : Location) (results : List Value) :
    Lays free s (endMap setup name loc results) := by
  refine grounds_then (lays_alloc trivial) fun v => ?_
  exact grounds_then (lays_emit hosts _) fun _ => grounds_pure fun _ _ => trivial

variable (hk : k.Grounded s)

include hk

theorem grounds_startSort (c : Call) :
    Grounds free s (startSort setup c k) Invocation.Grounded := by
  unfold startSort
  split
  · exact grounds_throw _
  · refine grounds_then (lays_onlyOnce c _ _ _) fun _ => ?_
    refine grounds_then (lays_onlyOnce c _ _ _) fun _ => ?_
    refine grounds_then (lays_reading _) fun items => ?_
    refine grounds_then (lays_isTruthy _) fun reversed => ?_
    split
    · exact grounds_invocation hk
    · exact lays_giving (lays_endSort hosts _ _ _ _)

theorem grounds_startMap (name : String) (c : Call) :
    Grounds free s (startMap setup name c k) Invocation.Grounded := by
  unfold startMap
  split
  · refine grounds_then (lays_reading _) fun items => ?_
    split
    · exact lays_giving (lays_endMap hosts _ _ _)
    · exact grounds_invocation hk
  · exact grounds_throw _

theorem grounds_callBuiltin (hfree : free) {name : String} {b : Builtin σ}
    (hb : setup.builtin? name = some b) (c : Call) :
    Grounds free s (callBuiltin setup b c k) Invocation.Grounded := by
  refine grounds_then (lays_placed _) fun _ => ?_
  refine grounds_then (lays_emit hosts _) fun _ => ?_
  split
  · exact grounds_startSort hosts hk c
  · refine grounds_then (lays_reply _ c) fun r => ?_
    exact grounds_reacting (grounds_settle hosts hk _ r)
  · next reply hf =>
    refine grounds_then (lays_calling hosts hfree fun w => ⟨_, .reply b reply c name hb hf⟩) ?_
    exact fun r => grounds_reacting (grounds_settle hosts hk _ _)
  · split
    · exact grounds_throw _
    · exact grounds_invocation (v := .again _ _ _) ⟨trivial, hk⟩
  · exact grounds_startMap hosts hk _ c

theorem grounds_callFunction (f : Closure) (label : String) (implicit : Nat) (c : Call) :
    Grounds free s (callFunction setup f label implicit c k)
      fun t (task : Option Task) => ∀ q ∈ task, q.Grounded t := by
  refine grounds_then (lays_placed _) fun bound => ?_
  refine grounds_bind (lays_openScope f.scope bound) fun scope t grows hscope => ?_
  refine grounds_then (lays_emit hosts _) fun _ => ?_
  refine grounds_then (lays_enter f.name scope c.location) fun _ => ?_
  split
  · refine grounds_then lays_exit fun _ => ?_
    exact grounds_then (lays_emit hosts _) fun _ => grounds_pure fun _ _ => by simp
  · refine grounds_pure fun u grows' q hq => ?_
    obtain rfl := Option.some.inj hq
    have here := grows'.lt hscope
    exact ⟨here, here, trivial, (hk.mono grows).mono grows'⟩

theorem grounds_callLambda (params : List String) (body : Expr) {scope : ScopeId} (c : Call) :
    Grounds free s (callLambda setup params body scope c k) Task.Grounded := by
  refine grounds_then (lays_placed _) fun bound => ?_
  refine grounds_bind (lays_openScope scope bound) fun inner t grows hinner => ?_
  refine grounds_then (lays_emit hosts _) fun _ => ?_
  refine grounds_then (lays_enter "<lambda>" inner c.location) fun _ => ?_
  refine grounds_pure fun u grows' => ?_
  exact ⟨grows'.lt hinner, trivial, (hk.mono grows).mono grows'⟩

theorem grounds_construct (cls : Addr) (name : String) (methods : Table String Addr) (c : Call) :
    Grounds free s (construct setup cls name methods c k) Reaction.Grounded := by
  refine grounds_then (lays_alloc trivial) fun object => ?_
  refine grounds_store fun t grows ht => ?_
  split
  · next f _ =>
    have outer : Context.Grounded t (.fill (.construct object) k) := ⟨trivial, hk.mono grows⟩
    split
    · exact lays_fail _
    · refine grounds_bind (grounds_callFunction hosts outer f name 1 _) fun task u _ hq => ?_
      cases task with
      | none => exact grounds_reaction trivial
      | some q => exact grounds_reaction (hq q rfl)
  · split
    · exact grounds_reaction trivial
    · exact lays_fail _

theorem grounds_invoke (hfree : free) (callee : Value) (c : Call) :
    Grounds free s (invoke setup callee c k) Invocation.Grounded := by
  refine grounds_store fun t grows ht => ?_
  have hk := hk.mono grows
  have refused {α : Type} {P : Store → α → Prop} :
      Grounds free t (notCallable (σ := σ) callee c) P :=
    grounds_store fun _ _ _ => lays_fail _
  have called (f : Closure) (label : String) (implicit : Nat) (c : Call) : Grounds free t (do
        return Invocation.react (σ := σ) (bodyOf (← callFunction setup f label implicit c k)))
        Invocation.Grounded := by
    refine grounds_bind (grounds_callFunction hosts hk f label implicit c) fun task u _ hq => ?_
    cases task with
    | none => exact grounds_invocation (v := .react (.give (b := .value) .none)) trivial
    | some q => exact grounds_invocation (v := .react (.start q)) (hq q rfl)
  split
  · split
    · next hb => exact grounds_callBuiltin hosts hk hfree hb c
    · exact refused
  · exact called _ _ _ c
  · split
    · split
      · exact lays_fail _
      · exact called _ _ _ _
    · exact refused
  · next params body scope _ =>
    refine grounds_bind (grounds_callLambda hosts hk params body c) fun q u _ hq => ?_
    exact grounds_invocation (v := .react (.start q)) hq
  · exact grounds_reacting (grounds_construct hosts hk _ _ _ c)
  · exact refused

end Calls

section Step

variable {s : Store} {setup : Setup σ} (hosts : setup.Grounds free)

theorem continueWith_grounded {b : Awaits} {k : Context b} {r : Reaction σ b} (hk : k.Grounded s)
    (hr : r.Grounded s) : (continueWith k r).Grounded s := by
  cases r with
  | give x => exact hk
  | start t => exact hr
  | pause w r => exact hr

include hosts

theorem grounds_giveTo {a : Awaits} {x : a.Input} {k : Context a} (hk : k.Grounded s)
    (hf : (Control.move (.give x k)).acts = true → free) :
    Grounds free s (giveTo setup x k) Next.Grounded := by
  cases k with
  | program => exact grounds_next trivial
  | fill h k =>
    refine grounds_bind (grounds_react hosts hk.1 hk.2 hf) fun r t grows hr => ?_
    exact grounds_next (continueWith_grounded (hk.2.mono grows) hr)
  | argument c k =>
    have same : (c.receive x).scope = c.scope := by
      unfold PendingCall.receive
      split <;> rfl
    have here : (c.receive x).scope < s.scopes.size := same ▸ hk.1
    simp only [giveTo]
    split
    · exact grounds_next (v := .go (.move (.call _ _ k))) hk.2
    · exact grounds_next (v := .go (.task _)) ⟨here, here, hk.2⟩
  | sortKey o k =>
    simp only [giveTo]
    split
    · refine grounds_then (lays_endSort hosts _ _ _ _) fun v => ?_
      exact grounds_next (v := .go (.move (.give (a := .value) v k))) hk
    · exact grounds_next (v := .go (.move (.call _ _ _))) hk
  | mapItem o k =>
    simp only [giveTo]
    split
    · refine grounds_then (lays_endMap hosts _ _ _) fun v => ?_
      exact grounds_next (v := .go (.move (.give (a := .value) v k))) hk
    · exact grounds_next (v := .go (.move (.call _ _ _))) hk

theorem grounds_step {c : Control} (hc : c.Grounded s) (hf : c.acts = true → free) :
    Grounds free s (c.step setup) Next.Grounded := by
  cases c with
  | task t =>
    simp only [Control.step]
    rw [← bind_pure_comp]
    refine grounds_bind (grounds_begin hosts hc hf) fun c t _ hc => ?_
    exact grounds_next (v := .go c) hc
  | move v =>
    cases v with
    | give x k => exact grounds_giveTo hosts hc hf
    | call callee c k =>
      refine grounds_bind (grounds_invoke hosts hc (hf rfl) callee c) fun v t grows hv => ?_
      cases v with
      | react r => exact grounds_next (continueWith_grounded (hc.mono grows) hv)
      | again callee c k => exact grounds_next (v := .go (.move (.call callee c k))) hv

theorem grounds_resumption {r : Resumption} (hr : r.Grounded s) (hfree : free) :
    Grounds free s (r.control setup) Control.Grounded := by
  cases r with
  | task t => exact grounds_begin hosts hr fun _ => hfree
  | waited name loc k =>
    exact grounds_then (lays_emit hosts (.afterCall name .none loc)) fun _ => grounds_control hr

end Step

end Act

end LoopScript
