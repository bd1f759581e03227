import LoopScript.Proofs.Machine.Leads
import LoopScript.Proofs.Machine.Privacy
import LoopScript.Proofs.Machine.ReadBack

/-!
The steps of a machine leave private scopes alone. What a step carries out in a scope it goes on to carry
out there or in a scope of a function, and private scopes are around none of these.
-/

namespace LoopScript

variable {σ α β : Type} {Q : Set ScopeId}

/-- Extensions that take no part in private scopes. -/
def Setup.Minds (setup : Setup σ) : Prop :=
  ∀ (w u : World σ) (answer : Option Fault), setup.Calls w answer u → w.store.Minds u.store

/-- Nor does the host while the program waits. -/
def Stop.Minds (stop : Stop σ) : Prop :=
  stop.machine.world.store.Minds stop.world.store

namespace Act

/-- An action that leaves private scopes alone, whatever has become of `s` before it. -/
def Discreet (Q : Set ScopeId) (s : Store) (x : Act σ α) (P : Store → α → Prop) : Prop :=
  ∀ m, m.world.store.Private Q → s.Preserves Q m.world.store →
    Ensures x m
      (fun a n => n.world.store.Private Q ∧ m.world.store.Preserves Q n.world.store ∧
        P n.world.store a)
      fun _ n => n.world.store.Private Q ∧ m.world.store.Preserves Q n.world.store

/-- An action of whose result nothing is said. -/
abbrev Reserved (Q : Set ScopeId) (s : Store) (x : Act σ α) : Prop := Discreet Q s x fun _ _ => True

section Quiet

variable {s : Store} {P : Store → α → Prop} {R : Store → β → Prop} {x : Act σ α} {loc : Location}

theorem discreet_pure {a : α} (h : ∀ t, s.Preserves Q t → P t a) : Discreet Q s (pure a : Act σ α) P :=
  fun _ hm kept => ⟨hm, .refl Q _, h _ kept⟩

theorem discreet_throw (f : Fault) : Discreet Q s (throw f : Act σ α) P :=
  fun _ hm _ => ⟨hm, .refl Q _⟩

theorem discreet_bind {f : α → Act σ β} (hx : Discreet Q s x P)
    (hf : ∀ a t, s.Preserves Q t → P t a → Discreet Q t (f a) R) : Discreet Q s (x >>= f) R := by
  intro m hm kept
  apply ensures_bind
  refine (hx m hm kept).mono ?_ fun _ _ h => h
  rintro a n ⟨hn, kept', ha⟩
  have later := hf a n.world.store (kept.trans kept') ha n hn (.refl Q _)
  refine later.mono ?_ fun _ _ h => ⟨h.1, kept'.trans h.2⟩
  rintro b k ⟨hk, kept'', hb⟩
  exact ⟨hk, kept'.trans kept'', hb⟩

theorem Discreet.later {t : Store} (h : Discreet Q s x P) (kept : s.Preserves Q t) :
    Discreet Q t x P :=
  fun m hm later => h m hm (kept.trans later)

theorem discreet_then {f : α → Act σ β} (hx : Reserved Q s x) (hf : ∀ a, Discreet Q s (f a) R) :
    Discreet Q s (x >>= f) R :=
  discreet_bind hx fun a _ kept _ => (hf a).later kept

theorem reserved_map (f : α → β) (hx : Reserved Q s x) : Reserved Q s (f <$> x) := by
  rw [← bind_pure_comp]
  exact discreet_then hx fun _ => discreet_pure fun _ _ => trivial

theorem discreet_get {f : Machine σ → Act σ α} (h : ∀ m, Discreet Q s (f m) P) :
    Discreet Q s (get >>= f) P :=
  fun m hm kept => ensures_get (h m m hm kept)

theorem discreet_store {f : Store → Act σ α}
    (h : ∀ t, s.Preserves Q t → t.Private Q → Discreet Q t (f t) P) :
    Discreet Q s (store >>= f) P :=
  fun m hm kept => h m.world.store kept hm m hm (.refl Q _)

theorem reserved_silent {f : Machine σ → α × Machine σ}
    (h : ∀ m, (f m).2.world.store = m.world.store) : Reserved Q s (modifyGet f : Act σ α) := by
  intro m hm _
  have same := h m
  exact ⟨same ▸ hm, same ▸ .refl Q _, trivial⟩

theorem discreet_onStore {f : Store → α × Store}
    (h : ∀ t, s.Preserves Q t → t.Private Q →
      (f t).2.Private Q ∧ t.Preserves Q (f t).2 ∧ P (f t).2 (f t).1) :
    Discreet Q s (onStore (σ := σ) f) P :=
  fun m hm kept => h m.world.store kept hm

theorem reserved_placed (x : Except Fault α) : Reserved Q s (placed (σ := σ) loc x) := by
  cases x with
  | ok a => exact discreet_pure fun _ _ => trivial
  | error f => exact discreet_throw _

theorem reserved_reading (f : Store → Except Fault α) : Reserved Q s (reading (σ := σ) loc f) :=
  discreet_store fun _ _ _ => reserved_placed _

theorem discreet_reading {f : Store → Except Fault α} {g : α → Act σ β}
    (h : ∀ m : Machine σ, m.world.store.Private Q → ∀ a, f m.world.store = .ok a →
      Ensures (g a) m
        (fun b n => n.world.store.Private Q ∧ m.world.store.Preserves Q n.world.store ∧
          R n.world.store b)
        fun _ n => n.world.store.Private Q ∧ m.world.store.Preserves Q n.world.store) :
    Discreet Q s (reading loc f >>= g) R := by
  intro m hm _
  have here : (reading loc f >>= g) m = (placed loc (f m.world.store) >>= g) m := rfl
  rw [Ensures, here]
  cases e : f m.world.store with
  | ok a => exact h m hm a e
  | error f => exact ⟨hm, .refl Q _⟩

theorem reserved_alloc {o : Obj} (ho : ∀ f, o = .function f → s.Avoids Q f.scope) :
    Reserved Q s (alloc (σ := σ) o) := by
  refine discreet_onStore fun t kept ht => ⟨?_, Store.preserves_alloc Q t o, trivial⟩
  exact Store.private_alloc ht fun f hf => (ho f hf).mono kept

theorem reserved_making {f : Store → Except Fault Made}
    (h : ∀ t made, f t = .ok made → made.isCode = false) :
    Reserved Q s (making (σ := σ) loc f) := by
  refine discreet_bind (P := fun _ made => made.isCode = false) ?_ ?_
  · refine discreet_store fun t _ _ => ?_
    cases e : f t with
    | ok made => exact discreet_pure fun _ _ => h t made e
    | error f => exact discreet_throw _
  · intro made t _ plain
    cases made with
    | value v => exact discreet_pure fun _ _ => trivial
    | object o =>
      refine reserved_alloc ?_
      rintro f rfl
      cases plain

theorem reserved_fail (c : Cause) : Discreet Q s (fail loc c : Act σ α) P :=
  discreet_throw _

theorem reserved_isTruthy (v : Value) : Reserved Q s (isTruthy (σ := σ) v) :=
  discreet_store fun _ _ _ => discreet_pure fun _ _ => trivial

theorem reserved_openScope (parent : ScopeId) (bindings : Table String Value) :
    Reserved Q s (openScope (σ := σ) parent bindings) :=
  discreet_onStore fun t _ ht =>
    ⟨Store.private_openScope ht _ _, Store.preserves_openScope Q t _ _, trivial⟩

/-- Inside of a scope that keeps out of the private ones, another such scope is opened. -/
theorem discreet_openScope {parent : ScopeId} (hi : s.Avoids Q parent)
    (bindings : Table String Value) :
    Discreet Q s (openScope (σ := σ) parent bindings) fun t i => t.Avoids Q i :=
  discreet_onStore fun t kept ht =>
    ⟨Store.private_openScope ht _ _, Store.preserves_openScope Q t _ _,
      Store.avoids_openScope ht (hi.mono kept) bindings⟩

theorem reserved_modifyStore {f : Store → Store}
    (h : ∀ t, s.Preserves Q t → t.Private Q → (f t).Private Q ∧ t.Preserves Q (f t)) :
    Reserved Q s (modifyStore (σ := σ) f) :=
  discreet_onStore fun t kept ht => ⟨(h t kept ht).1, (h t kept ht).2, trivial⟩

theorem reserved_define {scope : ScopeId} (hi : s.Avoids Q scope) (name : String) (v : Value) :
    Reserved Q s (define (σ := σ) scope name v) :=
  reserved_modifyStore fun _ _ ht =>
    ⟨Store.private_define ht hi.apart name v, Store.preserves_define hi.apart name v⟩

theorem reserved_assign {scope : ScopeId} (hi : s.Avoids Q scope) (name : String) (v : Value) :
    Reserved Q s (assign (σ := σ) scope name v) := by
  intro m hm kept
  have apart := (hi.mono kept).target m.forced name
  rw [Ensures, assign_eq]
  exact ⟨Store.private_define hm apart name v, Store.preserves_define apart name v, trivial⟩

theorem reserved_combine (loc : Location) (old : Old) (v : Value) :
    Reserved Q s (combine (σ := σ) loc old v) := by
  cases old with
  | none => exact discreet_pure fun _ _ => trivial
  | some o => exact reserved_making fun _ _ h => Store.binary_code h

theorem reserved_oldValue (op : AssignOp) {read : Act σ Value} (hr : Reserved Q s read) :
    Reserved Q s (oldValue op read) := by
  unfold oldValue
  split
  · exact discreet_pure fun _ _ => trivial
  · exact discreet_then hr fun _ => discreet_pure fun _ _ => trivial

theorem reserved_forM {γ : Type} {f : γ → Act σ PUnit} (h : ∀ c, Reserved Q s (f c)) (cs : List γ) :
    Reserved Q s (cs.forM f) := by
  induction cs with
  | nil => exact discreet_pure fun _ _ => trivial
  | cons c cs ih => exact discreet_then (h c) fun _ => ih

end Quiet

section Hosts

variable {s : Store} {setup : Setup σ} (hosts : setup.Minds)

include hosts

theorem reserved_calling {f : World σ → α × World σ}
    (h : ∀ w, ∃ answer, setup.Calls w answer (f w).2) : Reserved Q s (onWorld f) := by
  intro m hm _
  obtain ⟨answer, call⟩ := h m.world
  obtain ⟨order, kept⟩ := hosts _ _ _ call Q hm
  exact ⟨order, kept, trivial⟩

theorem reserved_callHooks (e : Event σ) {hooks : List (Hook σ)}
    (hh : ∀ h ∈ hooks, h ∈ setup.services.hooks) : Reserved Q s (callHooks e hooks) := by
  induction hooks with
  | nil => exact discreet_pure fun _ _ => trivial
  | cons h hooks ih =>
    have here := hh h List.mem_cons_self
    refine discreet_then (reserved_calling hosts fun w => ⟨_, .hook h here e⟩) fun answer => ?_
    split
    · exact ih fun g hg => hh g (List.mem_cons_of_mem h hg)
    · exact discreet_throw _
    · exact discreet_get fun m => discreet_throw _

theorem reserved_emit (e : Event σ) : Reserved Q s (emit setup e) :=
  reserved_callHooks hosts e fun _ h => (List.mem_filter.mp h).1

theorem reserved_callRules (c : StepContext) {rules : List (StepRule σ)}
    (hr : ∀ r ∈ rules, r ∈ setup.services.rules) : Reserved Q s (callRules c rules) := by
  induction rules with
  | nil => exact discreet_pure fun _ _ => trivial
  | cons r rules ih =>
    have here := hr r List.mem_cons_self
    have rest := ih fun g hg => hr g (List.mem_cons_of_mem r hg)
    simp only [callRules]
    split
    · refine discreet_then (reserved_calling hosts fun w => ⟨_, .rule r here c⟩) fun answer => ?_
      split
      · exact rest
      · exact discreet_throw _
      · exact discreet_throw _
    · exact rest

theorem reserved_logStep (rule : String) (loc : Location) :
    Reserved Q s (logStep setup rule loc) := by
  have rest (b : Option (List (String × String))) : Reserved Q s (do
      let step ← record setup.verbose rule loc b
      callRules ⟨step, rule, some loc⟩ setup.services.rules) :=
    discreet_then (reserved_silent fun _ => rfl) fun _ => reserved_callRules hosts _ fun _ h => h
  unfold logStep
  split
  · refine discreet_then (discreet_get fun m => ?_) rest
    split
    · exact discreet_pure fun _ _ => trivial
    · exact reserved_map _ (reserved_reading _)
  · exact rest none

end Hosts

section Begin

variable {s : Store}

theorem discreet_control {c : Control} (h : c.Avoids Q s) :
    Discreet Q s (pure c : Act σ Control) (Control.Avoids Q) :=
  discreet_pure fun _ kept => h.mono kept

theorem discreet_next {v : Next σ} (h : v.Avoids Q s) :
    Discreet Q s (pure v : Act σ _) (Next.Avoids Q) :=
  discreet_pure fun _ kept => h.mono kept

theorem reserved_defineMethods {scope : ScopeId} (hi : s.Avoids Q scope) (ds : List FunctionDef) :
    Reserved Q s (defineMethods (σ := σ) scope ds) := by
  induction ds with
  | nil => exact discreet_pure fun _ _ => trivial
  | cons d ds ih =>
    refine discreet_then (reserved_alloc ?_) fun v => ?_
    · rintro _ ⟨⟩
      exact hi
    · split
      · exact reserved_map _ ih
      · exact ih

theorem discreet_beginExpression (e : Expr) (scope : ScopeId) {k : Context .value}
    (hk : k.Avoids Q s) :
    Discreet Q s (beginExpression (σ := σ) e scope k) (Control.Avoids Q) := by
  have given {x : Act σ Value} (hx : Reserved Q s x) :
      Discreet Q s (do return Control.move (.give (a := .value) (← x) k)) (Control.Avoids Q) :=
    discreet_then hx fun _ => discreet_control hk
  cases e with
  | literal loc a => exact discreet_control hk
  | name loc id => exact given (reserved_reading _)
  | binary | unary | index | slice | member | comprehension =>
    exact discreet_control (c := .task (.eval _ _ (.fill _ k))) ⟨trivial, hk⟩
  | call => exact discreet_control (c := .task (.eval _ _ (.argument _ k))) hk
  | list loc items | tuple loc items =>
    cases items with
    | nil => exact given (reserved_alloc nofun)
    | cons d ds => exact discreet_control (c := .task (.eval _ _ (.fill _ k))) ⟨trivial, hk⟩
  | dict loc entries =>
    cases entries with
    | nil => exact given (reserved_alloc nofun)
    | cons e es => exact discreet_control (c := .task (.eval _ _ (.fill _ k))) ⟨trivial, hk⟩
  | lambda loc params body => exact given (reserved_alloc nofun)

theorem discreet_beginStatement {scope : ScopeId} (hi : s.Avoids Q scope) (q : Stmt)
    {k : Context .flow} (hk : k.Avoids Q s) :
    Discreet Q s (beginStatement (σ := σ) q scope k) (Control.Avoids Q) := by
  cases q with
  | expr => exact discreet_control (c := .task (.eval _ _ (.fill _ k))) ⟨trivial, hk⟩
  | cond | loop | each => exact discreet_control (c := .task (.eval _ _ (.fill _ k))) ⟨hi, hk⟩
  | assign loc target op e =>
    cases target with
    | name place id =>
      refine discreet_then (reserved_oldValue op (reserved_reading _)) fun old => ?_
      exact discreet_control (c := .task (.eval _ _ (.fill _ k))) ⟨hi, hk⟩
    | member | index => exact discreet_control (c := .task (.eval _ _ (.fill _ k))) ⟨trivial, hk⟩
  | function d =>
    refine discreet_then (reserved_alloc ?_) fun v => ?_
    · rintro _ ⟨⟩
      exact hi
    · exact discreet_then (reserved_define hi d.name v) fun _ => discreet_control hk
  | class_ loc name methods =>
    refine discreet_then (reserved_defineMethods hi methods) fun table => ?_
    refine discreet_then (reserved_alloc nofun) fun v => ?_
    exact discreet_then (reserved_define hi name v) fun _ => discreet_control hk
  | return_ loc value =>
    cases value with
    | none => exact discreet_control hk
    | some e => exact discreet_control (c := .task (.eval _ _ (.fill _ k))) ⟨trivial, hk⟩
  | break_ | continue_ | pass_ => exact discreet_control hk
  | global_ loc names =>
    exact discreet_then (reserved_silent fun _ => rfl) fun _ => discreet_control hk
  | import_ loc name member =>
    refine discreet_then (reserved_reading _) fun v => ?_
    cases member with
    | none => exact discreet_control hk
    | some member =>
      refine discreet_then (reserved_making fun _ _ h => Store.getMember_code h) fun _ => ?_
      exact discreet_control hk

theorem discreet_begin {setup : Setup σ} (hosts : setup.Minds) {t : Task} (ht : t.Avoids Q s) :
    Discreet Q s (begin setup t) (Control.Avoids Q) := by
  cases t with
  | eval e scope k => exact discreet_beginExpression e scope ht
  | exec q scope k =>
    refine discreet_then (reserved_silent fun _ => rfl) fun _ => ?_
    refine discreet_then (reserved_emit hosts _) fun _ => ?_
    refine discreet_then (reserved_logStep hosts _ _) fun _ => ?_
    exact discreet_beginStatement ht.1 q ht.2

end Begin

section React

variable {s : Store} {loc : Location}

theorem discreet_reaction {b : Awaits} {r : Reaction σ b} (h : r.Avoids Q s) :
    Discreet Q s (pure r : Act σ _) (Reaction.Avoids Q) :=
  discreet_pure fun _ kept => h.mono kept

theorem discreet_give {x : Act σ Value} (hx : Reserved Q s x) :
    Discreet Q s (do return Reaction.give (σ := σ) (b := .value) (← x)) (Reaction.Avoids Q) :=
  discreet_then hx fun _ => discreet_reaction trivial

/-- An expression inside a hole through which no name is assigned. -/
theorem discreet_eval {b : Awaits} {h : Hole .value b} {k : Context b} (hh : h.Avoids Q s)
    (hk : k.Avoids Q s) (e : Expr) (scope : ScopeId) :
    Discreet Q s (pure (.start (.eval e scope (.fill h k))) : Act σ (Reaction σ b))
      (Reaction.Avoids Q) :=
  discreet_reaction (r := .start (.eval e scope (.fill h k))) ⟨hh, hk⟩

theorem discreet_block (body : List Stmt) {scope : ScopeId} {k : Context .flow}
    (hi : s.Avoids Q scope) (hk : k.Avoids Q s) :
    Discreet Q s (pure (block (σ := σ) body scope k) : Act σ _) (Reaction.Avoids Q) := by
  cases body with
  | nil => exact discreet_reaction trivial
  | cons q ss => exact discreet_reaction ⟨hi, hi, hk⟩

theorem discreet_nextRound (item : String) (todo : List Value) (body : List Stmt) {scope : ScopeId}
    {k : Context .flow} (hi : s.Avoids Q scope) (hk : k.Avoids Q s) :
    Discreet Q s (nextRound (σ := σ) item todo body scope k) (Reaction.Avoids Q) := by
  unfold nextRound
  split
  · exact discreet_reaction trivial
  · refine discreet_then (reserved_forM (fun v => reserved_assign hi item v) _) fun _ => ?_
    exact discreet_reaction trivial
  · refine discreet_then (reserved_assign hi item _) fun _ => ?_
    exact discreet_reaction ⟨hi, hi, hi, hk⟩

theorem discreet_nextItem (c : Comprehension) (todo done : List Value) {k : Context .value}
    (hk : k.Avoids Q s) :
    Discreet Q s (nextItem (σ := σ) c todo done k) (Reaction.Avoids Q) := by
  unfold nextItem
  split
  · exact discreet_give (reserved_alloc (by simp))
  · refine discreet_then (reserved_openScope c.scope _) fun inner => ?_
    split
    · exact discreet_eval (by trivial) hk _ _
    · exact discreet_eval (by trivial) hk _ _

theorem discreet_nextBound (loc : Location) (base : Value) (scope : ScopeId) {k : Context .value}
    (hk : k.Avoids Q s) (done : List (Option Int)) (todo : List (Option Expr)) :
    Discreet Q s (nextBound (σ := σ) loc base scope k done todo) (Reaction.Avoids Q) := by
  induction todo generalizing done with
  | nil =>
    apply discreet_give
    apply reserved_making
    intro t made h
    exact Except.ok.inj h ▸ t.isCode_slice _ _ _ _
  | cons bound todo ih =>
    cases bound with
    | none => exact ih _
    | some e => exact discreet_eval (by trivial) hk _ _

theorem discreet_givenBound (loc : Location) (base : Value) (scope : ScopeId) {k : Context .value}
    (hk : k.Avoids Q s) (done : List (Option Int)) (todo : List (Option Expr)) (x : Value) :
    Discreet Q s (do
      nextBound (σ := σ) loc base scope k (some (← reading loc (·.toIndex x)) :: done) todo)
      (Reaction.Avoids Q) :=
  discreet_then (reserved_reading _) fun _ => discreet_nextBound loc base scope hk _ todo

theorem reserved_exit : Reserved Q s (exit (σ := σ)) := by
  intro m hm _
  apply ensures_get
  split
  · exact ⟨hm, .refl Q _⟩
  · exact ⟨hm, .refl Q _, trivial⟩

theorem reserved_enter (name : String) (scope : ScopeId) (loc : Location) :
    Reserved Q s (enter (σ := σ) name scope loc) := by
  intro m hm _
  apply ensures_get
  split
  · exact ⟨hm, .refl Q _⟩
  · exact ⟨hm, .refl Q _, trivial⟩

theorem reserved_leaveFunction (f : Flow) : Reserved Q s (leaveFunction (σ := σ) f) := by
  cases f with
  | normal | returned v => exact discreet_then reserved_exit fun _ => discreet_pure fun _ _ => trivial
  | broken | continued => exact discreet_get fun m => discreet_throw _

variable {setup : Setup σ} (hosts : setup.Minds) {k : Context .value} (hk : k.Avoids Q s)

include hosts

theorem discreet_answer (name : String) (v : Value) :
    Discreet Q s (do
      emit setup (.afterCall name v loc)
      return Reaction.give (σ := σ) (b := .value) v) (Reaction.Avoids Q) :=
  discreet_then (reserved_emit hosts _) fun _ => discreet_reaction trivial

include hk

theorem discreet_settle (name : String) (r : Reply σ) :
    Discreet Q s (settle setup name loc k r) (Reaction.Avoids Q) := by
  cases r with
  | fault f => exact discreet_throw f
  | wait w => exact discreet_then (reserved_emit hosts _) fun _ => discreet_reaction hk
  | value v =>
    simp only [settle]
    split
    · refine discreet_then (reserved_map _ (reserved_placed _)) fun v => ?_
      exact discreet_answer hosts name v
    · exact discreet_answer hosts name _

omit hk

theorem discreet_react {a b : Awaits} {h : Hole a b} {x : a.Input} {k : Context b}
    (hh : h.Avoids Q s) (hk : k.Avoids Q s) :
    Discreet Q s (react setup h x k) (Reaction.Avoids Q) := by
  have normal {b : Awaits} {y : b.Input} :
      Discreet Q s (pure (Reaction.give y) : Act σ (Reaction σ b)) (Reaction.Avoids Q) :=
    discreet_reaction trivial
  cases h with
  | rest ss scope =>
    cases ss with
    | nil => exact normal
    | cons q ss =>
      cases x with
      | normal => exact discreet_reaction ⟨hh, hh, hk⟩
      | broken | continued | returned v => exact normal
  | discard => exact normal
  | branch body otherwise scope =>
    refine discreet_then (reserved_isTruthy x) fun t => ?_
    split
    · exact discreet_block body hh hk
    · exact discreet_block _ hh hk
  | loopTest test body scope =>
    refine discreet_then (reserved_isTruthy x) fun t => ?_
    split
    · split
      · exact discreet_eval hh hk _ _
      · exact discreet_reaction ⟨hh, hh, hh, hk⟩
    · exact normal
  | loopBody test body scope =>
    cases x with
    | broken | returned v => exact normal
    | normal | continued => exact discreet_eval hh hk _ _
  | eachOver loc item body scope =>
    refine discreet_then (reserved_reading _) fun items => ?_
    exact discreet_nextRound item items body hh hk
  | eachBody item todo body scope =>
    cases x with
    | broken | returned v => exact normal
    | normal | continued => exact discreet_nextRound item todo body hh hk
  | leave => exact normal
  | assignName loc id old scope =>
    refine discreet_then (reserved_combine loc old x) fun v => ?_
    exact discreet_then (reserved_assign hh id v) fun _ => normal
  | memberBase loc name op e scope =>
    refine discreet_then (reserved_reading _) fun base => ?_
    refine discreet_then (reserved_oldValue op (reserved_making ?_)) fun old => ?_
    · exact fun _ _ h => Store.getMember_code h
    · exact discreet_eval (by trivial) hk _ _
  | assignMember loc base name old =>
    refine discreet_then (reserved_combine loc old x) fun v => ?_
    refine discreet_then (reserved_modifyStore fun t _ ht => ?_) fun _ => normal
    exact Store.setField_private ht base name v
  | itemBase loc index op e scope => exact discreet_eval (by trivial) hk _ _
  | itemIndex loc base op e scope =>
    refine discreet_then (reserved_oldValue op (reserved_reading _)) fun old => ?_
    exact discreet_eval (by trivial) hk _ _
  | assignItem loc base index old =>
    refine discreet_then (reserved_combine loc old x) fun v => ?_
    -- the object is written into the very store in which it was found
    refine discreet_reading fun m hm place found => ?_
    obtain ⟨plain, container⟩ := Store.setIndex_code found
    exact ⟨Store.private_write hm plain container, Store.preserves_write Q container, trivial⟩
  | left loc op right scope =>
    refine discreet_then (reserved_isTruthy x) fun t => ?_
    split
    · exact normal
    · exact normal
    · exact discreet_reaction (r := .start (.eval right scope k)) hk
    · exact discreet_reaction (r := .start (.eval right scope k)) hk
    · exact discreet_eval (by trivial) hk _ _
  | right loc op left => exact discreet_give (reserved_making fun _ _ h => Store.binary_code h)
  | operand loc op => exact discreet_give (reserved_reading _)
  | indexBase loc index scope => exact discreet_eval (by trivial) hk _ _
  | index loc base => exact discreet_give (reserved_reading _)
  | sliceBase loc bounds scope =>
    refine discreet_then (reserved_reading _) fun _ => ?_
    exact discreet_nextBound loc x scope hk [] bounds
  | sliceBound loc base done todo scope =>
    cases x with
    | atom a =>
      cases a with
      | none => exact discreet_nextBound loc base scope hk _ todo
      | bool | int | num | str => exact discreet_givenBound loc base scope hk done todo _
    | ref a => exact discreet_givenBound loc base scope hk done todo _
  | member loc name => exact discreet_give (reserved_making fun _ _ h => Store.getMember_code h)
  | listItem done todo scope =>
    cases todo with
    | nil => exact discreet_give (reserved_alloc (by simp))
    | cons e todo => exact discreet_eval (by trivial) hk _ _
  | dictKey loc value done todo scope =>
    exact discreet_then (reserved_reading _) fun _ => discreet_eval (by trivial) hk _ _
  | dictValue key done todo scope =>
    cases todo with
    | nil => exact discreet_give (reserved_alloc (by simp))
    | cons e todo => exact discreet_eval (by trivial) hk _ _
  | comprehendOver loc c =>
    exact discreet_then (reserved_reading _) fun items => discreet_nextItem c items [] hk
  | comprehendTest c inner todo done =>
    refine discreet_then (reserved_isTruthy x) fun t => ?_
    split
    · exact discreet_eval (by trivial) hk _ _
    · exact discreet_nextItem c todo done hk
  | comprehendItem c todo done => exact discreet_nextItem c todo (x :: done) hk
  | body name loc =>
    exact discreet_then (reserved_leaveFunction x) fun v => discreet_answer hosts name v
  | lambdaBody loc => exact discreet_then reserved_exit fun _ => discreet_answer hosts "<lambda>" x
  | construct object => exact normal
  | forwarded name loc =>
    simp only [react]
    split
    · next finish hb =>
      refine discreet_then (reserved_calling hosts fun w => ?_) fun r => discreet_settle hosts hk name r
      exact ⟨_, .finish _ finish x loc name hb rfl⟩
    · exact normal

end React

section Calls

variable {s : Store} {setup : Setup σ} {k : Context .value}

theorem discreet_invocation {v : Invocation σ} (h : v.Avoids Q s) :
    Discreet Q s (pure v : Act σ _) (Invocation.Avoids Q) :=
  discreet_pure fun _ kept => h.mono kept

theorem discreet_reacting {x : Act σ (Reaction σ .value)} (hx : Discreet Q s x (Reaction.Avoids Q)) :
    Discreet Q s (do return Invocation.react (← x)) (Invocation.Avoids Q) :=
  discreet_bind hx fun r _ _ hr => discreet_invocation (v := .react r) hr

theorem discreet_giving {x : Act σ Value} (hx : Reserved Q s x) :
    Discreet Q s (do return Invocation.react (σ := σ) (.give (← x))) (Invocation.Avoids Q) :=
  discreet_then hx fun _ => discreet_invocation (v := .react (.give (b := .value) _)) trivial

theorem reserved_reply (f : CoreFunction) (c : Call) : Reserved Q s (f.reply setup c) := by
  have done {x : Reply σ} : Reserved Q s (pure x : Act σ (Reply σ)) :=
    discreet_pure fun _ _ => trivial
  cases f with
  | print =>
    refine discreet_then (reserved_reading _) fun texts => ?_
    exact discreet_then (reserved_silent fun _ => rfl) fun _ => done
  | range =>
    refine discreet_then (reserved_reading _) fun items => ?_
    exact discreet_then (reserved_alloc nofun) fun _ => done
  | sorted => exact done
  | sleep | len | str | int | float | abs | min | max | sum =>
    exact discreet_then (reserved_reading _) fun _ => done

theorem reserved_onlyOnce (c : Call) (key : String) (place : Nat) (more : List Value) :
    Reserved Q s (onlyOnce (σ := σ) c key place more) := by
  unfold onlyOnce
  split
  · exact reserved_fail _
  · exact discreet_pure fun _ _ => trivial

variable (hosts : setup.Minds)

include hosts

theorem reserved_endSort (loc : Location) (reversed : Bool) (keys items : List Value) :
    Reserved Q s (endSort setup loc reversed keys items) := by
  refine discreet_then (reserved_reading _) fun sorted => ?_
  refine discreet_then (reserved_alloc nofun) fun v => ?_
  exact discreet_then (reserved_emit hosts _) fun _ => discreet_pure fun _ _ => trivial

theorem reserved_endMap (name : String) (loc : Location) (results : List Value) :
    Reserved Q s (endMap setup name loc results) := by
  refine discreet_then (reserved_alloc nofun) fun v => ?_
  exact discreet_then (reserved_emit hosts _) fun _ => discreet_pure fun _ _ => trivial

variable (hk : k.Avoids Q s)

include hk

theorem discreet_startSort (c : Call) :
    Discreet Q s (startSort setup c k) (Invocation.Avoids Q) := by
  unfold startSort
  split
  · exact discreet_throw _
  · refine discreet_then (reserved_onlyOnce c _ _ _) fun _ => ?_
    refine discreet_then (reserved_onlyOnce c _ _ _) fun _ => ?_
    refine discreet_then (reserved_reading _) fun items => ?_
    refine discreet_then (reserved_isTruthy _) fun reversed => ?_
    split
    · exact discreet_invocation hk
    · exact discreet_giving (reserved_endSort hosts _ _ _ _)

theorem discreet_startMap (name : String) (c : Call) :
    Discreet Q s (startMap setup name c k) (Invocation.Avoids Q) := by
  unfold startMap
  split
  · refine discreet_then (reserved_reading _) fun items => ?_
    split
    · exact discreet_giving (reserved_endMap hosts _ _ _)
    · exact discreet_invocation hk
  · exact discreet_throw _

theorem discreet_callBuiltin {name : String} {b : Builtin σ} (hb : setup.builtin? name = some b)
    (c : Call) : Discreet Q s (callBuiltin setup b c k) (Invocation.Avoids Q) := by
  refine discreet_then (reserved_placed _) fun _ => ?_
  refine discreet_then (reserved_emit hosts _) fun _ => ?_
  split
  · exact discreet_startSort hosts hk c
  · refine discreet_then (reserved_reply _ c) fun r => ?_
    exact discreet_reacting (discreet_settle hosts hk _ r)
  · next reply hf =>
    refine discreet_then (reserved_calling hosts fun w => ⟨_, .reply b reply c name hb hf⟩) ?_
    exact fun r => discreet_reacting (discreet_settle hosts hk _ _)
  · split
    · exact discreet_throw _
    · exact discreet_invocation (v := .again _ _ _) ⟨trivial, hk⟩
  · exact discreet_startMap hosts hk _ c

/-- The body of a function is carried out in a scope inside the one in which it was defined. -/
theorem discreet_callFunction {f : Closure} (hf : s.Avoids Q f.scope) (label : String)
    (implicit : Nat) (c : Call) :
    Discreet Q s (callFunction setup f label implicit c k)
      fun t (task : Option Task) => ∀ q ∈ task, q.Avoids Q t := by
  refine discreet_then (reserved_placed _) fun bound => ?_
  refine discreet_bind (discreet_openScope hf bound) fun scope t kept hscope => ?_
  refine discreet_then (reserved_emit hosts _) fun _ => ?_
  refine discreet_then (reserved_enter f.name scope c.location) fun _ => ?_
  split
  · refine discreet_then reserved_exit fun _ => ?_
    exact discreet_then (reserved_emit hosts _) fun _ => discreet_pure fun _ _ => by simp
  · refine discreet_pure fun u kept' q hq => ?_
    obtain rfl := Option.some.inj hq
    have here := hscope.mono kept'
    exact ⟨here, here, trivial, (hk.mono kept).mono kept'⟩

theorem discreet_callLambda (params : List String) (body : Expr) (scope : ScopeId) (c : Call) :
    Discreet Q s (callLambda setup params body scope c k) (Task.Avoids Q) := by
  refine discreet_then (reserved_placed _) fun bound => ?_
  refine discreet_then (reserved_openScope scope bound) fun inner => ?_
  refine discreet_then (reserved_emit hosts _) fun _ => ?_
  refine discreet_then (reserved_enter "<lambda>" inner c.location) fun _ => ?_
  exact discreet_pure fun u kept => ⟨trivial, hk.mono kept⟩

theorem discreet_construct (cls : Addr) (name : String) (methods : Table String Addr) (c : Call) :
    Discreet Q s (construct setup cls name methods c k) (Reaction.Avoids Q) := by
  refine discreet_then (reserved_alloc nofun) fun object => ?_
  refine discreet_store fun t kept ht => ?_
  split
  · next f hf =>
    have outer : Context.Avoids Q t (.fill (.construct object) k) := ⟨trivial, hk.mono kept⟩
    obtain ⟨a, -, ha⟩ := Option.map_eq_some_iff.mp hf
    split
    · exact reserved_fail _
    · refine discreet_bind (discreet_callFunction hosts outer (ht.functions a f ha) name 1 _) ?_
      intro task u _ hq
      cases task with
      | none => exact discreet_reaction trivial
      | some q => exact discreet_reaction (hq q rfl)
  · split
    · exact discreet_reaction trivial
    · exact reserved_fail _

theorem discreet_invoke (callee : Value) (c : Call) :
    Discreet Q s (invoke setup callee c k) (Invocation.Avoids Q) := by
  refine discreet_store fun t kept ht => ?_
  have hk := hk.mono kept
  have refused {α : Type} {P : Store → α → Prop} :
      Discreet Q t (notCallable (σ := σ) callee c) P :=
    discreet_store fun _ _ _ => reserved_fail _
  have called {f : Closure} (hf : t.Avoids Q f.scope) (label : String) (implicit : Nat) (c : Call) :
      Discreet Q t (do
        return Invocation.react (σ := σ) (bodyOf (← callFunction setup f label implicit c k)))
        (Invocation.Avoids Q) := by
    refine discreet_bind (discreet_callFunction hosts hk hf label implicit c) fun task u _ hq => ?_
    cases task with
    | none => exact discreet_invocation (v := .react (.give (b := .value) .none)) trivial
    | some q => exact discreet_invocation (v := .react (.start q)) (hq q rfl)
  split
  · split
    · next hb => exact discreet_callBuiltin hosts hk hb c
    · exact refused
  · next f hf => exact called (ht.object? hf) _ _ c
  · split
    · next f hf =>
      split
      · exact reserved_fail _
      · exact called (ht.functions _ f hf) _ _ _
    · exact refused
  · next params body scope _ =>
    refine discreet_bind (discreet_callLambda hosts hk params body scope c) fun q u _ hq => ?_
    exact discreet_invocation (v := .react (.start q)) hq
  · exact discreet_reacting (discreet_construct hosts hk _ _ _ c)
  · exact refused

end Calls

section Step

variable {s : Store} {setup : Setup σ} (hosts : setup.Minds)

theorem continueWith_avoids {b : Awaits} {k : Context b} {r : Reaction σ b} (hk : k.Avoids Q s)
    (hr : r.Avoids Q s) : (continueWith k r).Avoids Q s := by
  cases r with
  | give x => exact hk
  | start t => exact hr
  | pause w r => exact hr

include hosts

theorem discreet_giveTo {a : Awaits} {x : a.Input} {k : Context a} (hk : k.Avoids Q s) :
    Discreet Q s (giveTo setup x k) (Next.Avoids Q) := by
  cases k with
  | program => exact discreet_next trivial
  | fill h k =>
    refine discreet_bind (discreet_react hosts hk.1 hk.2) fun r t kept hr => ?_
    exact discreet_next (continueWith_avoids (hk.2.mono kept) hr)
  | argument c k =>
    simp only [giveTo]
    split
    · exact discreet_next (v := .go (.move (.call _ _ k))) hk
    · exact discreet_next (v := .go (.task (.eval _ _ (.argument _ k)))) hk
  | sortKey o k =>
    simp only [giveTo]
    split
    · refine discreet_then (reserved_endSort hosts _ _ _ _) fun v => ?_
      exact discreet_next (v := .go (.move (.give (a := .value) v k))) hk
    · exact discreet_next (v := .go (.move (.call _ _ _))) hk
  | mapItem o k =>
    simp only [giveTo]
    split
    · refine discreet_then (reserved_endMap hosts _ _ _) fun v => ?_
      exact discreet_next (v := .go (.move (.give (a := .value) v k))) hk
    · exact discreet_next (v := .go (.move (.call _ _ _))) hk

theorem discreet_step {c : Control} (hc : c.Avoids Q s) :
    Discreet Q s (c.step setup) (Next.Avoids Q) := by
  cases c with
  | task t =>
    simp only [Control.step]
    rw [← bind_pure_comp]
    refine discreet_bind (discreet_begin hosts hc) fun c t _ hc => ?_
    exact discreet_next (v := .go c) hc
  | move v =>
    cases v with
    | give x k => exact discreet_giveTo hosts hc
    | call callee c k =>
      refine discreet_bind (discreet_invoke hosts hc callee c) fun v t kept hv => ?_
      cases v with
      | react r => exact discreet_next (continueWith_avoids (Context.Avoids.mono kept hc) hv)
      | again callee c k => exact discreet_next (v := .go (.move (.call callee c k))) hv

theorem discreet_resumption {r : Resumption} (hr : r.Avoids Q s) :
    Discreet Q s (r.control setup) (Control.Avoids Q) := by
  cases r with
  | task t => exact discreet_begin hosts hr
  | waited name loc k =>
    exact discreet_then (reserved_emit hosts (.afterCall name .none loc)) fun _ => discreet_control hr

end Step

end Act

def Point.machine : Point σ → Machine σ
  | .on _ m | .failed _ m => m

def Point.Avoids (Q : Set ScopeId) : Point σ → Prop
  | .on c m => c.Avoids Q m.world.store
  | .failed .. => True

section Runs

variable {setup : Setup σ} (hosts : setup.Minds) {c : Control} {m : Machine σ}
  {stops : List (Stop σ)} {p : Point σ}

/-- What a stretch of a run leaves of private scopes: all of it. -/
structure Point.Leaves (Q : Set ScopeId) (s : Store) (p : Point σ) : Prop where
  order : p.machine.world.store.Private Q
  kept : s.Preserves Q p.machine.world.store
  avoids : p.Avoids Q

theorem Point.Leaves.trans {s : Store} {p' : Point σ} (h : p.Leaves Q s)
    (h' : p'.Leaves Q p.machine.world.store) : p'.Leaves Q s :=
  ⟨h'.order, h.kept.trans h'.kept, h'.avoids⟩

section Outcomes

variable {s : Store} (order : m.world.store.Private Q) (kept : s.Preserves Q m.world.store)

include order kept

theorem leaves_of_ok {x : Act σ Control} {d : Control} {n : Machine σ}
    (discreet : Act.Discreet Q m.world.store x (Control.Avoids Q)) (h : x m = .ok d n) :
    (Point.on d n).Leaves Q s := by
  obtain ⟨order', kept', avoids⟩ := Act.ensures_of_ok (discreet m order (.refl Q _)) h
  exact ⟨order', kept.trans kept', avoids⟩

theorem leaves_of_error {x : Act σ α} {P : Store → α → Prop} {f : Fault} {n : Machine σ}
    (discreet : Act.Discreet Q m.world.store x P) (h : x m = .error f n) :
    (Point.failed f n).Leaves Q s := by
  obtain ⟨order', kept'⟩ := Act.ensures_of_error (discreet m order (.refl Q _)) h
  exact ⟨order', kept.trans kept', trivial⟩

end Outcomes

include hosts

theorem moves_leaves (hm : m.world.store.Private Q) (hc : c.Avoids Q m.world.store)
    (minds : ∀ stop ∈ stops, stop.Minds) (h : setup.Moves c m stops p) :
    p.Leaves Q m.world.store := by
  -- after a pause the scopes have been left by the step before it and by the host
  have paused {w : Wait σ} {r : Resumption} {n : Machine σ} {world : World σ}
      (h : c.step setup m = .ok (.pause w r) n) (quiet : n.world.store.Minds world.store) :
      world.store.Private Q ∧ m.world.store.Preserves Q world.store ∧ r.Avoids Q world.store := by
    obtain ⟨order, kept, avoids⟩ :=
      Act.ensures_of_ok (Act.discreet_step hosts hc m hm (.refl Q _)) h
    obtain ⟨order', kept'⟩ := quiet Q order
    exact ⟨order', kept.trans kept', Resumption.Avoids.mono kept' avoids⟩
  cases h with
  | goes h =>
    obtain ⟨order, kept, avoids⟩ :=
      Act.ensures_of_ok (Act.discreet_step hosts hc m hm (.refl Q _)) h
    exact ⟨order, kept, avoids⟩
  | fails h => exact leaves_of_error hm (.refl Q _) (Act.discreet_step hosts hc) h
  | resumes h world hr =>
    obtain ⟨order, kept, avoids⟩ := paused h (minds _ List.mem_cons_self)
    exact leaves_of_ok order kept (Act.discreet_resumption hosts avoids) hr
  | refuses h world hr =>
    obtain ⟨order, kept, avoids⟩ := paused h (minds _ List.mem_cons_self)
    exact leaves_of_error order kept (Act.discreet_resumption hosts avoids) hr
  | renews ht world h =>
    subst ht
    obtain ⟨order, kept⟩ := minds _ List.mem_cons_self Q hm
    exact leaves_of_ok order kept (Act.discreet_begin hosts (Task.Avoids.mono kept hc)) h
  | halts ht world h =>
    subst ht
    obtain ⟨order, kept⟩ := minds _ List.mem_cons_self Q hm
    exact leaves_of_error order kept (Act.discreet_begin hosts (Task.Avoids.mono kept hc)) h

/-- A run leaves private scopes as they are, however often it pauses. -/
theorem leads_leaves {a : Awaits} {k : Context a} (hm : m.world.store.Private Q)
    (hc : c.Avoids Q m.world.store) (minds : ∀ stop ∈ stops, stop.Minds)
    (h : setup.Leads k c m stops p) : p.Leaves Q m.world.store := by
  induction h with
  | here c m => exact ⟨hm, .refl Q _, hc⟩
  | fails _ moves => exact moves_leaves hosts hm hc minds moves
  | next _ moves _ ih =>
    rw [List.forall_mem_append] at minds
    have first := moves_leaves hosts hm hc minds.1 moves
    exact first.trans (ih first.order first.avoids minds.2)

end Runs

end LoopScript
