import LoopScript.Proofs.Machine.Evaluation
import LoopScript.Proofs.Machine.Policy

/-!
The steps of a machine keep to a policy: all code that is left to run is allowed, and a step fails as
the policy says.
-/

namespace LoopScript

namespace Store

variable {p : Policy} {s : Store} (hs : s.Under p)

include hs

theorem under_read (a : Addr) : (s.read a).Under p := by
  simp only [read, Array.getD]
  split
  · exact hs _ (Array.getElem_mem _)
  · trivial

theorem under_object {v : Value} {o : Obj} (h : s.object? v = some o) : o.Under p := by
  cases v with
  | atom a => cases h
  | ref a => exact Option.some.inj h ▸ under_read hs a

theorem under_alloc {o : Obj} (ho : o.Under p) : (s.alloc o).2.Under p := by
  intro q hq
  rcases Array.mem_push.mp hq with hq | rfl
  · exact hs q hq
  · exact ho

theorem under_write (a : Addr) {o : Obj} (ho : o.Under p) : (s.write a o).Under p := by
  intro q hq
  rcases Array.mem_or_eq_of_mem_setIfInBounds hq with hq | rfl
  · exact hs q hq
  · exact ho

theorem under_setField (a : Addr) (name : String) (v : Value) : (s.setField a name v).Under p := by
  simp only [setField]
  split
  · exact under_write hs a trivial
  · exact hs

end Store

theorem Obj.under_of_not_isCode {p : Policy} {o : Obj} (h : o.isCode = false) : o.Under p := by
  cases o with
  | function | lambda | cls => cases h
  | _ => trivial

namespace Act

variable {σ α β : Type} {p : Policy}

/-- An action that keeps the code in the store to a policy, and fails as the policy says. -/
def Obeys (p : Policy) (x : Act σ α) (P : α → Prop) : Prop :=
  ∀ m, m.world.store.Under p →
    Ensures x m (fun a n => n.world.store.Under p ∧ P a) fun f n => n.world.store.Under p ∧ p.fault f

section Quiet

variable {P : α → Prop} {x : Act σ α} {loc : Location}

theorem obeys_pure {a : α} (h : P a) : Obeys p (pure a : Act σ α) P := fun _ hm => ⟨hm, h⟩

theorem obeys_bind {Q : β → Prop} {f : α → Act σ β} (hx : Obeys p x P)
    (hf : ∀ a, P a → Obeys p (f a) Q) : Obeys p (x >>= f) Q := by
  intro m hm
  apply ensures_bind
  refine (hx m hm).mono ?_ fun _ _ h => h
  rintro a n ⟨hn, ha⟩
  exact hf a ha n hn

theorem obeys_then {Q : β → Prop} {f : α → Act σ β} (hx : Obeys p x fun _ => True)
    (hf : ∀ a, Obeys p (f a) Q) : Obeys p (x >>= f) Q :=
  obeys_bind hx fun a _ => hf a

theorem obeys_map {f : β → α} {y : Act σ β} (hy : Obeys p y fun b => P (f b)) :
    Obeys p (f <$> y) P := by
  rw [← bind_pure_comp]
  exact obeys_bind hy fun _ hb => obeys_pure hb

theorem obeys_get {f : Machine σ → Act σ α} (h : ∀ m, Obeys p (f m) P) : Obeys p (get >>= f) P :=
  fun m hm => ensures_get (h m m hm)

theorem obeys_store {f : Store → Act σ α} (h : ∀ s, s.Under p → Obeys p (f s) P) :
    Obeys p (store >>= f) P :=
  fun m hm => h m.world.store hm m hm

theorem obeys_onStore {f : Store → α × Store} (h : ∀ s, s.Under p → (f s).2.Under p) :
    Obeys p (onStore (σ := σ) f) fun _ => True :=
  fun _ hm => ⟨h _ hm, trivial⟩

theorem obeys_modifyStore {f : Store → Store} (h : ∀ s, s.Under p → (f s).Under p) :
    Obeys p (modifyStore (σ := σ) f) fun _ => True :=
  obeys_onStore h

theorem obeys_throw {f : Fault} (h : p.fault f) : Obeys p (throw f : Act σ α) P := fun _ hm => ⟨hm, h⟩

theorem obeys_placed_of {E : Fault → Prop} {x : Except Fault α} (hx : Ends P E x)
    (hE : ∀ f, E f → p.fault f) : Obeys p (placed (σ := σ) loc x) P := by
  cases x with
  | ok a => exact obeys_pure hx
  | error f => exact obeys_throw (p.attach (hE f hx) loc)

theorem obeys_placed {x : Except Fault α} (hx : Ends P (Fault.Ruled p.word) x) :
    Obeys p (placed (σ := σ) loc x) P :=
  obeys_placed_of hx fun _ => p.ruled

theorem obeys_reading {f : Store → Except Fault α}
    (h : ∀ s : Store, Ends P (Fault.Ruled p.word) (f s)) : Obeys p (reading (σ := σ) loc f) P :=
  obeys_store fun s _ => obeys_placed (h s)

theorem obeys_fail {c : Cause} {rule : String} (h : c.ownRule? = some rule)
    (hr : rule ∈ flowWords → p.word rule) : Obeys p (fail loc c : Act σ α) P :=
  obeys_throw (p.ruled (ruled_error h hr _))

theorem obeys_alloc {o : Obj} (ho : o.Under p) : Obeys p (alloc (σ := σ) o) fun _ => True :=
  obeys_onStore fun _ hs => Store.under_alloc hs ho

theorem obeys_making_of {f : Store → Except Fault Made}
    (h : Obeys p (reading (σ := σ) loc f) (·.isCode = false)) :
    Obeys p (making (σ := σ) loc f) fun _ => True := by
  refine obeys_bind h fun made hmade => ?_
  cases made with
  | value v => exact obeys_pure trivial
  | object o => exact obeys_alloc (Obj.under_of_not_isCode hmade)

theorem obeys_making {f : Store → Except Fault Made}
    (h : ∀ s : Store, Ends (·.isCode = false) (Fault.Ruled p.word) (f s)) :
    Obeys p (making (σ := σ) loc f) fun _ => True :=
  obeys_making_of (obeys_reading h)

theorem obeys_binary {op : BinaryOp} (hop : p.joins op) (v w : Value) :
    Obeys p (making (σ := σ) loc (·.binary op v w)) fun _ => True := by
  refine obeys_making_of (obeys_store fun s _ => ?_)
  refine obeys_placed_of (s.ruled_binary (fun _ => p.word_joins hop) v w) ?_
  rintro f (h | ⟨unknown, rfl⟩)
  · exact p.ruled h
  · exact p.unjoined hop unknown _

theorem obeys_unary {op : UnaryOp} (hop : p.signs op) (v : Value) :
    Obeys p (reading (σ := σ) loc (·.unary op v)) fun _ => True := by
  refine obeys_store fun s _ => ?_
  refine obeys_placed_of (s.ruled_unary (fun _ => p.word_signs hop) v) ?_
  rintro f (h | ⟨unknown, rfl⟩)
  · exact p.ruled h
  · exact p.unsigned hop unknown _

theorem obeys_openScope (parent : ScopeId) (bindings : Table String Value) :
    Obeys p (openScope (σ := σ) parent bindings) fun _ => True :=
  obeys_onStore fun _ hs => hs

theorem obeys_assign (scope : ScopeId) (name : String) (v : Value) :
    Obeys p (assign (σ := σ) scope name v) fun _ => True := by
  refine obeys_get fun m => ?_
  split
  · exact obeys_modifyStore fun _ hs => hs
  · exact obeys_modifyStore fun _ hs => hs

theorem obeys_define (scope : ScopeId) (name : String) (v : Value) :
    Obeys p (define (σ := σ) scope name v) fun _ => True :=
  obeys_modifyStore fun _ hs => hs

theorem obeys_isTruthy (v : Value) : Obeys p (isTruthy (σ := σ) v) fun _ => True :=
  obeys_store fun _ _ => obeys_pure trivial

theorem obeys_combine {old : Old} (ho : old.Under p) (v : Value) :
    Obeys p (combine (σ := σ) loc old v) fun _ => True := by
  cases old with
  | none => exact obeys_pure trivial
  | some o => exact obeys_binary (ho o.1 o.2 rfl) o.2 v

theorem obeys_oldValue {op : AssignOp} (hop : op.Under p) {read : Act σ Value}
    (hr : Obeys p read fun _ => True) : Obeys p (oldValue op read) (·.Under p) := by
  unfold oldValue
  split
  · exact obeys_pure nofun
  · next b hb =>
    refine obeys_then hr fun v => obeys_pure ?_
    rintro _ _ ⟨⟩
    exact hop b hb

theorem obeys_forM {γ : Type} {f : γ → Act σ PUnit} (h : ∀ c, Obeys p (f c) fun _ => True)
    (cs : List γ) : Obeys p (cs.forM f) fun _ => True := by
  induction cs with
  | nil => exact obeys_pure trivial
  | cons c cs ih => exact obeys_then (h c) fun _ => ih

variable {setup : Setup σ}

theorem obeys_onWorld {f : World σ → α × World σ}
    (h : ∀ w, w.store.Under p → (f w).2.store.Under p ∧ P (f w).1) : Obeys p (onWorld f) P :=
  fun m hm => h m.world hm

theorem obeys_reaching {f : World σ → Reply σ × World σ}
    (h : ∀ w, w.store.Under p → (f w).2.store.Under p ∧ ∀ g ∈ (f w).1.fault?, p.fault g) :
    Obeys p (onWorld f) fun r => ∀ g, r = .fault g → p.fault g := by
  refine obeys_onWorld fun w hw => ⟨(h w hw).1, fun g hg => (h w hw).2 g ?_⟩
  rw [hg]
  rfl

theorem obeys_callHooks (hosts : p.Hosts setup) (e : Event σ) {hooks : List (Hook σ)}
    (hh : ∀ h ∈ hooks, h ∈ setup.services.hooks) : Obeys p (callHooks e hooks) fun _ => True := by
  induction hooks with
  | nil => exact obeys_pure trivial
  | cons h hooks ih =>
    have called : Obeys p (onWorld (h.handle e)) fun answer => ∀ f ∈ answer, p.fault f :=
      obeys_onWorld fun w => hosts.call (.hook h (hh h List.mem_cons_self) e)
    refine obeys_bind called fun answer fails => ?_
    cases answer with
    | none => exact ih fun g hg => hh g (List.mem_cons_of_mem h hg)
    | some f =>
      cases f with
      | error err => exact obeys_throw (fails _ rfl)
      | endless | foreign text =>
        exact obeys_get fun m => obeys_throw (p.ruled (ruled_error rfl (Not.elim (by decide)) _))

theorem obeys_emit (hosts : p.Hosts setup) (e : Event σ) : Obeys p (emit setup e) fun _ => True :=
  obeys_callHooks hosts e fun _ h => (List.mem_filter.mp h).1

theorem obeys_callRules (hosts : p.Hosts setup) (c : StepContext) {rules : List (StepRule σ)}
    (hr : ∀ r ∈ rules, r ∈ setup.services.rules) : Obeys p (callRules c rules) fun _ => True := by
  induction rules with
  | nil => exact obeys_pure trivial
  | cons r rules ih =>
    have rest := ih fun g hg => hr g (List.mem_cons_of_mem r hg)
    simp only [callRules]
    split
    · have called : Obeys p (onWorld (r.handle c)) fun answer => ∀ f ∈ answer, p.fault f :=
        obeys_onWorld fun w => hosts.call (.rule r (hr r List.mem_cons_self) c)
      refine obeys_bind called fun answer fails => ?_
      cases answer with
      | none => exact rest
      | some f =>
        cases f with
        | error err => exact obeys_throw (fails _ rfl)
        | endless | foreign text =>
          exact obeys_throw (p.ruled (ruled_error rfl (Not.elim (by decide)) _))
    · exact rest

theorem obeys_logStep (hosts : p.Hosts setup) (rule : String) {loc : Location} :
    Obeys p (logStep setup rule loc) fun _ => True := by
  have rest (b : Option (List (String × String))) : Obeys p (do
      let step ← record setup.verbose rule loc b
      callRules ⟨step, rule, some loc⟩ setup.services.rules) fun _ => True :=
    obeys_then (fun m hm => ⟨hm, trivial⟩) fun _ => obeys_callRules hosts _ fun _ h => h
  unfold logStep
  split
  · refine obeys_then ?_ rest
    refine obeys_get fun m => ?_
    split
    · exact obeys_pure trivial
    · refine obeys_map (obeys_reading fun s => (s.ends_snapshot _).mono (fun _ h => h) ?_)
      exact fun _ h => h ▸ ruled_endless
  · exact rest none

end Quiet

section Begin

theorem obeys_beginExpression {e : Expr} (he : p.expr e) (scope : ScopeId) {k : Context .value}
    (hk : k.Under p) : Obeys p (beginExpression (σ := σ) e scope k) (·.Under p) := by
  have part {f : Expr} (hf : f ∈ e.parts) : p.expr f := p.inner he hf
  have given {x : Act σ Value} (hx : Obeys p x fun _ => True) :
      Obeys p (do return Control.move (.give (a := .value) (← x) k)) (·.Under p) :=
    obeys_then hx fun _ => obeys_pure ⟨trivial, hk⟩
  cases e with
  | literal loc a => exact obeys_pure ⟨trivial, hk⟩
  | name loc id => exact given (obeys_reading fun s => s.ruled_lookup scope id)
  | binary loc op l r =>
    refine obeys_pure ⟨part List.mem_cons_self, ⟨p.binary he, part ?_⟩, hk⟩
    exact List.mem_cons_of_mem _ List.mem_cons_self
  | unary loc op d => exact obeys_pure ⟨part List.mem_cons_self, p.unary he, hk⟩
  | call loc f args named =>
    refine obeys_pure ⟨part List.mem_cons_self, fun d hd => part ?_, ?_, hk⟩
    · rcases List.mem_append.mp hd with hd | hd
      · obtain ⟨d, ha, rfl⟩ := List.mem_map.mp hd
        exact List.mem_cons_of_mem _ (List.mem_append_left _ ha)
      · obtain ⟨d, ha, rfl⟩ := List.mem_map.mp hd
        exact List.mem_cons_of_mem _ (List.mem_append_right _ (List.mem_map_of_mem ha))
    · have keywords : p.names (named.map (·.1)) := p.call he
      simpa [PendingCall.keywords, Table.keys, List.filterMap_map, Function.comp_def] using keywords
  | index loc base i =>
    exact obeys_pure ⟨part List.mem_cons_self, part (List.mem_cons_of_mem _ List.mem_cons_self), hk⟩
  | slice loc base start stop step =>
    refine obeys_pure ⟨part List.mem_cons_self, fun d hd => part ?_, hk⟩
    simp only [List.mem_cons, List.not_mem_nil, or_false] at hd
    rcases hd with rfl | rfl | rfl <;> simp [Expr.parts]
  | list loc items | tuple loc items =>
    cases items with
    | nil => exact given (obeys_alloc trivial)
    | cons d ds =>
      exact obeys_pure ⟨part List.mem_cons_self, fun d hd => part (List.mem_cons_of_mem _ hd), hk⟩
  | dict loc entries =>
    cases entries with
    | nil => exact given (obeys_alloc trivial)
    | cons e es =>
      refine obeys_pure ⟨part (by simp [Expr.parts]), ⟨part (by simp [Expr.parts]), fun d hd => ?_⟩, hk⟩
      have entry {f : Expr} (hf : f ∈ [d.1, d.2]) : p.expr f :=
        part (List.mem_flatMap.mpr ⟨d, List.mem_cons_of_mem _ hd, hf⟩)
      exact ⟨entry List.mem_cons_self, entry (List.mem_cons_of_mem _ List.mem_cons_self)⟩
  | lambda loc params body =>
    exact given (obeys_alloc (o := .lambda params body scope) (part List.mem_cons_self))
  | comprehension loc element item iterable condition =>
    refine obeys_pure ⟨part (by simp [Expr.parts]), ⟨part (by simp [Expr.parts]), ?_⟩, hk⟩
    exact fun test ht => part (by simp_all [Expr.parts])
  | member loc base name => exact obeys_pure ⟨part List.mem_cons_self, trivial, hk⟩

theorem obeys_defineMethods (scope : ScopeId) {ds : List FunctionDef}
    (hd : ∀ d ∈ ds, p.name d.name ∧ p.names d.params ∧ Block.Under p false true d.body) :
    Obeys p (defineMethods (σ := σ) scope ds) fun _ => True := by
  induction ds with
  | nil => exact obeys_pure trivial
  | cons d ds ih =>
    obtain ⟨⟨name, params, body⟩, rest⟩ := List.forall_mem_cons.mp hd
    have made : (Obj.function ⟨d.name, d.params, d.body, scope⟩).Under p := ⟨body, name, params⟩
    refine obeys_then (obeys_alloc made) fun v => ?_
    split
    · exact obeys_then (ih rest) fun _ => obeys_pure trivial
    · exact ih rest

theorem obeys_beginStatement {s : Stmt} (scope : ScopeId) {k : Context .flow}
    (hs : p.stmt k.looped k.inside s) (hk : k.Under p) :
    Obeys p (beginStatement (σ := σ) s scope k) (·.Under p) := by
  have part {e : Expr} (he : e ∈ s.parts) : p.expr e := p.part hs he
  have normal : (Control.move (.give (a := .flow) .normal k)).Under p := ⟨trivial, hk⟩
  have leaves {f : Flow} (hf : s.Gives f) : (Control.move (.give (a := .flow) f k)).Under p :=
    ⟨hf.under hs, hk⟩
  cases s with
  | expr loc e => exact obeys_pure ⟨part List.mem_cons_self, trivial, hk⟩
  | assign loc target op e =>
    have value : p.expr e := part (by simp [Stmt.parts])
    have joins : op.Under p := p.assign hs
    have place : p.expr target.toExpr := part (by simp [Stmt.parts])
    cases target with
    | name loc' id =>
      refine obeys_bind (obeys_oldValue joins (obeys_reading fun s => s.ruled_lookup scope id)) ?_
      exact fun old ho => obeys_pure ⟨value, ho, hk⟩
    | member loc' base name =>
      have base : p.expr base := p.inner place (by simp [Target.toExpr, Expr.parts])
      exact obeys_pure ⟨base, ⟨joins, value⟩, hk⟩
    | index loc' base i =>
      have base : p.expr base := p.inner place (by simp [Target.toExpr, Expr.parts])
      have i : p.expr i := p.inner place (by simp [Target.toExpr, Expr.parts])
      exact obeys_pure ⟨base, ⟨i, joins, value⟩, hk⟩
  | cond loc test body otherwise =>
    refine obeys_pure ⟨part List.mem_cons_self, ⟨fun t ht => p.branch hs (.inl ht), ?_⟩, hk⟩
    cases otherwise with
    | none => exact List.forall_mem_nil _
    | some ss => exact fun t ht => p.branch hs (.inr ⟨ss, rfl, ht⟩)
  | loop loc test body =>
    have test : p.expr test := part List.mem_cons_self
    exact obeys_pure ⟨test, ⟨test, fun t ht => p.loop hs ht⟩, hk⟩
  | each loc item e body =>
    exact obeys_pure ⟨part List.mem_cons_self, fun t ht => p.each hs ht, hk⟩
  | function d =>
    obtain ⟨name, params, body⟩ := p.function hs
    have made : (Obj.function ⟨d.name, d.params, d.body, scope⟩).Under p := ⟨body, name, params⟩
    refine obeys_then (obeys_alloc made) fun v => ?_
    exact obeys_then (obeys_define scope d.name v) fun _ => obeys_pure normal
  | class_ loc name methods =>
    obtain ⟨named, defs⟩ := p.class_ hs
    refine obeys_then (obeys_defineMethods scope defs) fun table => ?_
    have made : (Obj.cls name (Table.ofList table)).Under p := named
    refine obeys_then (obeys_alloc made) fun v => ?_
    exact obeys_then (obeys_define scope name v) fun _ => obeys_pure normal
  | return_ loc value =>
    cases value with
    | none => exact obeys_pure (leaves (.returned loc none _))
    | some e => exact obeys_pure ⟨part (by simp [Stmt.parts]), ⟨loc, some e, hs⟩, hk⟩
  | break_ loc => exact obeys_pure (leaves (.broken loc))
  | continue_ loc => exact obeys_pure (leaves (.continued loc))
  | pass_ loc => exact obeys_pure normal
  | global_ loc names => exact obeys_then (fun m hm => ⟨hm, trivial⟩) fun _ => obeys_pure normal
  | import_ loc name member =>
    refine obeys_then (obeys_reading fun s => s.ruled_lookup scope name) fun v => ?_
    cases member with
    | none => exact obeys_pure normal
    | some member =>
      refine obeys_then (obeys_making fun s => s.ruled_getMember v member) fun _ => ?_
      exact obeys_pure normal

variable {setup : Setup σ}

theorem obeys_begin (hosts : p.Hosts setup) {t : Task} (ht : t.Under p) :
    Obeys p (begin setup t) (·.Under p) := by
  cases t with
  | eval e scope k => exact obeys_beginExpression ht.1 scope ht.2
  | exec s scope k =>
    refine obeys_then (fun m hm => ⟨hm, trivial⟩) fun _ => ?_
    refine obeys_then (obeys_emit hosts _) fun _ => ?_
    refine obeys_then (obeys_logStep hosts _) fun _ => ?_
    exact obeys_beginStatement scope ht.1 ht.2

end Begin

section React

theorem under_block {body : List Stmt} (scope : ScopeId) {k : Context .flow}
    (hb : Block.Under p k.looped k.inside body) (hk : k.Under p) :
    (block (σ := σ) body scope k).Under p k := by
  cases body with
  | nil => exact ⟨trivial, hk⟩
  | cons s ss => exact Task.under_exec hb hk

theorem obeys_normal {k : Context .flow} (hk : k.Under p) :
    Obeys p (pure (Reaction.give (σ := σ) (b := .flow) .normal) : Act σ _) (·.Under p k) :=
  obeys_pure ⟨trivial, hk⟩

theorem obeys_give {x : Act σ Value} {k : Context .value} (hx : Obeys p x fun _ => True)
    (hk : k.Under p) :
    Obeys p (do return Reaction.give (σ := σ) (b := .value) (← x)) (·.Under p k) :=
  obeys_then hx fun _ => obeys_pure ⟨trivial, hk⟩

theorem obeys_nextRound (item : String) (todo : List Value) {body : List Stmt} (scope : ScopeId)
    {k : Context .flow} (hb : Block.Under p true k.inside body) (hk : k.Under p) :
    Obeys p (nextRound (σ := σ) item todo body scope k) (·.Under p k) := by
  unfold nextRound
  split
  · exact obeys_normal hk
  · exact obeys_then (obeys_forM (fun v => obeys_assign scope item v) _) fun _ => obeys_normal hk
  · next s ss v todo =>
    refine obeys_then (obeys_assign scope item v) fun _ => obeys_pure ?_
    exact Task.under_exec (k := .fill (.eachBody item todo (s :: ss) scope) k) hb ⟨hb, hk⟩

theorem obeys_nextItem {c : Comprehension} (hc : c.Under p) (todo done : List Value)
    {k : Context .value} (hk : k.Under p) :
    Obeys p (nextItem (σ := σ) c todo done k) (·.Under p k) := by
  unfold nextItem
  split
  · exact obeys_give (obeys_alloc trivial) hk
  · refine obeys_then (obeys_openScope c.scope _) fun inner => ?_
    split
    · next test h => exact obeys_pure ⟨hc.2 test h, hc, hk⟩
    · exact obeys_pure ⟨hc.1, hc, hk⟩

theorem obeys_nextBound (loc : Location) (base : Value) (scope : ScopeId) {k : Context .value}
    (hk : k.Under p) (done : List (Option Int)) {todo : List (Option Expr)}
    (ht : ∀ e, some e ∈ todo → p.expr e) :
    Obeys p (nextBound (σ := σ) loc base scope k done todo) (·.Under p k) := by
  induction todo generalizing done with
  | nil => exact obeys_give (obeys_making fun s => s.isCode_slice _ _ _ _) hk
  | cons bound todo ih =>
    have rest (e : Expr) (he : some e ∈ todo) : p.expr e := ht e (List.mem_cons_of_mem _ he)
    cases bound with
    | none => exact ih _ rest
    | some e => exact obeys_pure ⟨ht e List.mem_cons_self, rest, hk⟩

variable {setup : Setup σ}

theorem obeys_exit : Obeys p (exit (σ := σ)) fun _ => True := by
  intro m hm
  apply ensures_get
  split
  · exact ⟨hm, p.ruled (ruled_foreign _)⟩
  · exact ⟨hm, trivial⟩

theorem obeys_enter (name : String) (scope : ScopeId) (loc : Location) :
    Obeys p (enter (σ := σ) name scope loc) fun _ => True := by
  intro m hm
  apply ensures_get
  split
  · exact ⟨hm, p.ruled (ruled_error rfl (Not.elim (by decide)) _)⟩
  · exact ⟨hm, trivial⟩

theorem obeys_answer (hosts : p.Hosts setup) (name : String) (loc : Location) (v : Value)
    {k : Context .value} (hk : k.Under p) :
    Obeys p (do
      emit setup (.afterCall name v loc)
      return Reaction.give (σ := σ) (b := .value) v) (·.Under p k) :=
  obeys_then (obeys_emit hosts _) fun _ => obeys_pure ⟨trivial, hk⟩

theorem obeys_settle (hosts : p.Hosts setup) (name : String) (loc : Location) {k : Context .value}
    (hk : k.Under p) {r : Reply σ} (hr : ∀ f, r = .fault f → p.fault f) :
    Obeys p (settle setup name loc k r) (·.Under p k) := by
  cases r with
  | fault f => exact obeys_throw (hr f rfl)
  | wait w => exact obeys_then (obeys_emit hosts _) fun _ => obeys_pure hk
  | value v =>
    simp only [settle]
    split
    · refine obeys_then ?_ fun v => obeys_answer hosts name loc v hk
      exact obeys_map (obeys_placed (ruled_floatOfInt _))
    · exact obeys_answer hosts name loc _ hk

/-- A statement that leaves a loop cannot leave the function, too. -/
theorem obeys_leaveFunction {f : Flow} (hf : f.Under p false true) :
    Obeys p (leaveFunction (σ := σ) f) fun _ => True := by
  cases f with
  | normal | returned v => exact obeys_then obeys_exit fun _ => obeys_pure trivial
  | broken =>
    obtain ⟨loc, hs⟩ := hf
    exact fun _ hm => ⟨hm, p.stray hs rfl (.broken loc) _⟩
  | continued =>
    obtain ⟨loc, hs⟩ := hf
    exact fun _ hm => ⟨hm, p.stray hs rfl (.continued loc) _⟩

theorem obeys_loopTest {test : Expr} {body : List Stmt} (ht : p.expr test) (scope : ScopeId)
    (x : Value) {k : Context .flow} (hb : Block.Under p true k.inside body) (hk : k.Under p) :
    Obeys p (react setup (.loopTest test body scope) x k) (·.Under p k) := by
  refine obeys_then (obeys_isTruthy x) fun t => ?_
  split
  · cases body with
    | nil => exact obeys_pure ⟨ht, ⟨ht, hb⟩, hk⟩
    | cons s ss =>
      refine obeys_pure ?_
      exact Task.under_exec (k := .fill (.loopBody test (s :: ss) scope) k) hb ⟨⟨ht, hb⟩, hk⟩
  · exact obeys_normal hk

theorem obeys_react (hosts : p.Hosts setup) {a b : Awaits} {h : Hole a b} {x : a.Input}
    {k : Context b} (hk : Context.Under p (.fill h k))
    (hx : a.Under p (Context.fill h k).looped (Context.fill h k).inside x) :
    Obeys p (react setup h x k) (·.Under p k) := by
  obtain ⟨hh, hk⟩ := hk
  cases h with
  | rest ss scope =>
    cases ss with
    | nil => exact obeys_pure ⟨hx, hk⟩
    | cons s ss =>
      cases x with
      | normal => exact obeys_pure (Task.under_exec hh hk)
      | broken | continued | returned v => exact obeys_pure ⟨hx, hk⟩
  | discard => exact obeys_normal hk
  | branch body otherwise scope =>
    refine obeys_then (obeys_isTruthy x) fun t => ?_
    split
    · exact obeys_pure (under_block scope hh.1 hk)
    · exact obeys_pure (under_block scope hh.2 hk)
  | loopTest test body scope => exact obeys_loopTest hh.1 scope x hh.2 hk
  | loopBody test body scope =>
    cases x with
    | broken => exact obeys_normal hk
    | returned v => exact obeys_pure ⟨hx, hk⟩
    | normal | continued => exact obeys_pure ⟨hh.1, hh, hk⟩
  | eachOver loc item body scope =>
    refine obeys_then (obeys_reading fun s => s.ruled_items x) fun items => ?_
    exact obeys_nextRound item items scope hh hk
  | eachBody item todo body scope =>
    cases x with
    | broken => exact obeys_normal hk
    | returned v => exact obeys_pure ⟨hx, hk⟩
    | normal | continued => exact obeys_nextRound item todo scope hh hk
  | leave =>
    obtain ⟨loc, e, hr⟩ := hh
    exact obeys_pure ⟨⟨_, loc, e, hr⟩, hk⟩
  | assignName loc id old scope =>
    refine obeys_then (obeys_combine hh x) fun v => ?_
    exact obeys_then (obeys_assign scope id v) fun _ => obeys_normal hk
  | memberBase loc name op e scope =>
    refine obeys_then (obeys_reading fun s => s.ruled_settable x) fun base => ?_
    have read : Obeys p (making (σ := σ) loc (·.getMember x name)) fun _ => True :=
      obeys_making fun s => s.ruled_getMember x name
    exact obeys_bind (obeys_oldValue hh.1 read) fun old ho => obeys_pure ⟨hh.2, ho, hk⟩
  | assignMember loc base name old =>
    refine obeys_then (obeys_combine hh x) fun v => ?_
    refine obeys_then (obeys_modifyStore fun s hs => ?_) fun _ => obeys_normal hk
    exact Store.under_setField hs base name v
  | itemBase loc index op e scope => exact obeys_pure ⟨hh.1, hh.2, hk⟩
  | itemIndex loc base op e scope =>
    have read : Obeys p (reading (σ := σ) loc (·.getIndex base x)) fun _ => True :=
      obeys_reading fun s => s.ruled_getIndex base x
    exact obeys_bind (obeys_oldValue hh.1 read) fun old ho => obeys_pure ⟨hh.2, ho, hk⟩
  | assignItem loc base index old =>
    refine obeys_then (obeys_combine hh x) fun v => ?_
    refine obeys_bind (obeys_reading fun s => s.ruled_setIndex base index v) fun place hplace => ?_
    refine obeys_then (obeys_modifyStore fun s hs => ?_) fun _ => obeys_normal hk
    exact Store.under_write hs place.1 (Obj.under_of_not_isCode hplace)
  | left loc op right scope =>
    refine obeys_then (obeys_isTruthy x) fun t => ?_
    split
    · exact obeys_pure ⟨trivial, hk⟩
    · exact obeys_pure ⟨trivial, hk⟩
    · exact obeys_pure ⟨hh.2, hk⟩
    · exact obeys_pure ⟨hh.2, hk⟩
    · next refuted settled confirmed unsettled =>
      have conjunction : op ≠ .and_ := fun h => by
        cases t with
        | false => exact refuted h rfl
        | true => exact confirmed h rfl
      have disjunction : op ≠ .or_ := fun h => by
        cases t with
        | false => exact unsettled h rfl
        | true => exact settled h rfl
      exact obeys_pure ⟨hh.2, p.joined hh.1 conjunction disjunction, hk⟩
  | right loc op left => exact obeys_give (obeys_binary hh left x) hk
  | operand loc op => exact obeys_give (obeys_unary hh x) hk
  | indexBase loc index scope => exact obeys_pure ⟨hh, trivial, hk⟩
  | index loc base => exact obeys_give (obeys_reading fun s => s.ruled_getIndex base x) hk
  | sliceBase loc bounds scope =>
    refine obeys_then (obeys_reading fun s => s.ruled_sliceable x) fun _ => ?_
    exact obeys_nextBound loc x scope hk [] hh
  | sliceBound loc base done todo scope =>
    have bound (x : Value) : Obeys p (do
        nextBound (σ := σ) loc base scope k (some (← reading loc (·.toIndex x)) :: done) todo)
        (·.Under p k) :=
      obeys_then (obeys_reading fun s => s.ruled_toIndex x) fun i =>
        obeys_nextBound loc base scope hk _ hh
    cases x with
    | atom a =>
      cases a with
      | none => exact obeys_nextBound loc base scope hk _ hh
      | bool | int | num | str => exact bound _
    | ref a => exact bound _
  | member loc name => exact obeys_give (obeys_making fun s => s.ruled_getMember x name) hk
  | listItem done todo scope =>
    cases todo with
    | nil => exact obeys_give (obeys_alloc trivial) hk
    | cons e todo =>
      obtain ⟨he, ht⟩ := List.forall_mem_cons.mp hh
      exact obeys_pure ⟨he, ht, hk⟩
  | dictKey loc value done todo scope =>
    refine obeys_then (obeys_reading fun s => s.ruled_requireKey x) fun _ => ?_
    exact obeys_pure ⟨hh.1, hh.2, hk⟩
  | dictValue key done todo scope =>
    cases todo with
    | nil => exact obeys_give (obeys_alloc trivial) hk
    | cons e todo =>
      obtain ⟨he, ht⟩ := List.forall_mem_cons.mp hh
      exact obeys_pure ⟨he.1, ⟨he.2, ht⟩, hk⟩
  | comprehendOver loc c =>
    refine obeys_then (obeys_reading fun s => s.ruled_items x) fun items => ?_
    exact obeys_nextItem hh items [] hk
  | comprehendTest c inner todo done =>
    refine obeys_then (obeys_isTruthy x) fun t => ?_
    split
    · exact obeys_pure ⟨hh.1, hh, hk⟩
    · exact obeys_nextItem hh todo done hk
  | comprehendItem c todo done => exact obeys_nextItem hh todo (x :: done) hk
  | body name loc =>
    exact obeys_then (obeys_leaveFunction hx) fun v => obeys_answer hosts name loc v hk
  | lambdaBody loc => exact obeys_then obeys_exit fun _ => obeys_answer hosts "<lambda>" loc x hk
  | construct object => exact obeys_pure ⟨trivial, hk⟩
  | forwarded name loc =>
    simp only [react]
    split
    · next finish hb =>
      refine obeys_bind (obeys_reaching fun w => ?_) fun r hr => obeys_settle hosts name loc hk hr
      exact hosts.call (.finish _ finish x loc name hb rfl)
    · exact obeys_pure ⟨trivial, hk⟩

end React

section Calls

variable {setup : Setup σ} {k : Context .value}

theorem obeys_notCallable {P : α → Prop} (callee : Value) (c : Call) :
    Obeys p (notCallable (σ := σ) callee c) P :=
  obeys_store fun _ _ => obeys_fail rfl (Not.elim (by decide))

theorem obeys_reply (f : CoreFunction) (c : Call) :
    Obeys p (f.reply setup c) fun r => ∀ g, r ≠ .fault g := by
  have answer (v : Value) : Obeys p (pure (Reply.value v) : Act σ (Reply σ)) fun r =>
      ∀ g, r ≠ .fault g := obeys_pure nofun
  cases f with
  | print =>
    refine obeys_then (obeys_reading fun s => raises_mapM _ fun v _ => s.ruled_text v) fun texts => ?_
    exact obeys_then (fun m hm => ⟨hm, trivial⟩) fun _ => answer _
  | sleep =>
    exact obeys_then (obeys_reading fun s => s.ruled_duration _) fun _ => obeys_pure nofun
  | range =>
    refine obeys_then (obeys_reading fun s => s.ruled_rangeItems c.args) fun items => ?_
    exact obeys_then (obeys_alloc trivial) fun _ => answer _
  | len => exact obeys_then (obeys_reading fun s => s.ruled_lengthOf _) fun _ => answer _
  | str => exact obeys_then (obeys_reading fun s => s.ruled_text _) fun _ => answer _
  | int =>
    refine obeys_then (obeys_reading fun s => ?_) fun _ => answer _
    exact ends_bind (s.ruled_toInt _ (Not.elim (by decide))) fun i _ => ruled_floatOfInt i
  | float =>
    refine obeys_then (obeys_reading fun s => ?_) fun _ => answer _
    exact s.ruled_toNumber _ (Not.elim (by decide))
  | abs =>
    refine obeys_then (obeys_reading fun s => ?_) fun _ => answer _
    exact s.ruled_expectNumber (by decide) _
  | min | max =>
    refine obeys_then (obeys_reading fun s => ?_) fun _ => answer _
    exact s.ruled_extreme (by decide) _ c.args
  | sum => exact obeys_then (obeys_reading fun s => s.ruled_sumOf _) fun _ => answer _
  | sorted => exact obeys_pure nofun

theorem obeys_endSort (hosts : p.Hosts setup) (loc : Location) (reversed : Bool)
    (keys items : List Value) : Obeys p (endSort setup loc reversed keys items) fun _ => True := by
  refine obeys_then (obeys_reading fun s => s.ruled_sortBy reversed keys items) fun sorted => ?_
  refine obeys_then (obeys_alloc trivial) fun v => ?_
  exact obeys_then (obeys_emit hosts _) fun _ => obeys_pure trivial

theorem obeys_endMap (hosts : p.Hosts setup) (name : String) (loc : Location)
    (results : List Value) : Obeys p (endMap setup name loc results) fun _ => True := by
  refine obeys_then (obeys_alloc trivial) fun v => ?_
  exact obeys_then (obeys_emit hosts _) fun _ => obeys_pure trivial

theorem obeys_onlyOnce (c : Call) (key : String) (place : Nat) (more : List Value) :
    Obeys p (onlyOnce (σ := σ) c key place more) fun _ => True := by
  unfold onlyOnce
  split
  · exact obeys_fail rfl (Not.elim (by decide))
  · exact obeys_pure trivial

theorem obeys_startSort (hosts : p.Hosts setup) (c : Call) (hk : k.Under p) :
    Obeys p (startSort setup c k) (·.Under p k) := by
  unfold startSort
  split
  · exact obeys_throw (p.ruled (ruled_foreign _))
  · refine obeys_then (obeys_onlyOnce c _ _ _) fun _ => obeys_then (obeys_onlyOnce c _ _ _) fun _ => ?_
    refine obeys_then (obeys_reading fun s => s.ruled_items _) fun items => ?_
    refine obeys_then (obeys_isTruthy _) fun reversed => ?_
    split
    · exact obeys_pure ⟨p.no_names, hk⟩
    · exact obeys_then (obeys_endSort hosts _ _ _ _) fun _ => obeys_pure ⟨trivial, hk⟩

theorem obeys_startMap (hosts : p.Hosts setup) (name : String) (c : Call) (hk : k.Under p) :
    Obeys p (startMap setup name c k) (·.Under p k) := by
  unfold startMap
  split
  · refine obeys_then (obeys_reading fun s => s.ruled_items _) fun items => ?_
    split
    · exact obeys_then (obeys_endMap hosts name c.location []) fun _ => obeys_pure ⟨trivial, hk⟩
    · exact obeys_pure ⟨p.no_names, hk⟩
  · exact obeys_throw (p.ruled (ruled_foreign _))

theorem obeys_callBuiltin (hosts : p.Hosts setup) {n : String} {b : Builtin σ}
    (hb : setup.builtin? n = some b) {c : Call} (hc : p.names c.named.keys) (hk : k.Under p) :
    Obeys p (callBuiltin setup b c k) (·.Under p k) := by
  refine obeys_then (obeys_placed (Builtin.ruled_accepts (hosts.name hb) c)) fun _ => ?_
  refine obeys_then (obeys_emit hosts _) fun _ => ?_
  have settled {r : Reply σ} (hr : ∀ f, r = .fault f → p.fault f) : Obeys p (do
      return Invocation.react (← settle setup b.name c.location k r)) (·.Under p k) :=
    obeys_bind (obeys_settle hosts _ _ hk hr) fun r hr => obeys_pure hr
  split
  · exact obeys_startSort hosts c hk
  · next f _ _ => exact obeys_bind (obeys_reply f c) fun r hr => settled fun g h => absurd h (hr g)
  · next reply hf =>
    refine obeys_bind (obeys_reaching fun w => ?_) fun r hr => settled fun g h => ?_
    · exact hosts.call (.reply b reply c n hb hf)
    · split at h
      · next f =>
        cases h
        exact p.attach (hr f rfl) c.location
      · next other => exact absurd h (other g)
  · split
    · exact obeys_throw (p.ruled (ruled_foreign _))
    · exact obeys_pure ⟨hc, trivial, hk⟩
  · exact obeys_startMap hosts b.name c hk

theorem obeys_callFunction (hosts : p.Hosts setup) {f : Closure}
    (hf : (Obj.function f).Under p) {label : String} (hl : p.word label) (implicit : Nat) (c : Call)
    (hk : k.Under p) :
    Obeys p (callFunction setup f label implicit c k) fun t => (bodyOf (σ := σ) t).Under p k := by
  refine obeys_then (obeys_placed (ruled_bindArguments (fun _ => hl) _ _ _ _)) fun bound => ?_
  refine obeys_then (obeys_openScope f.scope bound) fun scope => ?_
  refine obeys_then (obeys_emit hosts _) fun _ => ?_
  refine obeys_then (obeys_enter f.name scope c.location) fun _ => ?_
  split
  · refine obeys_then obeys_exit fun _ => ?_
    exact obeys_then (obeys_emit hosts _) fun _ => obeys_pure ⟨trivial, hk⟩
  · next s ss h =>
    have body : Block.Under p false true (s :: ss) := h ▸ hf.1
    exact obeys_pure (Task.under_exec (k := .fill (.body f.name c.location) k) body ⟨trivial, hk⟩)

theorem obeys_callLambda (hosts : p.Hosts setup) (params : List String) {body : Expr}
    (hb : p.expr body) (scope : ScopeId) (c : Call) (hk : k.Under p) :
    Obeys p (callLambda setup params body scope c k) (·.Under p) := by
  refine obeys_then (obeys_placed (ruled_bindArguments (Not.elim (by decide)) _ _ _ _)) fun bound => ?_
  refine obeys_then (obeys_openScope scope bound) fun scope => ?_
  refine obeys_then (obeys_emit hosts _) fun _ => ?_
  refine obeys_then (obeys_enter "<lambda>" scope c.location) fun _ => ?_
  exact obeys_pure ⟨hb, trivial, hk⟩

theorem obeys_construct (hosts : p.Hosts setup) (cls : Addr) {name : String}
    (hn : p.name name) (methods : Table String Addr) (c : Call) (hk : k.Under p) :
    Obeys p (construct setup cls name methods c k) (·.Under p k) := by
  refine obeys_then (obeys_alloc trivial) fun object => obeys_store fun s hs => ?_
  split
  · next f h =>
    obtain ⟨a, -, ha⟩ := Option.map_eq_some_iff.mp h
    have made : (Obj.function f).Under p := ha ▸ Store.under_read hs a
    split
    · exact obeys_fail rfl fun _ => p.word_name hn
    · have outer : Context.Under p (.fill (.construct object) k) := ⟨trivial, hk⟩
      refine obeys_bind (obeys_callFunction hosts made (p.word_name hn) 1 _ outer) fun t ht => ?_
      cases t with
      | none => exact obeys_pure ⟨trivial, hk⟩
      | some t => exact obeys_pure ht
  · split
    · exact obeys_pure ⟨trivial, hk⟩
    · exact obeys_fail rfl fun _ => p.word_name hn

theorem obeys_invoke (hosts : p.Hosts setup) (callee : Value) {c : Call}
    (hc : p.names c.named.keys) (hk : k.Under p) : Obeys p (invoke setup callee c k) (·.Under p k) := by
  refine obeys_store fun s hstore => ?_
  split
  · split
    · next hb => exact obeys_callBuiltin hosts hb hc hk
    · exact obeys_notCallable _ c
  · next f h =>
    have made : (Obj.function f).Under p := Store.under_object hstore h
    have word := p.word_name made.2.1
    exact obeys_bind (obeys_callFunction hosts made word 0 c hk) fun _ ht => obeys_pure ht
  · next r f h =>
    have made := Store.under_read hstore f
    split
    · next f h =>
      rw [h] at made
      have word := p.word_name made.2.1
      split
      · exact obeys_fail rfl fun _ => word
      · exact obeys_bind (obeys_callFunction hosts made word 1 _ hk) fun _ ht => obeys_pure ht
    · exact obeys_notCallable _ c
  · next params body scope h =>
    have made : (Obj.lambda params body scope).Under p := Store.under_object hstore h
    exact obeys_bind (obeys_callLambda hosts params made scope c hk) fun _ ht => obeys_pure ht
  · next name methods a h =>
    have made : (Obj.cls name methods).Under p := Store.under_object hstore h
    exact obeys_bind (obeys_construct hosts a made methods c hk) fun _ hr => obeys_pure hr
  · exact obeys_notCallable _ c

end Calls

section Step

theorem continueWith_under {b : Awaits} {k : Context b} {r : Reaction σ b} (h : r.Under p k) :
    (continueWith k r).Under p := by
  cases r <;> exact h

variable {setup : Setup σ} (hosts : p.Hosts setup)

include hosts

theorem obeys_giveTo {a : Awaits} {x : a.Input} {k : Context a}
    (hx : a.Under p k.looped k.inside x) (hk : k.Under p) :
    Obeys p (giveTo setup x k) (·.Under p) := by
  cases k with
  | program => exact obeys_pure hx
  | fill h k =>
    exact obeys_bind (obeys_react hosts hk hx) fun r hr => obeys_pure (continueWith_under hr)
  | argument c k =>
    obtain ⟨said, keywords, hk⟩ := hk
    have todo : (c.receive x).todo = c.todo := by
      unfold PendingCall.receive
      split <;> rfl
    have left := p.fewer keywords (c.receive_keywords x)
    simp only [giveTo]
    split
    · exact obeys_pure ⟨p.fewer left (List.sublist_append_left _ _), hk⟩
    · next key e rest h =>
      rw [todo] at h
      rw [h] at said left
      obtain ⟨he, ht⟩ := List.forall_mem_cons.mp said
      refine obeys_pure ⟨he, ht, ?_, hk⟩
      cases key <;> simpa [PendingCall.keywords] using left
  | sortKey s k =>
    simp only [giveTo]
    split
    · refine obeys_then (obeys_endSort hosts _ _ _ _) fun v => obeys_pure ?_
      exact continueWith_under (k := k) (r := .give (b := .value) v) ⟨trivial, hk⟩
    · exact obeys_pure ⟨p.no_names, hk⟩
  | mapItem s k =>
    simp only [giveTo]
    split
    · refine obeys_then (obeys_endMap hosts _ _ _) fun v => obeys_pure ?_
      exact continueWith_under (k := k) (r := .give (b := .value) v) ⟨trivial, hk⟩
    · exact obeys_pure ⟨p.no_names, hk⟩

/-- A step from a control whose code is allowed leads to such controls, or it fails as the policy
says. -/
theorem obeys_step {c : Control} (hc : c.Under p) : Obeys p (c.step setup) (·.Under p) := by
  cases c with
  | task t => exact obeys_map (obeys_begin hosts hc)
  | move v =>
    cases v with
    | give x k => exact obeys_giveTo hosts hc.1 hc.2
    | call callee c k =>
      refine obeys_bind (obeys_invoke hosts callee hc.1 hc.2) fun v hv => ?_
      cases v with
      | react r => exact obeys_pure (continueWith_under hv)
      | again callee c k => exact obeys_pure hv

theorem obeys_control {r : Resumption} (hr : r.Under p) : Obeys p (r.control setup) (·.Under p) := by
  cases r with
  | task t => exact obeys_begin hosts hr
  | waited name loc k =>
    exact obeys_then (obeys_emit hosts (.afterCall name .none loc)) fun _ => obeys_pure ⟨trivial, hr⟩

end Step

end Act

end LoopScript
