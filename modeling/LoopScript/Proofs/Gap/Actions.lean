import LoopScript.Execution
import LoopScript.Machine.Step
import LoopScript.Proofs.Gap.Operations
import LoopScript.Proofs.Relocation.Actions

/-!
Actions on two machines of which the second one has gaps in its store: what is left to do is the same
code in scopes and with values that are found past the gap. What is not of the language, the functions
and handlers of a host, is asked to make nothing of the gaps; then nothing does.
-/

namespace LoopScript

section Past

variable (g : Gaps)

def Flow.past : Flow → Flow
  | .returned v => .returned (v.past g)
  | f => f

def Awaits.past : (a : Awaits) → a.Input → a.Input
  | .value => Value.past g
  | .flow => Flow.past g

abbrev Old.past : Old → Old := Option.map (Prod.map id (Value.past g))

def Comprehension.past (c : Comprehension) : Comprehension :=
  { c with scope := g.scopes.past c.scope }

abbrev Entries.past (entries : Table Value Value) : Table Value Value :=
  entries.map (Prod.map (Value.past g) (Value.past g))

def Hole.past : {a b : Awaits} → Hole a b → Hole a b
  | _, _, .rest ss scope => .rest ss (g.scopes.past scope)
  | _, _, .discard => .discard
  | _, _, .branch ss otherwise scope => .branch ss otherwise (g.scopes.past scope)
  | _, _, .loopTest test ss scope => .loopTest test ss (g.scopes.past scope)
  | _, _, .loopBody test ss scope => .loopBody test ss (g.scopes.past scope)
  | _, _, .eachOver loc item ss scope => .eachOver loc item ss (g.scopes.past scope)
  | _, _, .eachBody item todo ss scope =>
    .eachBody item (todo.map (Value.past g)) ss (g.scopes.past scope)
  | _, _, .leave => .leave
  | _, _, .assignName loc id old scope => .assignName loc id (Old.past g old) (g.scopes.past scope)
  | _, _, .memberBase loc name op e scope => .memberBase loc name op e (g.scopes.past scope)
  | _, _, .assignMember loc base name old =>
    .assignMember loc (g.objects.past base) name (Old.past g old)
  | _, _, .itemBase loc i op e scope => .itemBase loc i op e (g.scopes.past scope)
  | _, _, .itemIndex loc base op e scope => .itemIndex loc (base.past g) op e (g.scopes.past scope)
  | _, _, .assignItem loc base i old =>
    .assignItem loc (base.past g) (i.past g) (Old.past g old)
  | _, _, .left loc op e scope => .left loc op e (g.scopes.past scope)
  | _, _, .right loc op v => .right loc op (v.past g)
  | _, _, .operand loc op => .operand loc op
  | _, _, .indexBase loc i scope => .indexBase loc i (g.scopes.past scope)
  | _, _, .index loc base => .index loc (base.past g)
  | _, _, .sliceBase loc bounds scope => .sliceBase loc bounds (g.scopes.past scope)
  | _, _, .sliceBound loc base done todo scope =>
    .sliceBound loc (base.past g) done todo (g.scopes.past scope)
  | _, _, .member loc name => .member loc name
  | _, _, .listItem done todo scope =>
    .listItem (done.map (Value.past g)) todo (g.scopes.past scope)
  | _, _, .dictKey loc e done todo scope =>
    .dictKey loc e (Entries.past g done) todo (g.scopes.past scope)
  | _, _, .dictValue key done todo scope =>
    .dictValue (key.past g) (Entries.past g done) todo (g.scopes.past scope)
  | _, _, .comprehendOver loc c => .comprehendOver loc (c.past g)
  | _, _, .comprehendTest c inner todo done =>
    .comprehendTest (c.past g) (g.scopes.past inner) (todo.map (Value.past g))
      (done.map (Value.past g))
  | _, _, .comprehendItem c todo done =>
    .comprehendItem (c.past g) (todo.map (Value.past g)) (done.map (Value.past g))
  | _, _, .body name loc => .body name loc
  | _, _, .lambdaBody loc => .lambdaBody loc
  | _, _, .construct object => .construct (object.past g)
  | _, _, .forwarded name loc => .forwarded name loc

def PendingCall.past (p : PendingCall) : PendingCall where
  loc := p.loc
  callee := p.callee.map (Value.past g)
  args := p.args.map (Value.past g)
  named := Bindings.past g p.named
  key := p.key
  todo := p.todo
  scope := g.scopes.past p.scope

def Sorting.past (s : Sorting) : Sorting where
  loc := s.loc
  key := s.key.past g
  items := s.items.map (Value.past g)
  keys := s.keys.map (Value.past g)
  todo := s.todo.map (Value.past g)
  reversed := s.reversed

def Mapping.past (m : Mapping) : Mapping where
  name := m.name
  loc := m.loc
  callee := m.callee.past g
  done := m.done.map (Value.past g)
  todo := m.todo.map (Value.past g)

def Context.past : {a : Awaits} → Context a → Context a
  | _, .program => .program
  | _, .fill h k => .fill (h.past g) k.past
  | _, .argument p k => .argument (p.past g) k.past
  | _, .sortKey s k => .sortKey (s.past g) k.past
  | _, .mapItem m k => .mapItem (m.past g) k.past

def Task.past : Task → Task
  | .exec s scope k => .exec s (g.scopes.past scope) (k.past g)
  | .eval e scope k => .eval e (g.scopes.past scope) (k.past g)

def Resumption.past : Resumption → Resumption
  | .task t => .task (t.past g)
  | .waited name loc k => .waited name loc (k.past g)

def Move.past : Move → Move
  | .give (a := a) x k => .give (a.past g x) (k.past g)
  | .call callee c k => .call (callee.past g) (c.past g) (k.past g)

def Control.past : Control → Control
  | .task t => .task (t.past g)
  | .move v => .move (v.past g)

def Activation.past (a : Activation) : Activation :=
  { a with scope := g.scopes.past a.scope }

end Past

variable {g : Gaps}

theorem PendingCall.receive_past (p : PendingCall) (v : Value) :
    (p.past g).receive (v.past g) = (p.receive v).past g := by
  obtain ⟨loc, callee, args, named, key, todo, scope⟩ := p
  cases callee with
  | none => rfl
  | some f =>
    cases key with
    | none => simp [receive, past]
    | some k => simp [receive, past, Table.put_values]

/-- What lies between the worlds of two runs: gaps in the store of the second one, and a relation between
what their hosts have come to. -/
structure Distance (σ : Type) extends Gaps where
  hosts : σ → σ → Prop

instance {σ : Type} : CoeOut (Distance σ) Gaps := ⟨Distance.toGaps⟩

variable {σ α β γ δ : Type}

structure World.Matches (d : Distance σ) (w v : World σ) : Prop where
  store : w.store.Opens d v.store
  host : d.hosts w.host v.host

/-- Two operations on worlds that give related results and keep the distance. -/
def Distance.Kept (d : Distance σ) (R : α → β → Prop) (f : World σ → α × World σ)
    (k : World σ → β × World σ) : Prop :=
  ∀ w v, w.Matches d v → R (f w).1 (k v).1 ∧ (f w).2.Matches d (k v).2

inductive Wait.Matches (d : Distance σ) : Wait σ → Wait σ → Prop where
  | seconds (s : Float) : Matches d (.seconds s) (.seconds s)
  | condition {p q : World σ → Bool × World σ} (h : d.Kept Eq p q) :
      Matches d (.condition p) (.condition q)

inductive Reply.Matches (d : Distance σ) : Reply σ → Reply σ → Prop where
  | value (v : Value) : Matches d (.value v) (.value (v.past d))
  | wait {w w' : Wait σ} (h : w.Matches d w') : Matches d (.wait w) (.wait w')
  | fault (f : Fault) : Matches d (.fault f) (.fault f)

inductive Event.Matches (d : Distance σ) : Event σ → Event σ → Prop where
  | programStart (p : Program) (globals : ScopeId) :
      Matches d (.programStart p globals) (.programStart p (d.scopes.past globals))
  | beforeStatement (s : Stmt) (scope : ScopeId) :
      Matches d (.beforeStatement s scope) (.beforeStatement s (d.scopes.past scope))
  | beforeCall (name : String) (args : List Value) (loc : Location) :
      Matches d (.beforeCall name args loc) (.beforeCall name (args.map (Value.past d)) loc)
  | afterCall (name : String) (v : Value) (loc : Location) :
      Matches d (.afterCall name v loc) (.afterCall name (v.past d) loc)
  | onPause {w w' : Wait σ} (h : w.Matches d w') : Matches d (.onPause w) (.onPause w')
  | onError (e : RuntimeError) : Matches d (.onError e) (.onError e)
  | programEnd : Matches d .programEnd .programEnd

theorem Event.Matches.kind {d : Distance σ} {e e' : Event σ} (h : e.Matches d e') :
    e'.kind = e.kind := by
  cases h <;> rfl

/-- Functions and handlers that do the same at both ends of a distance. -/
structure Services.Keep (d : Distance σ) (s : Services σ) : Prop where
  reply : ∀ name b, s.builtins.get? name = some b → ∀ reply, b.action = .host reply →
    ∀ c : Call, d.Kept (Reply.Matches d) (reply c) (reply (c.past d))
  finish : ∀ name b, s.builtins.get? name = some b → ∀ finish, b.action = .forward finish →
    ∀ v loc, d.Kept (Reply.Matches d) (finish v loc) (finish (v.past d) loc)
  hook : ∀ h ∈ s.hooks, ∀ e e', e.Matches d e' → d.Kept Eq (h.handle e) (h.handle e')
  rule : ∀ r ∈ s.rules, ∀ c, d.Kept Eq (r.handle c) (r.handle c)

structure Setup.Keeps (d : Distance σ) (setup : Setup σ) : Prop where
  services : setup.services.Keep d
  print : ∀ line h h', d.hosts h h' → d.hosts (setup.print line h) (setup.print line h')

/-- The same machine in a world with gaps. -/
def Machine.past (g : Gaps) (m : Machine σ) (v : World σ) : Machine σ where
  world := v
  globals := g.scopes.past m.globals
  forced := m.forced
  current := m.current
  log := m.log
  calls := m.calls.map (Activation.past g)
  issued := m.issued

inductive Distance.Ends (d : Distance σ) (R : α → β → Prop) :
    EStateM.Result Fault (Machine σ) α → EStateM.Result Fault (Machine σ) β → Prop where
  | ok {a : α} {b : β} {m : Machine σ} {v : World σ} (h : R a b) (hv : m.world.Matches d v) :
      Ends d R (.ok a m) (.ok b (m.past d v))
  | error (f : Fault) {m : Machine σ} {v : World σ} (hv : m.world.Matches d v) :
      Ends d R (.error f m) (.error f (m.past d v))

namespace Act

/-- Two actions that keep the distance between machines, and give related results or fail alike. -/
def Tallies (d : Distance σ) (R : α → β → Prop) (x : Act σ α) (y : Act σ β) : Prop :=
  ∀ m v, m.world.Matches d v → d.Ends R (x m) (y (m.past d v))

/-- The second action gives what the first one gives, changed by `f`. -/
abbrev Passes (d : Distance σ) (f : α → β) (x : Act σ α) (y : Act σ β) : Prop :=
  Tallies d (fun a b => f a = b) x y

variable {d : Distance σ} {R : α → β → Prop} {Q : γ → δ → Prop}

theorem tallies_pure {a : α} {b : β} (h : R a b) :
    Tallies d R (pure a : Act σ α) (pure b) :=
  fun _ _ hv => .ok h hv

theorem tallies_throw (f : Fault) : Tallies d R (throw f : Act σ α) (throw f : Act σ β) :=
  fun _ _ hv => .error f hv

theorem tallies_bind {x : Act σ α} {y : Act σ β} {u : α → Act σ γ} {w : β → Act σ δ}
    (h : Tallies d R x y) (hu : ∀ a b, R a b → Tallies d Q (u a) (w b)) :
    Tallies d Q (x >>= u) (y >>= w) := by
  intro m v hv
  have ends := h m v hv
  simp only [bind, EStateM.bind]
  generalize x m = r, y (m.past d v) = r' at ends ⊢
  cases ends with
  | ok h hv => exact hu _ _ h _ _ hv
  | error f hv => exact .error f hv

theorem passes_bind {f : α → β} {x : Act σ α} {y : Act σ β} {u : α → Act σ γ} {w : β → Act σ δ}
    (h : Passes d f x y) (hu : ∀ a, Tallies d Q (u a) (w (f a))) :
    Tallies d Q (x >>= u) (y >>= w) :=
  tallies_bind h fun a _ e => e ▸ hu a

theorem tallies_seq {x y : Act σ α} {u : α → Act σ γ} {w : α → Act σ δ} (h : Tallies d Eq x y)
    (hu : ∀ a, Tallies d Q (u a) (w a)) : Tallies d Q (x >>= u) (y >>= w) :=
  passes_bind (f := id) h hu

theorem tallies_map {x : Act σ α} {y : Act σ β} {u : α → γ} {w : β → δ} (h : Tallies d R x y)
    (hu : ∀ a b, R a b → Q (u a) (w b)) : Tallies d Q (u <$> x) (w <$> y) := by
  rw [map_eq_pure_bind, map_eq_pure_bind]
  exact tallies_bind h fun a b hr => tallies_pure (hu a b hr)

theorem tallies_get {u : Machine σ → Act σ α} {w : Machine σ → Act σ β}
    (h : ∀ m v, m.world.Matches d v → d.Ends R (u m m) (w (m.past d v) (m.past d v))) :
    Tallies d R (get >>= u) (get >>= w) :=
  h

theorem tallies_onWorld {f : World σ → α × World σ} {k : World σ → β × World σ}
    (h : d.Kept R f k) : Tallies d R (onWorld f) (onWorld k) := by
  intro m v hv
  obtain ⟨hr, hw⟩ := h m.world v hv
  exact .ok hr hw

/-- A change of what lies in both machines. -/
theorem tallies_change {f k : Machine σ → Machine σ} (h : ∀ m v, k (m.past d v) = (f m).past d v)
    (world : ∀ m, (f m).world = m.world) :
    Tallies d Eq (modify f : Act σ PUnit) (modify k) := by
  intro m v hv
  change d.Ends Eq (.ok PUnit.unit (f m)) (.ok PUnit.unit (k (m.past d v)))
  rw [h]
  refine .ok rfl ?_
  rw [world]
  exact hv

section Store

theorem tallies_onStore {f : Store → α × Store} {k : Store → β × Store}
    (h : ∀ s t, s.Opens d t → R (f s).1 (k t).1 ∧ (f s).2.Opens d (k t).2) :
    Tallies d R (onStore f : Act σ α) (onStore k) :=
  tallies_onWorld fun _ _ hw =>
    ⟨(h _ _ hw.store).1, (h _ _ hw.store).2, hw.host⟩

theorem tallies_modifyStore {f k : Store → Store} (h : ∀ s t, s.Opens d t → (f s).Opens d (k t)) :
    Tallies d Eq (modifyStore f : Act σ Unit) (modifyStore k) :=
  tallies_onStore fun s t hs => ⟨rfl, h s t hs⟩

theorem tallies_store {f : Store → Act σ α} {k : Store → Act σ β}
    (h : ∀ s t, s.Opens d t → Tallies d R (f s) (k t)) :
    Tallies d R (store >>= f) (store >>= k) :=
  fun m v hv => h _ _ hv.store m v hv

theorem passes_placed {f : α → β} (loc : Location) {x : Except Fault α} {y : Except Fault β}
    (h : y = f <$> x) : Passes d f (placed loc x : Act σ α) (placed loc y) := by
  subst h
  cases x with
  | ok a => exact tallies_pure rfl
  | error e => exact tallies_throw _

theorem passes_reading {f : α → β} (loc : Location) {x : Store → Except Fault α}
    {y : Store → Except Fault β} (h : ∀ s t, s.Opens d t → y t = f <$> x s) :
    Passes d f (reading loc x : Act σ α) (reading loc y) :=
  tallies_store fun s t hs => passes_placed loc (h s t hs)

theorem tallies_reading (loc : Location) {x y : Store → Except Fault α}
    (h : ∀ s t, s.Opens d t → y t = x s) : Tallies d Eq (reading loc x : Act σ α) (reading loc y) :=
  passes_reading (f := id) loc fun s t hs => (h s t hs).trans (id_map _).symm

theorem passes_alloc (o : Obj) : Passes d (Value.past d) (alloc o : Act σ Value) (alloc (o.past d)) :=
  tallies_onStore fun _ _ hs => ⟨(hs.alloc o).1.symm, (hs.alloc o).2⟩

theorem passes_making (loc : Location) {x y : Store → Except Fault Made}
    (h : ∀ s t, s.Opens d t → y t = Made.past d <$> x s) :
    Passes d (Value.past d) (making loc x : Act σ Value) (making loc y) := by
  refine passes_bind (passes_reading loc h) fun made => ?_
  cases made with
  | value v => exact tallies_pure rfl
  | object o => exact passes_alloc o

theorem passes_openScope (parent : ScopeId) (bindings : Table String Value) :
    Passes d d.scopes.past (openScope parent bindings : Act σ ScopeId)
      (openScope (d.scopes.past parent) (Bindings.past d bindings)) :=
  tallies_onStore fun _ _ hs =>
    ⟨(hs.openScope (some parent) bindings).1.symm, (hs.openScope (some parent) bindings).2⟩

theorem tallies_define (scope : ScopeId) (name : String) (v : Value) :
    Tallies d Eq (define scope name v : Act σ Unit)
      (define (d.scopes.past scope) name (v.past d)) :=
  tallies_modifyStore fun _ _ hs => hs.define scope name v

theorem tallies_assign (scope : ScopeId) (name : String) (v : Value) :
    Tallies d Eq (assign scope name v : Act σ Unit)
      (assign (d.scopes.past scope) name (v.past d)) := by
  refine tallies_get fun m w hw => ?_
  change d.Ends Eq ((if name ∈ m.forced then _ else _ : Act σ Unit) m)
    ((if name ∈ m.forced then _ else _ : Act σ Unit) _)
  split
  · exact tallies_modifyStore (fun _ _ hs => hs.setGlobal scope name v) m w hw
  · exact tallies_modifyStore (fun _ _ hs => hs.assign scope name v) m w hw

theorem tallies_isTruthy (v : Value) :
    Tallies d Eq (isTruthy v : Act σ Bool) (isTruthy (v.past d)) :=
  tallies_store fun _ _ hs => tallies_pure (hs.truthy v).symm

end Store

section Calls

theorem tallies_enter (name : String) (scope : ScopeId) (loc : Location) :
    Tallies d Eq (enter name scope loc : Act σ Unit) (enter name (d.scopes.past scope) loc) := by
  intro m v hv
  rw [enter_eq, enter_eq]
  simp only [Machine.past, List.length_map]
  split
  · exact .error _ hv
  · exact .ok (m := { m with
      calls := ⟨name, scope, m.issued, some loc⟩ :: m.calls
      issued := m.issued + 1 }) rfl hv

theorem tallies_exit : Tallies d Eq (exit : Act σ Unit) exit := by
  intro m v hv
  rw [exit_eq, exit_eq]
  obtain ⟨world, globals, forced, current, log, calls, issued⟩ := m
  cases calls with
  | nil => exact .error _ hv
  | cons a calls =>
    exact .ok (m := ⟨world, globals, forced, current, log.forget a.id, calls, issued⟩) rfl hv

end Calls

section Handlers

theorem tallies_callHooks {e e' : Event σ} (he : e.Matches d e') {hs : List (Hook σ)}
    (hh : ∀ h ∈ hs, d.Kept Eq (h.handle e) (h.handle e')) :
    Tallies d Eq (callHooks e hs) (callHooks e' hs) := by
  induction hs with
  | nil => exact tallies_pure rfl
  | cons h hs ih =>
    obtain ⟨first, rest⟩ := List.forall_mem_cons.mp hh
    refine tallies_seq (tallies_onWorld first) fun answer => ?_
    cases answer with
    | none => exact ih rest
    | some f =>
      cases f with
      | error err => exact tallies_throw _
      | endless | foreign =>
        refine tallies_get fun m v hv => ?_
        rw [he.kind]
        exact .error _ hv

theorem tallies_emit {setup : Setup σ} (hs : setup.Keeps d) {e e' : Event σ}
    (he : e.Matches d e') : Tallies d Eq (emit setup e) (emit setup e') := by
  unfold emit
  rw [he.kind]
  exact tallies_callHooks he fun h hh =>
    hs.services.hook h (List.mem_of_mem_filter hh) e e' he

theorem tallies_callRules (c : StepContext) {rules : List (StepRule σ)}
    (hr : ∀ r ∈ rules, d.Kept Eq (r.handle c) (r.handle c)) :
    Tallies d Eq (callRules c rules) (callRules c rules) := by
  induction rules with
  | nil => exact tallies_pure rfl
  | cons r rules ih =>
    obtain ⟨first, rest⟩ := List.forall_mem_cons.mp hr
    unfold callRules
    split
    · refine tallies_seq (tallies_onWorld first) fun answer => ?_
      cases answer with
      | none => exact ih rest
      | some f => cases f <;> exact tallies_throw _
    · exact ih rest

theorem tallies_snapshot (loc : Location) :
    Tallies d Eq (snapshot loc : Act σ (Option (List (String × String)))) (snapshot loc) := by
  refine tallies_get fun m v hv => ?_
  obtain ⟨world, globals, forced, current, log, calls, issued⟩ := m
  cases calls with
  | nil => exact .ok rfl hv
  | cons a calls =>
    refine tallies_seq (tallies_reading loc fun s t hs => ?_) (fun _ => tallies_pure rfl) _ v hv
    exact hs.snapshot a.scope

theorem tallies_record (keep : Bool) (rule : String) (loc : Location)
    (bindings : Option (List (String × String))) :
    Tallies d Eq (record keep rule loc bindings : Act σ Nat) (record keep rule loc bindings) := by
  intro m v hv
  obtain ⟨world, globals, forced, current, log, calls, issued⟩ := m
  let entry (id : Option Nat) : LogEntry := ⟨log.next, id, loc, rule, bindings⟩
  cases calls with
  | nil =>
    exact .ok (m := ⟨world, globals, forced, current, log.record keep (entry none), [], issued⟩) rfl hv
  | cons a calls =>
    exact .ok (m := ⟨world, globals, forced, current, log.record keep (entry (some a.id)), a :: calls,
      issued⟩) rfl hv

theorem tallies_logStep {setup : Setup σ} (hs : setup.Keeps d) (rule : String) (loc : Location) :
    Tallies d Eq (logStep setup rule loc) (logStep setup rule loc) := by
  have rest (bindings : Option (List (String × String))) : Tallies d Eq
      (do
        let step ← record setup.verbose rule loc bindings
        callRules ⟨step, rule, some loc⟩ setup.services.rules : Act σ Unit)
      (do
        let step ← record setup.verbose rule loc bindings
        callRules ⟨step, rule, some loc⟩ setup.services.rules) :=
    tallies_seq (tallies_record _ rule loc bindings) fun step =>
      tallies_callRules _ fun r hr => hs.services.rule r hr _
  unfold logStep
  split
  · exact tallies_seq (tallies_snapshot loc) rest
  · exact rest none

end Handlers

end Act

end LoopScript
