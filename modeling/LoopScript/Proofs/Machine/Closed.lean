import LoopScript.Execution

/-!
Properties of actions that pass from the basic actions to all that is composed of them: to every
step of a machine.
-/

namespace LoopScript

variable {σ α β : Type}

/-- What a run may do to the world: change the store, print a line, or call into the host. -/
inductive Setup.Touches (setup : Setup σ) : World σ → World σ → Prop where
  | store (w : World σ) (s : Store) : Touches setup w ⟨s, w.host⟩
  | print (w : World σ) (line : String) : Touches setup w ⟨w.store, setup.print line w.host⟩
  | hook (w : World σ) (h : Hook σ) (e : Event σ) (hh : h ∈ setup.services.hooks) :
      Touches setup w (h.handle e w).2
  | rule (w : World σ) (r : StepRule σ) (c : StepContext) (hr : r ∈ setup.services.rules) :
      Touches setup w (r.handle c w).2
  | reply (w : World σ) (b : Builtin σ) (f : Call → World σ → Reply σ × World σ) (c : Call)
      (name : String) (hb : setup.builtin? name = some b) (hf : b.action = .host f) :
      Touches setup w (f c w).2
  | finish (w : World σ) (b : Builtin σ) (f : Value → Location → World σ → Reply σ × World σ)
      (v : Value) (loc : Location) (name : String) (hb : setup.builtin? name = some b)
      (hf : b.action = .forward f) : Touches setup w (f v loc w).2

/-- A property of actions that use the world and the current place, but neither move on in the
program nor open or close a call. -/
structure Setup.Closed (setup : Setup σ) (P : (α : Type) → Act σ α → Prop) : Prop where
  pure {α : Type} (a : α) : P α (pure a)
  throw {α : Type} (f : Fault) : P α (throw f)
  bind {α β : Type} {x : Act σ α} {f : α → Act σ β} (hx : P α x) (hf : ∀ a, P β (f a)) :
    P β (x >>= f)
  onWorld {α : Type} (f : World σ → α × World σ) (h : ∀ w, setup.Touches w (f w).2) :
    P α (Act.onWorld f)
  store : P Store Act.store
  current : P (Option Location) (do return (← get).current)
  forced : P (List String) (do return (← get).forced)

/-- The property holds of what begins a statement, too. -/
structure Setup.ClosedBegin (setup : Setup σ) (P : (α : Type) → Act σ α → Prop) : Prop
    extends setup.Closed P where
  force (f : List String → List String) : P PUnit (modify fun m => { m with forced := f m.forced })
  place (loc : Option Location) : P PUnit (modify fun m => { m with current := loc })
  log (rule : String) (loc : Location) : P Unit (Act.logStep setup rule loc)

/-- The property holds of opening and closing a call, too. -/
structure Setup.ClosedCalls (setup : Setup σ) (P : (α : Type) → Act σ α → Prop) : Prop
    extends setup.Closed P where
  enter (name : String) (scope : ScopeId) (loc : Location) : P Unit (Act.enter name scope loc)
  exit : P Unit Act.exit

/-- One step of a machine, whatever the budget. -/
def Control.step (setup : Setup σ) : Control → Act σ (Next σ)
  | .task t => Next.go <$> Act.begin setup t
  | .move v => Act.advance setup v

def Hole.isBody : {a b : Awaits} → Hole a b → Bool
  | _, _, .body .. => true
  | _, _, .lambdaBody _ => true
  | _, _, _ => false

namespace Act

variable {setup : Setup σ} {P : (α : Type) → Act σ α → Prop}

section Quiet

variable (hP : setup.Closed P)

include hP

theorem closed_map {x : Act σ α} (f : α → β) (hx : P _ x) : P _ (f <$> x) := by
  rw [← bind_pure_comp]
  exact hP.bind hx fun a => hP.pure _

theorem closed_onStore (f : Store → α × Store) : P _ (onStore (σ := σ) f) :=
  hP.onWorld _ fun w => .store w _

theorem closed_modifyStore (f : Store → Store) : P _ (modifyStore (σ := σ) f) :=
  closed_onStore hP _

theorem closed_placed (loc : Location) (x : Except Fault α) : P _ (placed (σ := σ) loc x) := by
  cases x with
  | ok a => exact hP.pure a
  | error f => exact hP.throw _

theorem closed_fail (loc : Location) (c : Cause) : P _ (fail loc c : Act σ α) :=
  hP.throw _

theorem closed_reading (loc : Location) (f : Store → Except Fault α) :
    P _ (reading (σ := σ) loc f) :=
  hP.bind hP.store fun _ => closed_placed hP loc _

theorem closed_alloc (o : Obj) : P _ (alloc (σ := σ) o) := closed_onStore hP _

theorem closed_making (loc : Location) (f : Store → Except Fault Made) :
    P _ (making (σ := σ) loc f) := by
  refine hP.bind (closed_reading hP loc f) fun made => ?_
  cases made with
  | value v => exact hP.pure v
  | object o => exact closed_alloc hP o

theorem closed_openScope (parent : ScopeId) (bindings : Table String Value) :
    P _ (openScope (σ := σ) parent bindings) := closed_onStore hP _

theorem closed_callHooks (e : Event σ) {hooks : List (Hook σ)}
    (hh : ∀ h ∈ hooks, h ∈ setup.services.hooks) : P _ (callHooks e hooks) := by
  induction hooks with
  | nil => exact hP.pure _
  | cons h hooks ih =>
    refine hP.bind ?_ fun answer => ?_
    · exact hP.onWorld _ fun w => .hook w h e (hh h List.mem_cons_self)
    · split
      · exact ih fun g hg => hh g (List.mem_cons_of_mem h hg)
      · exact hP.throw _
      · next f _ =>
        exact hP.bind (f := fun loc => throw (.error ⟨.hookFailed e.kind.name f.text, loc, none⟩))
          hP.current fun _ => hP.throw _

theorem closed_emit (e : Event σ) : P _ (emit setup e) :=
  closed_callHooks hP e fun _ h => (List.mem_filter.mp h).1

theorem closed_callRules (c : StepContext) {rules : List (StepRule σ)}
    (hr : ∀ r ∈ rules, r ∈ setup.services.rules) : P _ (callRules c rules) := by
  induction rules with
  | nil => exact hP.pure _
  | cons r rules ih =>
    have rest := ih fun g hg => hr g (List.mem_cons_of_mem r hg)
    simp only [callRules]
    split
    · refine hP.bind ?_ fun answer => ?_
      · exact hP.onWorld _ fun w => .rule w r c (hr r List.mem_cons_self)
      · split
        · exact rest
        · exact hP.throw _
        · exact hP.throw _
    · exact rest

theorem closed_assign (scope : ScopeId) (name : String) (v : Value) :
    P _ (assign (σ := σ) scope name v) := by
  refine hP.bind (f := fun names => if name ∈ names then modifyStore (·.setGlobal scope name v)
    else modifyStore (·.assign scope name v)) hP.forced fun names => ?_
  split
  · exact closed_modifyStore hP _
  · exact closed_modifyStore hP _

theorem closed_combine (loc : Location) (old : Old) (v : Value) :
    P _ (combine (σ := σ) loc old v) := by
  cases old with
  | none => exact hP.pure v
  | some o => exact closed_making hP loc _

theorem closed_oldValue (op : AssignOp) {read : Act σ Value} (h : P _ read) :
    P _ (oldValue op read) := by
  unfold oldValue
  split
  · exact hP.pure _
  · exact hP.bind h fun _ => hP.pure _

theorem closed_define (scope : ScopeId) (name : String) (v : Value) :
    P _ (define (σ := σ) scope name v) := closed_modifyStore hP _

theorem closed_defineMethods (scope : ScopeId) (ds : List FunctionDef) :
    P _ (defineMethods (σ := σ) scope ds) := by
  induction ds with
  | nil => exact hP.pure _
  | cons d ds ih =>
    refine hP.bind (closed_alloc hP _) fun v => ?_
    split
    · exact hP.bind ih fun _ => hP.pure _
    · exact ih

theorem closed_isTruthy (v : Value) : P _ (isTruthy (σ := σ) v) :=
  hP.bind hP.store fun _ => hP.pure _

theorem closed_beginExpression (e : Expr) (scope : ScopeId) (k : Context .value) :
    P _ (beginExpression (σ := σ) e scope k) := by
  cases e with
  | name loc id => exact hP.bind (closed_reading hP loc _) fun _ => hP.pure _
  | list _ items | tuple _ items =>
    cases items with
    | nil => exact hP.bind (closed_alloc hP _) fun _ => hP.pure _
    | cons e es => exact hP.pure _
  | dict _ entries =>
    cases entries with
    | nil => exact hP.bind (closed_alloc hP _) fun _ => hP.pure _
    | cons e es => exact hP.pure _
  | lambda => exact hP.bind (closed_alloc hP _) fun _ => hP.pure _
  | literal | binary | unary | call | index | slice | comprehension | member =>
    exact hP.pure _

theorem closed_forM {α : Type} {f : α → Act σ PUnit} (h : ∀ a, P _ (f a)) (as : List α) :
    P _ (as.forM f) := by
  induction as with
  | nil => exact hP.pure _
  | cons a as ih => exact hP.bind (h a) fun _ => ih

theorem closed_nextRound (item : String) (todo : List Value) (body : List Stmt) (scope : ScopeId)
    (k : Context .flow) : P _ (nextRound (σ := σ) item todo body scope k) := by
  unfold nextRound
  split
  · exact hP.pure _
  · exact hP.bind (closed_forM hP (fun v => closed_assign hP scope item v) _) fun _ =>
      hP.pure _
  · exact hP.bind (closed_assign hP scope item _) fun _ => hP.pure _

theorem closed_nextItem (c : Comprehension) (todo done : List Value) (k : Context .value) :
    P _ (nextItem (σ := σ) c todo done k) := by
  unfold nextItem
  split
  · exact hP.bind (closed_alloc hP _) fun _ => hP.pure _
  · refine hP.bind (closed_openScope hP _ _) fun inner => ?_
    split <;> exact hP.pure _

theorem closed_nextBound (loc : Location) (base : Value) (scope : ScopeId) (k : Context .value)
    (done : List (Option Int)) (todo : List (Option Expr)) :
    P _ (nextBound (σ := σ) loc base scope k done todo) := by
  induction todo generalizing done with
  | nil => exact hP.bind (closed_making hP loc _) fun _ => hP.pure _
  | cons e todo ih =>
    cases e with
    | none => exact ih _
    | some e => exact hP.pure _

theorem closed_settle (name : String) (loc : Location) (k : Context .value) (r : Reply σ) :
    P _ (settle setup name loc k r) := by
  cases r with
  | fault f => exact hP.throw f
  | wait w => exact hP.bind (closed_emit hP _) fun _ => hP.pure _
  | value v =>
    have rest (v : Value) : P _ (do
        emit setup (.afterCall name v loc)
        return Reaction.give (σ := σ) (b := .value) v) :=
      hP.bind (closed_emit hP _) fun _ => hP.pure _
    simp only [settle]
    split
    · exact hP.bind (closed_map hP _ (closed_placed hP loc _)) rest
    · exact rest _

theorem closed_reply (f : CoreFunction) (c : Call) : P _ (f.reply setup c) := by
  cases f with
  | print =>
    refine hP.bind (closed_reading hP _ _) fun texts => ?_
    exact hP.bind (hP.onWorld _ fun w => .print w _) fun _ => hP.pure _
  | range =>
    refine hP.bind (closed_reading hP _ _) fun items => ?_
    exact hP.bind (closed_alloc hP _) fun _ => hP.pure _
  | sorted => exact hP.pure _
  | sleep | len | str | int | float | abs | min | max | sum =>
    exact hP.bind (closed_reading hP _ _) fun _ => hP.pure _

theorem closed_leaveFunction (hx : P _ (exit (σ := σ))) (f : Flow) :
    P _ (leaveFunction (σ := σ) f) := by
  cases f with
  | normal | returned v => exact hP.bind hx fun _ => hP.pure _
  | broken | continued =>
    exact hP.bind (f := fun loc => throw (stray _ loc)) hP.current fun _ => hP.throw _

theorem closed_forwarded (name : String) (loc : Location) (x : Value) (k : Context .value) :
    P _ (react setup (.forwarded name loc) x k) := by
  simp only [react]
  split
  · next finish hb =>
    refine hP.bind (hP.onWorld _ fun w => ?_) fun r => closed_settle hP name loc k r
    exact .finish w _ finish x loc name hb rfl
  · exact hP.pure _

theorem closed_react {a b : Awaits} (h : Hole a b) (x : a.Input) (k : Context b)
    (hx : h.isBody = true → P _ (exit (σ := σ))) : P _ (react setup h x k) := by
  cases h with
  | rest statements scope =>
    cases statements with
    | nil => exact hP.pure _
    | cons s ss => cases x <;> exact hP.pure _
  | branch body otherwise scope =>
    refine hP.bind (closed_isTruthy hP x) fun t => ?_
    split <;> exact hP.pure _
  | loopTest test body scope =>
    refine hP.bind (closed_isTruthy hP x) fun t => ?_
    split
    · split <;> exact hP.pure _
    · exact hP.pure _
  | loopBody test body scope => cases x <;> exact hP.pure _
  | eachOver loc item body scope =>
    exact hP.bind (closed_reading hP loc _) fun _ => closed_nextRound hP item _ body scope k
  | eachBody item todo body scope =>
    cases x with
    | broken | returned v => exact hP.pure _
    | normal | continued => exact closed_nextRound hP item todo body scope k
  | assignName loc id old scope =>
    refine hP.bind (closed_combine hP loc old x) fun v => ?_
    exact hP.bind (closed_assign hP scope id v) fun _ => hP.pure _
  | memberBase loc name op e scope =>
    refine hP.bind (closed_reading hP loc _) fun base => ?_
    exact hP.bind (closed_oldValue hP op (closed_making hP loc _)) fun _ => hP.pure _
  | assignMember loc base name old =>
    refine hP.bind (closed_combine hP loc old x) fun v => ?_
    exact hP.bind (closed_modifyStore hP _) fun _ => hP.pure _
  | itemIndex loc base op e scope =>
    exact hP.bind (closed_oldValue hP op (closed_reading hP loc _)) fun _ => hP.pure _
  | assignItem loc base index old =>
    refine hP.bind (closed_combine hP loc old x) fun v => ?_
    refine hP.bind (closed_reading hP loc _) fun place => ?_
    exact hP.bind (closed_modifyStore hP _) fun _ => hP.pure _
  | left loc op right scope =>
    refine hP.bind (closed_isTruthy hP x) fun t => ?_
    split <;> exact hP.pure _
  | right loc op left => exact hP.bind (closed_making hP loc _) fun _ => hP.pure _
  | operand loc op => exact hP.bind (closed_reading hP loc _) fun _ => hP.pure _
  | index loc base => exact hP.bind (closed_reading hP loc _) fun _ => hP.pure _
  | sliceBase loc bounds scope =>
    exact hP.bind (closed_reading hP loc _) fun _ => closed_nextBound hP loc x scope k [] bounds
  | sliceBound loc base done todo scope =>
    have bound (x : Value) : P _ (do
        nextBound loc base scope k (some (← reading loc (·.toIndex x)) :: done) todo) :=
      hP.bind (closed_reading hP loc _) fun _ => closed_nextBound hP loc base scope k _ todo
    cases x with
    | atom a =>
      cases a with
      | none => exact closed_nextBound hP loc base scope k _ todo
      | bool | int | num | str => exact bound _
    | ref a => exact bound _
  | member loc name => exact hP.bind (closed_making hP loc _) fun _ => hP.pure _
  | listItem done todo scope =>
    cases todo with
    | nil => exact hP.bind (closed_alloc hP _) fun _ => hP.pure _
    | cons e todo => exact hP.pure _
  | dictKey loc value done todo scope =>
    exact hP.bind (closed_reading hP loc _) fun _ => hP.pure _
  | dictValue key done todo scope =>
    cases todo with
    | nil => exact hP.bind (closed_alloc hP _) fun _ => hP.pure _
    | cons e todo => exact hP.pure _
  | comprehendOver loc c =>
    exact hP.bind (closed_reading hP loc _) fun _ => closed_nextItem hP c _ [] k
  | comprehendTest c inner todo done =>
    refine hP.bind (closed_isTruthy hP x) fun t => ?_
    split
    · exact hP.pure _
    · exact closed_nextItem hP c todo done k
  | comprehendItem c todo done => exact closed_nextItem hP c todo _ k
  | body name loc =>
    refine hP.bind (closed_leaveFunction hP (hx rfl) x) fun v => ?_
    exact hP.bind (closed_emit hP _) fun _ => hP.pure _
  | lambdaBody loc =>
    refine hP.bind (hx rfl) fun _ => ?_
    exact hP.bind (closed_emit hP _) fun _ => hP.pure _
  | forwarded name loc => exact closed_forwarded hP name loc x k
  | discard | leave | itemBase | indexBase | construct => exact hP.pure _

theorem closed_endSort (loc : Location) (reversed : Bool) (keys items : List Value) :
    P _ (endSort setup loc reversed keys items) := by
  refine hP.bind (closed_reading hP loc _) fun sorted => ?_
  refine hP.bind (closed_alloc hP _) fun v => ?_
  exact hP.bind (closed_emit hP _) fun _ => hP.pure _

theorem closed_endMap (name : String) (loc : Location) (results : List Value) :
    P _ (endMap setup name loc results) := by
  refine hP.bind (closed_alloc hP _) fun v => ?_
  exact hP.bind (closed_emit hP _) fun _ => hP.pure _

theorem closed_onlyOnce (c : Call) (key : String) (place : Nat) (more : List Value) :
    P _ (onlyOnce (σ := σ) c key place more) := by
  unfold onlyOnce
  split
  · exact closed_fail hP _ _
  · exact hP.pure _

theorem closed_startSort (c : Call) (k : Context .value) : P _ (startSort setup c k) := by
  unfold startSort
  split
  · exact hP.throw _
  · refine hP.bind (closed_onlyOnce hP c _ _ _) fun _ => ?_
    refine hP.bind (closed_onlyOnce hP c _ _ _) fun _ => ?_
    refine hP.bind (closed_reading hP _ _) fun items => ?_
    refine hP.bind (closed_isTruthy hP _) fun reversed => ?_
    split
    · exact hP.pure _
    · exact hP.bind (closed_endSort hP _ _ _ _) fun _ => hP.pure _

theorem closed_startMap (name : String) (c : Call) (k : Context .value) :
    P _ (startMap setup name c k) := by
  unfold startMap
  split
  · refine hP.bind (closed_reading hP _ _) fun items => ?_
    split
    · exact hP.bind (closed_endMap hP _ _ _) fun _ => hP.pure _
    · exact hP.pure _
  · exact hP.throw _

theorem closed_callBuiltin {name : String} {b : Builtin σ} (hb : setup.builtin? name = some b)
    (c : Call) (k : Context .value) : P _ (callBuiltin setup b c k) := by
  refine hP.bind (closed_placed hP _ _) fun _ => ?_
  refine hP.bind (closed_emit hP _) fun _ => ?_
  split
  · exact closed_startSort hP c k
  · refine hP.bind (closed_reply hP _ c) fun r => ?_
    exact hP.bind (closed_settle hP _ _ k r) fun _ => hP.pure _
  · next reply hreply =>
    refine hP.bind (hP.onWorld _ fun w => .reply w b reply c name hb hreply) fun r => ?_
    exact hP.bind (closed_settle hP _ _ k _) fun _ => hP.pure _
  · split
    · exact hP.throw _
    · exact hP.pure _
  · exact closed_startMap hP _ c k

theorem closed_notCallable {α : Type} (callee : Value) (c : Call) :
    P _ (notCallable (σ := σ) (α := α) callee c) :=
  hP.bind hP.store fun _ => closed_fail hP _ _

end Quiet

theorem closed_beginStatement (hP : setup.Closed P)
    (hf : ∀ f : List String → List String, P PUnit (modify fun m => { m with forced := f m.forced }))
    (s : Stmt) (scope : ScopeId) (k : Context .flow) :
    P _ (beginStatement (σ := σ) s scope k) := by
  cases s with
  | assign loc target op e =>
    cases target with
    | name place id =>
      exact hP.bind (closed_oldValue hP op (closed_reading hP place _)) fun _ => hP.pure _
    | member _ base name => exact hP.pure _
    | index _ base index => exact hP.pure _
  | function d =>
    refine hP.bind (closed_alloc hP _) fun v => ?_
    exact hP.bind (closed_define hP scope _ v) fun _ => hP.pure _
  | class_ _ name methods =>
    refine hP.bind (closed_defineMethods hP scope methods) fun table => ?_
    refine hP.bind (closed_alloc hP _) fun v => ?_
    exact hP.bind (closed_define hP scope name v) fun _ => hP.pure _
  | return_ _ value => cases value <;> exact hP.pure _
  | global_ _ names =>
    exact hP.bind (hf fun fs => names.foldl (fun fs n => fs.insert n) fs) fun _ => hP.pure _
  | import_ loc name member =>
    refine hP.bind (closed_reading hP loc _) fun v => ?_
    cases member with
    | none => exact hP.pure _
    | some member => exact hP.bind (closed_making hP loc _) fun _ => hP.pure _
  | expr | cond | loop | each | break_ | continue_ | pass_ => exact hP.pure _

theorem closed_begin (hP : setup.ClosedBegin P) (t : Task) : P _ (begin setup t) := by
  cases t with
  | exec s scope k =>
    refine hP.bind (hP.place _) fun _ => ?_
    refine hP.bind (closed_emit hP.toClosed _) fun _ => ?_
    refine hP.bind (hP.log _ _) fun _ => ?_
    exact closed_beginStatement hP.toClosed hP.force s scope k
  | eval e scope k => exact closed_beginExpression hP.toClosed e scope k

section Calls

variable (hP : setup.ClosedCalls P)

include hP

theorem closed_callFunction (f : Closure) (label : String) (implicit : Nat) (c : Call)
    (k : Context .value) : P _ (callFunction setup f label implicit c k) := by
  have quiet := hP.toClosed
  refine hP.bind (closed_placed quiet _ _) fun bound => ?_
  refine hP.bind (closed_openScope quiet _ _) fun scope => ?_
  refine hP.bind (closed_emit quiet _) fun _ => ?_
  refine hP.bind (hP.enter _ _ _) fun _ => ?_
  split
  · refine hP.bind hP.exit fun _ => ?_
    exact hP.bind (closed_emit quiet _) fun _ => hP.pure _
  · exact hP.pure _

theorem closed_callLambda (params : List String) (body : Expr) (scope : ScopeId) (c : Call)
    (k : Context .value) : P _ (callLambda setup params body scope c k) := by
  have quiet := hP.toClosed
  refine hP.bind (closed_placed quiet _ _) fun bound => ?_
  refine hP.bind (closed_openScope quiet _ _) fun scope => ?_
  refine hP.bind (closed_emit quiet _) fun _ => ?_
  exact hP.bind (hP.enter _ _ _) fun _ => hP.pure _

theorem closed_construct (cls : Addr) (name : String) (methods : Table String Addr) (c : Call)
    (k : Context .value) : P _ (construct setup cls name methods c k) := by
  have quiet := hP.toClosed
  refine hP.bind (closed_alloc quiet _) fun object => ?_
  refine hP.bind hP.store fun s => ?_
  split
  · split
    · exact closed_fail quiet _ _
    · refine hP.bind (closed_callFunction hP _ _ _ _ _) fun t => ?_
      split <;> exact hP.pure _
  · split
    · exact hP.pure _
    · exact closed_fail quiet _ _

theorem closed_invoke (callee : Value) (c : Call) (k : Context .value) :
    P _ (invoke setup callee c k) := by
  have quiet := hP.toClosed
  refine hP.bind hP.store fun s => ?_
  split
  · split
    · next b hb => exact closed_callBuiltin quiet hb c k
    · exact closed_notCallable quiet _ c
  · exact hP.bind (closed_callFunction hP _ _ _ c k) fun _ => hP.pure _
  · split
    · split
      · exact closed_fail quiet _ _
      · exact hP.bind (closed_callFunction hP _ _ _ _ k) fun _ => hP.pure _
    · exact closed_notCallable quiet _ c
  · exact hP.bind (closed_callLambda hP _ _ _ c k) fun _ => hP.pure _
  · exact hP.bind (closed_construct hP _ _ _ c k) fun _ => hP.pure _
  · exact closed_notCallable quiet _ c

theorem closed_giveTo {a : Awaits} (x : a.Input) (k : Context a) : P _ (giveTo setup x k) := by
  have quiet := hP.toClosed
  cases k with
  | program => exact hP.pure _
  | fill h k =>
    exact hP.bind (closed_react quiet h x k fun _ => hP.exit) fun _ =>
      hP.pure _
  | argument p k =>
    simp only [giveTo]
    split <;> exact hP.pure _
  | sortKey s k =>
    simp only [giveTo]
    split
    · exact hP.bind (closed_endSort quiet _ _ _ _) fun _ => hP.pure _
    · exact hP.pure _
  | mapItem m k =>
    simp only [giveTo]
    split
    · exact hP.bind (closed_endMap quiet _ _ _) fun _ => hP.pure _
    · exact hP.pure _

theorem closed_advance (v : Move) : P _ (advance setup v) := by
  cases v with
  | give x k => exact closed_giveTo hP x k
  | call callee c k =>
    refine hP.bind (closed_invoke hP callee c k) fun r => ?_
    cases r <;> exact hP.pure _

end Calls

theorem closed_step (hb : setup.ClosedBegin P) (hc : setup.ClosedCalls P) (c : Control) :
    P _ (c.step setup) := by
  cases c with
  | task t => exact closed_map hb.toClosed _ (closed_begin hb t)
  | move v => exact closed_advance hc v

end Act

end LoopScript
