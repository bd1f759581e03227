import LoopScript.Proofs.Execution.Trace
import LoopScript.Proofs.Journal.Notes

/-!
Every step of a machine on a watched host does what it does on the host by itself.
-/

namespace LoopScript

variable {σ : Type}

namespace Act

variable {setup : Setup σ} {α : Type}

theorem mirrors_store : Mirrors (σ := σ) id store store :=
  mirrors_bind mirrors_get fun m => mirrors_pure m.world.store

theorem mirrors_onStore (f : Store → α × Store) : Mirrors (σ := σ) id (onStore f) (onStore f) :=
  mirrors_change (fun _ => rfl) fun _ => rfl

theorem mirrors_modifyStore (f : Store → Store) :
    Mirrors (σ := σ) id (modifyStore f) (modifyStore f) :=
  mirrors_onStore _

theorem mirrors_placed (loc : Location) (x : Except Fault α) :
    Mirrors (σ := σ) id (placed loc x) (placed loc x) := by
  cases x with
  | ok a => exact mirrors_pure a
  | error f => exact mirrors_throw _

theorem mirrors_fail {l : α → β} (loc : Location) (c : Cause) :
    Mirrors (σ := σ) l (fail loc c) (fail loc c) :=
  mirrors_throw _

theorem mirrors_reading (loc : Location) (f : Store → Except Fault α) :
    Mirrors (σ := σ) id (reading loc f) (reading loc f) :=
  mirrors_seq mirrors_store fun _ => mirrors_placed loc _

theorem mirrors_alloc (o : Obj) : Mirrors (σ := σ) id (alloc o) (alloc o) := mirrors_onStore _

theorem mirrors_making (loc : Location) (f : Store → Except Fault Made) :
    Mirrors (σ := σ) id (making loc f) (making loc f) := by
  refine mirrors_seq (mirrors_reading loc f) fun made => ?_
  cases made with
  | value v => exact mirrors_pure v
  | object o => exact mirrors_alloc o

theorem mirrors_openScope (parent : ScopeId) (bindings : Table String Value) :
    Mirrors (σ := σ) id (openScope parent bindings) (openScope parent bindings) := mirrors_onStore _

theorem mirrors_assign (scope : ScopeId) (name : String) (v : Value) :
    Mirrors (σ := σ) id (assign scope name v) (assign scope name v) := by
  refine mirrors_bind mirrors_get fun m => ?_
  change Mirrors _ (if name ∈ m.forced then _ else _) (if name ∈ m.forced then _ else _)
  split
  · exact mirrors_modifyStore _
  · exact mirrors_modifyStore _

theorem mirrors_combine (loc : Location) (old : Old) (v : Value) :
    Mirrors (σ := σ) id (combine loc old v) (combine loc old v) := by
  cases old with
  | none => exact mirrors_pure v
  | some o => exact mirrors_making loc _

theorem mirrors_oldValue (op : AssignOp) {x : Act (Watched σ) Value} {y : Act σ Value}
    (h : Mirrors (σ := σ) id x y) : Mirrors (σ := σ) id (oldValue op x) (oldValue op y) := by
  unfold oldValue
  split
  · exact mirrors_pure _
  · exact mirrors_seq h fun _ => mirrors_pure _

theorem mirrors_define (scope : ScopeId) (name : String) (v : Value) :
    Mirrors (σ := σ) id (define scope name v) (define scope name v) := mirrors_modifyStore _

theorem mirrors_defineMethods (scope : ScopeId) (ds : List FunctionDef) :
    Mirrors (σ := σ) id (defineMethods scope ds) (defineMethods scope ds) := by
  induction ds with
  | nil => exact mirrors_pure _
  | cons d ds ih =>
    refine mirrors_seq (mirrors_alloc _) fun v => ?_
    split
    · exact mirrors_seq ih fun _ => mirrors_pure _
    · exact ih

theorem mirrors_isTruthy (v : Value) : Mirrors (σ := σ) id (isTruthy v) (isTruthy v) :=
  mirrors_seq mirrors_store fun _ => mirrors_pure _

theorem mirrors_beginExpression (e : Expr) (scope : ScopeId) (k : Context .value) :
    Mirrors (σ := σ) id (beginExpression e scope k) (beginExpression e scope k) := by
  cases e with
  | name loc id => exact mirrors_seq (mirrors_reading loc _) fun _ => mirrors_pure _
  | list _ items | tuple _ items =>
    cases items with
    | nil => exact mirrors_seq (mirrors_alloc _) fun _ => mirrors_pure _
    | cons e es => exact mirrors_pure _
  | dict _ entries =>
    cases entries with
    | nil => exact mirrors_seq (mirrors_alloc _) fun _ => mirrors_pure _
    | cons e es => exact mirrors_pure _
  | lambda => exact mirrors_seq (mirrors_alloc _) fun _ => mirrors_pure _
  | literal | binary | unary | call | index | slice | comprehension | member =>
    exact mirrors_pure _

theorem mirrors_beginStatement (s : Stmt) (scope : ScopeId) (k : Context .flow) :
    Mirrors (σ := σ) id (beginStatement s scope k) (beginStatement s scope k) := by
  cases s with
  | assign loc target op e =>
    cases target with
    | name place id =>
      exact mirrors_seq (mirrors_oldValue op (mirrors_reading place _)) fun _ =>
        mirrors_pure _
    | member _ base name => exact mirrors_pure _
    | index _ base index => exact mirrors_pure _
  | function d =>
    refine mirrors_seq (mirrors_alloc _) fun v => ?_
    exact mirrors_seq (mirrors_define scope _ v) fun _ => mirrors_pure _
  | class_ _ name methods =>
    refine mirrors_seq (mirrors_defineMethods scope methods) fun table => ?_
    refine mirrors_seq (mirrors_alloc _) fun v => ?_
    exact mirrors_seq (mirrors_define scope name v) fun _ => mirrors_pure _
  | return_ _ value => cases value <;> exact mirrors_pure _
  | global_ _ names =>
    exact mirrors_seq (mirrors_change (fun _ => rfl) fun _ => rfl) fun _ => mirrors_pure _
  | import_ loc name member =>
    refine mirrors_seq (mirrors_reading loc _) fun v => ?_
    cases member with
    | none => exact mirrors_pure _
    | some member => exact mirrors_seq (mirrors_making loc _) fun _ => mirrors_pure _
  | expr | cond | loop | each | break_ | continue_ | pass_ => exact mirrors_pure _

theorem mirrors_snapshot (loc : Location) : Mirrors (σ := σ) id (snapshot loc) (snapshot loc) := by
  refine mirrors_bind mirrors_get fun m => ?_
  obtain ⟨world, globals, forced, current, log, calls, issued⟩ := m
  cases calls with
  | nil => exact mirrors_pure none
  | cons a calls => exact mirrors_map (mirrors_reading loc _) fun _ => rfl

theorem mirrors_logStep (rule : String) (loc : Location) :
    Mirrors id (logStep setup.watched rule loc) (logStep setup rule loc) := by
  have rest (bindings : Option (List (String × String))) : Mirrors id
      (do
        let step ← record setup.verbose rule loc bindings
        callRules ⟨step, rule, some loc⟩ setup.services.watched.rules)
      (do
        let step ← record setup.verbose rule loc bindings
        callRules ⟨step, rule, some loc⟩ setup.services.rules) :=
    mirrors_seq (mirrors_change (fun _ => rfl) fun _ => rfl) fun step => mirrors_callRules _ _
  change Mirrors _ (do
      let bindings ← if setup.verbose then snapshot loc else Pure.pure none
      let step ← record setup.verbose rule loc bindings
      callRules ⟨step, rule, some loc⟩ setup.services.watched.rules) _
  unfold logStep
  split
  · exact mirrors_seq (mirrors_snapshot loc) rest
  · exact rest none

theorem mirrors_begin (t : Task) : Mirrors id (begin setup.watched t) (begin setup t) := by
  cases t with
  | exec s scope k =>
    refine mirrors_seq (mirrors_change (fun _ => rfl) fun _ => rfl) fun _ => ?_
    refine mirrors_seq (mirrors_emit setup (.beforeStatement s scope) rfl) fun _ => ?_
    refine mirrors_seq (mirrors_logStep _ _) fun _ => ?_
    exact mirrors_beginStatement s scope k
  | eval e scope k => exact mirrors_beginExpression e scope k

theorem mirrors_forM {f : α → Act (Watched σ) PUnit} {g : α → Act σ PUnit}
    (h : ∀ a, Mirrors id (f a) (g a)) (as : List α) : Mirrors id (as.forM f) (as.forM g) := by
  induction as with
  | nil => exact mirrors_pure _
  | cons a as ih => exact mirrors_seq (h a) fun _ => ih

theorem mirrors_nextRound (item : String) (todo : List Value) (body : List Stmt)
    (scope : ScopeId) (k : Context .flow) :
    Mirrors (σ := σ) Reaction.unwatched (nextRound item todo body scope k)
      (nextRound item todo body scope k) := by
  unfold nextRound
  split
  · exact mirrors_pure _
  · exact mirrors_seq (mirrors_forM (fun v => mirrors_assign scope item v) _) fun _ =>
      mirrors_pure _
  · exact mirrors_seq (mirrors_assign scope item _) fun _ => mirrors_pure _

theorem mirrors_nextItem (c : Comprehension) (todo done : List Value) (k : Context .value) :
    Mirrors (σ := σ) Reaction.unwatched (nextItem c todo done k) (nextItem c todo done k) := by
  unfold nextItem
  split
  · exact mirrors_seq (mirrors_alloc _) fun _ => mirrors_pure _
  · refine mirrors_seq (mirrors_openScope _ _) fun inner => ?_
    split <;> exact mirrors_pure _

theorem mirrors_nextBound (loc : Location) (base : Value) (scope : ScopeId) (k : Context .value)
    (done : List (Option Int)) (todo : List (Option Expr)) :
    Mirrors (σ := σ) Reaction.unwatched (nextBound loc base scope k done todo)
      (nextBound loc base scope k done todo) := by
  induction todo generalizing done with
  | nil => exact mirrors_seq (mirrors_making loc _) fun _ => mirrors_pure _
  | cons e todo ih =>
    cases e with
    | none => exact ih _
    | some e => exact mirrors_pure _

theorem mirrors_settle (name : String) (loc : Location) (k : Context .value)
    (r : Reply (Watched σ)) :
    Mirrors Reaction.unwatched (settle setup.watched name loc k r)
      (settle setup name loc k r.unwatched) := by
  cases r with
  | fault f => exact mirrors_throw f
  | wait w => exact mirrors_seq (mirrors_emit setup (.onPause w) rfl) fun _ => mirrors_pure _
  | value v =>
    have tell (v : Value) : Mirrors Reaction.unwatched
        (do
          emit setup.watched (.afterCall name v loc)
          return Reaction.give (σ := Watched σ) (b := .value) v)
        (do
          emit setup (.afterCall name v loc)
          return Reaction.give (σ := σ) (b := .value) v) :=
      mirrors_seq (mirrors_emit setup (.afterCall name v loc) rfl) fun _ => mirrors_pure _
    simp only [settle, Reply.unwatched]
    split
    · refine mirrors_seq ?_ tell
      exact mirrors_map (mirrors_placed _ _) fun _ => rfl
    · exact mirrors_seq (mirrors_pure _) tell

theorem mirrors_enter (name : String) (scope : ScopeId) (loc : Location) :
    Mirrors id (enter (σ := Watched σ) name scope loc) (enter (σ := σ) name scope loc) := by
  intro m
  apply ensures_get
  by_cases h : callLimit < m.calls.length
  · have hy : enter name scope loc m.unwatched = fail loc .callsTooDeep m.unwatched := by
      change (if callLimit < m.calls.length then fail loc .callsTooDeep else _ : Act σ Unit) _ = _
      rw [if_pos h]
    rw [if_pos h, hy]
    exact ⟨rfl, .own (.refl m)⟩
  · have hy : enter name scope loc m.unwatched = .ok ⟨⟩ { m.unwatched with
        calls := ⟨name, scope, m.issued, some loc⟩ :: m.calls
        issued := m.issued + 1 } := by
      change (if callLimit < m.calls.length then _ else set _ : Act σ Unit) _ = _
      rw [if_neg h]
      rfl
    rw [if_neg h, hy]
    exact ⟨rfl, .of_eq rfl⟩

theorem mirrors_exit : Mirrors id (exit (σ := Watched σ)) (exit (σ := σ)) := by
  rintro ⟨world, globals, forced, current, log, calls, issued⟩
  cases calls with
  | nil => exact ⟨rfl, .own (.of_eq rfl)⟩
  | cons a calls => exact ⟨rfl, .of_eq rfl⟩

theorem mirrors_reply (f : CoreFunction) (c : Call) :
    Mirrors Reply.unwatched (f.reply setup.watched c) (f.reply setup c) := by
  cases f with
  | print =>
    refine mirrors_seq (mirrors_reading _ _) fun texts => ?_
    exact mirrors_seq (mirrors_change (fun _ => rfl) fun _ => rfl) fun _ => mirrors_pure _
  | range =>
    refine mirrors_seq (mirrors_reading _ _) fun items => ?_
    exact mirrors_seq (mirrors_alloc _) fun _ => mirrors_pure _
  | sorted => exact mirrors_pure _
  | sleep | len | str | int | float | abs | min | max | sum =>
    exact mirrors_seq (mirrors_reading _ _) fun _ => mirrors_pure _

theorem mirrors_leaveFunction (f : Flow) :
    Mirrors id (leaveFunction (σ := Watched σ) f) (leaveFunction (σ := σ) f) := by
  cases f with
  | normal | returned v => exact mirrors_seq mirrors_exit fun _ => mirrors_pure _
  | broken | continued => exact mirrors_bind mirrors_get fun m => mirrors_throw _

theorem mirrors_forwarded (name : String) (loc : Location) (x : Value) (k : Context .value) :
    Mirrors Reaction.unwatched (react setup.watched (.forwarded name loc) x k)
      (react setup (.forwarded name loc) x k) := by
  simp only [react, builtin?_watched]
  cases setup.builtin? name with
  | none => exact mirrors_pure _
  | some b =>
    obtain ⟨name', least, most, suspends, doc, keywords, action⟩ := b
    cases action with
    | core | host | each => exact mirrors_pure _
    | forward finish =>
      refine mirrors_ask (finish x loc) (fun r => mirrors_settle name loc k r) fun g => ?_
      exact ⟨none, by rw [g.attach_none]; rfl⟩

theorem block_unwatched (body : List Stmt) (scope : ScopeId) (k : Context .flow) :
    (block (σ := Watched σ) body scope k).unwatched = block body scope k := by
  cases body <;> rfl

theorem mirrors_react {a b : Awaits} (h : Hole a b) (x : a.Input) (k : Context b) :
    Mirrors Reaction.unwatched (react setup.watched h x k) (react setup h x k) := by
  cases h with
  | rest statements scope =>
    cases statements with
    | nil => exact mirrors_pure _
    | cons s ss => cases x <;> exact mirrors_pure _
  | branch body otherwise scope =>
    refine mirrors_seq (mirrors_isTruthy x) fun t => ?_
    split <;> exact mirrors_return (block_unwatched _ scope k)
  | loopTest test body scope =>
    refine mirrors_seq (mirrors_isTruthy x) fun t => ?_
    split
    · split <;> exact mirrors_pure _
    · exact mirrors_pure _
  | loopBody test body scope => cases x <;> exact mirrors_pure _
  | eachOver loc item body scope =>
    exact mirrors_seq (mirrors_reading loc _) fun _ => mirrors_nextRound item _ body scope k
  | eachBody item todo body scope =>
    cases x with
    | broken | returned v => exact mirrors_pure _
    | normal | continued => exact mirrors_nextRound item todo body scope k
  | assignName loc id old scope =>
    refine mirrors_seq (mirrors_combine loc old x) fun v => ?_
    exact mirrors_seq (mirrors_assign scope id v) fun _ => mirrors_pure _
  | memberBase loc name op e scope =>
    refine mirrors_seq (mirrors_reading loc _) fun base => ?_
    exact mirrors_seq (mirrors_oldValue op (mirrors_making loc _)) fun _ => mirrors_pure _
  | assignMember loc base name old =>
    refine mirrors_seq (mirrors_combine loc old x) fun v => ?_
    exact mirrors_seq (mirrors_modifyStore _) fun _ => mirrors_pure _
  | itemIndex loc base op e scope =>
    exact mirrors_seq (mirrors_oldValue op (mirrors_reading loc _)) fun _ => mirrors_pure _
  | assignItem loc base index old =>
    refine mirrors_seq (mirrors_combine loc old x) fun v => ?_
    refine mirrors_seq (mirrors_reading loc _) fun place => ?_
    exact mirrors_seq (mirrors_modifyStore _) fun _ => mirrors_pure _
  | left loc op right scope =>
    refine mirrors_seq (mirrors_isTruthy x) fun t => ?_
    split <;> exact mirrors_pure _
  | right loc op left => exact mirrors_seq (mirrors_making loc _) fun _ => mirrors_pure _
  | operand loc op => exact mirrors_seq (mirrors_reading loc _) fun _ => mirrors_pure _
  | index loc base => exact mirrors_seq (mirrors_reading loc _) fun _ => mirrors_pure _
  | sliceBase loc bounds scope =>
    exact mirrors_seq (mirrors_reading loc _) fun _ => mirrors_nextBound loc x scope k [] bounds
  | sliceBound loc base done todo scope =>
    have bound (x : Value) : Mirrors Reaction.unwatched
        (reading loc (·.toIndex x) >>= fun i => nextBound (σ := Watched σ) loc base scope k
          (some i :: done) todo)
        (reading loc (·.toIndex x) >>= fun i => nextBound (σ := σ) loc base scope k
          (some i :: done) todo) :=
      mirrors_seq (mirrors_reading loc _) fun _ => mirrors_nextBound loc base scope k _ todo
    cases x with
    | atom a =>
      cases a with
      | none => exact mirrors_nextBound loc base scope k _ todo
      | bool | int | num | str => exact bound _
    | ref a => exact bound _
  | member loc name => exact mirrors_seq (mirrors_making loc _) fun _ => mirrors_pure _
  | listItem done todo scope =>
    cases todo with
    | nil => exact mirrors_seq (mirrors_alloc _) fun _ => mirrors_pure _
    | cons e todo => exact mirrors_pure _
  | dictKey loc value done todo scope =>
    exact mirrors_seq (mirrors_reading loc _) fun _ => mirrors_pure _
  | dictValue key done todo scope =>
    cases todo with
    | nil => exact mirrors_seq (mirrors_alloc _) fun _ => mirrors_pure _
    | cons e todo => exact mirrors_pure _
  | comprehendOver loc c =>
    exact mirrors_seq (mirrors_reading loc _) fun _ => mirrors_nextItem c _ [] k
  | comprehendTest c inner todo done =>
    refine mirrors_seq (mirrors_isTruthy x) fun t => ?_
    split
    · exact mirrors_pure _
    · exact mirrors_nextItem c todo done k
  | comprehendItem c todo done => exact mirrors_nextItem c todo _ k
  | body name loc =>
    refine mirrors_seq (mirrors_leaveFunction x) fun v => ?_
    exact mirrors_seq (mirrors_emit setup (.afterCall name v loc) rfl) fun _ => mirrors_pure _
  | lambdaBody loc =>
    refine mirrors_seq mirrors_exit fun _ => ?_
    exact mirrors_seq (mirrors_emit setup (.afterCall _ x loc) rfl) fun _ => mirrors_pure _
  | forwarded name loc => exact mirrors_forwarded name loc x k
  | discard | leave | itemBase | indexBase | construct => exact mirrors_pure _

theorem mirrors_callFunction (f : Closure) (label : String) (implicit : Nat) (c : Call)
    (k : Context .value) : Mirrors id (callFunction setup.watched f label implicit c k)
      (callFunction setup f label implicit c k) := by
  refine mirrors_seq (mirrors_placed _ _) fun bound => ?_
  refine mirrors_seq (mirrors_openScope _ _) fun scope => ?_
  refine mirrors_seq (mirrors_emit setup (.beforeCall _ _ _) rfl) fun _ => ?_
  refine mirrors_seq (mirrors_enter _ _ _) fun _ => ?_
  split
  · refine mirrors_seq mirrors_exit fun _ => ?_
    exact mirrors_seq (mirrors_emit setup (.afterCall _ _ _) rfl) fun _ => mirrors_pure _
  · exact mirrors_pure _

theorem mirrors_callLambda (params : List String) (body : Expr) (scope : ScopeId) (c : Call)
    (k : Context .value) : Mirrors id (callLambda setup.watched params body scope c k)
      (callLambda setup params body scope c k) := by
  refine mirrors_seq (mirrors_placed _ _) fun bound => ?_
  refine mirrors_seq (mirrors_openScope _ _) fun scope => ?_
  refine mirrors_seq (mirrors_emit setup (.beforeCall _ _ _) rfl) fun _ => ?_
  exact mirrors_seq (mirrors_enter _ _ _) fun _ => mirrors_pure _

theorem mirrors_construct (cls : Addr) (name : String) (methods : Table String Addr) (c : Call)
    (k : Context .value) : Mirrors Reaction.unwatched (construct setup.watched cls name methods c k)
      (construct setup cls name methods c k) := by
  refine mirrors_seq (mirrors_alloc _) fun object => ?_
  refine mirrors_seq mirrors_store fun s => ?_
  split
  · split
    · exact mirrors_fail _ _
    · refine mirrors_seq (mirrors_callFunction _ _ _ _ _) fun t => ?_
      split <;> exact mirrors_pure _
  · split
    · exact mirrors_pure _
    · exact mirrors_fail _ _

theorem mirrors_endSort (loc : Location) (reversed : Bool) (keys items : List Value) :
    Mirrors id (endSort setup.watched loc reversed keys items)
      (endSort setup loc reversed keys items) := by
  refine mirrors_seq (mirrors_reading loc _) fun sorted => ?_
  refine mirrors_seq (mirrors_alloc _) fun v => ?_
  exact mirrors_seq (mirrors_emit setup (.afterCall _ v loc) rfl) fun _ => mirrors_pure _

theorem mirrors_endMap (name : String) (loc : Location) (results : List Value) :
    Mirrors id (endMap setup.watched name loc results) (endMap setup name loc results) := by
  refine mirrors_seq (mirrors_alloc _) fun v => ?_
  exact mirrors_seq (mirrors_emit setup (.afterCall _ v loc) rfl) fun _ => mirrors_pure _

theorem mirrors_onlyOnce (c : Call) (key : String) (place : Nat) (more : List Value) :
    Mirrors (σ := σ) id (onlyOnce c key place more) (onlyOnce c key place more) := by
  unfold onlyOnce
  split
  · exact mirrors_fail _ _
  · exact mirrors_pure _

theorem mirrors_startSort (c : Call) (k : Context .value) :
    Mirrors Invocation.unwatched (startSort setup.watched c k) (startSort setup c k) := by
  unfold startSort
  split
  · exact mirrors_throw _
  · refine mirrors_seq (mirrors_onlyOnce c _ _ _) fun _ => ?_
    refine mirrors_seq (mirrors_onlyOnce c _ _ _) fun _ => ?_
    refine mirrors_seq (mirrors_reading _ _) fun items => ?_
    refine mirrors_seq (mirrors_isTruthy _) fun reversed => ?_
    split
    · exact mirrors_pure _
    · exact mirrors_seq (mirrors_endSort _ _ _ _) fun _ => mirrors_pure _

theorem mirrors_startMap (name : String) (c : Call) (k : Context .value) :
    Mirrors Invocation.unwatched (startMap setup.watched name c k) (startMap setup name c k) := by
  unfold startMap
  split
  · refine mirrors_seq (mirrors_reading _ _) fun items => ?_
    split
    · exact mirrors_seq (mirrors_endMap _ _ _) fun _ => mirrors_pure _
    · exact mirrors_pure _
  · exact mirrors_throw _

theorem accepts_watched (b : Builtin σ) (c : Call) : b.watched.accepts c = b.accepts c := by
  have keywords (keys : List String) : Builtin.accepts.keywordsOf b.watched keys =
      Builtin.accepts.keywordsOf b keys := by
    induction keys with
    | nil => rfl
    | cons key keys ih =>
      simp only [Builtin.accepts.keywordsOf, ih]
      rfl
  simp only [Builtin.accepts, keywords]
  rfl

theorem mirrors_callBuiltin (b : Builtin σ) (c : Call) (k : Context .value) :
    Mirrors Invocation.unwatched (callBuiltin setup.watched b.watched c k)
      (callBuiltin setup b c k) := by
  unfold callBuiltin
  rw [accepts_watched]
  refine mirrors_seq (mirrors_placed _ _) fun _ => ?_
  refine mirrors_seq (mirrors_emit setup (.beforeCall _ _ _) rfl) fun _ => ?_
  obtain ⟨name, least, most, suspends, doc, keywords, action⟩ := b
  have answer (r : Reply (Watched σ)) : Mirrors Invocation.unwatched
      (do return Invocation.react (← settle setup.watched name c.location k r))
      (do return Invocation.react (← settle setup name c.location k r.unwatched)) :=
    mirrors_bind (mirrors_settle name c.location k r) fun _ => mirrors_pure _
  cases action with
  | core f =>
    cases f with
    | sorted => exact mirrors_startSort c k
    | print | sleep | range | len | str | int | float | abs | min | max | sum =>
      exact mirrors_bind (mirrors_reply _ c) answer
  | host reply =>
    refine mirrors_ask (reply c) (fun r => ?_) fun g => ⟨some c.location, rfl⟩
    cases r with
    | fault f => exact answer (.fault (f.attach (some c.location)))
    | value v => exact answer (.value v)
    | wait w => exact answer (.wait w)
  | forward finish =>
    obtain ⟨args, named, loc⟩ := c
    cases args with
    | nil => exact mirrors_throw _
    | cons f args => exact mirrors_pure _
  | each => exact mirrors_startMap _ c k

theorem mirrors_notCallable {α β : Type} {l : α → β} (callee : Value) (c : Call) :
    Mirrors (σ := σ) l (notCallable callee c) (notCallable callee c) :=
  mirrors_seq mirrors_store fun _ => mirrors_fail _ _

theorem bodyOf_unwatched (t : Option Task) :
    (Invocation.react (bodyOf (σ := Watched σ) t)).unwatched = .react (bodyOf t) := by
  cases t <;> rfl

theorem mirrors_invoke (callee : Value) (c : Call) (k : Context .value) :
    Mirrors Invocation.unwatched (invoke setup.watched callee c k) (invoke setup callee c k) := by
  refine mirrors_seq mirrors_store fun s => ?_
  split
  · next name _ =>
    rw [builtin?_watched]
    cases setup.builtin? name with
    | none => exact mirrors_notCallable _ c
    | some b => exact mirrors_callBuiltin b c k
  · exact mirrors_seq (mirrors_callFunction _ _ _ c k) fun t => mirrors_return (bodyOf_unwatched t)
  · split
    · split
      · exact mirrors_fail _ _
      · exact mirrors_seq (mirrors_callFunction _ _ _ _ k) fun t =>
          mirrors_return (bodyOf_unwatched t)
    · exact mirrors_notCallable _ c
  · exact mirrors_seq (mirrors_callLambda _ _ _ c k) fun _ => mirrors_pure _
  · exact mirrors_bind (mirrors_construct _ _ _ c k) fun _ => mirrors_pure _
  · exact mirrors_notCallable _ c

theorem continueWith_unwatched {b : Awaits} (k : Context b) (r : Reaction (Watched σ) b) :
    (continueWith k r).unwatched = continueWith k r.unwatched := by
  cases r <;> rfl

theorem mirrors_giveTo {a : Awaits} (x : a.Input) (k : Context a) :
    Mirrors Next.unwatched (giveTo setup.watched x k) (giveTo setup x k) := by
  cases k with
  | program => exact mirrors_pure _
  | fill h k =>
    exact mirrors_bind (mirrors_react h x k) fun r => mirrors_return (continueWith_unwatched k r)
  | argument p k =>
    simp only [giveTo]
    split <;> exact mirrors_pure _
  | sortKey s k =>
    simp only [giveTo]
    split
    · exact mirrors_seq (mirrors_endSort _ _ _ _) fun _ => mirrors_pure _
    · exact mirrors_pure _
  | mapItem m k =>
    simp only [giveTo]
    split
    · exact mirrors_seq (mirrors_endMap _ _ _) fun _ => mirrors_pure _
    · exact mirrors_pure _

theorem mirrors_advance (v : Move) :
    Mirrors Next.unwatched (advance setup.watched v) (advance setup v) := by
  cases v with
  | give x k => exact mirrors_giveTo x k
  | call callee c k =>
    refine mirrors_bind (mirrors_invoke callee c k) fun r => ?_
    cases r with
    | react r => exact mirrors_return (continueWith_unwatched k r)
    | again callee c k => exact mirrors_pure _

variable (setup)

theorem mirrors_control (r : Resumption) :
    Mirrors id (r.control setup.watched) (r.control setup) := by
  cases r with
  | task t => exact mirrors_begin t
  | waited name loc k =>
    exact mirrors_seq (mirrors_emit setup (.afterCall name .none loc) rfl) fun _ => mirrors_pure _

theorem mirrors_openModule (p : Program) :
    Mirrors id (Execution.openModule setup.watched p) (Execution.openModule setup p) := by
  refine mirrors_seq (mirrors_change (fun _ => rfl) fun _ => rfl) fun _ => ?_
  exact mirrors_bind mirrors_get fun m => mirrors_emit setup (.programStart p m.globals) rfl

end Act

end LoopScript
