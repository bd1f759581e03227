import LoopScript.Proofs.Machine.Leads

/-!
What stands around an evaluation has no part in it: the same steps are taken inside any other context,
up to where that context is given what it awaits.
-/

namespace LoopScript

variable {σ α β γ δ : Type}

section Twins

variable {a : Awaits} (l l' : Context a)

/-- The second context is the first one with `l'` in the place of the `l` inside which it stands. -/
inductive Context.Twin : {b : Awaits} → Context b → Context b → Prop where
  | base : Twin l l'
  | fill {b c : Awaits} (h : Hole b c) {k k' : Context c} (hk : Twin k k') :
      Twin (.fill h k) (.fill h k')
  | argument (p : PendingCall) {k k' : Context .value} (hk : Twin k k') :
      Twin (.argument p k) (.argument p k')
  | sortKey (s : Sorting) {k k' : Context .value} (hk : Twin k k') : Twin (.sortKey s k) (.sortKey s k')
  | mapItem (s : Mapping) {k k' : Context .value} (hk : Twin k k') : Twin (.mapItem s k) (.mapItem s k')

inductive Task.Twin : Task → Task → Prop where
  | exec (s : Stmt) (scope : ScopeId) {k k' : Context .flow} (hk : Context.Twin l l' k k') :
      Twin (.exec s scope k) (.exec s scope k')
  | eval (e : Expr) (scope : ScopeId) {k k' : Context .value} (hk : Context.Twin l l' k k') :
      Twin (.eval e scope k) (.eval e scope k')

inductive Resumption.Twin : Resumption → Resumption → Prop where
  | task {t t' : Task} (ht : Task.Twin l l' t t') : Twin (.task t) (.task t')
  | waited (name : String) (loc : Location) {k k' : Context .value} (hk : Context.Twin l l' k k') :
      Twin (.waited name loc k) (.waited name loc k')

inductive Control.Twin : Control → Control → Prop where
  | task {t t' : Task} (ht : Task.Twin l l' t t') : Twin (.task t) (.task t')
  | give {b : Awaits} (x : b.Input) {k k' : Context b} (hk : Context.Twin l l' k k') :
      Twin (.move (.give x k)) (.move (.give x k'))
  | call (callee : Value) (c : Call) {k k' : Context .value} (hk : Context.Twin l l' k k') :
      Twin (.move (.call callee c k)) (.move (.call callee c k'))

inductive Reaction.Twin {b : Awaits} : Reaction σ b → Reaction σ b → Prop where
  | give (x : b.Input) : Twin (.give x) (.give x)
  | start {t t' : Task} (ht : Task.Twin l l' t t') : Twin (.start t) (.start t')
  | pause (w : Wait σ) {r r' : Resumption} (hr : Resumption.Twin l l' r r') :
      Twin (.pause w r) (.pause w r')

inductive Invocation.Twin : Invocation σ → Invocation σ → Prop where
  | react {r r' : Reaction σ .value} (hr : Reaction.Twin l l' r r') : Twin (.react r) (.react r')
  | again (callee : Value) (c : Call) {k k' : Context .value} (hk : Context.Twin l l' k k') :
      Twin (.again callee c k) (.again callee c k')

inductive Next.Twin : Next σ → Next σ → Prop where
  | go {c c' : Control} (hc : Control.Twin l l' c c') : Twin (.go c) (.go c')
  | pause (w : Wait σ) {r r' : Resumption} (hr : Resumption.Twin l l' r r') :
      Twin (.pause w r) (.pause w r')

inductive Point.Twin : Point σ → Point σ → Prop where
  | on {c c' : Control} (hc : Control.Twin l l' c c') (m : Machine σ) : Twin (.on c m) (.on c' m)
  | failed (f : Fault) (m : Machine σ) : Twin (.failed f m) (.failed f m)

end Twins

/-- Two actions with the same effect on every machine, the results of which are related. -/
inductive Act.Twofold (R : α → β → Prop) :
    EStateM.Result Fault (Machine σ) α → EStateM.Result Fault (Machine σ) β → Prop where
  | ok {x : α} {y : β} (m : Machine σ) (h : R x y) : Twofold R (.ok x m) (.ok y m)
  | error (f : Fault) (m : Machine σ) : Twofold R (.error f m) (.error f m)

namespace Act

def Twins (R : α → β → Prop) (x : Act σ α) (y : Act σ β) : Prop :=
  ∀ m, Twofold R (x m) (y m)

section Rules

variable {R : α → β → Prop} {Q : γ → δ → Prop}

theorem twins_pure {x : α} {y : β} (h : R x y) : Twins (σ := σ) R (pure x) (pure y) :=
  fun m => .ok m h

theorem twins_throw (f : Fault) : Twins (σ := σ) R (throw f) (throw f) :=
  fun m => .error f m

theorem twins_bind {x : Act σ α} {y : Act σ β} {u : α → Act σ γ} {v : β → Act σ δ}
    (h : Twins R x y) (hu : ∀ a b, R a b → Twins Q (u a) (v b)) : Twins Q (x >>= u) (y >>= v) := by
  intro m
  have ends := h m
  simp only [bind, EStateM.bind]
  generalize x m = r, y m = r' at ends ⊢
  cases ends with
  | ok m h => exact hu _ _ h m
  | error f m => exact .error f m

/-- The same action comes first. -/
theorem twins_then {x : Act σ α} {u : α → Act σ γ} {v : α → Act σ δ}
    (hu : ∀ a, Twins Q (u a) (v a)) : Twins Q (x >>= u) (x >>= v) := by
  intro m
  simp only [bind, EStateM.bind]
  cases x m with
  | ok a n => exact hu a n
  | error f n => exact .error f n

end Rules

variable {a : Awaits} {l l' : Context a}

section Begin

variable {k k' : Context .value} {j j' : Context .flow}

theorem twins_beginExpression (hk : Context.Twin l l' k k') (e : Expr) (scope : ScopeId) :
    Twins (σ := σ) (Control.Twin l l') (beginExpression e scope k) (beginExpression e scope k') := by
  cases e with
  | literal => exact twins_pure (.give (b := .value) _ hk)
  | name => exact twins_then fun v => twins_pure (.give (b := .value) v hk)
  | list _ items | tuple _ items =>
    cases items with
    | nil => exact twins_then fun v => twins_pure (.give (b := .value) v hk)
    | cons e es => exact twins_pure (.task (.eval e scope (.fill _ hk)))
  | dict _ entries =>
    cases entries with
    | nil => exact twins_then fun v => twins_pure (.give (b := .value) v hk)
    | cons e es => exact twins_pure (.task (.eval e.1 scope (.fill _ hk)))
  | lambda => exact twins_then fun v => twins_pure (.give (b := .value) v hk)
  | call loc f args named => exact twins_pure (.task (.eval f scope (.argument _ hk)))
  | binary loc op e _ | unary loc op e | index loc e _ | slice loc e _ _ _
  | comprehension loc _ _ e _ | member loc e _ =>
    exact twins_pure (.task (.eval e scope (.fill _ hk)))

theorem twins_beginStatement (hj : Context.Twin l l' j j') (s : Stmt) (scope : ScopeId) :
    Twins (σ := σ) (Control.Twin l l') (beginStatement s scope j) (beginStatement s scope j') := by
  cases s with
  | assign loc target op e =>
    cases target with
    | name place id => exact twins_then fun _ => twins_pure (.task (.eval e scope (.fill _ hj)))
    | member _ base _ | index _ base _ => exact twins_pure (.task (.eval base scope (.fill _ hj)))
  | function d =>
    iterate 2 refine twins_then fun _ => ?_
    exact twins_pure (.give (b := .flow) _ hj)
  | class_ _ name methods =>
    iterate 3 refine twins_then fun _ => ?_
    exact twins_pure (.give (b := .flow) _ hj)
  | return_ _ value =>
    cases value with
    | none => exact twins_pure (.give (b := .flow) _ hj)
    | some e => exact twins_pure (.task (.eval e scope (.fill _ hj)))
  | global_ _ names => exact twins_then fun _ => twins_pure (.give (b := .flow) _ hj)
  | import_ loc name member =>
    refine twins_then fun v => ?_
    cases member with
    | none => exact twins_pure (.give (b := .flow) _ hj)
    | some member => exact twins_then fun _ => twins_pure (.give (b := .flow) _ hj)
  | expr _ e | cond _ e _ _ | loop _ e _ | each _ _ e _ =>
    exact twins_pure (.task (.eval e scope (.fill _ hj)))
  | break_ | continue_ | pass_ => exact twins_pure (.give (b := .flow) _ hj)

theorem twins_begin (setup : Setup σ) {t t' : Task} (ht : Task.Twin l l' t t') :
    Twins (Control.Twin l l') (begin setup t) (begin setup t') := by
  cases ht with
  | exec s scope hk =>
    iterate 3 refine twins_then fun _ => ?_
    exact twins_beginStatement hk s scope
  | eval e scope hk => exact twins_beginExpression hk e scope

end Begin

section Holes

variable {setup : Setup σ} {j j' : Context .flow} {k k' : Context .value}

theorem block_twin (hj : Context.Twin l l' j j') (body : List Stmt) (scope : ScopeId) :
    Reaction.Twin (σ := σ) l l' (block body scope j) (block body scope j') := by
  cases body with
  | nil => exact .give _
  | cons s ss => exact .start (.exec s scope (.fill _ hj))

theorem twins_nextRound (hj : Context.Twin l l' j j') (item : String) (todo : List Value)
    (body : List Stmt) (scope : ScopeId) :
    Twins (σ := σ) (Reaction.Twin l l') (nextRound item todo body scope j)
      (nextRound item todo body scope j') := by
  unfold nextRound
  split
  · exact twins_pure (.give _)
  · exact twins_then fun _ => twins_pure (.give _)
  · next s ss v todo =>
    exact twins_then fun _ => twins_pure (.start (.exec s scope (.fill _ (.fill _ hj))))

theorem twins_nextItem (hk : Context.Twin l l' k k') (c : Comprehension) (todo done : List Value) :
    Twins (σ := σ) (Reaction.Twin l l') (nextItem c todo done k) (nextItem c todo done k') := by
  unfold nextItem
  split
  · exact twins_then fun _ => twins_pure (.give _)
  · refine twins_then fun inner => ?_
    split
    · next test _ => exact twins_pure (.start (.eval test inner (.fill _ hk)))
    · exact twins_pure (.start (.eval c.element inner (.fill _ hk)))

theorem twins_nextBound (hk : Context.Twin l l' k k') (loc : Location) (base : Value)
    (scope : ScopeId) (done : List (Option Int)) (todo : List (Option Expr)) :
    Twins (σ := σ) (Reaction.Twin l l') (nextBound loc base scope k done todo)
      (nextBound loc base scope k' done todo) := by
  induction todo generalizing done with
  | nil => exact twins_then fun _ => twins_pure (.give _)
  | cons e todo ih =>
    cases e with
    | none => exact ih _
    | some e => exact twins_pure (.start (.eval e scope (.fill _ hk)))

theorem twins_settle (hk : Context.Twin l l' k k') (name : String) (loc : Location)
    (r : Reply σ) :
    Twins (Reaction.Twin l l') (settle setup name loc k r) (settle setup name loc k' r) := by
  cases r with
  | fault f => exact twins_throw f
  | wait w => exact twins_then fun _ => twins_pure (.pause w (.waited name loc hk))
  | value v =>
    simp only [settle]
    split <;> exact twins_then fun _ => twins_then fun _ => twins_pure (.give _)

theorem twins_react {b c : Awaits} (h : Hole b c) (x : b.Input) {j j' : Context c}
    (hj : Context.Twin l l' j j') :
    Twins (Reaction.Twin l l') (react setup h x j) (react setup h x j') := by
  cases h with
  | rest statements scope =>
    cases statements with
    | nil => exact twins_pure (.give _)
    | cons s ss =>
      cases x with
      | normal => exact twins_pure (.start (.exec s scope (.fill _ hj)))
      | broken | continued | returned v => exact twins_pure (.give _)
  | branch body otherwise scope =>
    refine twins_then fun t => ?_
    split <;> exact twins_pure (block_twin hj _ scope)
  | loopTest test body scope =>
    refine twins_then fun t => ?_
    split
    · split
      · exact twins_pure (.start (.eval test scope (.fill _ hj)))
      · next s ss => exact twins_pure (.start (.exec s scope (.fill _ (.fill _ hj))))
    · exact twins_pure (.give _)
  | loopBody test body scope =>
    cases x with
    | broken | returned v => exact twins_pure (.give _)
    | normal | continued => exact twins_pure (.start (.eval test scope (.fill _ hj)))
  | eachOver loc item body scope => exact twins_then fun items => twins_nextRound hj item items body scope
  | eachBody item todo body scope =>
    cases x with
    | broken | returned v => exact twins_pure (.give _)
    | normal | continued => exact twins_nextRound hj item todo body scope
  | assignName | assignMember => exact twins_then fun _ => twins_then fun _ => twins_pure (.give _)
  | assignItem loc base index old =>
    exact twins_then fun _ => twins_then fun _ => twins_then fun _ => twins_pure (.give _)
  | memberBase loc name op e scope =>
    exact twins_then fun _ => twins_then fun _ => twins_pure (.start (.eval e scope (.fill _ hj)))
  | itemIndex loc base op e scope =>
    exact twins_then fun _ => twins_pure (.start (.eval e scope (.fill _ hj)))
  | left loc op right scope =>
    refine twins_then fun t => ?_
    split
    · exact twins_pure (.give _)
    · exact twins_pure (.give _)
    · exact twins_pure (.start (.eval right scope hj))
    · exact twins_pure (.start (.eval right scope hj))
    · exact twins_pure (.start (.eval right scope (.fill _ hj)))
  | right | operand | index | member => exact twins_then fun _ => twins_pure (.give _)
  | itemBase loc e op value scope => exact twins_pure (.start (.eval e scope (.fill _ hj)))
  | indexBase loc e scope => exact twins_pure (.start (.eval e scope (.fill _ hj)))
  | sliceBase loc bounds scope => exact twins_then fun _ => twins_nextBound hj loc x scope [] bounds
  | sliceBound loc base done todo scope =>
    cases x with
    | atom a =>
      cases a with
      | none => exact twins_nextBound hj loc base scope _ todo
      | bool | int | num | str => exact twins_then fun _ => twins_nextBound hj loc base scope _ todo
    | ref a => exact twins_then fun _ => twins_nextBound hj loc base scope _ todo
  | listItem done todo scope =>
    cases todo with
    | nil => exact twins_then fun _ => twins_pure (.give _)
    | cons e todo => exact twins_pure (.start (.eval e scope (.fill _ hj)))
  | dictKey loc value done todo scope =>
    exact twins_then fun _ => twins_pure (.start (.eval value scope (.fill _ hj)))
  | dictValue key done todo scope =>
    cases todo with
    | nil => exact twins_then fun _ => twins_pure (.give _)
    | cons e todo => exact twins_pure (.start (.eval e.1 scope (.fill _ hj)))
  | comprehendOver loc c => exact twins_then fun items => twins_nextItem hj c items []
  | comprehendTest c inner todo done =>
    refine twins_then fun t => ?_
    split
    · exact twins_pure (.start (.eval c.element inner (.fill _ hj)))
    · exact twins_nextItem hj c todo done
  | comprehendItem c todo done => exact twins_nextItem hj c todo _
  | discard | leave | construct => exact twins_pure (.give _)
  | body name loc => exact twins_then fun _ => twins_then fun _ => twins_pure (.give _)
  | lambdaBody loc => exact twins_then fun _ => twins_then fun _ => twins_pure (.give _)
  | forwarded name loc =>
    simp only [react]
    split
    · exact twins_then fun r => twins_settle hj name loc r
    · exact twins_pure (.give _)

end Holes

section Calls

variable {setup : Setup σ} {k k' : Context .value}

theorem twins_reacting {x y : Act σ (Reaction σ .value)} (h : Twins (Reaction.Twin l l') x y) :
    Twins (Invocation.Twin l l') (do return .react (← x)) (do return .react (← y)) :=
  twins_bind h fun _ _ hr => twins_pure (.react hr)

theorem bodyOf_twin {t t' : Option Task} (h : Option.Rel (Task.Twin l l') t t') :
    Reaction.Twin (σ := σ) l l' (bodyOf t) (bodyOf t') := by
  cases h with
  | some h => exact .start h
  | none => exact .give _

variable (hk : Context.Twin l l' k k')

include hk

theorem twins_callFunction (f : Closure) (label : String) (implicit : Nat) (c : Call) :
    Twins (Option.Rel (Task.Twin l l')) (callFunction setup f label implicit c k)
      (callFunction setup f label implicit c k') := by
  refine twins_then fun bound => twins_then fun scope => twins_then fun _ => twins_then fun _ => ?_
  split
  · exact twins_then fun _ => twins_then fun _ => twins_pure .none
  · next s ss _ => exact twins_pure (.some (.exec s scope (.fill _ (.fill _ hk))))

theorem twins_callLambda (params : List String) (body : Expr) (scope : ScopeId) (c : Call) :
    Twins (Task.Twin l l') (callLambda setup params body scope c k)
      (callLambda setup params body scope c k') := by
  refine twins_then fun bound => twins_then fun scope => twins_then fun _ => twins_then fun _ => ?_
  exact twins_pure (.eval body scope (.fill _ hk))

theorem twins_construct (cls : Addr) (name : String) (methods : Table String Addr) (c : Call) :
    Twins (Reaction.Twin l l') (construct setup cls name methods c k)
      (construct setup cls name methods c k') := by
  refine twins_then fun object => twins_then fun s => ?_
  split
  · next f _ =>
    split
    · exact twins_throw _
    · refine twins_bind (twins_callFunction (.fill (.construct object) hk) f name 1 _) ?_
      rintro _ _ (h | _)
      · exact twins_pure (.start h)
      · exact twins_pure (.give _)
  · split
    · exact twins_pure (.give _)
    · exact twins_throw _

theorem twins_startSort (c : Call) :
    Twins (Invocation.Twin l l') (startSort setup c k) (startSort setup c k') := by
  unfold startSort
  split
  · exact twins_throw _
  · iterate 4 refine twins_then fun _ => ?_
    split
    · exact twins_pure (.again _ _ (.sortKey _ hk))
    · exact twins_then fun _ => twins_pure (.react (.give _))

theorem twins_startMap (name : String) (c : Call) :
    Twins (Invocation.Twin l l') (startMap setup name c k) (startMap setup name c k') := by
  unfold startMap
  split
  · refine twins_then fun items => ?_
    split
    · exact twins_then fun _ => twins_pure (.react (.give _))
    · exact twins_pure (.again _ _ (.mapItem _ hk))
  · exact twins_throw _

theorem twins_callBuiltin (b : Builtin σ) (c : Call) :
    Twins (Invocation.Twin l l') (callBuiltin setup b c k) (callBuiltin setup b c k') := by
  unfold callBuiltin
  refine twins_then fun _ => twins_then fun _ => ?_
  split
  · exact twins_startSort hk c
  · exact twins_then fun r => twins_reacting (twins_settle hk b.name c.location r)
  · exact twins_then fun r => twins_reacting (twins_settle hk b.name c.location _)
  · split
    · exact twins_throw _
    · exact twins_pure (.again _ _ (.fill _ hk))
  · exact twins_startMap hk b.name c

theorem twins_invoke (callee : Value) (c : Call) :
    Twins (Invocation.Twin l l') (invoke setup callee c k) (invoke setup callee c k') := by
  refine twins_then fun s => ?_
  have refuse : Twins (Invocation.Twin l l') (notCallable callee c : Act σ (Invocation σ))
      (notCallable callee c) := twins_then fun _ => twins_throw _
  split
  · split
    · exact twins_callBuiltin hk _ c
    · exact refuse
  · next f _ =>
    exact twins_bind (twins_callFunction hk f f.name 0 c) fun _ _ h => twins_pure (.react (bodyOf_twin h))
  · split
    · split
      · exact twins_throw _
      · exact twins_bind (twins_callFunction hk _ _ 1 _) fun _ _ h =>
          twins_pure (.react (bodyOf_twin h))
    · exact refuse
  · next params body scope _ =>
    exact twins_bind (twins_callLambda hk params body scope c) fun _ _ h =>
      twins_pure (.react (.start h))
  · next name methods a _ => exact twins_reacting (twins_construct hk a name methods c)
  · exact refuse

end Calls

section Step

variable {setup : Setup σ}

theorem continueWith_twin {b : Awaits} {j j' : Context b} (hj : Context.Twin l l' j j')
    {r r' : Reaction σ b} (hr : Reaction.Twin l l' r r') :
    Next.Twin l l' (continueWith j r) (continueWith j' r') := by
  cases hr with
  | give x => exact .go (.give x hj)
  | start ht => exact .go (.task ht)
  | pause w hr => exact .pause w hr

/-- A step that does not come back to the context is taken in the same way inside the other one. -/
theorem twins_step {c c' : Control} (hc : Control.Twin l l' c c') (hl : ¬ c.GivesTo l) :
    Twins (Next.Twin l l') (c.step setup) (c'.step setup) := by
  cases hc with
  | task ht =>
    simp only [Control.step, map_eq_pure_bind]
    exact twins_bind (twins_begin setup ht) fun _ _ hc => twins_pure (.go hc)
  | call callee c hk =>
    refine twins_bind (twins_invoke hk callee c) fun _ _ h => ?_
    cases h with
    | react hr => exact twins_pure (continueWith_twin hk hr)
    | again callee c hk => exact twins_pure (.go (.call callee c hk))
  | give x hk =>
    cases hk with
    | base => exact absurd ⟨x, rfl⟩ hl
    | fill h hk =>
      exact twins_bind (twins_react h x hk) fun _ _ hr => twins_pure (continueWith_twin hk hr)
    | argument p hk =>
      simp only [Control.step, advance, giveTo]
      split
      · exact twins_pure (.go (.call _ _ hk))
      · exact twins_pure (.go (.task (.eval _ _ (.argument _ hk))))
    | sortKey s hk =>
      simp only [Control.step, advance, giveTo]
      split
      · exact twins_then fun _ => twins_pure (continueWith_twin hk (.give _))
      · exact twins_pure (.go (.call _ _ (.sortKey _ hk)))
    | mapItem s hk =>
      simp only [Control.step, advance, giveTo]
      split
      · exact twins_then fun _ => twins_pure (continueWith_twin hk (.give _))
      · exact twins_pure (.go (.call _ _ (.mapItem _ hk)))

theorem twins_control {r r' : Resumption} (hr : Resumption.Twin l l' r r') :
    Twins (Control.Twin l l') (r.control setup) (r'.control setup) := by
  cases hr with
  | task ht => exact twins_begin setup ht
  | waited name loc hk => exact twins_then fun _ => twins_pure (.give (b := .value) _ hk)

end Step

end Act

section Runs

variable {setup : Setup σ} {a : Awaits} {l l' : Context a} {c c' : Control} {m n : Machine σ}
  {stops : List (Stop σ)} {p : Point σ}

theorem Context.Twin.symm {b : Awaits} {k k' : Context b} (h : Context.Twin l l' k k') :
    Context.Twin l' l k' k := by
  induction h with
  | base => exact .base
  | fill h _ ih => exact .fill h ih
  | argument p _ ih => exact .argument p ih
  | sortKey s _ ih => exact .sortKey s ih
  | mapItem s _ ih => exact .mapItem s ih

theorem Context.Twin.depth_le {b : Awaits} {k k' : Context b} (h : Context.Twin l l' k k') :
    l'.depth ≤ k'.depth := by
  induction h with
  | base => exact Nat.le_refl _
  | fill _ _ ih | argument _ _ ih | sortKey _ _ ih | mapItem _ _ ih => exact Nat.le_succ_of_le ih

/-- Only the one context is replaced by the other. -/
theorem Context.Twin.eq_base {k : Context a} (h : Context.Twin l l' k l') : k = l := by
  cases h with
  | base => rfl
  | fill _ h | argument _ h | sortKey _ h | mapItem _ h =>
    exact absurd h.depth_le (Nat.not_succ_le_self _)

theorem Control.Twin.givesTo (hc : Control.Twin l l' c c') (h : c'.GivesTo l') : c.GivesTo l := by
  obtain ⟨x, rfl⟩ := h
  cases hc with
  | give x hk =>
    cases hk.eq_base
    exact ⟨x, rfl⟩

theorem Act.ok_of_twins {R : α → β → Prop} {x : Act σ α} {y : Act σ β} {u : α} (h : Act.Twins R x y)
    (hx : x m = .ok u n) : ∃ v, y m = .ok v n ∧ R u v := by
  have ends := h m
  rw [hx] at ends
  generalize y m = r at ends
  cases ends with
  | ok m h => exact ⟨_, rfl, h⟩

theorem Act.error_of_twins {R : α → β → Prop} {x : Act σ α} {y : Act σ β} {f : Fault}
    (h : Act.Twins R x y) (hx : x m = .error f n) : y m = .error f n := by
  have ends := h m
  rw [hx] at ends
  generalize y m = r at ends
  cases ends with
  | error f m => rfl

theorem moves_twin (hc : Control.Twin l l' c c') (hl : ¬ c.GivesTo l)
    (h : setup.Moves c m stops p) : ∃ p', setup.Moves c' m stops p' ∧ Point.Twin l l' p p' := by
  have step : Act.Twins _ (c.step setup) (c'.step setup) := Act.twins_step hc hl
  cases h with
  | goes h =>
    obtain ⟨_, h', next⟩ := Act.ok_of_twins step h
    cases next with
    | go hd => exact ⟨_, .goes h', .on hd _⟩
  | fails h => exact ⟨_, .fails (Act.error_of_twins step h), .failed _ _⟩
  | resumes h world hr =>
    obtain ⟨_, h', next⟩ := Act.ok_of_twins step h
    cases next with
    | pause w ht =>
      obtain ⟨d, hd, twin⟩ := Act.ok_of_twins (Act.twins_control ht) hr
      exact ⟨_, .resumes h' world hd, .on twin _⟩
  | refuses h world hr =>
    obtain ⟨_, h', next⟩ := Act.ok_of_twins step h
    cases next with
    | pause w ht =>
      exact ⟨_, .refuses h' world (Act.error_of_twins (Act.twins_control ht) hr), .failed _ _⟩
  | renews ht world h =>
    subst ht
    cases hc with
    | task ht =>
      obtain ⟨d, hd, twin⟩ := Act.ok_of_twins (Act.twins_begin setup ht) h
      exact ⟨_, .renews rfl world hd, .on twin _⟩
  | halts ht world h =>
    subst ht
    cases hc with
    | task ht =>
      exact ⟨_, .halts rfl world (Act.error_of_twins (Act.twins_begin setup ht) h), .failed _ _⟩

theorem leads_twin (hc : Control.Twin l l' c c') (h : setup.Leads l c m stops p) :
    ∃ p', setup.Leads l' c' m stops p' ∧ Point.Twin l l' p p' := by
  induction h generalizing c' with
  | here c m => exact ⟨_, .here _ _, .on hc m⟩
  | fails hl moves =>
    obtain ⟨_, moves', twin⟩ := moves_twin hc hl moves
    cases twin with
    | failed f m => exact ⟨_, .fails (mt hc.givesTo hl) moves', .failed _ _⟩
  | next hl moves _ ih =>
    obtain ⟨_, moves', twin⟩ := moves_twin hc hl moves
    cases twin with
    | on hd m =>
      obtain ⟨p', leads, twin⟩ := ih hd
      exact ⟨p', .next (mt hc.givesTo hl) moves' leads, twin⟩

/-- What is given to a context is given to any other one in its place. -/
theorem given_twin {x : a.Input} (hc : Control.Twin l l' c c')
    (h : setup.Leads l c m stops (.on (.move (.give x l)) n)) :
    setup.Leads l' c' m stops (.on (.move (.give x l')) n) := by
  obtain ⟨p, leads, twin⟩ := leads_twin hc h
  cases twin with
  | on hd m =>
    cases hd with
    | give x hk =>
      cases hk.symm.eq_base
      exact leads

variable {l l' : Context .value} (e : Expr) (scope : ScopeId) {x : Value} {f : Fault}

/-- An expression comes to the same value inside any context. -/
theorem evaluated_twin : setup.Leads l (.task (.eval e scope l)) m stops (.on (.move (.give x l)) n) →
    setup.Leads l' (.task (.eval e scope l')) m stops (.on (.move (.give x l')) n) :=
  given_twin (.task (.eval e scope .base))

theorem refused_twin : setup.Leads l (.task (.eval e scope l)) m stops (.failed f n) →
    setup.Leads l' (.task (.eval e scope l')) m stops (.failed f n) := by
  intro h
  have same : Context.Twin l l' l l' := .base
  obtain ⟨p, leads, twin⟩ := leads_twin (.task (.eval e scope same)) h
  cases twin with
  | failed f m => exact leads

end Runs

end LoopScript
