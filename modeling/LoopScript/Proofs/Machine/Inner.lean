import LoopScript.Proofs.Execution.Effect

/-!
The calls in progress, as the context of a control tells them and as a machine keeps them, and steps
inside a call. What begins a task leads to a context inside the one around it, and so does what fills a
hole that ends no call; between the two contexts there is no call.
-/

namespace LoopScript

variable {σ : Type}

/-- The name of a call, and the place where it was made. -/
abbrev Site := String × Option Location

def Activation.site (a : Activation) : Site := (a.name, a.callSite)

def Site.module : Site := ("<module>", none)

def Hole.sites : {a b : Awaits} → Hole a b → List Site
  | _, _, .body name loc => [(name, some loc)]
  | _, _, .lambdaBody loc => [("<lambda>", some loc)]
  | _, _, _ => []

namespace Context

/-- The calls whose end a context awaits, besides the module, innermost first. -/
def sites : {a : Awaits} → Context a → List Site
  | _, .program => []
  | _, .fill h k => h.sites ++ k.sites
  | _, .argument _ k => k.sites
  | _, .sortKey _ k => k.sites
  | _, .mapItem _ k => k.sites

/-- One context stands inside another; between the two, these calls are in progress. -/
inductive Over {a : Awaits} (k : Context a) : {b : Awaits} → Context b → List Site → Prop where
  | refl : Over k k []
  | fill {b c : Awaits} (h : Hole b c) {l : Context c} {sites : List Site} :
      Over k l sites → Over k (.fill h l) (h.sites ++ sites)
  | argument (p : PendingCall) {l : Context .value} {sites : List Site} :
      Over k l sites → Over k (.argument p l) sites
  | sortKey (s : Sorting) {l : Context .value} {sites : List Site} :
      Over k l sites → Over k (.sortKey s l) sites
  | mapItem (m : Mapping) {l : Context .value} {sites : List Site} :
      Over k l sites → Over k (.mapItem m l) sites

variable {a b c : Awaits} {k : Context a} {l : Context b} {j : Context c}

theorem Over.trans {xs ys : List Site} (h₁ : Over k l xs) (h₂ : Over l j ys) :
    Over k j (ys ++ xs) := by
  induction h₂ with
  | refl => exact h₁
  | fill h _ ih => rw [List.append_assoc]; exact .fill h ih
  | argument p _ ih => exact .argument p ih
  | sortKey s _ ih => exact .sortKey s ih
  | mapItem m _ ih => exact .mapItem m ih

theorem Over.sites_eq {xs : List Site} (h : Over k l xs) : l.sites = xs ++ k.sites := by
  induction h with
  | refl => rfl
  | fill h _ ih => rw [sites, ih, List.append_assoc]
  | argument _ _ ih | sortKey _ _ ih | mapItem _ _ ih => exact ih

def depth : {a : Awaits} → Context a → Nat
  | _, .program => 0
  | _, .fill _ k | _, .argument _ k | _, .sortKey _ k | _, .mapItem _ k => k.depth + 1

theorem Over.depth_le {xs : List Site} (h : Over k l xs) : k.depth ≤ l.depth := by
  induction h with
  | refl => exact Nat.le_refl _
  | fill _ _ ih | argument _ _ ih | sortKey _ _ ih | mapItem _ _ ih =>
    exact Nat.le_succ_of_le ih

/-- No context stands inside itself. -/
theorem Over.sites_of_eq {xs : List Site} (h : Over k k xs) : xs = [] := by
  cases h with
  | refl => rfl
  | fill _ h | argument _ h | sortKey _ h | mapItem _ h =>
    have hd := h.depth_le
    simp only [depth] at hd
    omega

end Context

namespace Task

def context : Task → (a : Awaits) × Context a
  | .exec _ _ k => ⟨.flow, k⟩
  | .eval _ _ k => ⟨.value, k⟩

end Task

namespace Control

/-- The context in which a control is carried out. -/
def context : Control → (a : Awaits) × Context a
  | .task t => t.context
  | .move (.give (a := a) _ k) => ⟨a, k⟩
  | .move (.call _ _ k) => ⟨.value, k⟩

end Control

namespace Resumption

def context : Resumption → (a : Awaits) × Context a
  | .task t => t.context
  | .waited _ _ k => ⟨.value, k⟩

end Resumption

/-- The calls of a context over the calls of another one inside which it stands. -/
def Stacked {a b : Awaits} (k : Context a) (calls : List Activation) (l : Context b)
    (calls' : List Activation) : Prop :=
  ∃ opened : List Activation, k.Over l (opened.map Activation.site) ∧ calls' = opened ++ calls

namespace Stacked

variable {a b c : Awaits} {k : Context a} {l : Context b} {j : Context c}
  {calls calls' calls'' : List Activation}

theorem refl (k : Context a) (calls : List Activation) : Stacked k calls k calls :=
  ⟨[], .refl, rfl⟩

theorem trans (h₁ : Stacked k calls l calls') (h₂ : Stacked l calls' j calls'') :
    Stacked k calls j calls'' := by
  obtain ⟨xs, hx, rfl⟩ := h₁
  obtain ⟨ys, hy, rfl⟩ := h₂
  refine ⟨ys ++ xs, ?_, (List.append_assoc ys xs calls).symm⟩
  rw [List.map_append]
  exact hx.trans hy

theorem of_over (h : k.Over l []) (calls : List Activation) : Stacked k calls l calls :=
  ⟨[], h, rfl⟩

theorem eq_of_same (h : Stacked k calls k calls') : calls' = calls := by
  obtain ⟨xs, hx, rfl⟩ := h
  rw [List.map_eq_nil_iff.mp hx.sites_of_eq, List.nil_append]

theorem map_site (h : Stacked .program calls l calls') :
    calls'.map Activation.site = l.sites ++ calls.map Activation.site := by
  obtain ⟨xs, hx, rfl⟩ := h
  rw [List.map_append, hx.sites_eq, Context.sites, List.append_nil]

theorem length_eq {a : Activation} (h : Stacked .program [a] l calls') :
    calls'.length = l.sites.length + 1 := by
  have sites := congrArg List.length h.map_site
  simpa only [List.length_map, List.length_append, List.length_singleton] using sites

end Stacked

/-- Whether to fill a hole ends a call that the host has been told of. -/
def Hole.endsCall : {a b : Awaits} → Hole a b → Bool
  | _, _, .body .. => true
  | _, _, .lambdaBody _ => true
  | _, _, .forwarded .. => true
  | _, _, _ => false

/-- One context stands inside another, and between the two there is no call. -/
inductive Context.Inner {a : Awaits} (k : Context a) : {b : Awaits} → Context b → Prop where
  | refl : Inner k k
  | fill {b c : Awaits} {h : Hole b c} {l : Context c} (hh : h.endsCall = false) (hl : Inner k l) :
      Inner k (.fill h l)
  | argument (p : PendingCall) {l : Context .value} (hl : Inner k l) : Inner k (.argument p l)

theorem Hole.sites_of_not_endsCall {a b : Awaits} {h : Hole a b} (hh : h.endsCall = false) :
    h.sites = [] := by
  cases h with
  | body | lambdaBody => cases hh
  | _ => rfl

theorem Context.Inner.over {a b : Awaits} {k : Context a} {l : Context b} (h : k.Inner l) :
    k.Over l [] := by
  induction h with
  | refl => exact .refl
  | @fill _ _ h _ hh _ ih =>
    have filled := Over.fill h ih
    rwa [Hole.sites_of_not_endsCall hh, List.nil_append] at filled
  | argument p _ ih => exact .argument p ih

/-- What a hole gives way to is inside the context around it. No program pauses there. -/
def Reaction.Inner {b : Awaits} (k : Context b) : Reaction σ b → Prop
  | .give _ => True
  | .start t => k.Inner t.context.2
  | .pause _ _ => False

namespace Act

section Begin

theorem beginStatement_inner (s : Stmt) (scope : ScopeId) (k : Context .flow) :
    Yields (beginStatement (σ := σ) s scope k) (k.Inner ·.context.2) := by
  cases s with
  | assign loc target op e =>
    cases target with
    | name place id => exact yields_bind fun _ => yields_pure (.fill rfl .refl)
    | member | index => exact yields_pure (.fill rfl .refl)
  | function d =>
    iterate 2 refine yields_bind fun _ => ?_
    exact yields_pure .refl
  | class_ _ name methods =>
    iterate 3 refine yields_bind fun _ => ?_
    exact yields_pure .refl
  | return_ _ value =>
    cases value with
    | none => exact yields_pure .refl
    | some e => exact yields_pure (.fill rfl .refl)
  | global_ _ names => exact yields_bind fun _ => yields_pure .refl
  | import_ loc name member =>
    refine yields_bind fun v => ?_
    cases member with
    | none => exact yields_pure .refl
    | some member => exact yields_bind fun _ => yields_pure .refl
  | expr | cond | loop | each => exact yields_pure (.fill rfl .refl)
  | break_ | continue_ | pass_ => exact yields_pure .refl

theorem beginExpression_inner (e : Expr) (scope : ScopeId) (k : Context .value) :
    Yields (beginExpression (σ := σ) e scope k) (k.Inner ·.context.2) := by
  cases e with
  | literal => exact yields_pure .refl
  | name => exact yields_bind fun _ => yields_pure .refl
  | list _ items | tuple _ items =>
    cases items with
    | nil => exact yields_bind fun _ => yields_pure .refl
    | cons e es => exact yields_pure (.fill rfl .refl)
  | dict _ entries =>
    cases entries with
    | nil => exact yields_bind fun _ => yields_pure .refl
    | cons e es => exact yields_pure (.fill rfl .refl)
  | lambda => exact yields_bind fun _ => yields_pure .refl
  | call => exact yields_pure (.argument _ .refl)
  | binary | unary | index | slice | comprehension | member =>
    exact yields_pure (.fill rfl .refl)

theorem begin_inner (setup : Setup σ) (t : Task) :
    Yields (begin setup t) (t.context.2.Inner ·.context.2) := by
  cases t with
  | exec s scope k =>
    iterate 3 refine yields_bind fun _ => ?_
    exact beginStatement_inner s scope k
  | eval e scope k => exact beginExpression_inner e scope k

end Begin

section Holes

variable (setup : Setup σ)

theorem block_inner (body : List Stmt) (scope : ScopeId) (k : Context .flow) :
    (block body scope k : Reaction σ .flow).Inner k := by
  cases body with
  | nil => trivial
  | cons s ss => exact .fill rfl .refl

theorem nextRound_inner (item : String) (todo : List Value) (body : List Stmt)
    (scope : ScopeId) (k : Context .flow) :
    Yields (nextRound (σ := σ) item todo body scope k) (·.Inner k) := by
  unfold nextRound
  split
  · exact yields_pure trivial
  · exact yields_bind fun _ => yields_pure trivial
  · exact yields_bind fun _ => yields_pure (.fill rfl (.fill rfl .refl))

theorem nextItem_inner (c : Comprehension) (todo done : List Value) (k : Context .value) :
    Yields (nextItem (σ := σ) c todo done k) (·.Inner k) := by
  unfold nextItem
  split
  · exact yields_bind fun _ => yields_pure trivial
  · refine yields_bind fun inner => ?_
    split <;> exact yields_pure (.fill rfl .refl)

theorem nextBound_inner (loc : Location) (base : Value) (scope : ScopeId) (k : Context .value)
    (done : List (Option Int)) (todo : List (Option Expr)) :
    Yields (nextBound (σ := σ) loc base scope k done todo) (·.Inner k) := by
  induction todo generalizing done with
  | nil => exact yields_bind fun _ => yields_pure trivial
  | cons e todo ih =>
    cases e with
    | none => exact ih _
    | some e => exact yields_pure (.fill rfl .refl)

theorem react_inner {a b : Awaits} (h : Hole a b) (x : a.Input) (k : Context b)
    (hh : h.endsCall = false) : Yields (react setup h x k) (·.Inner k) := by
  cases h with
  | rest statements scope =>
    cases statements with
    | nil => exact yields_pure trivial
    | cons s ss =>
      cases x with
      | normal => exact yields_pure (.fill rfl .refl)
      | broken | continued | returned v => exact yields_pure trivial
  | branch body otherwise scope =>
    refine yields_bind fun t => ?_
    split <;> exact yields_pure (block_inner _ scope k)
  | loopTest test body scope =>
    refine yields_bind fun t => ?_
    split
    · split
      · exact yields_pure (.fill rfl .refl)
      · exact yields_pure (.fill rfl (.fill rfl .refl))
    · exact yields_pure trivial
  | loopBody test body scope =>
    cases x with
    | broken | returned v => exact yields_pure trivial
    | normal | continued => exact yields_pure (.fill rfl .refl)
  | eachOver loc item body scope =>
    exact yields_bind fun _ => nextRound_inner item _ body scope k
  | eachBody item todo body scope =>
    cases x with
    | broken | returned v => exact yields_pure trivial
    | normal | continued => exact nextRound_inner item todo body scope k
  | assignName | assignMember =>
    iterate 2 refine yields_bind fun _ => ?_
    exact yields_pure trivial
  | assignItem loc base index old =>
    iterate 3 refine yields_bind fun _ => ?_
    exact yields_pure trivial
  | memberBase loc name op e scope =>
    iterate 2 refine yields_bind fun _ => ?_
    exact yields_pure (.fill rfl .refl)
  | itemIndex loc base op e scope => exact yields_bind fun _ => yields_pure (.fill rfl .refl)
  | left loc op right scope =>
    refine yields_bind fun t => ?_
    split
    · exact yields_pure trivial
    · exact yields_pure trivial
    · exact yields_pure .refl
    · exact yields_pure .refl
    · exact yields_pure (.fill rfl .refl)
  | right | operand | index | member => exact yields_bind fun _ => yields_pure trivial
  | itemBase | indexBase => exact yields_pure (.fill rfl .refl)
  | sliceBase loc bounds scope =>
    exact yields_bind fun _ => nextBound_inner loc x scope k [] bounds
  | sliceBound loc base done todo scope =>
    have bound (x : Value) : Yields (do
        nextBound (σ := σ) loc base scope k (some (← reading loc (·.toIndex x)) :: done) todo)
        (·.Inner k) :=
      yields_bind fun _ => nextBound_inner loc base scope k _ todo
    cases x with
    | atom a =>
      cases a with
      | none => exact nextBound_inner loc base scope k _ todo
      | bool | int | num | str => exact bound _
    | ref a => exact bound _
  | listItem done todo scope =>
    cases todo with
    | nil => exact yields_bind fun _ => yields_pure trivial
    | cons e todo => exact yields_pure (.fill rfl .refl)
  | dictKey loc value done todo scope => exact yields_bind fun _ => yields_pure (.fill rfl .refl)
  | dictValue key done todo scope =>
    cases todo with
    | nil => exact yields_bind fun _ => yields_pure trivial
    | cons e todo => exact yields_pure (.fill rfl .refl)
  | comprehendOver loc c => exact yields_bind fun _ => nextItem_inner c _ [] k
  | comprehendTest c inner todo done =>
    refine yields_bind fun t => ?_
    split
    · exact yields_pure (.fill rfl .refl)
    · exact nextItem_inner c todo done k
  | comprehendItem c todo done => exact nextItem_inner c todo _ k
  | discard | leave | construct => exact yields_pure trivial
  | body | lambdaBody | forwarded => cases hh

end Holes

end Act

end LoopScript
