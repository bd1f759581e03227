import LoopScript.Proofs.Machine.Invocations
import LoopScript.Proofs.Program.Parts
import LoopScript.Proofs.Value.Rules

/-!
Policies about code: what a machine may come to run, and how it may fail. A context knows whether a
loop or a function is around what fills it, so a policy may say where a statement stands.
-/

namespace LoopScript

/-- How a statement that leaves a loop or a function ends. -/
inductive Stmt.Gives : Stmt → Flow → Prop where
  | broken (loc : Location) : Gives (.break_ loc) .broken
  | continued (loc : Location) : Gives (.continue_ loc) .continued
  | returned (loc : Location) (e : Option Expr) (v : Value) : Gives (.return_ loc e) (.returned v)

namespace Context

/-- A loop of the same body is around what fills a context. -/
def looped : {a : Awaits} → Context a → Bool
  | _, .program => false
  | _, .fill (.loopBody ..) _ | _, .fill (.eachBody ..) _ => true
  | _, .fill (.body ..) _ => false
  | _, .fill _ k => k.looped
  | _, .argument _ k => k.looped
  | _, .sortKey _ k => k.looped
  | _, .mapItem _ k => k.looped

/-- A function is around what fills a context. -/
def inside : {a : Awaits} → Context a → Bool
  | _, .program => false
  | _, .fill (.body ..) _ => true
  | _, .fill _ k => k.inside
  | _, .argument _ k => k.inside
  | _, .sortKey _ k => k.inside
  | _, .mapItem _ k => k.inside

end Context

/-- The keywords of a call whose arguments are still evaluated: those that have their value, and those
that have none. -/
def PendingCall.keywords (c : PendingCall) : List String :=
  c.named.keys ++ c.key.toList ++ c.todo.filterMap (·.1)

theorem PendingCall.receive_keywords (c : PendingCall) (v : Value) :
    ((c.receive v).named.keys ++ c.todo.filterMap (·.1)).Sublist c.keywords := by
  apply List.Sublist.append_right
  have before : c.named.keys.Sublist (c.named.keys ++ c.key.toList) := List.sublist_append_left _ _
  unfold receive
  split
  · exact before
  · next k _ hk =>
    rw [hk]
    exact Table.keys_put_sublist _ k v
  · exact before

/-- Which statements may stand inside a loop of their own body or not and inside a function or not,
which expressions and names there are, which names may be parameters or keywords together, which
operators wait for their right side, are applied to both and to one, which words errors may have as
their rule, and which faults a run may come to. What is inside code that is allowed is allowed, and so
are the faults of its operators and of its stray statements. -/
structure Policy where
  stmt : Bool → Bool → Stmt → Prop
  expr : Expr → Prop
  name : String → Prop
  names : List String → Prop
  waits : BinaryOp → Prop
  joins : BinaryOp → Prop
  signs : UnaryOp → Prop
  word : String → Prop
  fault : Fault → Prop
  part {looped inside : Bool} {s : Stmt} {e : Expr} (h : stmt looped inside s) (he : e ∈ s.parts) :
    expr e
  inner {e f : Expr} (h : expr e) (hf : f ∈ e.parts) : expr f
  branch {looped inside : Bool} {loc : Location} {test : Expr} {body : List Stmt}
    {otherwise : Option (List Stmt)} {s : Stmt} (h : stmt looped inside (.cond loc test body otherwise))
    (hs : s ∈ body ∨ ∃ ss ∈ otherwise, s ∈ ss) : stmt looped inside s
  loop {looped inside : Bool} {loc : Location} {test : Expr} {body : List Stmt} {s : Stmt}
    (h : stmt looped inside (.loop loc test body)) (hs : s ∈ body) : stmt true inside s
  each {looped inside : Bool} {loc : Location} {item : String} {e : Expr} {body : List Stmt}
    {s : Stmt} (h : stmt looped inside (.each loc item e body)) (hs : s ∈ body) : stmt true inside s
  function {looped inside : Bool} {d : FunctionDef} (h : stmt looped inside (.function d)) :
    name d.name ∧ names d.params ∧ ∀ s ∈ d.body, stmt false true s
  class_ {looped inside : Bool} {loc : Location} {n : String} {methods : List FunctionDef}
    (h : stmt looped inside (.class_ loc n methods)) :
    name n ∧ ∀ d ∈ methods, name d.name ∧ names d.params ∧ ∀ s ∈ d.body, stmt false true s
  call {loc : Location} {f : Expr} {args : List Expr} {named : List (String × Expr)}
    (h : expr (.call loc f args named)) : names (named.map (·.1))
  no_names : names []
  fewer {few many : List String} (h : names many) (hs : few.Sublist many) : names few
  assign {looped inside : Bool} {loc : Location} {target : Target} {op : AssignOp} {e : Expr}
    (h : stmt looped inside (.assign loc target op e)) : ∀ b ∈ op.combine?, joins b
  binary {loc : Location} {op : BinaryOp} {l r : Expr} (h : expr (.binary loc op l r)) : waits op
  unary {loc : Location} {op : UnaryOp} {e : Expr} (h : expr (.unary loc op e)) : signs op
  joined {op : BinaryOp} (h : waits op) (ha : op ≠ .and_) (ho : op ≠ .or_) : joins op
  word_name {n : String} (h : name n) : word n
  word_joins {op : BinaryOp} (h : joins op) : word op.text
  word_signs {op : UnaryOp} (h : signs op) : word op.text
  ruled {f : Fault} (h : f.Ruled word) : fault f
  attach {f : Fault} (h : fault f) (loc : Location) : fault (f.attach (some loc))
  unjoined {op : BinaryOp} (h : joins op) (hop : op.joins = false) (loc : Option Location) :
    fault (.error ⟨.unknownOperator op.text, loc, none⟩)
  unsigned {op : UnaryOp} (h : signs op) (hop : op ∉ UnaryOp.known) (loc : Option Location) :
    fault (.error ⟨.unknownOperator op.text, loc, none⟩)
  stray {looped inside : Bool} {s : Stmt} {f : Flow} (hs : stmt looped inside s)
    (hm : s.mayStand looped inside = false) (hf : s.Gives f) (loc : Option Location) :
    fault (Act.stray f loc)

def Reply.fault? {σ : Type} : Reply σ → Option Fault
  | .fault f => some f
  | _ => none

/-- The calls of a machine into the host, with the fault that is raised, if any, and the world that is
left. -/
inductive Setup.Calls {σ : Type} (setup : Setup σ) (w : World σ) : Option Fault → World σ → Prop where
  | hook (h : Hook σ) (hh : h ∈ setup.services.hooks) (e : Event σ) :
      Calls setup w (h.handle e w).1 (h.handle e w).2
  | rule (r : StepRule σ) (hr : r ∈ setup.services.rules) (c : StepContext) :
      Calls setup w (r.handle c w).1 (r.handle c w).2
  | reply (b : Builtin σ) (f : Call → World σ → Reply σ × World σ) (c : Call) (name : String)
      (hb : setup.builtin? name = some b) (hf : b.action = .host f) :
      Calls setup w (f c w).1.fault? (f c w).2
  | finish (b : Builtin σ) (f : Value → Location → World σ → Reply σ × World σ) (v : Value)
      (loc : Location) (name : String) (hb : setup.builtin? name = some b)
      (hf : b.action = .forward f) : Calls setup w (f v loc w).1.fault? (f v loc w).2

theorem Setup.not_calls {σ : Type} {setup : Setup σ} (hs : setup.services = .empty) {w u : World σ}
    {answer : Option Fault} : ¬setup.Calls w answer u := by
  intro h
  cases h with
  | hook h hh =>
    rw [hs] at hh
    cases hh
  | rule r hr =>
    rw [hs] at hr
    cases hr
  | reply b f c name hb hf | finish b f v loc name hb hf =>
    obtain ⟨g, -, rfl⟩ := builtin?_eq_some hs hb
    cases hf

variable (p : Policy)

def Block.Under (looped inside : Bool) (body : List Stmt) : Prop :=
  ∀ s ∈ body, p.stmt looped inside s

/-- A loop is left by a statement of its own body, a function by one of any of its loops. -/
def Flow.Under (looped inside : Bool) : Flow → Prop
  | .normal => True
  | .broken => ∃ loc, p.stmt looped inside (.break_ loc)
  | .continued => ∃ loc, p.stmt looped inside (.continue_ loc)
  | .returned _ => ∃ within loc e, p.stmt within inside (.return_ loc e)

def Obj.Under : Obj → Prop
  | .function f => Block.Under p false true f.body ∧ p.name f.name ∧ p.names f.params
  | .lambda _ body _ => p.expr body
  | .cls name _ => p.name name
  | _ => True

def Store.Under (s : Store) : Prop := ∀ o ∈ s.objects, o.Under p

def Old.Under (old : Old) : Prop := ∀ op v, old = some (op, v) → p.joins op

def AssignOp.Under (op : AssignOp) : Prop := ∀ b ∈ op.combine?, p.joins b

def Comprehension.Under (c : Comprehension) : Prop :=
  p.expr c.element ∧ ∀ e ∈ c.condition, p.expr e

def Hole.Under (looped inside : Bool) : {a b : Awaits} → Hole a b → Prop
  | _, _, .rest ss _ => Block.Under p looped inside ss
  | _, _, .branch ss otherwise _ =>
    Block.Under p looped inside ss ∧ Block.Under p looped inside (otherwise.getD [])
  | _, _, .loopTest test ss _ | _, _, .loopBody test ss _ => p.expr test ∧ Block.Under p true inside ss
  | _, _, .eachOver _ _ ss _ | _, _, .eachBody _ _ ss _ => Block.Under p true inside ss
  | _, _, .leave => ∃ loc e, p.stmt looped inside (.return_ loc e)
  | _, _, .assignName _ _ old _ | _, _, .assignMember _ _ _ old | _, _, .assignItem _ _ _ old =>
    old.Under p
  | _, _, .memberBase _ _ op e _ | _, _, .itemIndex _ _ op e _ => op.Under p ∧ p.expr e
  | _, _, .itemBase _ i op e _ => p.expr i ∧ op.Under p ∧ p.expr e
  | _, _, .left _ op e _ => p.waits op ∧ p.expr e
  | _, _, .right _ op _ => p.joins op
  | _, _, .operand _ op => p.signs op
  | _, _, .indexBase _ e _ => p.expr e
  | _, _, .sliceBase _ todo _ | _, _, .sliceBound _ _ _ todo _ => ∀ e, some e ∈ todo → p.expr e
  | _, _, .listItem _ todo _ => ∀ e ∈ todo, p.expr e
  | _, _, .dictKey _ e _ todo _ => p.expr e ∧ ∀ e ∈ todo, p.expr e.1 ∧ p.expr e.2
  | _, _, .dictValue _ _ todo _ => ∀ e ∈ todo, p.expr e.1 ∧ p.expr e.2
  | _, _, .comprehendOver _ c | _, _, .comprehendTest c .. | _, _, .comprehendItem c .. => c.Under p
  | _, _, .discard | _, _, .index .. | _, _, .member .. | _, _, .body .. | _, _, .lambdaBody _
  | _, _, .construct _ | _, _, .forwarded .. => True

def Context.Under : {a : Awaits} → Context a → Prop
  | _, .program => True
  | _, .fill h k => h.Under p k.looped k.inside ∧ k.Under
  | _, .argument c k => (∀ e ∈ c.todo, p.expr e.2) ∧ p.names c.keywords ∧ k.Under
  | _, .sortKey _ k => k.Under
  | _, .mapItem _ k => k.Under

/-- What a context may be given. -/
def Awaits.Under : (a : Awaits) → Bool → Bool → a.Input → Prop
  | .value, _, _, _ => True
  | .flow, looped, inside, f => f.Under p looped inside

def Task.Under : Task → Prop
  | .exec s _ k => p.stmt k.looped k.inside s ∧ k.Under p
  | .eval e _ k => p.expr e ∧ k.Under p

def Move.Under : Move → Prop
  | .give (a := a) x k => a.Under p k.looped k.inside x ∧ k.Under p
  | .call _ c k => p.names c.named.keys ∧ k.Under p

def Control.Under : Control → Prop
  | .task t => t.Under p
  | .move v => v.Under p

def Resumption.Under : Resumption → Prop
  | .task t => t.Under p
  | .waited _ _ k => k.Under p

variable {σ : Type}

def Reaction.Under {b : Awaits} (k : Context b) : Reaction σ b → Prop
  | .give x => b.Under p k.looped k.inside x ∧ k.Under p
  | .start t => t.Under p
  | .pause _ r => r.Under p

def Invocation.Under (k : Context .value) : Invocation σ → Prop
  | .react r => r.Under p k
  | .again _ c l => p.names c.named.keys ∧ l.Under p

def Next.Under : Next σ → Prop
  | .go c => c.Under p
  | .pause _ r => r.Under p
  | .finished f => f.Under p false false

/-- Extensions that leave no other code in the store, and fail as the policy says. -/
structure Policy.Hosts (setup : Setup σ) : Prop where
  name {n : String} {b : Builtin σ} (hb : setup.builtin? n = some b) :
    b.name ∈ flowWords → p.word b.name
  call {w u : World σ} {answer : Option Fault} (h : setup.Calls w answer u) (hw : w.store.Under p) :
    u.store.Under p ∧ ∀ f ∈ answer, p.fault f

variable {p}

theorem Policy.hosts_of_empty {setup : Setup σ} (hs : setup.services = .empty) : p.Hosts setup where
  name hb := by
    obtain ⟨f, -, rfl⟩ := builtin?_eq_some hs hb
    exact fun h => absurd h f.name_clear
  call h := absurd h (Setup.not_calls hs)

section Contexts

variable {looped inside : Bool} {s : Stmt} {ss : List Stmt}

theorem Block.Under.head (h : Block.Under p looped inside (s :: ss)) : p.stmt looped inside s :=
  h s List.mem_cons_self

theorem Block.Under.tail (h : Block.Under p looped inside (s :: ss)) :
    Block.Under p looped inside ss :=
  fun t ht => h t (List.mem_cons_of_mem s ht)

theorem Stmt.Gives.under {f : Flow} (hf : s.Gives f) (hs : p.stmt looped inside s) :
    f.Under p looped inside := by
  cases hf with
  | broken loc | continued loc => exact ⟨loc, hs⟩
  | returned loc e => exact ⟨looped, loc, e, hs⟩

/-- A flow at the end of the module has nothing to leave. -/
theorem Flow.Under.stray {f : Flow} (hf : f.Under p false false) (hn : f ≠ .normal)
    (loc : Option Location) : p.fault (Act.stray f loc) := by
  cases f with
  | normal => exact absurd rfl hn
  | broken =>
    obtain ⟨place, hs⟩ := hf
    exact p.stray hs rfl (.broken place) loc
  | continued =>
    obtain ⟨place, hs⟩ := hf
    exact p.stray hs rfl (.continued place) loc
  | returned v =>
    obtain ⟨within, place, e, hs⟩ := hf
    exact p.stray hs rfl (.returned place e v) loc

theorem Task.under_exec {scope : ScopeId} {k : Context .flow}
    (h : Block.Under p k.looped k.inside (s :: ss)) (hk : k.Under p) :
    Task.Under p (.exec s scope (.fill (.rest ss scope) k)) :=
  ⟨h.head, h.tail, hk⟩

end Contexts

end LoopScript
