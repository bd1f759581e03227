import LoopScript.Machine.State
import LoopScript.Program
import LoopScript.Proofs.Table
import LoopScript.Value.Equality
import Mathlib.Data.Set.Basic
import Mathlib.Order.Basic

/-!
Two stores that hold the same things at different addresses. A link says which addresses belong
together; what is not linked may be anything. Which names a program uses and assigns counts, too:
parameters and the items of comprehensions are names of their own outside the code that they belong to.
-/

namespace LoopScript

/-- The names that an expression uses lie in a set. -/
inductive Expr.Within : Set String → Expr → Prop where
  | literal {N : Set String} (loc : Location) (a : Atom) : Within N (.literal loc a)
  | name {N : Set String} {id : String} (loc : Location) (h : id ∈ N) : Within N (.name loc id)
  | binary {N : Set String} {l r : Expr} (loc : Location) (op : BinaryOp) (hl : Within N l)
      (hr : Within N r) : Within N (.binary loc op l r)
  | unary {N : Set String} {e : Expr} (loc : Location) (op : UnaryOp) (h : Within N e) :
      Within N (.unary loc op e)
  | call {N : Set String} {f : Expr} {args : List Expr} {named : List (String × Expr)}
      (loc : Location) (hf : Within N f) (ha : ∀ e ∈ args, Within N e)
      (hn : ∀ p ∈ named, Within N p.2) : Within N (.call loc f args named)
  | index {N : Set String} {base i : Expr} (loc : Location) (hb : Within N base)
      (hi : Within N i) : Within N (.index loc base i)
  | slice {N : Set String} {base : Expr} {start stop step : Option Expr} (loc : Location)
      (hb : Within N base) (h : ∀ e ∈ [start, stop, step], ∀ d ∈ e, Within N d) :
      Within N (.slice loc base start stop step)
  | list {N : Set String} {items : List Expr} (loc : Location) (h : ∀ e ∈ items, Within N e) :
      Within N (.list loc items)
  | tuple {N : Set String} {items : List Expr} (loc : Location) (h : ∀ e ∈ items, Within N e) :
      Within N (.tuple loc items)
  | dict {N : Set String} {entries : List (Expr × Expr)} (loc : Location)
      (hk : ∀ p ∈ entries, Within N p.1) (hv : ∀ p ∈ entries, Within N p.2) :
      Within N (.dict loc entries)
  | lambda {N : Set String} {params : List String} {body : Expr} (loc : Location)
      (h : Within (N ∪ {x | x ∈ params}) body) : Within N (.lambda loc params body)
  | comprehension {N : Set String} {element iterable : Expr} {item : String}
      {condition : Option Expr} (loc : Location) (he : Within (N ∪ {item}) element)
      (hi : Within N iterable) (hc : ∀ e ∈ condition, Within (N ∪ {item}) e) :
      Within N (.comprehension loc element item iterable condition)
  | member {N : Set String} {base : Expr} (loc : Location) (name : String) (h : Within N base) :
      Within N (.member loc base name)

/-- The names that a statement uses lie in the first set, and those that it assigns or defines in the
second. It declares no name to be global. -/
inductive Stmt.Within : Set String → Set String → Stmt → Prop where
  | expr {N W : Set String} {e : Expr} (loc : Location) (h : e.Within N) : Within N W (.expr loc e)
  | assignName {N W : Set String} {id : String} {e : Expr} (loc place : Location) (op : AssignOp)
      (hn : id ∈ N) (hw : id ∈ W) (h : e.Within N) : Within N W (.assign loc (.name place id) op e)
  | assignMember {N W : Set String} {base e : Expr} (loc place : Location) (name : String)
      (op : AssignOp) (hb : base.Within N) (h : e.Within N) :
      Within N W (.assign loc (.member place base name) op e)
  | assignItem {N W : Set String} {base i e : Expr} (loc place : Location) (op : AssignOp)
      (hb : base.Within N) (hi : i.Within N) (h : e.Within N) :
      Within N W (.assign loc (.index place base i) op e)
  | cond {N W : Set String} {test : Expr} {body : List Stmt} {otherwise : Option (List Stmt)}
      (loc : Location) (ht : test.Within N) (hb : ∀ s ∈ body, Within N W s)
      (ho : ∀ ss ∈ otherwise, ∀ s ∈ ss, Within N W s) : Within N W (.cond loc test body otherwise)
  | loop {N W : Set String} {test : Expr} {body : List Stmt} (loc : Location) (ht : test.Within N)
      (hb : ∀ s ∈ body, Within N W s) : Within N W (.loop loc test body)
  | each {N W : Set String} {item : String} {e : Expr} {body : List Stmt} (loc : Location)
      (hw : item ∈ W) (h : e.Within N) (hb : ∀ s ∈ body, Within N W s) :
      Within N W (.each loc item e body)
  | function {N W : Set String} {d : FunctionDef} (hw : d.name ∈ W)
      (hb : ∀ s ∈ d.body, Within (N ∪ {x | x ∈ d.params}) (W ∪ {x | x ∈ d.params}) s) :
      Within N W (.function d)
  | class_ {N W : Set String} {name : String} {methods : List FunctionDef} (loc : Location)
      (hw : name ∈ W)
      (hb : ∀ d ∈ methods, ∀ s ∈ d.body,
        Within (N ∪ {x | x ∈ d.params}) (W ∪ {x | x ∈ d.params}) s) :
      Within N W (.class_ loc name methods)
  | return_ {N W : Set String} {value : Option Expr} (loc : Location)
      (h : ∀ e ∈ value, e.Within N) : Within N W (.return_ loc value)
  | break_ {N W : Set String} (loc : Location) : Within N W (.break_ loc)
  | continue_ {N W : Set String} (loc : Location) : Within N W (.continue_ loc)
  | pass_ {N W : Set String} (loc : Location) : Within N W (.pass_ loc)
  | import_ {N W : Set String} {name : String} (loc : Location) (member : Option String)
      (h : name ∈ N) : Within N W (.import_ loc name member)

/-- The names of a program: those that it uses, and those that it assigns or defines. -/
def Program.Within (N W : Set String) (p : Program) : Prop :=
  ∀ s ∈ p.statements, s.Within N W

/-- Which objects and which scopes of two stores belong together, and the names that code may use and
assign in a scope of the first store. -/
structure Link where
  objects : Addr → Addr → Prop
  scopes : ScopeId → ScopeId → Prop
  objects_iff : ∀ {a b a' b'}, objects a b → objects a' b' → (a = a' ↔ b = b')
  scopes_iff : ∀ {i j i' j'}, scopes i j → scopes i' j' → (i = i' ↔ j = j')
  /-- The scope of the globals, in both stores. -/
  root : ScopeId
  root_linked : scopes root root
  usable : ScopeId → Set String
  assignable : ScopeId → Set String
  assignable_subset : ∀ i, assignable i ⊆ usable i

namespace Link

structure Le (L L' : Link) : Prop where
  objects : ∀ {a b}, L.objects a b → L'.objects a b
  scopes : ∀ {i j}, L.scopes i j → L'.scopes i j
  root : L'.root = L.root
  usable : ∀ {i j}, L.scopes i j → L'.usable i = L.usable i
  assignable : ∀ {i j}, L.scopes i j → L'.assignable i = L.assignable i

instance : Preorder Link where
  le := Le
  le_refl _ := ⟨id, id, rfl, fun _ => rfl, fun _ => rfl⟩
  le_trans _ _ _ h g :=
    ⟨fun h' => g.objects (h.objects h'), fun h' => g.scopes (h.scopes h'), g.root.trans h.root,
      fun h' => (g.usable (h.scopes h')).trans (h.usable h'),
      fun h' => (g.assignable (h.scopes h')).trans (h.assignable h')⟩

variable {L L' : Link} {i j : ScopeId}

theorem root_iff (h : L.scopes i j) : i = L.root ↔ j = L.root :=
  L.scopes_iff h L.root_linked

def Runs (L : Link) (i : ScopeId) (ss : List Stmt) : Prop :=
  ∀ s ∈ ss, s.Within (L.usable i) (L.assignable i)

def Holds (L : Link) (i : ScopeId) (params : List String) (ss : List Stmt) : Prop :=
  ∀ s ∈ ss, s.Within (L.usable i ∪ {x | x ∈ params}) (L.assignable i ∪ {x | x ∈ params})

theorem Runs.mono {ss : List Stmt} (h : L.Runs i ss) (hs : L.scopes i j) (hL : L ≤ L') :
    L'.Runs i ss := by
  unfold Runs
  rwa [hL.usable hs, hL.assignable hs]

theorem Holds.mono {params : List String} {ss : List Stmt} (h : L.Holds i params ss)
    (hs : L.scopes i j) (hL : L ≤ L') : L'.Holds i params ss := by
  unfold Holds
  rwa [hL.usable hs, hL.assignable hs]

end Link

/-- A value of the first store, and the same value of the second. -/
inductive Value.Moved (L : Link) : Value → Value → Prop where
  | atom (a : Atom) : Moved L (.atom a) (.atom a)
  | ref {a b : Addr} (h : L.objects a b) : Moved L (.ref a) (.ref b)

inductive Obj.Moved (L : Link) : Obj → Obj → Prop where
  | list {xs ys : List Value} (h : List.Forall₂ (Value.Moved L) xs ys) :
      Moved L (.list xs) (.list ys)
  | dict {es fs : Table Value Value} (h : Table.Paired (Value.Moved L) (Value.Moved L) es fs) :
      Moved L (.dict es) (.dict fs)
  | builtin (name : String) : Moved L (.builtin name) (.builtin name)
  | function {name : String} {params : List String} {body : List Stmt} {i j : ScopeId}
      (hs : L.scopes i j) (hb : L.Holds i params body) :
      Moved L (.function ⟨name, params, body, i⟩) (.function ⟨name, params, body, j⟩)
  | lambda {params : List String} {body : Expr} {i j : ScopeId} (hs : L.scopes i j)
      (hb : body.Within (L.usable i ∪ {x | x ∈ params})) :
      Moved L (.lambda params body i) (.lambda params body j)
  | cls {name : String} {ms ns : Table String Addr} (h : Table.Paired Eq L.objects ms ns) :
      Moved L (.cls name ms) (.cls name ns)
  | instance_ {c d : Addr} {es fs : Table String Value} (hc : L.objects c d)
      (h : Table.Paired Eq (Value.Moved L) es fs) : Moved L (.instance_ c es) (.instance_ d fs)
  | method {r r' f f' : Addr} (hr : L.objects r r') (hf : L.objects f f') :
      Moved L (.method r f) (.method r' f')

/-- A scope around which there is another, and the same scope of the second store. A name that code
may use is bound in the scope itself, or code may use it in the scope around. -/
structure Scope.Moved (L : Link) (i j : ScopeId) (p q : Scope) : Prop where
  parent : ∃ i' j', p.parent = some i' ∧ q.parent = some j' ∧ i' < i ∧ j' < j ∧ L.scopes i' j' ∧
    (∀ x ∈ L.usable i, p.bindings.has x = false → x ∈ L.usable i') ∧
    ∀ x ∈ L.assignable i, p.bindings.has x = false → x ∈ L.assignable i'
  bindings : Table.Paired Eq (Value.Moved L) p.bindings q.bindings

/-- The linked parts of two stores hold the same. Of the globals only those names count that code may
use. -/
structure Store.Moved (L : Link) (s t : Store) : Prop where
  object : ∀ {a b}, L.objects a b →
    ∃ o o', s.objects[a]? = some o ∧ t.objects[b]? = some o' ∧ o.Moved L o'
  scope : ∀ {i j}, L.scopes i j → i ≠ L.root →
    ∃ p q, s.scopes[i]? = some p ∧ t.scopes[j]? = some q ∧ p.Moved L i j q
  root : ∃ p q, s.scopes[L.root]? = some p ∧ t.scopes[L.root]? = some q ∧
    p.parent = none ∧ q.parent = none ∧
    ∀ x ∈ L.usable L.root, Option.Rel (Value.Moved L) (p.bindings.get? x) (q.bindings.get? x)

section Mono

variable {L L' : Link} (hL : L ≤ L')

include hL

theorem Value.Moved.mono {v w : Value} (h : v.Moved L w) : v.Moved L' w := by
  cases h with
  | atom a => exact .atom a
  | ref h => exact .ref (hL.objects h)

theorem Value.Moved.mono_list {xs ys : List Value} (h : List.Forall₂ (Value.Moved L) xs ys) :
    List.Forall₂ (Value.Moved L') xs ys :=
  h.imp fun _ _ => mono hL

theorem Value.Moved.mono_dict {es fs : Table Value Value}
    (h : Table.Paired (Value.Moved L) (Value.Moved L) es fs) :
    Table.Paired (Value.Moved L') (Value.Moved L') es fs :=
  h.imp fun _ _ ⟨hk, hv⟩ => ⟨hk.mono hL, hv.mono hL⟩

theorem Value.Moved.mono_table {es fs : Table String Value}
    (h : Table.Paired Eq (Value.Moved L) es fs) : Table.Paired Eq (Value.Moved L') es fs :=
  h.imp fun _ _ ⟨hk, hv⟩ => ⟨hk, hv.mono hL⟩

theorem Value.Moved.mono_option {o o' : Option Value} (h : Option.Rel (Value.Moved L) o o') :
    Option.Rel (Value.Moved L') o o' := by
  cases h with
  | none => exact .none
  | some h => exact .some (h.mono hL)

theorem Obj.Moved.mono {o o' : Obj} (h : o.Moved L o') : o.Moved L' o' := by
  cases h with
  | list h => exact .list (Value.Moved.mono_list hL h)
  | dict h => exact .dict (Value.Moved.mono_dict hL h)
  | builtin name => exact .builtin name
  | function hs hb => exact .function (hL.scopes hs) (hb.mono hs hL)
  | lambda hs hb => exact .lambda (hL.scopes hs) (by rwa [hL.usable hs])
  | cls h => exact .cls (h.imp fun _ _ ⟨hk, ha⟩ => ⟨hk, hL.objects ha⟩)
  | instance_ hc h => exact .instance_ (hL.objects hc) (Value.Moved.mono_table hL h)
  | method hr hf => exact .method (hL.objects hr) (hL.objects hf)

theorem Scope.Moved.mono {i j : ScopeId} {p q : Scope} (hs : L.scopes i j) (h : p.Moved L i j q) :
    p.Moved L' i j q := by
  obtain ⟨i', j', hp, hq, hi, hj, around, usable, assignable⟩ := h.parent
  refine ⟨⟨i', j', hp, hq, hi, hj, hL.scopes around, ?_, ?_⟩, Value.Moved.mono_table hL h.bindings⟩
  · rwa [hL.usable hs, hL.usable around]
  · rwa [hL.assignable hs, hL.assignable around]

end Mono

section Values

variable {L : Link} {v w x y : Value}

theorem Value.Moved.beq (hv : v.Moved L w) (hx : x.Moved L y) : (v == x) = (w == y) := by
  cases hv with
  | atom a => cases hx <;> rfl
  | @ref a b h =>
    cases hx with
    | atom c => rfl
    | @ref c d g =>
      have same : (a == c) = (b == d) := by
        rw [Bool.eq_iff_iff, beq_iff_eq, beq_iff_eq]
        exact L.objects_iff h g
      exact same

end Values

section Reading

variable {L : Link} {s t : Store} (hs : s.Moved L t)

include hs

theorem Store.Moved.read {a b : Addr} (h : L.objects a b) : (s.read a).Moved L (t.read b) := by
  obtain ⟨o, o', ho, ho', moved⟩ := hs.object h
  simpa only [Store.read, Array.getD_eq_getD_getElem?, ho, ho', Option.getD_some] using moved

theorem Store.Moved.object? {v w : Value} (hv : v.Moved L w) :
    Option.Rel (Obj.Moved L) (s.object? v) (t.object? w) := by
  cases hv with
  | atom a => exact .none
  | ref h => exact .some (hs.read h)

theorem className_moved {a b : Addr} (h : L.objects a b) : s.className a = t.className b := by
  unfold Store.className
  match s.read a, t.read b, hs.read h with
  | _, _, .cls _ => rfl
  | _, _, .list _ | _, _, .dict _ | _, _, .builtin _ | _, _, .function _ _ | _, _, .lambda _ _
  | _, _, .instance_ _ _ | _, _, .method _ _ => rfl

theorem functionName_moved {a b : Addr} (h : L.objects a b) :
    s.functionName a = t.functionName b := by
  unfold Store.functionName
  match s.read a, t.read b, hs.read h with
  | _, _, .function _ _ => rfl
  | _, _, .list _ | _, _, .dict _ | _, _, .builtin _ | _, _, .cls _ | _, _, .lambda _ _
  | _, _, .instance_ _ _ | _, _, .method _ _ => rfl

theorem typeName_moved {v w : Value} (hv : v.Moved L w) : s.typeName v = t.typeName w := by
  cases hv with
  | atom a => cases a <;> rfl
  | @ref a b h =>
    simp only [Store.typeName]
    match s.read a, t.read b, hs.read h with
    | _, _, .instance_ hc _ => exact className_moved hs hc
    | _, _, .list _ | _, _, .dict _ | _, _, .builtin _ | _, _, .cls _ | _, _, .lambda _ _
    | _, _, .function _ _ | _, _, .method _ _ => rfl

theorem truthy_moved {v w : Value} (hv : v.Moved L w) : s.truthy v = t.truthy w := by
  cases hv with
  | atom a => cases a <;> rfl
  | @ref a b h =>
    simp only [Store.truthy]
    match s.read a, t.read b, hs.read h with
    | _, _, .list h | _, _, .dict h => cases h <;> rfl
    | _, _, .instance_ _ _ | _, _, .builtin _ | _, _, .cls _ | _, _, .lambda _ _
    | _, _, .function _ _ | _, _, .method _ _ => rfl

end Reading

end LoopScript
