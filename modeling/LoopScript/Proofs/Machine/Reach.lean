import LoopScript.Proofs.Machine.Binding
import LoopScript.Proofs.Machine.Grounding
import LoopScript.Proofs.MergeSort.Stability

/-!
What can be reached. A value, an object or a scope holds on to objects and to scopes, and so does
all that is left of a program. A realm is closed under this: what a machine comes to hold on to stays
within, as long as it is given nothing from outside.
-/

namespace LoopScript

variable {σ α β : Type}

inductive Node where
  | object (a : Addr)
  | scope (i : ScopeId)

section Nodes

def Value.nodes : Value → List Node
  | .atom _ => []
  | .ref a => [.object a]

@[simp] theorem Value.nodes_atom (a : Atom) : Value.nodes (.atom a) = [] := rfl

@[simp] theorem Value.nodes_ref (a : Addr) : Value.nodes (.ref a) = [.object a] := rfl

def Values.nodes (vs : List Value) : List Node := vs.flatMap Value.nodes

def Bindings.nodes (t : Table String Value) : List Node := t.flatMap fun e => e.2.nodes

def Entries.nodes (t : Table Value Value) : List Node := t.flatMap fun e => e.1.nodes ++ e.2.nodes

def Methods.nodes (methods : List (String × Addr)) : List Node := methods.map fun e => .object e.2

@[simp] def Obj.nodes : Obj → List Node
  | .list items => Values.nodes items
  | .dict entries => Entries.nodes entries
  | .builtin _ => []
  | .function f => [.scope f.scope]
  | .lambda _ _ i => [.scope i]
  | .cls _ methods => Methods.nodes methods
  | .instance_ c fields => .object c :: Bindings.nodes fields
  | .method r f => [.object r, .object f]

@[simp] def Made.nodes : Made → List Node
  | .value v => v.nodes
  | .object o => o.nodes

def Scope.nodes (p : Scope) : List Node := p.parent.toList.map .scope ++ Bindings.nodes p.bindings

/-- What a node holds on to. -/
def Store.refs (s : Store) : Node → List Node
  | .object a => (s.read a).nodes
  | .scope i => (s.scope i).nodes

/-- What can be reached from some nodes. -/
inductive Store.Reach (s : Store) (roots : List Node) : Node → Prop where
  | root {x : Node} (h : x ∈ roots) : Reach s roots x
  | step {x y : Node} (h : Reach s roots x) (hy : y ∈ s.refs x) : Reach s roots y

theorem Store.Reach.mono {s : Store} {l l' : List Node} {x : Node} (h : s.Reach l x) (sub : l ⊆ l') :
    s.Reach l' x := by
  induction h with
  | root h => exact .root (sub h)
  | step _ hy ih => exact .step ih hy

@[simp] def Old.nodes : Old → List Node
  | none => []
  | some o => o.2.nodes

@[simp] def Call.nodes (c : Call) : List Node := Values.nodes c.args ++ Bindings.nodes c.named

@[simp] def Flow.nodes : Flow → List Node
  | .returned v => v.nodes
  | .normal | .broken | .continued => []

@[simp] def Awaits.nodes : {a : Awaits} → a.Input → List Node
  | .value, v => Value.nodes v
  | .flow, f => Flow.nodes f

@[simp] def PendingCall.nodes (p : PendingCall) : List Node :=
  .scope p.scope :: (Values.nodes p.callee.toList ++ Values.nodes p.args ++ Bindings.nodes p.named)

@[simp] def Sorting.nodes (o : Sorting) : List Node :=
  o.key.nodes ++ Values.nodes o.items ++ Values.nodes o.keys ++ Values.nodes o.todo

@[simp] def Mapping.nodes (o : Mapping) : List Node :=
  o.callee.nodes ++ Values.nodes o.done ++ Values.nodes o.todo

@[simp] def Hole.nodes : {a b : Awaits} → Hole a b → List Node
  | _, _, .rest _ i | _, _, .branch _ _ i | _, _, .loopTest _ _ i | _, _, .loopBody _ _ i
  | _, _, .eachOver _ _ _ i | _, _, .memberBase _ _ _ _ i | _, _, .itemBase _ _ _ _ i
  | _, _, .left _ _ _ i | _, _, .indexBase _ _ i | _, _, .sliceBase _ _ i => [.scope i]
  | _, _, .eachBody _ todo _ i => .scope i :: Values.nodes todo
  | _, _, .assignName _ _ old i => .scope i :: Old.nodes old
  | _, _, .assignMember _ base _ old => .object base :: Old.nodes old
  | _, _, .itemIndex _ base _ _ i | _, _, .sliceBound _ base _ _ i => .scope i :: base.nodes
  | _, _, .assignItem _ base i old => base.nodes ++ i.nodes ++ Old.nodes old
  | _, _, .right _ _ v | _, _, .index _ v | _, _, .construct v => v.nodes
  | _, _, .listItem done _ i => .scope i :: Values.nodes done
  | _, _, .dictKey _ _ done _ i => .scope i :: Entries.nodes done
  | _, _, .dictValue key done _ i => .scope i :: (key.nodes ++ Entries.nodes done)
  | _, _, .comprehendOver _ c => [.scope c.scope]
  | _, _, .comprehendTest c inner todo done =>
    .scope c.scope :: .scope inner :: (Values.nodes todo ++ Values.nodes done)
  | _, _, .comprehendItem c todo done => .scope c.scope :: (Values.nodes todo ++ Values.nodes done)
  | _, _, .discard | _, _, .leave | _, _, .operand .. | _, _, .member .. | _, _, .body ..
  | _, _, .lambdaBody _ | _, _, .forwarded .. => []

@[simp] def Context.nodes : {a : Awaits} → Context a → List Node
  | _, .program => []
  | _, .fill h k => h.nodes ++ k.nodes
  | _, .argument p k => p.nodes ++ k.nodes
  | _, .sortKey o k => o.nodes ++ k.nodes
  | _, .mapItem o k => o.nodes ++ k.nodes

@[simp] def Task.nodes : Task → List Node
  | .exec _ i k => .scope i :: k.nodes
  | .eval _ i k => .scope i :: k.nodes

@[simp] def Control.nodes : Control → List Node
  | .task t => t.nodes
  | .move (.give x k) => Awaits.nodes x ++ k.nodes
  | .move (.call f c k) => f.nodes ++ c.nodes ++ k.nodes

@[simp] def Resumption.nodes : Resumption → List Node
  | .task t => t.nodes
  | .waited _ _ k => k.nodes

@[simp] def Reaction.nodes {b : Awaits} : Reaction σ b → List Node
  | .give x => Awaits.nodes x
  | .start t => t.nodes
  | .pause _ r => r.nodes

@[simp] def Invocation.nodes : Invocation σ → List Node
  | .react r => r.nodes
  | .again f c k => f.nodes ++ c.nodes ++ k.nodes

@[simp] def Next.nodes : Next σ → List Node
  | .go c => c.nodes
  | .pause _ r => r.nodes
  | .finished _ => []

@[simp] def Event.nodes : Event σ → List Node
  | .programStart _ i | .beforeStatement _ i => [.scope i]
  | .beforeCall _ args _ => Values.nodes args
  | .afterCall _ v _ => v.nodes
  | .onPause _ | .onError _ | .programEnd => []

@[simp] def Reply.nodes : Reply σ → List Node
  | .value v => v.nodes
  | .wait _ | .fault _ => []

/-- The scopes of a machine: that of the globals, and those of the calls in progress. -/
def Machine.nodes (m : Machine σ) : List Node :=
  .scope m.globals :: m.calls.map fun a => .scope a.scope

end Nodes

/-- Objects and scopes, those that are yet to be made among them, the scope of the globals of an
interpreter, and what the state of the host holds on to. -/
structure Realm (σ : Type) where
  objects : Set Addr
  scopes : Set ScopeId
  globals : ScopeId
  held : σ → List Node

namespace Realm

variable {D : Realm σ} {k n : Nat} {s : Store} {l l' l'' : List Node}

/-- The node belongs to the realm, and a scope is one of the first `k`. -/
def Has (D : Realm σ) (k : Nat) : Node → Prop
  | .object a => a ∈ D.objects
  | .scope i => i ∈ D.scopes ∧ i < k

def Holds (D : Realm σ) (k : Nat) (l : List Node) : Prop := ∀ x ∈ l, D.Has k x

/-- If the first nodes belong to the realm, so do the second. -/
@[simp] def Gives (D : Realm σ) (l l' : List Node) : Prop := ∀ k, D.Holds k l → D.Holds k l'

/-- What belongs to the realm holds on to nothing outside of it, and whatever is made will belong to
it. Scopes lie inside of older ones, and of those that are younger than the globals none is an
outermost one. -/
structure Rules (D : Realm σ) (s : Store) : Prop where
  closed : ∀ x, D.Has s.scopes.size x → D.Holds s.scopes.size (s.refs x)
  outer : ∀ i p, D.Has s.scopes.size (.scope i) → (s.scope i).parent = some p → p < i
  inner : ∀ i, D.Has s.scopes.size (.scope i) → D.globals < i → (s.scope i).parent ≠ none
  objects : ∀ a, s.objects.size ≤ a → a ∈ D.objects
  scopes : ∀ i, s.scopes.size ≤ i → i ∈ D.scopes

section Holding

@[simp] theorem holds_nil : D.Holds k [] := by simp [Holds]

@[simp] theorem holds_cons {x : Node} : D.Holds k (x :: l) ↔ D.Has k x ∧ D.Holds k l := by
  simp [Holds]

@[simp] theorem holds_append : D.Holds k (l ++ l') ↔ D.Holds k l ∧ D.Holds k l' := by
  simp [Holds, or_imp, forall_and]

theorem holds_map {ι : Type} {xs : List ι} {f : ι → Node} :
    D.Holds k (xs.map f) ↔ ∀ x ∈ xs, D.Has k (f x) := by
  simp [Holds]

theorem holds_flatMap {ι : Type} {xs : List ι} {f : ι → List Node} :
    D.Holds k (xs.flatMap f) ↔ ∀ x ∈ xs, D.Holds k (f x) := by
  simp only [Holds, List.mem_flatMap]
  constructor
  · intro h x hx y hy
    exact h y ⟨x, hx, hy⟩
  · rintro h y ⟨x, hx, hy⟩
    exact h x hx y hy

theorem holds_values {vs : List Value} :
    D.Holds k (Values.nodes vs) ↔ ∀ v ∈ vs, D.Holds k v.nodes :=
  holds_flatMap

theorem holds_bindings {t : Table String Value} :
    D.Holds k (Bindings.nodes t) ↔ ∀ e ∈ t, D.Holds k e.2.nodes :=
  holds_flatMap

theorem holds_entries {t : Table Value Value} :
    D.Holds k (Entries.nodes t) ↔ ∀ e ∈ t, D.Holds k e.1.nodes ∧ D.Holds k e.2.nodes := by
  simp [Entries.nodes, holds_flatMap]

theorem holds_methods {methods : List (String × Addr)} :
    D.Holds k (Methods.nodes methods) ↔ ∀ e ∈ methods, D.Has k (.object e.2) :=
  holds_map

@[simp] theorem holds_methods_nil : D.Holds k (Methods.nodes []) := by simp [Methods.nodes]

@[simp] theorem holds_methods_cons {e : String × Addr} {methods : List (String × Addr)} :
    D.Holds k (Methods.nodes (e :: methods)) ↔
      D.Has k (.object e.2) ∧ D.Holds k (Methods.nodes methods) := by
  simp [Methods.nodes]

@[simp] theorem holds_values_nil : D.Holds k (Values.nodes []) := by simp [Values.nodes]

@[simp] theorem holds_values_cons {v : Value} {vs : List Value} :
    D.Holds k (Values.nodes (v :: vs)) ↔ D.Holds k v.nodes ∧ D.Holds k (Values.nodes vs) := by
  simp [Values.nodes]

@[simp] theorem holds_values_append {vs ws : List Value} :
    D.Holds k (Values.nodes (vs ++ ws)) ↔
      D.Holds k (Values.nodes vs) ∧ D.Holds k (Values.nodes ws) := by
  simp [Values.nodes]

@[simp] theorem holds_values_reverse {vs : List Value} :
    D.Holds k (Values.nodes vs.reverse) ↔ D.Holds k (Values.nodes vs) := by
  simp [holds_values]

@[simp] theorem holds_bindings_nil : D.Holds k (Bindings.nodes []) := by simp [Bindings.nodes]

@[simp] theorem holds_bindings_cons {e : String × Value} {t : Table String Value} :
    D.Holds k (Bindings.nodes (e :: t)) ↔ D.Holds k e.2.nodes ∧ D.Holds k (Bindings.nodes t) := by
  simp [Bindings.nodes]

@[simp] theorem holds_entries_nil : D.Holds k (Entries.nodes []) := by simp [Entries.nodes]

@[simp] theorem holds_entries_cons {e : Value × Value} {t : Table Value Value} :
    D.Holds k (Entries.nodes (e :: t)) ↔
      (D.Holds k e.1.nodes ∧ D.Holds k e.2.nodes) ∧ D.Holds k (Entries.nodes t) := by
  simp [Entries.nodes, and_assoc]

@[simp] theorem holds_bindings_put {t : Table String Value} (ht : D.Holds k (Bindings.nodes t))
    (name : String) {v : Value} (hv : D.Holds k v.nodes) :
    D.Holds k (Bindings.nodes (t.put name v)) :=
  holds_bindings.mpr
    (Table.values_put (Q := fun v : Value => D.Holds k v.nodes) (holds_bindings.mp ht) hv)

@[simp] theorem holds_entries_put {t : Table Value Value} (ht : D.Holds k (Entries.nodes t))
    {key v : Value} (hk : D.Holds k key.nodes) (hv : D.Holds k v.nodes) :
    D.Holds k (Entries.nodes (t.put key v)) :=
  holds_entries.mpr (Table.forall_put (P := fun v : Value => D.Holds k v.nodes)
    (Q := fun v : Value => D.Holds k v.nodes) (holds_entries.mp ht) hk hv)

theorem Has.mono {x : Node} (h : D.Has k x) (le : k ≤ n) : D.Has n x := by
  cases x with
  | object a => exact h
  | scope i => exact ⟨h.1, h.2.trans_le le⟩

theorem Holds.mono (h : D.Holds k l) (le : k ≤ n) : D.Holds n l :=
  fun x hx => (h x hx).mono le

theorem Gives.trans (h : D.Gives l l') (h' : D.Gives l' l'') : D.Gives l l'' :=
  fun k hk => h' k (h k hk)

end Holding

section Operations

variable {v w : Value}

/-- A computation on a store that comes to nothing outside of the realm. -/
abbrev Brings (D : Realm σ) (s : Store) (f : α → List Node) (x : Except Fault α) : Prop :=
  Ends (fun a => D.Holds s.scopes.size (f a)) (fun _ => True) x

theorem brings_atom (x : Except Fault α) (f : α → Atom) :
    D.Brings s Value.nodes (do return Value.atom (f (← x))) :=
  ends_bind (raises_anything x) fun _ _ => holds_nil

theorem brings_onFloats (op : BinaryOp) (f : Float → Float → Except Fault Float) (v w : Value) :
    D.Brings s Value.nodes (s.onFloats op f v w) := by
  unfold Store.onFloats
  split
  · refine ends_bind (raises_anything _) fun _ _ => ends_bind (raises_anything _) fun _ _ => ?_
    exact brings_atom _ _
  · trivial

theorem brings_onInts (op : BinaryOp) (f : Int → Int → Except Fault Float) (v w : Value) :
    D.Brings s Value.nodes (s.onInts op f v w) := by
  unfold Store.onInts
  split
  · refine ends_bind (raises_anything _) fun _ _ => ends_bind (raises_anything _) fun _ _ => ?_
    exact brings_atom _ _
  · trivial

theorem brings_operate (op : BinaryOp) (v w : Value) :
    D.Brings s Value.nodes (s.operate op v w) := by
  cases op with
  | sub | mul | div | pow => exact brings_onFloats ..
  | mod | bitAnd | bitOr | bitXor | shiftLeft | shiftRight => exact brings_onInts ..
  | eq | ne | lt | gt | le | ge | mem => exact brings_atom _ _
  | same => exact holds_nil
  | or_ | and_ | add | other t => trivial

theorem brings_unary (op : UnaryOp) (v : Value) : D.Brings s Value.nodes (s.unary op v) := by
  unfold Store.unary
  split
  · exact holds_nil
  · trivial
  · exact brings_atom _ _
  · exact brings_atom _ _
  · exact ends_bind (raises_anything _) fun _ _ => brings_atom _ _
  · trivial

theorem brings_best (rule : String) (beats : Ordering) {items : List Value}
    (hi : D.Holds k (Values.nodes items)) :
    Ends (fun v => D.Holds k v.nodes) (fun _ => True) (match items with
      | [] => .error (.of (.emptySequence rule))
      | x :: xs => xs.foldlM (fun best y =>
          return if (← s.compare y best) == beats then y else best) x) := by
  cases items with
  | nil => trivial
  | cons x xs =>
    obtain ⟨first, rest⟩ := holds_values_cons.mp hi
    refine ends_foldlM xs first fun best hb y hy => ?_
    refine ends_bind (raises_anything _) fun o _ => ?_
    change D.Holds k (if (o == beats) = true then y else best).nodes
    split
    · exact holds_values.mp rest y hy
    · exact hb

theorem brings_settable (hv : D.Holds s.scopes.size v.nodes) :
    D.Brings s (fun a => [.object a]) (s.settable v) := by
  unfold Store.settable
  split
  · exact hv
  · trivial

theorem brings_sortBy (reversed : Bool) (keys : List Value) {vs : List Value}
    (hv : D.Holds s.scopes.size (Values.nodes vs)) :
    D.Brings s Values.nodes (s.sortBy reversed keys vs) := by
  refine ends_bind (ends_stableSort (fun _ _ => raises_anything _) reversed _) fun order perm => ?_
  apply holds_values.mpr
  intro w hw
  obtain ⟨p, hp, rfl⟩ := List.mem_map.mp hw
  exact holds_values.mp hv _ (List.of_mem_zip (perm.mem_iff.mp hp)).2

theorem brings_bindNamed (callee : String) (free : List String) {bound named : Table String Value}
    (hb : D.Holds s.scopes.size (Bindings.nodes bound))
    (hn : D.Holds s.scopes.size (Bindings.nodes named)) :
    D.Brings s Bindings.nodes (bindNamed callee free bound named) := by
  induction named generalizing bound with
  | nil => exact hb
  | cons e named ih =>
    obtain ⟨here, rest⟩ := holds_bindings_cons.mp hn
    simp only [bindNamed]
    split_ifs
    · trivial
    · exact ih (holds_bindings_put hb e.1 here) rest
    · trivial

theorem brings_bindArguments (callee : String) (params : List String) (implicit : Nat)
    {args : List Value} {named : Table String Value} (ha : D.Holds s.scopes.size (Values.nodes args))
    (hn : D.Holds s.scopes.size (Bindings.nodes named)) :
    D.Brings s Bindings.nodes (bindArguments callee params args named implicit) := by
  unfold bindArguments
  split
  · trivial
  · have positional : D.Holds s.scopes.size (Bindings.nodes (Table.ofList (params.zip args))) :=
      holds_bindings.mpr (Table.values_ofList (Q := fun v : Value => D.Holds s.scopes.size v.nodes)
        fun e he => holds_values.mp ha _ (List.of_mem_zip he).2)
    refine ends_bind (brings_bindNamed callee _ positional hn) fun bound hb => ?_
    split
    · trivial
    · exact hb

end Operations

namespace Rules

variable (own : D.Rules s) {i o : ScopeId} {a : Addr} {v w : Value} {name : String}

include own

theorem reach (h : D.Holds s.scopes.size l) {x : Node} (hx : s.Reach l x) :
    D.Has s.scopes.size x := by
  induction hx with
  | root hx => exact h _ hx
  | step _ hy ih => exact own.closed _ ih _ hy

theorem read (ha : D.Has s.scopes.size (.object a)) : D.Holds s.scopes.size (s.read a).nodes :=
  own.closed _ ha

theorem object (hv : D.Holds s.scopes.size v.nodes) {o : Obj} (h : s.object? v = some o) :
    D.Holds s.scopes.size o.nodes := by
  cases v with
  | atom c => cases h
  | ref a =>
    cases h
    exact own.read (holds_cons.mp hv).1

theorem bindings (hi : D.Has s.scopes.size (.scope i)) :
    D.Holds s.scopes.size (Bindings.nodes (s.scope i).bindings) :=
  (holds_append.mp (own.closed _ hi)).2

theorem parent {p : ScopeId} (hi : D.Has s.scopes.size (.scope i))
    (hp : (s.scope i).parent = some p) : D.Has s.scopes.size (.scope p) := by
  have around := (holds_append.mp (own.closed _ hi)).1
  rw [hp] at around
  exact (holds_cons.mp around).1

theorem parent? {p : { p : ScopeId // p < i }} (hi : D.Has s.scopes.size (.scope i))
    (hp : s.parent? i = some p) : D.Has s.scopes.size (.scope p) := by
  apply own.parent hi
  unfold Store.parent? at hp
  split at hp
  · next q hq =>
    split at hp
    · rw [← Option.some.inj hp, hq]
    · cases hp
  · cases hp

theorem root (hi : D.Has s.scopes.size (.scope i)) : D.Has s.scopes.size (.scope (s.root i)) := by
  induction i using s.outward with
  | top i h =>
    rw [Store.root_of_none h]
    exact hi
  | inner i p h ih =>
    rw [Store.root_of_parent h]
    exact ih (own.parent? hi h)

theorem owner (hi : D.Has s.scopes.size (.scope i)) (h : s.owner? i name = some o) :
    D.Has s.scopes.size (.scope o) := by
  induction i using s.outward with
  | top i hp =>
    cases hb : (s.scope i).bindings.has name with
    | true =>
      rw [Store.owner?_of_has hb] at h
      cases h
      exact hi
    | false =>
      rw [Store.owner?_of_none hb hp] at h
      cases h
  | inner i p hp ih =>
    cases hb : (s.scope i).bindings.has name with
    | true =>
      rw [Store.owner?_of_has hb] at h
      cases h
      exact hi
    | false =>
      rw [Store.owner?_of_parent hb hp] at h
      exact ih (own.parent? hi hp) h

theorem lookup (hi : D.Has s.scopes.size (.scope i)) :
    D.Brings s Value.nodes (s.lookup i name) := by
  unfold Store.lookup
  split
  · next w found =>
    obtain ⟨o, ho, bound⟩ := Option.bind_eq_some_iff.mp found
    exact holds_bindings.mp (own.bindings (own.owner hi ho)) _ (Table.mem_of_get? bound)
  · trivial

theorem items (hv : D.Holds s.scopes.size v.nodes) : D.Brings s Values.nodes (s.items v) := by
  unfold Store.items
  split
  · apply holds_values.mpr
    intro w hw
    obtain ⟨c, -, rfl⟩ := List.mem_map.mp hw
    exact holds_nil
  · next ho => exact own.object hv ho
  · next es ho =>
    apply holds_values.mpr
    intro w hw
    obtain ⟨e, he, rfl⟩ := List.mem_map.mp hw
    exact (holds_entries.mp (own.object hv ho) e he).1
  · trivial

theorem getIndex (hv : D.Holds s.scopes.size v.nodes) :
    D.Brings s Value.nodes (s.getIndex v w) := by
  unfold Store.getIndex
  split
  · refine ends_bind (raises_anything _) fun k _ => ?_
    split
    · exact holds_nil
    · trivial
  · next xs ho =>
    refine ends_bind (raises_anything _) fun k _ => ?_
    split
    · next y hy =>
      obtain ⟨j, -, hj⟩ := Option.bind_eq_some_iff.mp hy
      exact holds_values.mp (own.object hv ho) _ (List.mem_of_getElem? hj)
    · trivial
  · next es ho =>
    refine ends_bind (raises_anything _) fun _ _ => ?_
    split
    · next y hy =>
      obtain ⟨key, he⟩ := Table.exists_mem_of_get? hy
      exact (holds_entries.mp (own.object hv ho) _ he).2
    · exact ends_bind (raises_anything _) fun _ _ => trivial
  · trivial

theorem method {c : Addr} {cls : String} {methods : Table String Addr}
    (hc : D.Has s.scopes.size (.object c)) (h : s.read c = .cls cls methods) {f : Addr}
    (hf : methods.get? name = some f) : D.Has s.scopes.size (.object f) := by
  have held := own.read hc
  rw [h] at held
  exact holds_methods.mp held _ (Table.mem_of_get? hf)

theorem getMember (hv : D.Holds s.scopes.size v.nodes) :
    D.Brings s Made.nodes (s.getMember v name) := by
  cases v with
  | atom c => trivial
  | ref a =>
    have here := (holds_cons.mp hv).1
    have held := own.read here
    simp only [Store.getMember]
    split
    · next es ho =>
      rw [ho] at held
      split
      · next y hy =>
        obtain ⟨key, he⟩ := Table.exists_mem_of_get? hy
        exact (holds_entries.mp held _ he).2
      · trivial
    · next c fields ho =>
      rw [ho] at held
      obtain ⟨hc, fields⟩ := holds_cons.mp held
      split
      · next hy => exact holds_bindings.mp fields _ (Table.mem_of_get? hy)
      · split
        · next hcls =>
          split
          · next hf => exact holds_cons.mpr ⟨here, holds_cons.mpr ⟨own.method hc hcls hf, holds_nil⟩⟩
          · trivial
        · trivial
    · next hcls =>
      split
      · next hf => exact holds_cons.mpr ⟨own.method here hcls hf, holds_nil⟩
      · trivial
    · trivial

theorem slice (hv : D.Holds s.scopes.size v.nodes) (start stop step : Option Int) :
    D.Holds s.scopes.size (s.slice v start stop step).nodes := by
  unfold Store.slice
  split
  · exact holds_nil
  · next xs ho =>
    apply holds_values.mpr
    intro w hw
    exact holds_values.mp (own.object hv ho) w (mem_of_sliceOf hw)
  · exact hv

theorem binary (op : BinaryOp) (hv : D.Holds s.scopes.size v.nodes)
    (hw : D.Holds s.scopes.size w.nodes) : D.Brings s Made.nodes (s.binary op v w) := by
  unfold Store.binary
  split
  · unfold Store.plus
    split
    · exact holds_nil
    · split
      · next hx hy => exact holds_values_append.mpr ⟨own.object hv hx, own.object hw hy⟩
      · exact ends_map (brings_onFloats ..)
  · exact ends_map (brings_operate ..)

theorem setIndex {index : Value} (hv : D.Holds s.scopes.size v.nodes)
    (hi : D.Holds s.scopes.size index.nodes) (hw : D.Holds s.scopes.size w.nodes) :
    D.Brings s (fun p => p.2.nodes) (s.setIndex v index w) := by
  cases v with
  | atom c => trivial
  | ref b =>
    have held := own.read (holds_cons.mp hv).1
    simp only [Store.setIndex]
    split
    · next xs hb =>
      rw [hb] at held
      refine ends_bind (raises_anything _) fun k _ => ?_
      split
      · apply holds_values.mpr
        intro y hy
        rcases List.mem_or_eq_of_mem_set hy with hy | rfl
        · exact holds_values.mp held y hy
        · exact hw
      · trivial
    · next es hb =>
      rw [hb] at held
      refine ends_bind (raises_anything _) fun _ _ => ?_
      exact holds_entries_put held hi hw
    · trivial

theorem extreme (rule : String) (beats : Ordering) {args : List Value}
    (ha : D.Holds s.scopes.size (Values.nodes args)) :
    D.Brings s Value.nodes (s.extreme rule beats args) := by
  unfold Store.extreme
  split
  · exact ends_bind (own.items (holds_values_cons.mp ha).1) fun items hi => brings_best rule beats hi
  · exact brings_best rule beats ha

section Changes

variable {t : Store}

omit own in
theorem scope_openScope (s : Store) (parent : Option ScopeId) (bindings : Table String Value)
    (i : ScopeId) : (s.openScope parent bindings).2.scope i =
      if i = s.scopes.size then ⟨parent, bindings⟩ else s.scope i := by
  simp only [Store.scope, Store.openScope, Array.getD_eq_getD_getElem?, Array.getElem?_push]
  split <;> rfl

/-- A change of objects alone. -/
theorem objects_changed (scopes : t.scopes = s.scopes) (size : s.objects.size ≤ t.objects.size)
    (h : ∀ a, D.Has s.scopes.size (.object a) → D.Holds s.scopes.size (t.read a).nodes) :
    D.Rules t := by
  have same (i : ScopeId) : t.scope i = s.scope i := by rw [Store.scope, Store.scope, scopes]
  constructor
  · rw [scopes]
    intro x hx
    cases x with
    | object a => exact h a hx
    | scope i =>
      rw [Store.refs, same]
      exact own.closed _ hx
  · rw [scopes]
    intro i p hi
    rw [same]
    exact own.outer i p hi
  · rw [scopes]
    intro i hi
    rw [same]
    exact own.inner i hi
  · exact fun a ha => own.objects a (size.trans ha)
  · exact fun i hi => own.scopes i (scopes ▸ hi)

theorem alloc {o : Obj} (ho : D.Holds s.scopes.size o.nodes) : D.Rules (s.alloc o).2 := by
  apply own.objects_changed (by rfl)
  · simp [Store.alloc]
  · intro a ha
    rw [Store.read_alloc]
    split
    · exact ho
    · exact own.read ha

theorem write (a : Addr) {o : Obj} (ho : D.Holds s.scopes.size o.nodes) : D.Rules (s.write a o) := by
  apply own.objects_changed (by rfl)
  · simp [Store.write]
  · intro b hb
    rw [Store.read_write]
    split
    · exact ho
    · exact own.read hb

theorem setField (ha : D.Has s.scopes.size (.object a)) (name : String)
    (hv : D.Holds s.scopes.size v.nodes) : D.Rules (s.setField a name v) := by
  have held := own.read ha
  unfold Store.setField
  split
  · next c fields e =>
    rw [e] at held
    obtain ⟨hc, fields⟩ := holds_cons.mp held
    exact own.write a (holds_cons.mpr ⟨hc, holds_bindings_put fields name hv⟩)
  · exact own

theorem define (hi : D.Has s.scopes.size (.scope i)) (name : String)
    (hv : D.Holds s.scopes.size v.nodes) : D.Rules (s.define i name v) := by
  have size : (s.define i name v).scopes.size = s.scopes.size := by simp [Store.define]
  have parents (k : ScopeId) : ((s.define i name v).scope k).parent = (s.scope k).parent :=
    Store.parent_define hi.2 k
  constructor
  · rw [size]
    intro x hx
    cases x with
    | object a => exact own.closed _ hx
    | scope k =>
      obtain ⟨around, bound⟩ := holds_append.mp (own.closed _ hx)
      rw [Store.refs, Store.scope_define hi.2]
      split
      · exact holds_append.mpr ⟨around, holds_bindings_put bound name hv⟩
      · exact holds_append.mpr ⟨around, bound⟩
  · rw [size]
    intro k p hk
    rw [parents]
    exact own.outer k p hk
  · rw [size]
    intro k hk
    rw [parents]
    exact own.inner k hk
  · exact own.objects
  · exact fun k hk => own.scopes k (size ▸ hk)

/-- A scope is opened inside of another one, or it is that of the globals. -/
theorem openScope {parent : Option ScopeId} (hp : ∀ p ∈ parent, D.Has s.scopes.size (.scope p))
    (top : parent = none → s.scopes.size = D.globals) {bindings : Table String Value}
    (hb : D.Holds s.scopes.size (Bindings.nodes bindings)) :
    D.Rules (s.openScope parent bindings).2 := by
  have size : (s.openScope parent bindings).2.scopes.size = s.scopes.size + 1 := by
    simp [Store.openScope]
  have older {k : ScopeId} (hk : D.Has (s.scopes.size + 1) (.scope k)) (ne : k ≠ s.scopes.size) :
      D.Has s.scopes.size (.scope k) :=
    ⟨hk.1, Nat.lt_of_le_of_ne (Nat.le_of_lt_succ hk.2) ne⟩
  constructor
  · rw [size]
    intro x hx
    cases x with
    | object a => exact (own.closed (.object a) hx).mono (Nat.le_succ _)
    | scope k =>
      rw [Store.refs, scope_openScope]
      split
      · have around : D.Holds s.scopes.size (parent.toList.map .scope) :=
          holds_map.mpr fun p hmem => hp p (Option.mem_toList.mp hmem)
        exact (holds_append.mpr ⟨around, hb⟩).mono (Nat.le_succ _)
      · next ne => exact (own.closed _ (older hx ne)).mono (Nat.le_succ _)
  · rw [size]
    intro k p hk
    rw [scope_openScope]
    split
    · next e =>
      intro h
      exact e ▸ (hp p h).2
    · next ne => exact own.outer k p (older hk ne)
  · rw [size]
    intro k hk later
    rw [scope_openScope]
    split
    · next e =>
      intro h
      exact later.ne' (e.trans (top h))
    · next ne => exact own.inner k (older hk ne) later
  · exact own.objects
  · intro k hk
    rw [size] at hk
    exact own.scopes k (Nat.le_of_succ_le hk)

end Changes

end Rules

end Realm

end LoopScript
