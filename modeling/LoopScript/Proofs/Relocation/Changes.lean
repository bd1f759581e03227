import LoopScript.Proofs.Relocation.Operations
import LoopScript.Scope

/-!
Scopes and changes of moved stores. Both stores find the same names in corresponding scopes. A change is
made to linked things only, so that all else is kept; what a change adds is linked from then on.
-/

namespace LoopScript

section Names

variable {L : Link} {s t : Store} {i j : ScopeId} {x : String}

theorem scope_eq {p : Scope} (h : s.scopes[i]? = some p) : s.scope i = p := by
  simp only [Store.scope, Array.getD_eq_getD_getElem?, h, Option.getD_some]

theorem parent?_eq_some {p : Scope} {k : ScopeId} (h : s.scopes[i]? = some p)
    (hp : p.parent = some k) (hk : k < i) : s.parent? i = some ⟨k, hk⟩ := by
  simp only [Store.parent?, scope_eq h, hp, hk, dite_true]

theorem parent?_eq_none {p : Scope} (h : s.scopes[i]? = some p) (hp : p.parent = none) :
    s.parent? i = none := by
  simp only [Store.parent?, scope_eq h, hp]

variable (hs : s.Moved L t)

include hs

/-- The scopes that bind a name for code that may use it. The name is found among the globals only if
code may use it there, and so for a name that code may assign. -/
theorem owner?_moved (hij : L.scopes i j) (hx : x ∈ L.usable i) :
    Option.Rel (fun o o' => L.scopes o o' ∧ (o = L.root → x ∈ L.usable L.root) ∧
      (x ∈ L.assignable i → o = L.root → x ∈ L.assignable L.root))
      (s.owner? i x) (t.owner? j x) := by
  -- both searches go outward, and end at the globals of their store together
  induction i using Nat.strong_induction_on generalizing j with
  | _ i ih =>
    rw [Store.owner?, Store.owner?]
    by_cases hi : i = L.root
    · obtain ⟨p, q, hp, hq, pp, qp, globals⟩ := hs.root
      have hj := (L.root_iff hij).mp hi
      subst hi hj
      have same : p.bindings.has x = q.bindings.has x := by
        unfold Table.has
        match p.bindings.get? x, q.bindings.get? x, globals x hx with
        | _, _, .none => rfl
        | _, _, .some _ => rfl
      rw [scope_eq hp, scope_eq hq, parent?_eq_none hp pp, parent?_eq_none hq qp, same]
      split
      · exact .some ⟨hij, fun _ => hx, fun h _ => h⟩
      · exact .none
    · obtain ⟨p, q, hp, hq, moved⟩ := hs.scope hij hi
      obtain ⟨i', j', pp, qp, hi', hj', around, usable, assignable⟩ := moved.parent
      rw [scope_eq hp, scope_eq hq, parent?_eq_some hp pp hi', parent?_eq_some hq qp hj',
        Table.has_alike moved.bindings x]
      split
      · exact .some ⟨hij, fun h => absurd h hi, fun _ h => absurd h hi⟩
      · next free =>
        rw [← Table.has_alike moved.bindings x, Bool.not_eq_true] at free
        dsimp only
        match s.owner? i' x, t.owner? j' x, ih i' hi' around (usable x hx free) with
        | _, _, .none => exact .none
        | _, _, .some h => exact .some ⟨h.1, h.2.1, fun hw => h.2.2 (assignable x hw free)⟩

theorem lookup?_moved (hij : L.scopes i j) (hx : x ∈ L.usable i) :
    Option.Rel (Value.Moved L) (s.lookup? i x) (t.lookup? j x) := by
  unfold Store.lookup?
  match s.owner? i x, t.owner? j x, owner?_moved hs hij hx with
  | _, _, .none => exact .none
  | _, _, @Option.Rel.some _ _ _ o o' h =>
    by_cases ho : o = L.root
    · obtain ⟨p, q, hp, hq, -, -, globals⟩ := hs.root
      have ho' := (L.root_iff h.1).mp ho
      subst ho ho'
      simp only [Option.bind_some, scope_eq hp, scope_eq hq]
      exact globals x (h.2.1 rfl)
    · obtain ⟨p, q, hp, hq, moved⟩ := hs.scope h.1 ho
      simp only [Option.bind_some, scope_eq hp, scope_eq hq]
      exact Table.get?_alike moved.bindings x

theorem lookup_moved (hij : L.scopes i j) (hx : x ∈ L.usable i) :
    Concur (Value.Moved L) (s.lookup i x) (t.lookup j x) := by
  unfold Store.lookup
  match s.lookup? i x, t.lookup? j x, lookup?_moved hs hij hx with
  | _, _, .none => exact .error _
  | _, _, .some h => exact .ok h

end Names

/-- The part of a store that code may change: objects and scopes, and globals of certain names. -/
structure Region where
  objects : Set Addr
  scopes : Set ScopeId
  root : ScopeId
  names : Set String

namespace Link

def domain (L : Link) : Region :=
  ⟨{a | ∃ b, L.objects a b}, {i | ∃ j, L.scopes i j}, L.root, L.assignable L.root⟩

def range (L : Link) : Region :=
  ⟨{b | ∃ a, L.objects a b}, {j | ∃ i, L.scopes i j}, L.root, L.assignable L.root⟩

end Link

/-- A store that was changed within a region. Built-in functions are kept in any case. -/
structure Store.Keeps (R : Region) (s s' : Store) : Prop where
  objects_size : s.objects.size ≤ s'.objects.size
  scopes_size : s.scopes.size ≤ s'.scopes.size
  object : ∀ {a o}, s.objects[a]? = some o → (a ∈ R.objects → ∃ name, o = .builtin name) →
    s'.objects[a]? = some o
  scope : ∀ {i p}, s.scopes[i]? = some p → i ∉ R.scopes → i ≠ R.root → s'.scopes[i]? = some p
  root : ∀ {p}, s.scopes[R.root]? = some p → ∃ p', s'.scopes[R.root]? = some p' ∧
    p'.parent = p.parent ∧ ∀ x ∉ R.names, p'.bindings.get? x = p.bindings.get? x

namespace Store.Keeps

variable {R R' : Region} {s s' s'' : Store}

theorem refl (R : Region) (s : Store) : s.Keeps R s :=
  ⟨le_rfl, le_rfl, fun h _ => h, fun h _ _ => h, fun {p} h => ⟨p, h, rfl, fun _ _ => rfl⟩⟩

theorem trans (h : s.Keeps R s') (g : s'.Keeps R' s'') (root : R'.root = R.root)
    (names : R'.names = R.names) (objects : ∀ a ∈ R'.objects, a ∈ R.objects ∨ s.objects.size ≤ a)
    (scopes : ∀ i ∈ R'.scopes, i ∈ R.scopes ∨ s.scopes.size ≤ i) : s.Keeps R s'' where
  objects_size := h.objects_size.trans g.objects_size
  scopes_size := h.scopes_size.trans g.scopes_size
  object {a o} ha hb := by
    have inside := (Array.getElem?_eq_some_iff.mp ha).1
    refine g.object (h.object ha hb) fun hR => ?_
    rcases objects a hR with hR | hR
    · exact hb hR
    · omega
  scope {i p} hi hn hr := by
    have inside := (Array.getElem?_eq_some_iff.mp hi).1
    refine g.scope (h.scope hi hn hr) (fun hR => ?_) (root ▸ hr)
    rcases scopes i hR with hR | hR
    · exact hn hR
    · omega
  root {p} hp := by
    obtain ⟨p', hp', parent, same⟩ := h.root hp
    obtain ⟨p'', hp'', parent', same'⟩ := g.root (root ▸ hp')
    refine ⟨p'', root ▸ hp'', parent'.trans parent, fun x hx => ?_⟩
    rw [same' x (names ▸ hx), same x hx]

end Store.Keeps

/-- Two stores that go on side by side, and the links between them. -/
structure Link.Evolves (L L' : Link) (s s' t t' : Store) : Prop where
  le : L ≤ L'
  objects : ∀ {a b}, L'.objects a b → L.objects a b ∨ s.objects.size ≤ a ∧ t.objects.size ≤ b
  scopes : ∀ {i j}, L'.scopes i j → L.scopes i j ∨ s.scopes.size ≤ i ∧ t.scopes.size ≤ j
  left : s.Keeps L.domain s'
  right : t.Keeps L.range t'

namespace Link.Evolves

variable {L L' L'' : Link} {s s' s'' t t' t'' : Store}

theorem of_keeps (left : s.Keeps L.domain s') (right : t.Keeps L.range t') :
    L.Evolves L s s' t t' :=
  ⟨le_rfl, .inl, .inl, left, right⟩

theorem refl (L : Link) (s t : Store) : L.Evolves L s s t t :=
  of_keeps (.refl _ _) (.refl _ _)

variable (h : L.Evolves L' s s' t t')

include h

theorem keeps_left (g : s'.Keeps L'.domain s'') : s.Keeps L.domain s'' := by
  refine h.left.trans g h.le.root ?_ ?_ ?_
  · rw [Link.domain, h.le.root, h.le.assignable L.root_linked, Link.domain]
  · rintro a ⟨b, hab⟩
    exact (h.objects hab).imp (fun hab => ⟨b, hab⟩) And.left
  · rintro i ⟨j, hij⟩
    exact (h.scopes hij).imp (fun hij => ⟨j, hij⟩) And.left

theorem keeps_right (g : t'.Keeps L'.range t'') : t.Keeps L.range t'' := by
  refine h.right.trans g h.le.root ?_ ?_ ?_
  · rw [Link.range, h.le.root, h.le.assignable L.root_linked, Link.range]
  · rintro b ⟨a, hab⟩
    exact (h.objects hab).imp (fun hab => ⟨a, hab⟩) And.right
  · rintro j ⟨i, hij⟩
    exact (h.scopes hij).imp (fun hij => ⟨i, hij⟩) And.right

theorem trans (g : L'.Evolves L'' s' s'' t' t'') : L.Evolves L'' s s'' t t'' where
  le := h.le.trans g.le
  objects hab := by
    rcases g.objects hab with hab | ⟨ha, hb⟩
    · exact h.objects hab
    · exact .inr ⟨h.left.objects_size.trans ha, h.right.objects_size.trans hb⟩
  scopes hij := by
    rcases g.scopes hij with hij | ⟨hi, hj⟩
    · exact h.scopes hij
    · exact .inr ⟨h.left.scopes_size.trans hi, h.right.scopes_size.trans hj⟩
  left := h.keeps_left g.left
  right := h.keeps_right g.right

end Link.Evolves

namespace Link

def withObject (L : Link) (a b : Addr) (ha : ∀ b', ¬ L.objects a b') (hb : ∀ a', ¬ L.objects a' b) :
    Link :=
  { L with
    objects := fun x y => L.objects x y ∨ x = a ∧ y = b
    objects_iff := by
      rintro x y x' y' (h | ⟨rfl, rfl⟩) (h' | ⟨rfl, rfl⟩)
      · exact L.objects_iff h h'
      · exact iff_of_false (by rintro rfl; exact ha _ h) (by rintro rfl; exact hb _ h)
      · exact iff_of_false (by rintro rfl; exact ha _ h') (by rintro rfl; exact hb _ h')
      · exact iff_of_true rfl rfl }

/-- Links two new scopes, and says what code may use and assign in them. -/
def withScope (L : Link) (i j : ScopeId) (hi : ∀ j', ¬ L.scopes i j') (hj : ∀ i', ¬ L.scopes i' j)
    (usable assignable : Set String) (sub : assignable ⊆ usable) : Link :=
  { L with
    scopes := fun x y => L.scopes x y ∨ x = i ∧ y = j
    scopes_iff := by
      rintro x y x' y' (h | ⟨rfl, rfl⟩) (h' | ⟨rfl, rfl⟩)
      · exact L.scopes_iff h h'
      · exact iff_of_false (by rintro rfl; exact hi _ h) (by rintro rfl; exact hj _ h)
      · exact iff_of_false (by rintro rfl; exact hi _ h') (by rintro rfl; exact hj _ h')
      · exact iff_of_true rfl rfl
    root_linked := .inl L.root_linked
    usable := Function.update L.usable i usable
    assignable := Function.update L.assignable i assignable
    assignable_subset := by
      intro k
      by_cases h : k = i
      · subst h
        simpa using sub
      · simpa [h] using L.assignable_subset k }

end Link

section Changes

variable {L : Link} {s t : Store}

theorem Store.Moved.object_lt (hs : s.Moved L t) {a b : Addr} (h : L.objects a b) :
    a < s.objects.size ∧ b < t.objects.size := by
  obtain ⟨o, o', ho, ho', -⟩ := hs.object h
  exact ⟨(Array.getElem?_eq_some_iff.mp ho).1, (Array.getElem?_eq_some_iff.mp ho').1⟩

theorem Store.Moved.scope_lt (hs : s.Moved L t) {i j : ScopeId} (h : L.scopes i j) :
    i < s.scopes.size ∧ j < t.scopes.size := by
  by_cases hi : i = L.root
  · obtain ⟨p, q, hp, hq, -⟩ := hs.root
    have hj := (L.root_iff h).mp hi
    subst hi hj
    exact ⟨(Array.getElem?_eq_some_iff.mp hp).1, (Array.getElem?_eq_some_iff.mp hq).1⟩
  · obtain ⟨p, q, hp, hq, -⟩ := hs.scope h hi
    exact ⟨(Array.getElem?_eq_some_iff.mp hp).1, (Array.getElem?_eq_some_iff.mp hq).1⟩

theorem getElem?_push_of_some {α : Type} {xs : Array α} {i : Nat} {x y : α} (h : xs[i]? = some x) :
    (xs.push y)[i]? = some x := by
  rw [Array.getElem?_push, if_neg (Nat.ne_of_lt (Array.getElem?_eq_some_iff.mp h).1), h]

theorem keeps_push_object (R : Region) (s : Store) (o : Obj) :
    s.Keeps R { s with objects := s.objects.push o } where
  objects_size := by simp
  scopes_size := le_rfl
  object h _ := getElem?_push_of_some h
  scope h _ _ := h
  root {p} h := ⟨p, h, rfl, fun _ _ => rfl⟩

theorem keeps_push_scope (R : Region) (s : Store) (p : Scope) :
    s.Keeps R { s with scopes := s.scopes.push p } where
  objects_size := le_rfl
  scopes_size := by simp
  object h _ := h
  scope h _ _ := getElem?_push_of_some h
  root {p} h := ⟨p, getElem?_push_of_some h, rfl, fun _ _ => rfl⟩

theorem alloc_moved (hs : s.Moved L t) {o o' : Obj} (ho : o.Moved L o') :
    ∃ L', L.Evolves L' s (s.alloc o).2 t (t.alloc o').2 ∧ (s.alloc o).2.Moved L' (t.alloc o').2 ∧
      (s.alloc o).1.Moved L' (t.alloc o').1 := by
  let L' := L.withObject s.objects.size t.objects.size
    (fun _ h => absurd (hs.object_lt h).1 (Nat.lt_irrefl _))
    (fun _ h => absurd (hs.object_lt h).2 (Nat.lt_irrefl _))
  have le : L ≤ L' := ⟨.inl, id, rfl, fun _ => rfl, fun _ => rfl⟩
  refine ⟨L', ⟨le, ?_, .inl, keeps_push_object _ s o, keeps_push_object _ t o'⟩, ?_, ?_⟩
  · rintro a b (h | ⟨rfl, rfl⟩)
    · exact .inl h
    · exact .inr ⟨le_rfl, le_rfl⟩
  · refine ⟨?_, ?_, ?_⟩
    · rintro a b (h | ⟨rfl, rfl⟩)
      · obtain ⟨u, u', hu, hu', moved⟩ := hs.object h
        exact ⟨u, u', getElem?_push_of_some hu, getElem?_push_of_some hu', moved.mono le⟩
      · exact ⟨o, o', by simp [Store.alloc], by simp [Store.alloc], ho.mono le⟩
    · intro i j h hi
      obtain ⟨p, q, hp, hq, moved⟩ := hs.scope h hi
      exact ⟨p, q, hp, hq, moved.mono le h⟩
    · obtain ⟨p, q, hp, hq, pp, qp, globals⟩ := hs.root
      exact ⟨p, q, hp, hq, pp, qp, fun x hx => Value.Moved.mono_option le (globals x hx)⟩
  · exact .ref (.inr ⟨rfl, rfl⟩)

theorem openScope_moved (hs : s.Moved L t) {p q : ScopeId} (hpq : L.scopes p q)
    {bindings bindings' : Table String Value}
    (hb : Table.Paired Eq (Value.Moved L) bindings bindings') (names : Set String)
    (hn : ∀ x ∈ names, bindings.has x = true) :
    ∃ L', L.Evolves L' s (s.openScope (some p) bindings).2 t (t.openScope (some q) bindings').2 ∧
      (s.openScope (some p) bindings).2.Moved L' (t.openScope (some q) bindings').2 ∧
      L'.scopes s.scopes.size t.scopes.size ∧
      L'.usable s.scopes.size = L.usable p ∪ names ∧
      L'.assignable s.scopes.size = L.assignable p ∪ names := by
  have hp := hs.scope_lt hpq
  let L' := L.withScope s.scopes.size t.scopes.size
    (fun _ h => absurd (hs.scope_lt h).1 (Nat.lt_irrefl _))
    (fun _ h => absurd (hs.scope_lt h).2 (Nat.lt_irrefl _))
    (L.usable p ∪ names) (L.assignable p ∪ names)
    (Set.union_subset_union_left _ (L.assignable_subset p))
  have old {i j : ScopeId} (h : L.scopes i j) : i ≠ s.scopes.size :=
    Nat.ne_of_lt (hs.scope_lt h).1
  have le : L ≤ L' := ⟨id, .inl, rfl, fun h => Function.update_of_ne (old h) _ _,
    fun h => Function.update_of_ne (old h) _ _⟩
  refine ⟨L', ⟨le, .inl, ?_, keeps_push_scope _ s _, keeps_push_scope _ t _⟩, ?_, .inr ⟨rfl, rfl⟩,
    Function.update_self .., Function.update_self ..⟩
  · rintro i j (h | ⟨rfl, rfl⟩)
    · exact .inl h
    · exact .inr ⟨le_rfl, le_rfl⟩
  · refine ⟨?_, ?_, ?_⟩
    · intro a b h
      obtain ⟨u, u', hu, hu', moved⟩ := hs.object h
      exact ⟨u, u', hu, hu', moved.mono le⟩
    · rintro i j (h | ⟨rfl, rfl⟩) hi
      · obtain ⟨u, u', hu, hu', moved⟩ := hs.scope h hi
        exact ⟨u, u', getElem?_push_of_some hu, getElem?_push_of_some hu', moved.mono le h⟩
      · refine ⟨⟨some p, bindings⟩, ⟨some q, bindings'⟩, by simp [Store.openScope],
          by simp [Store.openScope], ⟨p, q, rfl, rfl, hp.1, hp.2, .inl hpq, ?_, ?_⟩,
          Value.Moved.mono_table le hb⟩
        · intro x hx free
          rw [show L'.usable s.scopes.size = _ from Function.update_self ..] at hx
          rw [le.usable hpq]
          exact hx.resolve_right fun hx => absurd (hn x hx) (by simpa using free)
        · intro x hx free
          rw [show L'.assignable s.scopes.size = _ from Function.update_self ..] at hx
          rw [le.assignable hpq]
          exact hx.resolve_right fun hx => absurd (hn x hx) (by simpa using free)
    · obtain ⟨u, u', hu, hu', pp, qp, globals⟩ := hs.root
      refine ⟨u, u', getElem?_push_of_some hu, getElem?_push_of_some hu', pp, qp, fun x hx => ?_⟩
      rw [le.root, le.usable L.root_linked] at hx
      exact Value.Moved.mono_option le (globals x hx)

theorem getElem?_define (s : Store) (i k : ScopeId) (x : String) (v : Value) :
    (s.define i x v).scopes[k]? =
      (s.scopes[k]?).map fun p => if i = k then { p with bindings := p.bindings.put x v } else p := by
  simp only [Store.define, Array.getElem?_modify]
  split <;> simp

theorem keeps_define {R : Region} {s : Store} {i : ScopeId} {x : String} {v : Value}
    (hi : i ∈ R.scopes) (hx : i = R.root → x ∈ R.names) : s.Keeps R (s.define i x v) where
  objects_size := le_rfl
  scopes_size := by simp [Store.define]
  object h _ := h
  scope {k p} h hk hr := by
    have ne : i ≠ k := by
      rintro rfl
      exact hk hi
    rw [getElem?_define, h, Option.map_some, if_neg ne]
  root {p} h := by
    rw [getElem?_define, h, Option.map_some]
    refine ⟨_, rfl, ?_⟩
    split_ifs with hr
    · refine ⟨rfl, fun y hy => Table.get?_put_of_ne _ _ ?_⟩
      rintro rfl
      exact hy (hx hr)
    · exact ⟨rfl, fun _ _ => rfl⟩

theorem define_moved (hs : s.Moved L t) {i j : ScopeId} (hij : L.scopes i j) (x : String)
    {v w : Value} (hv : v.Moved L w) : (s.define i x v).Moved L (t.define j x w) where
  object h := hs.object h
  scope {i' j'} h hi := by
    obtain ⟨p, q, hp, hq, moved⟩ := hs.scope h hi
    have same := L.scopes_iff hij h
    rw [getElem?_define, getElem?_define, hp, hq, Option.map_some, Option.map_some]
    refine ⟨_, _, rfl, rfl, ?_⟩
    split_ifs with h1 h2 h2
    · obtain ⟨i'', j'', pp, qp, hi, hj, around, usable, assignable⟩ := moved.parent
      have free {y : String} (h : (p.bindings.put x v).has y = false) : p.bindings.has y = false := by
        rw [Table.has_put, Bool.or_eq_false_iff] at h
        exact h.2
      exact ⟨⟨i'', j'', pp, qp, hi, hj, around, fun y hy h => usable y hy (free h),
        fun y hy h => assignable y hy (free h)⟩, Table.put_alike moved.bindings x hv⟩
    · exact absurd (same.mp h1) h2
    · exact absurd (same.mpr h2) h1
    · exact moved
  root := by
    obtain ⟨p, q, hp, hq, pp, qp, globals⟩ := hs.root
    have same := L.root_iff hij
    rw [getElem?_define, getElem?_define, hp, hq, Option.map_some, Option.map_some]
    refine ⟨_, _, rfl, rfl, ?_⟩
    split_ifs with h1 h2 h2
    · refine ⟨pp, qp, fun y hy => ?_⟩
      by_cases hxy : x = y
      · subst hxy
        rw [Table.get?_put_self, Table.get?_put_self]
        exact .some hv
      · rw [Table.get?_put_of_ne _ _ hxy, Table.get?_put_of_ne _ _ hxy]
        exact globals y hy
    · exact absurd (same.mp h1) h2
    · exact absurd (same.mpr h2) h1
    · exact ⟨pp, qp, globals⟩

theorem getElem?_write (s : Store) (a c : Addr) (o : Obj) :
    (s.write a o).objects[c]? = (s.objects[c]?).map fun u => if a = c then o else u := by
  simp only [Store.write, Array.getElem?_setIfInBounds]
  split_ifs with h hl
  · subst h
    simp [Array.getElem?_eq_getElem hl]
  · subst h
    simp [Array.getElem?_eq_none (Nat.le_of_not_lt hl)]
  · simp

theorem keeps_write {R : Region} {s : Store} {a : Addr} {o : Obj} (ha : a ∈ R.objects)
    (hb : ∀ name, s.objects[a]? ≠ some (.builtin name)) : s.Keeps R (s.write a o) where
  objects_size := by simp [Store.write]
  scopes_size := le_rfl
  object {c u} h hc := by
    rw [getElem?_write, h, Option.map_some]
    split_ifs with e
    · subst e
      obtain ⟨name, rfl⟩ := hc ha
      exact absurd h (hb name)
    · rfl
  scope h _ _ := h
  root {p} h := ⟨p, h, rfl, fun _ _ => rfl⟩

theorem write_moved (hs : s.Moved L t) {a b : Addr} (hab : L.objects a b) {o o' : Obj}
    (ho : o.Moved L o') : (s.write a o).Moved L (t.write b o') where
  object {c d} h := by
    obtain ⟨u, u', hu, hu', moved⟩ := hs.object h
    have same := L.objects_iff hab h
    rw [getElem?_write, getElem?_write, hu, hu', Option.map_some, Option.map_some]
    refine ⟨_, _, rfl, rfl, ?_⟩
    split_ifs with h1 h2 h2
    · exact ho
    · exact absurd (same.mp h1) h2
    · exact absurd (same.mpr h2) h1
    · exact moved
  scope h hi := hs.scope h hi
  root := hs.root

theorem Store.Moved.not_builtin (hs : s.Moved L t) {a b : Addr} (hab : L.objects a b)
    (h : ∀ name, s.read a ≠ .builtin name) : (∀ name, s.objects[a]? ≠ some (.builtin name)) ∧
      ∀ name, t.objects[b]? ≠ some (.builtin name) := by
  obtain ⟨u, u', hu, hu', moved⟩ := hs.object hab
  have read : s.read a = u := by
    simp only [Store.read, Array.getD_eq_getD_getElem?, hu, Option.getD_some]
  rw [read] at h
  constructor
  · rintro name e
    rw [hu] at e
    exact h name (Option.some.inj e)
  · rintro name e
    rw [hu'] at e
    cases moved with
    | builtin name' => exact h name' rfl
    | list | dict | function | lambda | cls | instance_ | method => cases e

theorem write_evolves (hs : s.Moved L t) {a b : Addr} (hab : L.objects a b)
    (h : ∀ name, s.read a ≠ .builtin name) (o o' : Obj) :
    L.Evolves L s (s.write a o) t (t.write b o') := by
  obtain ⟨left, right⟩ := hs.not_builtin hab h
  exact .of_keeps (keeps_write ⟨b, hab⟩ left) (keeps_write ⟨a, hab⟩ right)

theorem define_evolves {i j : ScopeId} (hij : L.scopes i j) {x : String}
    (hx : i = L.root → x ∈ L.assignable L.root) (v w : Value) :
    L.Evolves L s (s.define i x v) t (t.define j x w) :=
  .of_keeps (keeps_define ⟨j, hij⟩ hx) (keeps_define ⟨i, hij⟩ fun h => hx ((L.root_iff hij).mpr h))

theorem assign_moved (hs : s.Moved L t) {i j : ScopeId} (hij : L.scopes i j) {x : String}
    (hx : x ∈ L.assignable i) {v w : Value} (hv : v.Moved L w) :
    L.Evolves L s (s.assign i x v) t (t.assign j x w) ∧
      (s.assign i x v).Moved L (t.assign j x w) := by
  unfold Store.assign
  match s.owner? i x, t.owner? j x, owner?_moved hs hij (L.assignable_subset i hx) with
  | _, _, .none => exact ⟨define_evolves hij (fun h => h ▸ hx) v w, define_moved hs hij x hv⟩
  | _, _, .some h =>
    exact ⟨define_evolves h.1 (h.2.2 hx) v w, define_moved hs h.1 x hv⟩

theorem setField_moved (hs : s.Moved L t) {a b : Addr} (hab : L.objects a b) (name : String)
    {v w : Value} (hv : v.Moved L w) :
    L.Evolves L s (s.setField a name v) t (t.setField b name w) ∧
      (s.setField a name v).Moved L (t.setField b name w) := by
  unfold Store.setField
  match e : s.read a, t.read b, hs.read hab with
  | _, _, .instance_ hc hes =>
    have kept := write_evolves hs hab fun _ e' => nomatch e.symm.trans e'
    exact ⟨kept _ _, write_moved hs hab (.instance_ hc (Table.put_alike hes name hv))⟩
  | _, _, .builtin _ | _, _, .function _ _ | _, _, .lambda _ _ | _, _, .cls _
  | _, _, .list _ | _, _, .method _ _ | _, _, .dict _ => exact ⟨.refl _ _ _, hs⟩

theorem setIndex_container {v i x : Value} {a : Addr} {o : Obj} (h : s.setIndex v i x = .ok (a, o))
    (name : String) : s.read a ≠ .builtin name := by
  cases v with
  | atom c => cases h
  | ref c =>
    simp only [Store.setIndex] at h
    split at h
    · next hc =>
      obtain ⟨k, -, h⟩ := ok_of_bind h
      split at h
      · cases h
        simp [hc]
      · cases h
    · next hc =>
      obtain ⟨-, -, h⟩ := ok_of_bind h
      cases h
      simp [hc]
    · cases h

end Changes

end LoopScript
