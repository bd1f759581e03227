import LoopScript.Proofs.Table
import LoopScript.Scope
import LoopScript.Value.Equality
import Mathlib.Data.Nat.Init
import Mathlib.Tactic.SplitIfs

/-!
Stores with a gap: behind the first objects of a store, and behind its first scopes, there may be others
that a second store does not have. What the second one holds is found in the first past the gap. A store
that refers to nothing outside itself is not changed by what is made behind it.
-/

namespace LoopScript

/-- So many places more, before the one with the given number. -/
structure Gap where
  first : Nat
  width : Nat

namespace Gap

variable {g : Gap} {i j : Nat}

def past (g : Gap) (i : Nat) : Nat := if i < g.first then i else i + g.width

theorem past_lt_past : g.past i < g.past j ↔ i < j := by
  unfold past
  split_ifs <;> omega

@[simp] theorem past_inj : g.past i = g.past j ↔ i = j := by
  unfold past
  split_ifs <;> omega

theorem past_of_lt (h : i < g.first) : g.past i = i := if_pos h

theorem past_of_width (h : g.width = 0) (i : Nat) : g.past i = i := by
  unfold past
  rw [h, Nat.add_zero, ite_self]

theorem past_of_le (h : g.first ≤ i) : g.past i = i + g.width := if_neg (Nat.not_lt.mpr h)

variable {α β : Type} {f : α → β} {xs : Array α} {ys : Array β}

/-- The second array is the first one with the gap, and each of its items is changed by `f`. What stands
in the gap is left open. -/
structure Opens (g : Gap) (f : α → β) (xs : Array α) (ys : Array β) : Prop where
  first : g.first ≤ xs.size
  size : ys.size = xs.size + g.width
  item : ∀ i, ys[g.past i]? = (xs[i]?).map f

namespace Opens

theorem size_past (h : g.Opens f xs ys) : ys.size = g.past xs.size := by
  rw [past_of_le h.first, h.size]

theorem getD (h : g.Opens f xs ys) (i : Nat) (x : α) :
    ys.getD (g.past i) (f x) = f (xs.getD i x) := by
  rw [Array.getD_eq_getD_getElem?, Array.getD_eq_getD_getElem?, h.item, Option.getD_map]

theorem push (h : g.Opens f xs ys) (x : α) : g.Opens f (xs.push x) (ys.push (f x)) where
  first := by
    have := h.first
    rw [Array.size_push]
    omega
  size := by
    rw [Array.size_push, Array.size_push, h.size]
    omega
  item i := by
    rw [Array.getElem?_push, Array.getElem?_push, h.size_past, h.item]
    simp only [past_inj]
    split
    · rfl
    · rfl

theorem set (h : g.Opens f xs ys) (i : Nat) (x : α) :
    g.Opens f (xs.setIfInBounds i x) (ys.setIfInBounds (g.past i) (f x)) where
  first := by simpa using h.first
  size := by simpa using h.size
  item j := by
    rw [Array.getElem?_setIfInBounds, Array.getElem?_setIfInBounds, h.item, h.size_past]
    simp only [past_inj, past_lt_past]
    split_ifs <;> rfl

theorem modify (h : g.Opens f xs ys) (i : Nat) {u : α → α} {v : β → β}
    (huv : ∀ x, v (f x) = f (u x)) : g.Opens f (xs.modify i u) (ys.modify (g.past i) v) where
  first := by simpa using h.first
  size := by simpa using h.size
  item j := by
    rw [Array.getElem?_modify, Array.getElem?_modify, h.item]
    simp only [past_inj]
    split
    · simp [Function.comp_def, huv]
    · rfl

end Opens

/-- An array whose beginning is another array has a gap behind that. -/
theorem opens_of_begins {f : α → α} {xs ys : Array α} (kept : ∀ i < xs.size, ys[i]? = xs[i]?)
    (hf : ∀ x ∈ xs, f x = x) : Opens ⟨xs.size, ys.size - xs.size⟩ f xs ys := by
  have longer : xs.size ≤ ys.size := by
    by_contra shorter
    have missing := kept ys.size (Nat.not_le.mp shorter)
    rw [Array.getElem?_size, eq_comm, Array.getElem?_eq_none_iff] at missing
    exact shorter missing
  refine ⟨Nat.le_refl _, (Nat.add_sub_cancel' longer).symm, fun i => ?_⟩
  rcases Nat.lt_or_ge i xs.size with hi | hi
  · rw [past_of_lt hi, kept i hi, Array.getElem?_eq_getElem hi, Option.map_some,
      hf _ (Array.getElem_mem hi)]
  · have behind : ys.size ≤ i + (ys.size - xs.size) := by omega
    rw [past_of_le hi, Array.getElem?_eq_none hi, Array.getElem?_eq_none behind]
    rfl

end Gap

structure Gaps where
  objects : Gap
  scopes : Gap

section Past

variable (g : Gaps)

def Value.past : Value → Value
  | .atom a => .atom a
  | .ref a => .ref (g.objects.past a)

def Closure.past (f : Closure) : Closure := { f with scope := g.scopes.past f.scope }

def Obj.past : Obj → Obj
  | .list items => .list (items.map (Value.past g))
  | .dict entries => .dict (entries.map (Prod.map (Value.past g) (Value.past g)))
  | .builtin name => .builtin name
  | .function f => .function (f.past g)
  | .lambda params body scope => .lambda params body (g.scopes.past scope)
  | .cls name methods => .cls name (methods.map (Prod.map id g.objects.past))
  | .instance_ c fields =>
    .instance_ (g.objects.past c) (fields.map (Prod.map id (Value.past g)))
  | .method r f => .method (g.objects.past r) (g.objects.past f)

abbrev Bindings.past (bindings : Table String Value) : Table String Value :=
  bindings.map (Prod.map id (Value.past g))

def Scope.past (p : Scope) : Scope :=
  ⟨p.parent.map g.scopes.past, Bindings.past g p.bindings⟩

def Made.past : Made → Made
  | .value v => .value (v.past g)
  | .object o => .object (o.past g)

/-- The second store is the first one with the gaps. -/
structure Store.Opens (g : Gaps) (s t : Store) : Prop where
  objects : g.objects.Opens (Obj.past g) s.objects t.objects
  scopes : g.scopes.Opens (Scope.past g) s.scopes t.scopes

end Past

section Values

variable {g : Gaps}

@[simp] theorem Value.past_atom (a : Atom) : (Value.atom a).past g = .atom a := rfl

@[simp] theorem Value.past_ref (a : Addr) : (Value.ref a).past g = .ref (g.objects.past a) := rfl

theorem Value.past_beq (v w : Value) : (v.past g == w.past g) = (v == w) := by
  cases v with
  | atom a => cases w <;> rfl
  | ref a =>
    cases w with
    | atom b => rfl
    | ref b =>
      have same : (g.objects.past a == g.objects.past b) = (a == b) := by simp
      exact same

end Values

namespace Store.Opens

variable {g : Gaps} {s t : Store} (h : s.Opens g t)

include h

@[simp] theorem read (a : Addr) : t.read (g.objects.past a) = (s.read a).past g :=
  h.objects.getD a default

theorem object? (v : Value) : t.object? (v.past g) = (s.object? v).map (Obj.past g) := by
  cases v with
  | atom a => rfl
  | ref a => exact congrArg some (h.read a)

theorem alloc (o : Obj) :
    (t.alloc (o.past g)).1 = (s.alloc o).1.past g ∧
      (s.alloc o).2.Opens g (t.alloc (o.past g)).2 :=
  ⟨congrArg Value.ref h.objects.size_past, h.objects.push o, h.scopes⟩

theorem write (a : Addr) (o : Obj) : (s.write a o).Opens g (t.write (g.objects.past a) (o.past g)) :=
  ⟨h.objects.set a o, h.scopes⟩

theorem openScope (parent : Option ScopeId) (bindings : Table String Value) :
    (t.openScope (parent.map g.scopes.past) (Bindings.past g bindings)).1 =
        g.scopes.past (s.openScope parent bindings).1 ∧
      (s.openScope parent bindings).2.Opens g
        (t.openScope (parent.map g.scopes.past) (Bindings.past g bindings)).2 :=
  ⟨h.scopes.size_past, h.objects, h.scopes.push ⟨parent, bindings⟩⟩

theorem scope (i : ScopeId) : t.scope (g.scopes.past i) = (s.scope i).past g :=
  h.scopes.getD i default

/-- The scopes around two scopes that belong together belong together. -/
theorem parent? (i : ScopeId) :
    (s.parent? i = none ∧ t.parent? (g.scopes.past i) = none) ∨
      ∃ p hp hq, s.parent? i = some ⟨p, hp⟩ ∧
        t.parent? (g.scopes.past i) = some ⟨g.scopes.past p, hq⟩ := by
  simp only [Store.parent?, h.scope, Scope.past]
  cases (s.scope i).parent with
  | none => exact .inl ⟨rfl, rfl⟩
  | some p =>
    simp only [Option.map_some]
    by_cases hp : p < i
    · have hq := Gap.past_lt_past (g := g.scopes) |>.mpr hp
      exact .inr ⟨p, hp, hq, dif_pos hp, dif_pos hq⟩
    · exact .inl ⟨dif_neg hp, dif_neg (mt Gap.past_lt_past.mp hp)⟩

theorem has (i : ScopeId) (name : String) :
    (t.scope (g.scopes.past i)).bindings.has name = (s.scope i).bindings.has name := by
  rw [h.scope]
  exact Table.has_values _ name

theorem owner? (i : ScopeId) (name : String) :
    t.owner? (g.scopes.past i) name = (s.owner? i name).map g.scopes.past := by
  -- both searches go outward, from scopes that belong together to scopes that do
  induction i using Nat.strong_induction_on with
  | _ i ih =>
    rw [Store.owner?, Store.owner?, h.has]
    split
    · rfl
    · obtain ⟨hs, ht⟩ | ⟨p, hp, hq, hs, ht⟩ := h.parent? i
      · rw [hs, ht]
        rfl
      · rw [hs, ht]
        exact ih p hp

theorem root (i : ScopeId) : t.root (g.scopes.past i) = g.scopes.past (s.root i) := by
  induction i using Nat.strong_induction_on with
  | _ i ih =>
    rw [Store.root, Store.root]
    obtain ⟨hs, ht⟩ | ⟨p, hp, hq, hs, ht⟩ := h.parent? i
    · rw [hs, ht]
    · rw [hs, ht]
      exact ih p hp

theorem lookup? (i : ScopeId) (name : String) :
    t.lookup? (g.scopes.past i) name = (s.lookup? i name).map (Value.past g) := by
  rw [Store.lookup?, Store.lookup?, h.owner?]
  cases s.owner? i name with
  | none => rfl
  | some o =>
    rw [Option.map_some, Option.bind_some, Option.bind_some, h.scope]
    exact Table.get?_values _ name

theorem lookup (i : ScopeId) (name : String) :
    t.lookup (g.scopes.past i) name = Value.past g <$> s.lookup i name := by
  rw [Store.lookup, Store.lookup, h.lookup?]
  cases s.lookup? i name <;> rfl

theorem define (i : ScopeId) (name : String) (v : Value) :
    (s.define i name v).Opens g (t.define (g.scopes.past i) name (v.past g)) := by
  refine ⟨h.objects, ?_⟩
  simp only [Store.define]
  refine h.scopes.modify i fun p => ?_
  exact congrArg (Scope.mk _) (Table.put_values p.bindings name v)

theorem assign (i : ScopeId) (name : String) (v : Value) :
    (s.assign i name v).Opens g (t.assign (g.scopes.past i) name (v.past g)) := by
  unfold Store.assign
  rw [h.owner?, Option.getD_map]
  exact h.define _ name v

theorem setGlobal (i : ScopeId) (name : String) (v : Value) :
    (s.setGlobal i name v).Opens g (t.setGlobal (g.scopes.past i) name (v.past g)) := by
  unfold Store.setGlobal
  rw [h.root]
  exact h.define _ name v

end Store.Opens

section Whole

variable (s : Store)

/-- The value refers to nothing outside the store. -/
def Value.Within : Value → Prop
  | .atom _ => True
  | .ref a => a < s.objects.size

def Obj.Within : Obj → Prop
  | .list items => ∀ v ∈ items, v.Within s
  | .dict entries => ∀ e ∈ entries, e.1.Within s ∧ e.2.Within s
  | .builtin _ => True
  | .function f => f.scope < s.scopes.size
  | .lambda _ _ scope => scope < s.scopes.size
  | .cls _ methods => ∀ e ∈ methods, e.2 < s.objects.size
  | .instance_ c fields => c < s.objects.size ∧ ∀ e ∈ fields, e.2.Within s
  | .method r f => r < s.objects.size ∧ f < s.objects.size

def Scope.Within (p : Scope) : Prop :=
  (∀ i ∈ p.parent, i < s.scopes.size) ∧ ∀ e ∈ p.bindings, e.2.Within s

/-- Nothing in the store refers to anything outside it. -/
structure Store.Whole : Prop where
  objects : ∀ o ∈ s.objects, o.Within s
  scopes : ∀ p ∈ s.scopes, p.Within s

def Gaps.behind (objects scopes : Nat) : Gaps :=
  ⟨⟨s.objects.size, objects⟩, ⟨s.scopes.size, scopes⟩⟩

end Whole

section Past

variable {s : Store} {m n : Nat}

theorem Value.Within.past {v : Value} (h : v.Within s) : v.past (.behind s m n) = v := by
  cases v with
  | atom a => rfl
  | ref a => exact congrArg Value.ref (Gap.past_of_lt h)

theorem map_fixed {α : Type} {f : α → α} {xs : List α} (h : ∀ x ∈ xs, f x = x) : xs.map f = xs :=
  (List.map_congr_left h).trans (List.map_id _)

theorem Value.past_of_within {α : Type} {entries : List (α × Value)}
    (h : ∀ e ∈ entries, e.2.Within s) :
    entries.map (Prod.map id (Value.past (.behind s m n))) = entries :=
  map_fixed fun e he => Prod.ext rfl (Value.Within.past (h e he))

theorem Obj.Within.past {o : Obj} (h : o.Within s) : o.past (.behind s m n) = o := by
  cases o with
  | list items => exact congrArg Obj.list (map_fixed fun v hv => Value.Within.past (h v hv))
  | dict entries =>
    exact congrArg Obj.dict (map_fixed fun e he =>
      Prod.ext (Value.Within.past (h e he).1) (Value.Within.past (h e he).2))
  | builtin name => rfl
  | function f =>
    obtain ⟨name, params, body, scope⟩ := f
    exact congrArg (fun i => Obj.function ⟨name, params, body, i⟩) (Gap.past_of_lt h)
  | lambda params body scope => exact congrArg (Obj.lambda params body) (Gap.past_of_lt h)
  | cls name methods =>
    have kept : ∀ e ∈ methods, (Gaps.behind s m n).objects.past e.2 = e.2 :=
      fun e he => Gap.past_of_lt (h e he)
    exact congrArg (Obj.cls name) (map_fixed fun e he => Prod.ext rfl (kept e he))
  | instance_ c fields =>
    exact congrArg₂ Obj.instance_ (Gap.past_of_lt h.1) (Value.past_of_within h.2)
  | method r f => exact congrArg₂ Obj.method (Gap.past_of_lt h.1) (Gap.past_of_lt h.2)

theorem Scope.Within.past {p : Scope} (h : p.Within s) : p.past (.behind s m n) = p := by
  obtain ⟨parent, bindings⟩ := p
  refine congrArg₂ Scope.mk ?_ (Value.past_of_within h.2)
  cases parent with
  | none => rfl
  | some i => exact congrArg some (Gap.past_of_lt (h.1 i rfl))

end Past

/-- The second store begins with all of the first one. -/
structure Store.KeptIn (s t : Store) : Prop where
  objects : ∀ a < s.objects.size, t.objects[a]? = s.objects[a]?
  scopes : ∀ i < s.scopes.size, t.scopes[i]? = s.scopes[i]?

abbrev Store.behind (s t : Store) : Gaps :=
  .behind s (t.objects.size - s.objects.size) (t.scopes.size - s.scopes.size)

theorem Store.Whole.opens {s t : Store} (whole : s.Whole) (kept : s.KeptIn t) :
    s.Opens (s.behind t) t where
  objects := Gap.opens_of_begins kept.objects fun o ho => (whole.objects o ho).past
  scopes := Gap.opens_of_begins kept.scopes fun p hp => (whole.scopes p hp).past

end LoopScript
