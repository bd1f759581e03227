import LoopScript.Proofs.Machine.Grounded

/-!
Where an assignment puts a value, and where a name is looked up. The two agree, unless a name that was
declared global is bound in a scope nearer than the root, too: the value goes to the root then, and the
nearer binding stays in sight.
-/

namespace LoopScript

namespace Store

variable {s t u : Store} {i k o p : ScopeId} {name : String} {v w : Value}

section Chains

/-- What passes from the scope around a scope to that scope holds of all of them. -/
theorem outward {P : ScopeId → Prop} (s : Store) (top : ∀ i, s.parent? i = none → P i)
    (inner : ∀ i p, s.parent? i = some p → P p → P i) (i : ScopeId) : P i := by
  induction i using Nat.strong_induction_on with
  | _ i ih =>
    cases h : s.parent? i with
    | none => exact top i h
    | some p => exact inner i p h (ih p p.property)

theorem root_of_none (h : s.parent? i = none) : s.root i = i := by
  rw [root, h]

theorem root_of_parent {p : { p : ScopeId // p < i }} (h : s.parent? i = some p) :
    s.root i = s.root p := by
  rw [root, h]

theorem owner?_of_has (h : (s.scope i).bindings.has name = true) : s.owner? i name = some i := by
  rw [owner?, if_pos h]

theorem owner?_of_none (h : (s.scope i).bindings.has name = false) (hp : s.parent? i = none) :
    s.owner? i name = none := by
  rw [owner?, if_neg (by simp [h]), hp]

theorem owner?_of_parent (h : (s.scope i).bindings.has name = false)
    {p : { p : ScopeId // p < i }} (hp : s.parent? i = some p) :
    s.owner? i name = s.owner? p name := by
  rw [owner?, if_neg (by simp [h]), hp]

theorem root_le (s : Store) (i : ScopeId) : s.root i ≤ i := by
  induction i using s.outward with
  | top i h => rw [root_of_none h]
  | inner i p h ih =>
    rw [root_of_parent h]
    exact ih.trans p.property.le

theorem owner?_spec (h : s.owner? i name = some o) :
    (s.scope o).bindings.has name = true ∧ o ≤ i := by
  induction i using s.outward with
  | top i hp =>
    cases hb : (s.scope i).bindings.has name with
    | true =>
      rw [owner?_of_has hb] at h
      cases h
      exact ⟨hb, le_rfl⟩
    | false =>
      rw [owner?_of_none hb hp] at h
      cases h
  | inner i p hp ih =>
    cases hb : (s.scope i).bindings.has name with
    | true =>
      rw [owner?_of_has hb] at h
      cases h
      exact ⟨hb, le_rfl⟩
    | false =>
      rw [owner?_of_parent hb hp] at h
      exact ⟨(ih h).1, (ih h).2.trans p.property.le⟩

end Chains

section Alike

/-- Up to a scope, each store has the same scopes around each scope. -/
theorem parent?_congr (h : (t.scope k).parent = (s.scope k).parent) : t.parent? k = s.parent? k := by
  simp only [parent?, h]

theorem root_congr (h : ∀ k ≤ i, (t.scope k).parent = (s.scope k).parent) :
    t.root i = s.root i := by
  induction i using s.outward with
  | top i hp =>
    rw [root_of_none hp, root_of_none ((parent?_congr (h i le_rfl)).trans hp)]
  | inner i p hp ih =>
    rw [root_of_parent hp, root_of_parent ((parent?_congr (h i le_rfl)).trans hp)]
    exact ih fun k hk => h k (hk.trans p.property.le)

theorem owner?_congr (h : ∀ k ≤ i, (t.scope k).parent = (s.scope k).parent)
    (h' : ∀ k ≤ i, (t.scope k).bindings.has name = (s.scope k).bindings.has name) :
    t.owner? i name = s.owner? i name := by
  induction i using s.outward with
  | top i hp =>
    have hp' := (parent?_congr (h i le_rfl)).trans hp
    cases hb : (s.scope i).bindings.has name with
    | true => rw [owner?_of_has hb, owner?_of_has ((h' i le_rfl).trans hb)]
    | false => rw [owner?_of_none hb hp, owner?_of_none ((h' i le_rfl).trans hb) hp']
  | inner i p hp ih =>
    have hp' := (parent?_congr (h i le_rfl)).trans hp
    cases hb : (s.scope i).bindings.has name with
    | true => rw [owner?_of_has hb, owner?_of_has ((h' i le_rfl).trans hb)]
    | false =>
      rw [owner?_of_parent hb hp, owner?_of_parent ((h' i le_rfl).trans hb) hp']
      apply ih
      · exact fun k hk => h k (hk.trans p.property.le)
      · exact fun k hk => h' k (hk.trans p.property.le)

variable (still : s.Grows False t)

include still

theorem scope_still (hi : i < s.scopes.size) : t.scope i = s.scope i := by
  obtain ⟨q, hq, parent, bindings⟩ := still.scopes i _ (Array.getElem?_eq_getElem hi)
  rw [scope_eq hq, scope_eq (Array.getElem?_eq_getElem hi)]
  have same := bindings not_false
  cases q
  cases h : s.scopes[i]
  simp_all

theorem root_still (hi : i < s.scopes.size) : t.root i = s.root i :=
  root_congr fun _ hk => by rw [scope_still still (hk.trans_lt hi)]

theorem owner?_still (hi : i < s.scopes.size) : t.owner? i name = s.owner? i name := by
  apply owner?_congr
  · exact fun k hk => by rw [scope_still still (hk.trans_lt hi)]
  · exact fun k hk => by rw [scope_still still (hk.trans_lt hi)]

theorem lookup?_still (hi : i < s.scopes.size) : t.lookup? i name = s.lookup? i name := by
  rw [lookup?, lookup?, owner?_still still hi]
  cases h : s.owner? i name with
  | none => rfl
  | some o =>
    have ho := (owner?_spec h).2.trans_lt hi
    rw [Option.bind_some, Option.bind_some, scope_still still ho]

end Alike

section Definitions

theorem scope_define (ho : o < s.scopes.size) (name : String) (v : Value) (k : ScopeId) :
    (s.define o name v).scope k = if o = k then
      { s.scope k with bindings := (s.scope k).bindings.put name v } else s.scope k := by
  by_cases hk : k < s.scopes.size
  · have old := Array.getElem?_eq_getElem hk
    have new := getElem?_define s o k name v
    rw [old, Option.map_some] at new
    rw [scope_eq new, scope_eq old]
  · have apart : o ≠ k := by
      rintro rfl
      exact hk ho
    have none : s.scopes[k]? = none := Array.getElem?_eq_none (Nat.le_of_not_lt hk)
    rw [if_neg apart, scope, scope, Array.getD_eq_getD_getElem?, Array.getD_eq_getD_getElem?,
      getElem?_define, none]
    rfl

variable (ho : o < s.scopes.size)

include ho

theorem parent_define (k : ScopeId) :
    ((s.define o name v).scope k).parent = (s.scope k).parent := by
  rw [scope_define ho]
  split <;> rfl

theorem root_define (i : ScopeId) : (s.define o name v).root i = s.root i :=
  root_congr fun k _ => parent_define ho k

theorem has_define (name : String) (v : Value) (k : ScopeId) :
    ((s.define o name v).scope k).bindings.has name =
      (o == k || (s.scope k).bindings.has name) := by
  rw [scope_define ho]
  by_cases h : o = k
  · simp [h, Table.has_put]
  · simp [h]

theorem owner?_define_of_has (h : (s.scope o).bindings.has name = true) :
    (s.define o name v).owner? i name = s.owner? i name := by
  apply owner?_congr
  · exact fun k _ => parent_define ho k
  · intro k _
    rw [has_define ho]
    by_cases hk : o = k
    · simp [← hk, h]
    · simp [hk]

omit ho

theorem owner?_define_root (hi : i < s.scopes.size) (h : s.owner? i name = none) :
    (s.define (s.root i) name v).owner? i name = some (s.root i) := by
  have hr := (s.root_le i).trans_lt hi
  have bound := has_define hr name v (s.root i)
  rw [beq_self_eq_true, Bool.true_or] at bound
  generalize hroot : s.root i = r at hr bound ⊢
  induction i using s.outward with
  | top i hp =>
    rw [root_of_none hp] at hroot
    rw [hroot]
    exact owner?_of_has bound
  | inner i p hp ih =>
    have free : (s.scope i).bindings.has name = false := by
      by_contra hb
      rw [owner?_of_has (Bool.not_eq_false _ ▸ hb)] at h
      cases h
    rw [owner?_of_parent free hp] at h
    rw [root_of_parent hp] at hroot
    have below : r < i := hroot ▸ (s.root_le p).trans_lt p.property
    have free' : ((s.define r name v).scope i).bindings.has name = false := by
      rw [has_define hr, free, Bool.or_false]
      exact beq_eq_false_iff_ne.mpr below.ne
    rw [owner?_of_parent free' ((parent?_congr (parent_define hr i)).trans hp)]
    exact ih (p.property.trans hi) h hroot

theorem owner?_define_root_of_ne (hi : i < s.scopes.size) (h : s.owner? i name = some o)
    (hne : o ≠ s.root i) : (s.define (s.root i) name v).owner? i name = some o := by
  have hr := (s.root_le i).trans_lt hi
  generalize hroot : s.root i = r at hr hne ⊢
  induction i using s.outward with
  | top i hp =>
    have here := (owner?_spec h).1
    rw [root_of_none hp] at hroot
    cases hb : (s.scope i).bindings.has name with
    | true =>
      rw [owner?_of_has hb] at h
      exact absurd ((Option.some.inj h).symm.trans hroot) hne
    | false =>
      rw [owner?_of_none hb hp] at h
      cases h
  | inner i p hp ih =>
    rw [root_of_parent hp] at hroot
    have below : r < i := hroot ▸ (s.root_le p).trans_lt p.property
    have same : ((s.define r name v).scope i).bindings.has name = (s.scope i).bindings.has name := by
      rw [has_define hr, beq_eq_false_iff_ne.mpr below.ne, Bool.false_or]
    cases hb : (s.scope i).bindings.has name with
    | true =>
      rw [owner?_of_has hb] at h
      rw [owner?_of_has (same.trans hb), h]
    | false =>
      rw [owner?_of_parent hb hp] at h
      rw [owner?_of_parent (same.trans hb) ((parent?_congr (parent_define hr i)).trans hp)]
      exact ih (p.property.trans hi) h hroot

end Definitions

variable (forced : List String)

/-- Where an assignment puts a value. -/
def target (s : Store) (i : ScopeId) (name : String) : ScopeId :=
  if name ∈ forced then s.root i else (s.owner? i name).getD i

def written (s : Store) (i : ScopeId) (name : String) (v : Value) : Store :=
  s.define (s.target forced i name) name v

/-- The name was declared global, but a scope nearer than the root binds it. -/
def Shadowed (s : Store) (i : ScopeId) (name : String) : Prop :=
  name ∈ forced ∧ ∃ o, s.owner? i name = some o ∧ o ≠ s.root i

section Binding

variable {forced}

theorem target_le (s : Store) (forced : List String) (i : ScopeId) (name : String) :
    s.target forced i name ≤ i := by
  unfold target
  split
  · exact s.root_le i
  · cases h : s.owner? i name with
    | none => exact le_rfl
    | some o => exact (owner?_spec h).2

variable (hi : i < s.scopes.size)

include hi

theorem root_written (k : ScopeId) : (s.written forced i name v).root k = s.root k :=
  root_define ((s.target_le _ i name).trans_lt hi) k

theorem owner?_written (h : ¬ s.Shadowed forced i name) :
    (s.written forced i name v).owner? i name = some (s.target forced i name) := by
  have hb := (s.target_le forced i name).trans_lt hi
  unfold written
  cases howner : s.owner? i name with
  | some o =>
    have here : s.target forced i name = o := by
      unfold target
      split
      · next hf =>
        by_contra hne
        exact h ⟨hf, o, howner, Ne.symm hne⟩
      · rw [howner, Option.getD_some]
    rw [here] at hb ⊢
    rw [owner?_define_of_has hb (owner?_spec howner).1, howner]
  | none =>
    unfold target
    split
    · exact owner?_define_root hi howner
    · rw [howner, Option.getD_none]
      apply owner?_of_has
      rw [has_define hi, beq_self_eq_true, Bool.true_or]

theorem owner?_written_shadowed (h : s.Shadowed forced i name) :
    (s.written forced i name v).owner? i name = s.owner? i name := by
  obtain ⟨hf, o, howner, hne⟩ := h
  rw [written, target, if_pos hf, howner]
  exact owner?_define_root_of_ne hi howner hne

theorem shadowed_written :
    (s.written forced i name v).Shadowed forced i name ↔ s.Shadowed forced i name := by
  by_cases h : s.Shadowed forced i name
  · simp only [Shadowed, root_written hi, owner?_written_shadowed hi h]
  · simp only [h, iff_false]
    rintro ⟨hf, o, howner, hne⟩
    rw [owner?_written hi h, target, if_pos hf, Option.some.injEq] at howner
    rw [root_written hi] at hne
    exact hne howner.symm

theorem get?_target (forced : List String) (name : String) (v : Value) :
    ((s.written forced i name v).scope (s.target forced i name)).bindings.get? name = some v := by
  rw [written, scope_define ((s.target_le _ i name).trans_lt hi), if_pos rfl]
  exact Table.get?_put_self _ _ _

end Binding

/-- What can be read in the second store after a value was assigned to a name in the first one. -/
structure Reads (s : Store) (i : ScopeId) (name : String) (v : Value) (t : Store) : Prop where
  lt : i < t.scopes.size
  root : t.root i = s.root i
  shadowed : t.Shadowed forced i name ↔ s.Shadowed forced i name
  plain : ¬ s.Shadowed forced i name → t.lookup? i name = some v
  hidden : s.Shadowed forced i name →
    t.lookup? i name = s.lookup? i name ∧ t.lookup? (s.root i) name = some v

section Reads

variable {forced}

theorem reads_written (hi : i < s.scopes.size) (forced : List String) (name : String) (v : Value) :
    s.Reads forced i name v (s.written forced i name v) where
  lt := by simpa [written, define] using hi
  root := root_written hi i
  shadowed := shadowed_written hi
  plain h := by
    rw [lookup?, owner?_written hi h, Option.bind_some]
    exact get?_target hi forced name v
  hidden h := by
    obtain ⟨hf, o, howner, hne⟩ := h
    have shadowed : s.Shadowed forced i name := ⟨hf, o, howner, hne⟩
    have top : s.target forced i name = s.root i := if_pos hf
    have hr := (s.root_le i).trans_lt hi
    have bound := get?_target hi forced name v
    rw [top] at bound
    constructor
    · rw [lookup?, lookup?, owner?_written_shadowed hi shadowed, howner, Option.bind_some,
        Option.bind_some, written, top, scope_define hr, if_neg hne.symm]
    · have here : ((s.written forced i name v).scope (s.root i)).bindings.has name = true := by
        rw [Table.has, bound]
        rfl
      rw [lookup?, owner?_of_has here, Option.bind_some, bound]

theorem Reads.rewritten (h : s.Reads forced i name v t) (w : Value) :
    s.Reads forced i name w (t.written forced i name w) := by
  have next := reads_written h.lt forced name w
  constructor
  · exact next.lt
  · exact next.root.trans h.root
  · exact next.shadowed.trans h.shadowed
  · exact fun hn => next.plain (mt h.shadowed.mp hn)
  · intro hs
    obtain ⟨same, top⟩ := next.hidden (h.shadowed.mpr hs)
    exact ⟨same.trans (h.hidden hs).1, h.root ▸ top⟩

theorem shadowed_still (still : s.Grows False t) (hi : i < s.scopes.size) (forced : List String)
    (name : String) : t.Shadowed forced i name ↔ s.Shadowed forced i name := by
  simp only [Shadowed, owner?_still still hi, root_still still hi]

theorem Reads.later (h : s.Reads forced i name v t) (still : t.Grows False u) :
    s.Reads forced i name v u := by
  have hr := (t.root_le i).trans_lt h.lt
  rw [h.root] at hr
  constructor
  · exact still.lt h.lt
  · exact (root_still still h.lt).trans h.root
  · exact (shadowed_still still h.lt forced name).trans h.shadowed
  · exact fun hn => (lookup?_still still h.lt).trans (h.plain hn)
  · intro hs
    obtain ⟨same, top⟩ := h.hidden hs
    exact ⟨(lookup?_still still h.lt).trans same, (lookup?_still still hr).trans top⟩

theorem Reads.earlier (h : t.Reads forced i name v u) (still : s.Grows False t)
    (hi : i < s.scopes.size) : s.Reads forced i name v u := by
  have shadowed := shadowed_still still hi forced name
  have root := root_still still hi
  constructor
  · exact h.lt
  · exact h.root.trans root
  · exact h.shadowed.trans shadowed
  · exact fun hn => h.plain (mt shadowed.mp hn)
  · intro hs
    obtain ⟨same, top⟩ := h.hidden (shadowed.mpr hs)
    exact ⟨same.trans (lookup?_still still hi), root ▸ top⟩

end Reads

end Store

end LoopScript
