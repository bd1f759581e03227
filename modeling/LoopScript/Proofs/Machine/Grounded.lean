import LoopScript.Proofs.Machine.Policy
import LoopScript.Proofs.Relocation.Changes
import LoopScript.Proofs.Value.Keys

/-!
What a machine stands on. The scopes in which code is left to run are there, and the keys of
dictionaries, made or still to be made, are no containers, and no two of them the same. All of this
stays so as the store grows.
-/

namespace LoopScript

/-- What could be a key still can, and a scope keeps the scope around it. It keeps its bindings, too,
unless names may be bound. -/
structure Store.Grows (free : Prop) (s t : Store) : Prop where
  hashable : ∀ v, s.requireKey v = .ok () → t.requireKey v = .ok ()
  scopes : ∀ (i : ScopeId) (p : Scope), s.scopes[i]? = some p →
    ∃ q, t.scopes[i]? = some q ∧ q.parent = p.parent ∧ (¬ free → q.bindings = p.bindings)

def Obj.isContainer : Obj → Bool
  | .list _ | .dict _ => true
  | _ => false

def Obj.Grounded (s : Store) : Obj → Prop
  | .dict es => s.Keyed es
  | _ => True

def Store.Grounded (s : Store) : Prop := ∀ a, (s.read a).Grounded s

namespace Store

variable {free : Prop} {s t u : Store} {i : ScopeId} {a : Addr} {o : Obj}

theorem Grows.refl (free : Prop) (s : Store) : s.Grows free s where
  hashable _ h := h
  scopes _ p h := ⟨p, h, rfl, fun _ => rfl⟩

theorem Grows.trans (h : s.Grows free t) (h' : t.Grows free u) : s.Grows free u where
  hashable v hv := h'.hashable v (h.hashable v hv)
  scopes i p hp := by
    obtain ⟨q, hq, parent, bindings⟩ := h.scopes i p hp
    obtain ⟨r, hr, parent', bindings'⟩ := h'.scopes i q hq
    refine ⟨r, hr, parent'.trans parent, fun bound => ?_⟩
    exact (bindings' bound).trans (bindings bound)

theorem Grows.weaken (h : s.Grows free t) : s.Grows True t where
  hashable := h.hashable
  scopes i p hp := by
    obtain ⟨q, hq, parent, -⟩ := h.scopes i p hp
    exact ⟨q, hq, parent, fun bound => absurd trivial bound⟩

theorem Grows.lt (h : s.Grows free t) (hi : i < s.scopes.size) : i < t.scopes.size := by
  obtain ⟨q, hq, -⟩ := h.scopes i _ (Array.getElem?_eq_getElem hi)
  exact (Array.getElem?_eq_some_iff.mp hq).1

theorem Keyed.mono {es : Table Value Value} (h : s.Keyed es) (grows : s.Grows free t) :
    t.Keyed es where
  hashable e he := grows.hashable e.1 (h.hashable e he)
  distinct := h.distinct

theorem requireKey_ref_iff : s.requireKey (.ref a) = .ok () ↔ (s.read a).isContainer = false := by
  simp only [requireKey, object?]
  cases s.read a <;> simp [Obj.isContainer]

/-- A change of objects alone, by which nothing that could be a key becomes a container. -/
theorem grows_of_objects (scopes : t.scopes = s.scopes)
    (h : ∀ a, (s.read a).isContainer = false → (t.read a).isContainer = false) : s.Grows free t where
  hashable v hv := by
    cases v with
    | atom c => exact hv
    | ref a => exact requireKey_ref_iff.mpr (h a (requireKey_ref_iff.mp hv))
  scopes i p hp := ⟨p, scopes ▸ hp, rfl, fun _ => rfl⟩

theorem grows_of_scopes (objects : t.objects = s.objects)
    (h : ∀ (i : ScopeId) (p : Scope), s.scopes[i]? = some p →
      ∃ q, t.scopes[i]? = some q ∧ q.parent = p.parent ∧ (¬ free → q.bindings = p.bindings)) :
    s.Grows free t where
  hashable v hv := by
    cases v with
    | atom c => exact hv
    | ref a =>
      rw [requireKey_ref_iff] at hv ⊢
      simpa only [read, objects] using hv
  scopes := h

theorem read_alloc (s : Store) (o : Obj) (a : Addr) :
    (s.alloc o).2.read a = if a = s.objects.size then o else s.read a := by
  simp only [read, alloc, Array.getD_eq_getD_getElem?, Array.getElem?_push]
  split <;> rfl

theorem read_write (s : Store) (a b : Addr) (o : Obj) :
    (s.write a o).read b = if a = b ∧ b < s.objects.size then o else s.read b := by
  simp only [read, Array.getD_eq_getD_getElem?, getElem?_write]
  by_cases hb : b < s.objects.size
  · by_cases hab : a = b <;> simp [hb, hab]
  · simp [hb]

theorem read_of_le (h : s.objects.size ≤ a) : s.read a = .list [] := by
  simp only [read, Array.getD_eq_getD_getElem?, Array.getElem?_eq_none h]
  rfl

end Store

theorem Obj.Grounded.mono {free : Prop} {s t : Store} {o : Obj} (h : o.Grounded s)
    (grows : s.Grows free t) : o.Grounded t := by
  cases o with
  | dict es => exact Store.Keyed.mono h grows
  | _ => trivial

namespace Store

section Changes

variable {s : Store} {a : Addr} {o : Obj} (free : Prop) (hs : s.Grounded)

theorem grows_alloc (s : Store) (o : Obj) : s.Grows free (s.alloc o).2 := by
  apply grows_of_objects (by rfl)
  intro a ha
  rw [read_alloc]
  split
  · next e =>
    rw [read_of_le (Nat.le_of_eq e.symm)] at ha
    cases ha
  · exact ha

theorem grows_write (ho : o.isContainer = true → (s.read a).isContainer = true) :
    s.Grows free (s.write a o) := by
  apply grows_of_objects (by rfl)
  intro b hb
  rw [read_write]
  split
  · next h =>
    obtain ⟨rfl, -⟩ := h
    by_contra hc
    rw [ho (Bool.not_eq_false _ ▸ hc)] at hb
    cases hb
  · exact hb

theorem grows_define (s : Store) (i : ScopeId) (name : String) (v : Value) :
    s.Grows True (s.define i name v) := by
  apply grows_of_scopes (by rfl)
  intro k p hp
  rw [getElem?_define, hp, Option.map_some]
  refine ⟨_, rfl, ?_, fun h => absurd trivial h⟩
  split <;> rfl

theorem grows_openScope (s : Store) (parent : Option ScopeId) (bindings : Table String Value) :
    s.Grows free (s.openScope parent bindings).2 := by
  apply grows_of_scopes (by rfl)
  intro i p hp
  exact ⟨p, getElem?_push_of_some hp, rfl, fun _ => rfl⟩

theorem grows_setField (s : Store) (a : Addr) (name : String) (v : Value) :
    s.Grows free (s.setField a name v) := by
  unfold setField
  split
  · exact grows_write free nofun
  · exact .refl free s

include hs

theorem grounded_of_grows {t : Store} (grows : s.Grows free t)
    (h : ∀ a, t.read a = s.read a ∨ (t.read a).Grounded s) : t.Grounded := by
  intro a
  rcases h a with same | made
  · rw [same]
    exact (hs a).mono grows
  · exact made.mono grows

omit free

theorem grounded_alloc (ho : o.Grounded s) : (s.alloc o).2.Grounded := by
  apply grounded_of_grows True hs (grows_alloc True s o)
  intro a
  rw [read_alloc]
  split
  · exact .inr ho
  · exact .inl rfl

theorem grounded_write (ho : o.Grounded s) (hc : o.isContainer = true → (s.read a).isContainer = true) :
    (s.write a o).Grounded := by
  apply grounded_of_grows True hs (grows_write True hc)
  intro b
  rw [read_write]
  split
  · exact .inr ho
  · exact .inl rfl

theorem grounded_define (i : ScopeId) (name : String) (v : Value) : (s.define i name v).Grounded :=
  grounded_of_grows True hs (grows_define s i name v) fun _ => .inl rfl

theorem grounded_openScope (parent : Option ScopeId) (bindings : Table String Value) :
    (s.openScope parent bindings).2.Grounded :=
  grounded_of_grows True hs (grows_openScope True s parent bindings) fun _ => .inl rfl

theorem grounded_setField (name : String) (v : Value) : (s.setField a name v).Grounded := by
  unfold setField
  split
  · exact grounded_write hs trivial nofun
  · exact hs

theorem setIndex_grounded {base index v : Value} (h : s.setIndex base index v = .ok (a, o)) :
    o.Grounded s ∧ (o.isContainer = true → (s.read a).isContainer = true) := by
  cases base with
  | atom c => cases h
  | ref b =>
    simp only [setIndex] at h
    split at h
    · next xs hb =>
      obtain ⟨k, -, h⟩ := ok_of_bind h
      split at h
      · cases h
        exact ⟨trivial, fun _ => by rw [hb]; rfl⟩
      · cases h
    · next es hb =>
      obtain ⟨_, hkey, h⟩ := ok_of_bind h
      cases h
      have keyed : (Obj.dict es).Grounded s := hb ▸ hs a
      exact ⟨keyed.put hkey v, fun _ => by rw [hb]; rfl⟩
    · cases h

end Changes

section Results

variable {s : Store} {o : Obj} (t : Store)

theorem not_object_of_value {x : Except Fault Value} (h : Made.value <$> x = .ok (.object o)) :
    o.Grounded t := by
  cases x <;> cases h

theorem plus_grounded {v w : Value} (h : s.plus v w = .ok (.object o)) : o.Grounded t := by
  unfold plus at h
  split at h
  · cases h
  · split at h
    · cases h
      trivial
    · exact not_object_of_value t h

theorem binary_grounded {op : BinaryOp} {v w : Value} (h : s.binary op v w = .ok (.object o)) :
    o.Grounded t := by
  unfold binary at h
  split at h
  · exact plus_grounded t h
  · exact not_object_of_value t h

theorem getMember_grounded {base : Value} {name : String}
    (h : s.getMember base name = .ok (.object o)) : o.Grounded t := by
  unfold getMember at h
  repeat' split at h
  all_goals cases h
  trivial

theorem slice_grounded {base : Value} {start stop step : Option Int}
    (h : s.slice base start stop step = .object o) : o.Grounded t := by
  unfold slice at h
  split at h <;> cases h
  trivial

end Results

end Store

section Contexts

variable {σ : Type} {b : Awaits} (s : Store)

def Hole.Grounded : {a b : Awaits} → Hole a b → Prop
  | _, _, .rest _ i | _, _, .branch _ _ i | _, _, .loopTest _ _ i | _, _, .loopBody _ _ i
  | _, _, .eachOver _ _ _ i | _, _, .eachBody _ _ _ i | _, _, .assignName _ _ _ i
  | _, _, .memberBase _ _ _ _ i | _, _, .itemBase _ _ _ _ i | _, _, .itemIndex _ _ _ _ i
  | _, _, .left _ _ _ i | _, _, .indexBase _ _ i | _, _, .sliceBase _ _ i
  | _, _, .sliceBound _ _ _ _ i | _, _, .listItem _ _ i => i < s.scopes.size
  | _, _, .dictKey _ _ done _ i => i < s.scopes.size ∧ s.Keyed done
  | _, _, .dictValue key done _ i =>
    i < s.scopes.size ∧ s.Keyed done ∧ s.requireKey key = .ok ()
  | _, _, .comprehendOver _ c | _, _, .comprehendItem c _ _ => c.scope < s.scopes.size
  | _, _, .comprehendTest c inner _ _ => c.scope < s.scopes.size ∧ inner < s.scopes.size
  | _, _, .discard | _, _, .leave | _, _, .assignMember .. | _, _, .assignItem ..
  | _, _, .right .. | _, _, .operand .. | _, _, .index .. | _, _, .member .. | _, _, .body ..
  | _, _, .lambdaBody _ | _, _, .construct _ | _, _, .forwarded .. => True

def Context.Grounded : {a : Awaits} → Context a → Prop
  | _, .program => True
  | _, .fill h k => h.Grounded s ∧ k.Grounded
  | _, .argument p k => p.scope < s.scopes.size ∧ k.Grounded
  | _, .sortKey _ k => k.Grounded
  | _, .mapItem _ k => k.Grounded

def Task.Grounded : Task → Prop
  | .exec _ i k => i < s.scopes.size ∧ k.Grounded s
  | .eval _ i k => i < s.scopes.size ∧ k.Grounded s

def Move.Grounded : Move → Prop
  | .give _ k => k.Grounded s
  | .call _ _ k => k.Grounded s

def Control.Grounded : Control → Prop
  | .task t => t.Grounded s
  | .move v => v.Grounded s

def Resumption.Grounded : Resumption → Prop
  | .task t => t.Grounded s
  | .waited _ _ k => k.Grounded s

def Reaction.Grounded : Reaction σ b → Prop
  | .give _ => True
  | .start t => t.Grounded s
  | .pause _ r => r.Grounded s

def Invocation.Grounded : Invocation σ → Prop
  | .react r => r.Grounded s
  | .again _ _ l => l.Grounded s

def Next.Grounded : Next σ → Prop
  | .go c => c.Grounded s
  | .pause _ r => r.Grounded s
  | .finished _ => True

end Contexts

section Mono

variable {free : Prop} {s t : Store} (grows : s.Grows free t)

include grows

theorem Hole.Grounded.mono {a b : Awaits} {h : Hole a b} (hh : h.Grounded s) : h.Grounded t := by
  cases h with
  | dictKey => exact ⟨grows.lt hh.1, hh.2.mono grows⟩
  | dictValue => exact ⟨grows.lt hh.1, hh.2.1.mono grows, grows.hashable _ hh.2.2⟩
  | comprehendTest => exact ⟨grows.lt hh.1, grows.lt hh.2⟩
  | discard | leave | assignMember | assignItem | right | operand | index | member | body
  | lambdaBody | construct | forwarded => trivial
  | _ => exact grows.lt hh

theorem Context.Grounded.mono {a : Awaits} {k : Context a} (hk : k.Grounded s) : k.Grounded t := by
  induction k with
  | program => trivial
  | fill h k ih => exact ⟨hk.1.mono grows, ih hk.2⟩
  | argument p k ih => exact ⟨grows.lt hk.1, ih hk.2⟩
  | sortKey o k ih => exact ih hk
  | mapItem o k ih => exact ih hk

theorem Task.Grounded.mono {q : Task} (h : q.Grounded s) : q.Grounded t := by
  cases q <;> exact ⟨grows.lt h.1, h.2.mono grows⟩

theorem Control.Grounded.mono {c : Control} (h : c.Grounded s) : c.Grounded t := by
  cases c with
  | task q => exact Task.Grounded.mono grows h
  | move v => cases v <;> exact Context.Grounded.mono grows h

theorem Resumption.Grounded.mono {r : Resumption} (h : r.Grounded s) : r.Grounded t := by
  cases r with
  | task q => exact Task.Grounded.mono grows h
  | waited name loc k => exact Context.Grounded.mono grows h

theorem Next.Grounded.mono {σ : Type} {v : Next σ} (h : v.Grounded s) : v.Grounded t := by
  cases v with
  | go c => exact Control.Grounded.mono grows h
  | pause w r => exact Resumption.Grounded.mono grows h
  | finished f => trivial

end Mono

end LoopScript
