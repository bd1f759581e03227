import LoopScript.Proofs.Machine.Binding
import LoopScript.Proofs.Value.Rules

/-!
Private scopes. A scope that was made for a lambda or for one round of a comprehension binds what it was
made with, and nothing binds a name in it later on: names are assigned by statements, and no scope in
which a statement is carried out lies inside it.
-/

namespace LoopScript

variable {σ : Type} {Q : Set ScopeId}

/-- The scope is there, and neither it nor any scope around it is one of a set. -/
inductive Store.Avoids (Q : Set ScopeId) (s : Store) : ScopeId → Prop where
  | mk {i : ScopeId} (lt : i < s.scopes.size) (apart : i ∉ Q)
      (outer : ∀ p, s.parent? i = some p → Avoids Q s p) : Avoids Q s i

/-- No scope of the set is the outermost one, and no function was defined inside any of them. -/
structure Store.Private (Q : Set ScopeId) (s : Store) : Prop where
  inner : ∀ i ∈ Q, ∃ p, s.scopes[i]? = some p ∧ p.parent.isSome
  functions : ∀ a f, s.read a = .function f → s.Avoids Q f.scope

/-- Functions, lambdas and classes stay what they are. A scope keeps the scope around it, and one of the
set its bindings, too. -/
structure Store.Preserves (Q : Set ScopeId) (s t : Store) : Prop where
  scopes : ∀ (i : ScopeId) (p : Scope), s.scopes[i]? = some p →
    ∃ q, t.scopes[i]? = some q ∧ q.parent = p.parent ∧ (i ∈ Q → q.bindings = p.bindings)
  code : ∀ a, (s.read a).isCode = true → t.read a = s.read a

/-- A change that no private scope takes part in, whichever scopes are private. -/
def Store.Minds (s t : Store) : Prop :=
  ∀ Q, s.Private Q → t.Private Q ∧ s.Preserves Q t

namespace Store

variable {s t u : Store} {i q : ScopeId} {a : Addr} {o : Obj} {name : String} {v : Value}

section Relations

theorem Preserves.refl (Q : Set ScopeId) (s : Store) : s.Preserves Q s where
  scopes _ p hp := ⟨p, hp, rfl, fun _ => rfl⟩
  code _ _ := rfl

theorem Preserves.trans (h : s.Preserves Q t) (h' : t.Preserves Q u) : s.Preserves Q u where
  scopes i p hp := by
    obtain ⟨p', hp', parent, bindings⟩ := h.scopes i p hp
    obtain ⟨p'', hp'', parent', bindings'⟩ := h'.scopes i p' hp'
    exact ⟨p'', hp'', parent'.trans parent, fun hi => (bindings' hi).trans (bindings hi)⟩
  code a ha := by
    have same := h.code a ha
    rw [← same] at ha
    exact (h'.code a ha).trans same

theorem Preserves.lt (h : s.Preserves Q t) (hi : i < s.scopes.size) : i < t.scopes.size := by
  obtain ⟨p, hp, -⟩ := h.scopes i _ (Array.getElem?_eq_getElem hi)
  exact (Array.getElem?_eq_some_iff.mp hp).1

theorem Preserves.size_le (h : s.Preserves Q t) : s.scopes.size ≤ t.scopes.size :=
  Nat.le_of_not_lt fun less => Nat.lt_irrefl _ (h.lt less)

theorem Preserves.subset {Q' : Set ScopeId} (h : s.Preserves Q' t) (sub : Q ⊆ Q') :
    s.Preserves Q t where
  scopes i p hp := by
    obtain ⟨p', hp', parent, bindings⟩ := h.scopes i p hp
    exact ⟨p', hp', parent, fun hi => bindings (sub hi)⟩
  code := h.code

theorem Preserves.parent? (h : s.Preserves Q t) (hi : i < s.scopes.size) :
    t.parent? i = s.parent? i := by
  have hp := Array.getElem?_eq_getElem hi
  obtain ⟨p, hp', parent, -⟩ := h.scopes i _ hp
  apply parent?_congr
  rw [scope_eq hp', scope_eq hp, parent]

/-- A scope of the set stays just as it is. -/
theorem Preserves.kept (h : s.Preserves Q t) (hi : i ∈ Q) {p : Scope} (hp : s.scopes[i]? = some p) :
    t.scopes[i]? = some p := by
  obtain ⟨p', hp', parent, bindings⟩ := h.scopes i p hp
  rw [hp']
  cases p
  cases p'
  cases parent
  cases bindings hi
  rfl

theorem Private.lt (h : s.Private Q) (hi : i ∈ Q) : i < s.scopes.size := by
  obtain ⟨p, hp, -⟩ := h.inner i hi
  exact (Array.getElem?_eq_some_iff.mp hp).1

theorem Private.object? (h : s.Private Q) {f : Closure} (hf : s.object? v = some (.function f)) :
    s.Avoids Q f.scope := by
  cases v with
  | atom _ => cases hf
  | ref a => exact h.functions a f (Option.some.inj hf)

theorem Private.fresh (h : s.Private Q) : s.scopes.size ∉ Q :=
  fun hq => Nat.lt_irrefl _ (h.lt hq)

end Relations

section Avoiding

theorem Avoids.lt (h : s.Avoids Q i) : i < s.scopes.size := by
  cases h with
  | mk lt => exact lt

theorem Avoids.apart (h : s.Avoids Q i) : i ∉ Q := by
  cases h with
  | mk _ apart => exact apart

theorem Avoids.outer (h : s.Avoids Q i) {p : { p : ScopeId // p < i }} (hp : s.parent? i = some p) :
    s.Avoids Q p := by
  cases h with
  | mk _ _ outer => exact outer p hp

theorem Avoids.mono (h : s.Avoids Q i) (kept : s.Preserves Q t) : t.Avoids Q i := by
  induction h with
  | mk lt apart _ ih =>
    refine .mk (kept.lt lt) apart fun p hp => ih p ?_
    rwa [← kept.parent? lt]

/-- A scope that is made later on is not around one that is there already. -/
theorem Avoids.insert (h : s.Avoids Q i) (hq : s.scopes.size ≤ q) : s.Avoids (insert q Q) i := by
  induction h with
  | mk lt apart _ ih =>
    refine .mk lt ?_ ih
    rintro (rfl | hi)
    · exact absurd lt (Nat.not_lt.mpr hq)
    · exact apart hi

theorem Avoids.root (h : s.Avoids Q i) : s.root i ∉ Q := by
  induction i using s.outward with
  | top i hp =>
    rw [root_of_none hp]
    exact h.apart
  | inner i p hp ih =>
    rw [root_of_parent hp]
    exact ih (h.outer hp)

theorem Avoids.owner? (h : s.Avoids Q i) {o : ScopeId} (ho : s.owner? i name = some o) : o ∉ Q := by
  induction i using s.outward with
  | top i hp =>
    cases hb : (s.scope i).bindings.has name with
    | true =>
      rw [owner?_of_has hb] at ho
      exact Option.some.inj ho ▸ h.apart
    | false =>
      rw [owner?_of_none hb hp] at ho
      cases ho
  | inner i p hp ih =>
    cases hb : (s.scope i).bindings.has name with
    | true =>
      rw [owner?_of_has hb] at ho
      exact Option.some.inj ho ▸ h.apart
    | false =>
      rw [owner?_of_parent hb hp] at ho
      exact ih (h.outer hp) ho

/-- What is assigned in such a scope is bound outside of the set. -/
theorem Avoids.target (h : s.Avoids Q i) (forced : List String) (name : String) :
    s.target forced i name ∉ Q := by
  unfold Store.target
  split
  · exact h.root
  · cases ho : s.owner? i name with
    | none => exact h.apart
    | some o => exact h.owner? ho

/-- With no scope to keep out of, all that is said of a scope is that it is there. -/
theorem avoids_empty_iff : s.Avoids ∅ i ↔ i < s.scopes.size := by
  refine ⟨Avoids.lt, fun hi => ?_⟩
  induction i using s.outward with
  | top i hp =>
    refine .mk hi (Set.notMem_empty i) fun p h => ?_
    rw [hp] at h
    cases h
  | inner i p hp ih =>
    refine .mk hi (Set.notMem_empty i) fun q h => ?_
    rw [hp] at h
    cases h
    exact ih (p.2.trans hi)

end Avoiding

section Changes

theorem private_of_preserves (h : s.Private Q) (kept : s.Preserves Q t)
    (functions : ∀ a f, t.read a = .function f → s.read a = .function f ∨ s.Avoids Q f.scope) :
    t.Private Q where
  inner i hi := by
    obtain ⟨p, hp, parent⟩ := h.inner i hi
    exact ⟨p, kept.kept hi hp, parent⟩
  functions a f hf := by
    rcases functions a f hf with old | made
    · exact (h.functions a f old).mono kept
    · exact made.mono kept

theorem preserves_alloc (Q : Set ScopeId) (s : Store) (o : Obj) : s.Preserves Q (s.alloc o).2 where
  scopes _ p hp := ⟨p, hp, rfl, fun _ => rfl⟩
  code a ha := by
    rw [read_alloc]
    split
    · next e =>
      rw [read_of_le (Nat.le_of_eq e.symm)] at ha
      cases ha
    · rfl

theorem private_alloc (h : s.Private Q) (ho : ∀ f, o = .function f → s.Avoids Q f.scope) :
    (s.alloc o).2.Private Q := by
  refine private_of_preserves h (preserves_alloc Q s o) fun a f hf => ?_
  rw [read_alloc] at hf
  split at hf
  · exact .inr (ho f hf)
  · exact .inl hf

theorem preserves_write (Q : Set ScopeId) (ha : (s.read a).isCode = false) :
    s.Preserves Q (s.write a o) where
  scopes _ p hp := ⟨p, hp, rfl, fun _ => rfl⟩
  code b hb := by
    rw [read_write]
    split
    · next h =>
      obtain ⟨rfl, -⟩ := h
      rw [ha] at hb
      cases hb
    · rfl

theorem private_write (h : s.Private Q) (ho : o.isCode = false) (ha : (s.read a).isCode = false) :
    (s.write a o).Private Q := by
  refine private_of_preserves h (preserves_write Q ha) fun b f hf => ?_
  rw [read_write] at hf
  split at hf
  · subst hf
    cases ho
  · exact .inl hf

theorem preserves_define (hi : i ∉ Q) (name : String) (v : Value) :
    s.Preserves Q (s.define i name v) where
  scopes k p hp := by
    rw [getElem?_define, hp, Option.map_some]
    refine ⟨_, rfl, ?_, fun hk => ?_⟩
    · split <;> rfl
    · rw [if_neg]
      rintro rfl
      exact hi hk
  code _ _ := rfl

theorem private_define (h : s.Private Q) (hi : i ∉ Q) (name : String) (v : Value) :
    (s.define i name v).Private Q :=
  private_of_preserves h (preserves_define hi name v) fun _ _ hf => .inl hf

theorem preserves_openScope (Q : Set ScopeId) (s : Store) (parent : Option ScopeId)
    (bindings : Table String Value) : s.Preserves Q (s.openScope parent bindings).2 where
  scopes _ p hp := ⟨p, getElem?_push_of_some hp, rfl, fun _ => rfl⟩
  code _ _ := rfl

theorem private_openScope (h : s.Private Q) (parent : Option ScopeId) (bindings : Table String Value) :
    (s.openScope parent bindings).2.Private Q :=
  private_of_preserves h (preserves_openScope Q s parent bindings) fun _ _ hf => .inl hf

theorem getElem?_openScope (s : Store) (parent : Option ScopeId) (bindings : Table String Value) :
    (s.openScope parent bindings).2.scopes[s.scopes.size]? = some ⟨parent, bindings⟩ :=
  Array.getElem?_push_size

/-- A scope that is opened inside of one that keeps out of the set keeps out of it, too. -/
theorem avoids_openScope (h : s.Private Q) (hi : s.Avoids Q i) (bindings : Table String Value) :
    (s.openScope (some i) bindings).2.Avoids Q s.scopes.size := by
  have opened := getElem?_openScope s (some i) bindings
  refine .mk (Array.getElem?_eq_some_iff.mp opened).1 h.fresh fun p hp => ?_
  rw [parent?_eq_some opened rfl hi.lt] at hp
  cases hp
  exact hi.mono (preserves_openScope Q s _ _)

/-- A scope that was just opened inside another one is private from then on. -/
theorem private_insert (h : s.Private Q) (i : ScopeId) (bindings : Table String Value) :
    (s.openScope (some i) bindings).2.Private (insert s.scopes.size Q) where
  inner k hk := by
    rcases hk with rfl | hk
    · exact ⟨_, getElem?_openScope s (some i) bindings, rfl⟩
    · exact (private_openScope h (some i) bindings).inner k hk
  functions a f hf := by
    have kept := (h.functions a f hf).insert (Nat.le_refl _)
    exact kept.mono (preserves_openScope _ s _ _)

theorem setField_private (h : s.Private Q) (a : Addr) (name : String) (v : Value) :
    (s.setField a name v).Private Q ∧ s.Preserves Q (s.setField a name v) := by
  unfold setField
  split
  · next ha =>
    have old : (s.read a).isCode = false := by rw [ha]; rfl
    exact ⟨private_write h rfl old, preserves_write Q old⟩
  · exact ⟨h, .refl Q s⟩

/-- The place that an item is put into holds a list or a dictionary. -/
theorem setIndex_code {base index : Value} (h : s.setIndex base index v = .ok (a, o)) :
    o.isCode = false ∧ (s.read a).isCode = false := by
  have ends := s.ruled_setIndex (N := fun _ => True) base index v
  rw [h] at ends
  refine ⟨ends, ?_⟩
  cases base with
  | atom c => cases h
  | ref b =>
    simp only [setIndex] at h
    split at h
    · next xs hb =>
      obtain ⟨k, -, h⟩ := ok_of_bind h
      split at h
      · cases h
        rw [hb]
        rfl
      · cases h
    · next es hb =>
      obtain ⟨_, -, h⟩ := ok_of_bind h
      cases h
      rw [hb]
      rfl
    · cases h

end Changes

section Results

variable {made : Made}

theorem binary_code {op : BinaryOp} {v w : Value} (h : s.binary op v w = .ok made) :
    made.isCode = false := by
  have free : op.text ∈ flowWords → True := fun _ => trivial
  have ends := s.ruled_binary (N := fun _ => True) free v w
  rwa [h] at ends

theorem getMember_code {base : Value} (h : s.getMember base name = .ok made) :
    made.isCode = false := by
  have ends := s.ruled_getMember (N := fun _ => True) base name
  rwa [h] at ends

end Results

end Store

section Contexts

variable {b : Awaits} (Q : Set ScopeId) (s : Store)

/-- The scopes in which statements are still to be carried out, and names to be assigned. What is left
of an expression may be evaluated in any scope. -/
def Hole.Avoids : {a b : Awaits} → Hole a b → Prop
  | _, _, .rest _ i | _, _, .branch _ _ i | _, _, .loopTest _ _ i | _, _, .loopBody _ _ i
  | _, _, .eachOver _ _ _ i | _, _, .eachBody _ _ _ i | _, _, .assignName _ _ _ i => s.Avoids Q i
  | _, _, _ => True

def Context.Avoids : {a : Awaits} → Context a → Prop
  | _, .program => True
  | _, .fill h k => h.Avoids Q s ∧ k.Avoids
  | _, .argument _ k | _, .sortKey _ k | _, .mapItem _ k => k.Avoids

def Task.Avoids : Task → Prop
  | .exec _ i k => s.Avoids Q i ∧ k.Avoids Q s
  | .eval _ _ k => k.Avoids Q s

def Control.Avoids : Control → Prop
  | .task t => t.Avoids Q s
  | .move (.give _ k) => k.Avoids Q s
  | .move (.call _ _ k) => k.Avoids Q s

def Resumption.Avoids : Resumption → Prop
  | .task t => t.Avoids Q s
  | .waited _ _ k => k.Avoids Q s

def Reaction.Avoids : Reaction σ b → Prop
  | .give _ => True
  | .start t => t.Avoids Q s
  | .pause _ r => r.Avoids Q s

def Invocation.Avoids : Invocation σ → Prop
  | .react r => r.Avoids Q s
  | .again _ _ k => k.Avoids Q s

def Next.Avoids : Next σ → Prop
  | .go c => c.Avoids Q s
  | .pause _ r => r.Avoids Q s
  | .finished _ => True

end Contexts

section Transport

variable {s t : Store} {Q' : Set ScopeId}

theorem Hole.Avoids.imp (pass : ∀ i, s.Avoids Q i → t.Avoids Q' i) {a b : Awaits} {h : Hole a b}
    (hh : h.Avoids Q s) : h.Avoids Q' t := by
  cases h with
  | rest | branch | loopTest | loopBody | eachOver | eachBody | assignName => exact pass _ hh
  | _ => trivial

theorem Context.Avoids.imp (pass : ∀ i, s.Avoids Q i → t.Avoids Q' i) {a : Awaits} {k : Context a}
    (hk : k.Avoids Q s) : k.Avoids Q' t := by
  induction k with
  | program => trivial
  | fill h k ih => exact ⟨hk.1.imp pass, ih hk.2⟩
  | argument p k ih => exact ih hk
  | sortKey o k ih => exact ih hk
  | mapItem o k ih => exact ih hk

variable (kept : s.Preserves Q t)

include kept

theorem Context.Avoids.mono {a : Awaits} {k : Context a} (hk : k.Avoids Q s) : k.Avoids Q t :=
  hk.imp fun _ hi => hi.mono kept

theorem Task.Avoids.mono {q : Task} (h : q.Avoids Q s) : q.Avoids Q t := by
  cases q with
  | exec => exact ⟨h.1.mono kept, h.2.mono kept⟩
  | eval => exact Context.Avoids.mono kept h

theorem Control.Avoids.mono {c : Control} (h : c.Avoids Q s) : c.Avoids Q t := by
  cases c with
  | task q => exact Task.Avoids.mono kept h
  | move v => cases v <;> exact Context.Avoids.mono kept h

theorem Resumption.Avoids.mono {r : Resumption} (h : r.Avoids Q s) : r.Avoids Q t := by
  cases r with
  | task q => exact Task.Avoids.mono kept h
  | waited name loc k => exact Context.Avoids.mono kept h

theorem Reaction.Avoids.mono {b : Awaits} {r : Reaction σ b} (h : r.Avoids Q s) : r.Avoids Q t := by
  cases r with
  | give x => trivial
  | start q => exact Task.Avoids.mono kept h
  | pause w r => exact Resumption.Avoids.mono kept h

theorem Invocation.Avoids.mono {v : Invocation σ} (h : v.Avoids Q s) : v.Avoids Q t := by
  cases v with
  | again callee c k => exact Context.Avoids.mono kept h
  | react r => exact Reaction.Avoids.mono kept h

theorem Next.Avoids.mono {v : Next σ} (h : v.Avoids Q s) : v.Avoids Q t := by
  cases v with
  | go c => exact Control.Avoids.mono kept h
  | pause w r => exact Resumption.Avoids.mono kept h
  | finished f => trivial

end Transport

end LoopScript
