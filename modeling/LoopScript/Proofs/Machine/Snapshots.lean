import LoopScript.Proofs.Execution.Effect
import LoopScript.Proofs.Machine.Rounds

/-!
Loops over what a container holds. The items of a loop or a comprehension are those that its container has
when it is entered, and the variable of a comprehension belongs to the round alone.
-/

namespace LoopScript

variable {σ : Type}

/-- The scope of a round binds the variable to the item, and nothing else. A lambda that was made there
finds the item under the name of the variable wherever it is called, unless a parameter hides it. -/
structure Comprehension.Holds (c : Comprehension) (s : Store) (q : ScopeId) (v : Value) : Prop where
  scope : s.scopes[q]? = some ⟨some c.scope, [(c.item, v)]⟩
  lambda : ∀ bound : Table String Value, bound.has c.item = false →
    (s.openScope (some q) bound).2.lookup s.scopes.size c.item = .ok v

section Entering

variable {setup : Setup σ} {m n : Machine σ} {stops : List (Stop σ)} {p : Point σ} {c : Control}
  {b : Awaits} {k : Context b} {entry : Hole .value b} {loc : Location} {x : Value}
  {round : List Value → Act σ (Reaction σ b)}

end Entering

section Rounds

variable {c : Comprehension} {k : Context .value} {Q Q' Q'' : Set ScopeId} {r : Visit}
  {rounds rounds' : List Visit} {s t u : Store} {q : ScopeId} {v : Value}

/-- What rounds of a comprehension leave of a store: the scope of each is one of its own, private from
then on, and still as it was made. -/
structure Comprehension.Leaves (c : Comprehension) (k : Context .value) (Q Q' : Set ScopeId)
    (rounds : List Visit) (s t : Store) : Prop where
  more : Q ⊆ Q'
  order : t.Private Q'
  avoids : k.Avoids Q' t
  kept : s.Preserves Q t
  scopes : ∀ r ∈ rounds, r.scope ∈ Q' ∧ t.scopes[r.scope]? = some ⟨some c.scope, [(c.item, r.item)]⟩
  fresh : ∀ r ∈ rounds, s.scopes.size ≤ r.scope
  apart : (rounds.map Visit.scope).Pairwise (· < ·)

namespace Comprehension.Leaves

theorem lt (h : c.Leaves k Q Q' rounds s t) (hr : r ∈ rounds) : r.scope < t.scopes.size :=
  (Array.getElem?_eq_some_iff.mp (h.scopes r hr).2).1

theorem later (h : c.Leaves k Q Q' rounds s t) (order : u.Private Q') (kept : t.Preserves Q' u) :
    c.Leaves k Q Q' rounds s u where
  more := h.more
  order := order
  avoids := h.avoids.mono kept
  kept := h.kept.trans (kept.subset h.more)
  scopes r hr := ⟨(h.scopes r hr).1, kept.kept (h.scopes r hr).1 (h.scopes r hr).2⟩
  fresh := h.fresh
  apart := h.apart

theorem trans (h : c.Leaves k Q Q' rounds s t) (h' : c.Leaves k Q' Q'' rounds' t u) :
    c.Leaves k Q Q'' (rounds ++ rounds') s u where
  more := h.more.trans h'.more
  order := h'.order
  avoids := h'.avoids
  kept := h.kept.trans (h'.kept.subset h.more)
  scopes r hr := by
    rcases List.mem_append.mp hr with hr | hr
    · obtain ⟨own, scope⟩ := h.scopes r hr
      exact ⟨h'.more own, h'.kept.kept own scope⟩
    · exact h'.scopes r hr
  fresh r hr := by
    rcases List.mem_append.mp hr with hr | hr
    · exact h.fresh r hr
    · exact h.kept.size_le.trans (h'.fresh r hr)
  apart := by
    rw [List.map_append, List.pairwise_append]
    refine ⟨h.apart, h'.apart, ?_⟩
    simp only [List.mem_map]
    rintro _ ⟨r, hr, rfl⟩ _ ⟨r', hr', rfl⟩
    exact (h.lt hr).trans_le (h'.fresh r' hr')

theorem none (order : s.Private Q) (avoids : k.Avoids Q s) : c.Leaves k Q Q [] s s :=
  ⟨subset_rfl, order, avoids, .refl Q s, nofun, nofun, .nil⟩

theorem opened {m : Machine σ} (order : m.world.store.Private Q) (avoids : k.Avoids Q m.world.store)
    (v : Value) (o : Option Value) :
    c.Leaves k Q (insert m.world.store.scopes.size Q) [⟨v, m.world.store.scopes.size, o⟩]
      m.world.store (c.opened v m).world.store := by
  have kept {Q : Set ScopeId} := Store.preserves_openScope Q m.world.store (some c.scope) [(c.item, v)]
  refine ⟨Set.subset_insert _ _, Store.private_insert order _ _, ?_, kept, ?_, ?_, ?_⟩
  · exact avoids.imp fun i hi => (hi.insert (Nat.le_refl _)).mono kept
  · rw [List.forall_mem_singleton]
    exact ⟨Set.mem_insert _ _, Store.getElem?_openScope m.world.store _ _⟩
  · exact List.forall_mem_singleton.mpr (Nat.le_refl _)
  · exact List.pairwise_singleton _ _

end Comprehension.Leaves

variable {setup : Setup σ} (hosts : setup.Minds) {m n : Machine σ} {stops : List (Stop σ)}
  {p p' : Point σ} {e : Expr} {x : Value} {vs : List Value}

include hosts

end Rounds

/-- The scopes of a comprehension. Those of its rounds so far were opened one after the other, and none was
there before; with the one of the round that is at work they hold what they were opened with. -/
structure Comprehension.Private (c : Comprehension) (rounds : List Visit) (todo : List Value)
    (s t u : Store) : Prop where
  apart : (rounds.map Visit.scope).Pairwise (· < ·)
  fresh : ∀ r ∈ rounds, s.scopes.size ≤ r.scope ∧ r.scope < t.scopes.size
  holds : ∀ r ∈ rounds, c.Holds u r.scope r.item
  current : ∀ v ∈ todo.head?, c.Holds u t.scopes.size v

section Begun

variable {m : Machine σ} {stops : List (Stop σ)} {p : Point σ}

theorem globalObjects_private (services : Services σ) {s : Store} {Q : Set ScopeId}
    (h : s.Private Q) : (Interpreter.globalObjects services s).2.Private Q := by
  have made {t : Store} (ht : t.Private Q) {o : Obj} (plain : o.isCode = false) :
      (t.alloc o).2.Private Q := by
    refine Store.private_alloc ht fun f code => ?_
    rw [code] at plain
    cases plain
  apply Interpreter.globalObjects_induction (P := fun x => x.2.Private Q) h
  · exact fun _ _ hx => made hx rfl
  · exact fun _ _ _ hx => made hx rfl
  · exact fun _ _ _ hx => hx

/-- Wherever a program comes to, every function that there is was defined in a scope that is still there,
and every scope in which something is still to be carried out is there, too. -/
theorem reached_private {services : Services σ} {print : String → σ → σ} {budget : Int} {verbose : Bool}
    {world : World σ} {i : Interpreter σ}
    (made : Interpreter.create services print budget verbose world = .ok i)
    (hw : world.store.Private ∅) (hosts : i.setup.Minds) (hm : m.world.store = i.machine.world.store)
    (body : List Stmt) (minds : ∀ stop ∈ stops, stop.Minds)
    (h : i.setup.Leads .program (.block body i.machine.globals .program) m stops p) :
    p.machine.world.store.Private ∅ ∧ p.Avoids ∅ := by
  obtain rfl := Interpreter.create_eq made
  have order : m.world.store.Private ∅ := by
    rw [hm]
    exact Store.private_openScope (globalObjects_private services hw) none _
  have globals : m.world.store.Avoids ∅ (Interpreter.opening services world).globals := by
    rw [hm]
    exact Store.avoids_empty_iff.mpr
      (Array.getElem?_eq_some_iff.mp (Store.getElem?_openScope _ none _)).1
  have ready : (Control.block body (Interpreter.opening services world).globals .program).Avoids ∅
      m.world.store := by
    cases body with
    | nil => exact trivial
    | cons s ss => exact ⟨globals, globals, trivial⟩
  have left := leads_leaves hosts order ready minds h
  exact ⟨left.order, left.avoids⟩

end Begun

section Own

variable {setup : Setup σ} {c : Comprehension} {k : Context .value} {d : Control} {m : Machine σ}
  {stops : List (Stop σ)} {p : Point σ}

/-- The scopes that there were are still the same, and the run goes on at once. -/
def Next.Keeps (s : Store) (v : Next σ) (n : Machine σ) : Prop :=
  (∃ e, v = .go e) ∧ ∀ i < s.scopes.size, n.world.store.scopes[i]? = s.scopes[i]?

end Own

end LoopScript
