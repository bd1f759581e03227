import LoopScript.Proofs.Machine.Arguments

/-!
Calls whose arguments are accepted: there is a scope of its own for what they bind, and the body of
the function runs there.
-/

namespace LoopScript

def Task.scope : Task → ScopeId
  | .exec _ scope _ => scope
  | .eval _ scope _ => scope

variable {σ : Type} {setup : Setup σ} {m : Machine σ} {fresh : ScopeId}
  {bound : Table String Value}

/-- The handlers of events do not touch the scopes. -/
def Setup.SparesScopes (setup : Setup σ) : Prop :=
  ∀ h ∈ setup.services.hooks, ∀ e w, (h.handle e w).2.store.scopes = w.store.scopes

/-- A scope has certain bindings, unless a handler has changed it. -/
def Setup.Opens (setup : Setup σ) (fresh : ScopeId) (bound : Table String Value) (m : Machine σ) :
    Prop :=
  setup.SparesScopes → ∃ parent, m.world.store.scopes[fresh]? = some ⟨parent, bound⟩

namespace Act

theorem spares_callHooks (spares : setup.SparesScopes) (e : Event σ) {hooks : List (Hook σ)}
    (hh : ∀ h ∈ hooks, h ∈ setup.services.hooks) (m : Machine σ) :
    Ensures (callHooks e hooks) m (fun _ n => n.world.store.scopes = m.world.store.scopes)
      fun _ _ => True := by
  induction hooks generalizing m with
  | nil => rfl
  | cons h hooks ih =>
    have same := spares h (hh h List.mem_cons_self) e m.world
    apply ensures_bind
    change Ensures _ { m with world := (h.handle e m.world).2 } _ _
    split
    · refine (ih (fun g hg => hh g (List.mem_cons_of_mem h hg)) _).mono ?_ fun _ _ h => h
      intro _ n hn
      exact hn.trans same
    · trivial
    · trivial

theorem opens_emit (e : Event σ) (h : setup.Opens fresh bound m) :
    Ensures (emit setup e) m (fun _ n => setup.Opens fresh bound n) fun _ _ => True := by
  by_cases spares : setup.SparesScopes
  · have known : ∀ h ∈ setup.services.handlers e.kind, h ∈ setup.services.hooks :=
      fun _ h => (List.mem_filter.mp h).1
    refine (spares_callHooks spares e known m).mono ?_ fun _ _ h => h
    intro _ n same _
    rw [same]
    exact h spares
  · unfold Ensures
    split
    · exact fun h => absurd h spares
    · trivial

theorem opens_enter (name : String) (scope : ScopeId) (loc : Location)
    (h : setup.Opens fresh bound m) :
    Ensures (enter name scope loc) m (fun _ n => setup.Opens fresh bound n) fun _ _ => True := by
  apply ensures_get
  split
  · trivial
  · exact h

theorem opens_exit (h : setup.Opens fresh bound m) :
    Ensures exit m (fun _ n => setup.Opens fresh bound n) fun _ _ => True := by
  apply ensures_get
  split
  · trivial
  · exact h

/-- Opens a scope with these bindings, tells of the call and enters it. -/
theorem opens_entering {α : Type} {parent : ScopeId} {e : Event σ} {name : String} {loc : Location}
    {f : ScopeId → Act σ α} {P : α → Machine σ → Prop}
    (h : ∀ n, setup.Opens m.world.store.scopes.size bound n →
      Ensures (f m.world.store.scopes.size) n P fun _ _ => True) :
    Ensures (do
      let scope ← openScope parent bound
      emit setup e
      enter name scope loc
      f scope) m P fun _ _ => True := by
  apply ensures_bind
  have opened : setup.Opens m.world.store.scopes.size bound
      { m with world := ⟨(m.world.store.openScope (some parent) bound).2, m.world.host⟩ } :=
    fun _ => ⟨some parent, Array.getElem?_push_size⟩
  apply ensures_bind
  refine (opens_emit e opened).mono ?_ fun _ _ h => h
  intro _ n told
  apply ensures_bind
  refine (opens_enter name _ loc told).mono ?_ fun _ _ h => h
  intro _ n entered
  exact h n entered

theorem ensures_placed {α β : Type} {x : Except Fault α} {loc : Location} {f : α → Act σ β}
    {P : β → Machine σ → Prop} (h : ∀ a, x = .ok a → Ensures (f a) m P fun _ _ => True) :
    Ensures (placed loc x >>= f) m P fun _ _ => True := by
  apply ensures_bind
  cases x with
  | error e => trivial
  | ok a => exact h a rfl

theorem opens_callFunction (f : Closure) (label : String) (implicit : Nat) (c : Call)
    (k : Context .value) :
    Ensures (callFunction setup f label implicit c k) m
      (fun t n => ∃ bound, bindArguments label f.params c.args c.named implicit = .ok bound ∧
        (∀ u ∈ t, u.scope = m.world.store.scopes.size) ∧
        setup.Opens m.world.store.scopes.size bound n) fun _ _ => True := by
  unfold callFunction
  apply ensures_placed
  intro bound hb
  apply opens_entering
  intro n opened
  cases f.body with
  | nil =>
    apply ensures_bind
    refine (opens_exit opened).mono ?_ fun _ _ h => h
    intro _ n opened
    apply ensures_bind
    refine (opens_emit _ opened).mono ?_ fun _ _ h => h
    intro _ n opened
    exact ⟨bound, hb, nofun, opened⟩
  | cons s ss =>
    refine ⟨bound, hb, ?_, opened⟩
    rintro _ ⟨⟩
    rfl

theorem opens_callLambda (params : List String) (body : Expr) (scope : ScopeId) (c : Call)
    (k : Context .value) :
    Ensures (callLambda setup params body scope c k) m
      (fun t n => ∃ bound, bindArguments "<lambda>" params c.args c.named 0 = .ok bound ∧
        t.scope = m.world.store.scopes.size ∧
        setup.Opens m.world.store.scopes.size bound n) fun _ _ => True := by
  unfold callLambda
  apply ensures_placed
  intro bound hb
  apply opens_entering
  intro n opened
  exact ⟨bound, hb, rfl, opened⟩

end Act

/-- The objects of a class without an initialiser are made without a call. -/
def Store.Bare (s : Store) (f : Value) : Prop :=
  ∃ a name methods, f = .ref a ∧ s.read a = .cls name methods ∧
    ∀ init g, methods.get? "__init__" = some init → s.read init ≠ .function g

/-- The arguments of a call are bound in a scope of its own, and its body runs there. -/
def Setup.Accepts (setup : Setup σ) (m : Machine σ) (f : Value) (c : Call) (v : Invocation σ)
    (n : Machine σ) : Prop :=
  ∃ callee params args implicit bound, m.world.store.Binds c f callee params args implicit ∧
    bindArguments callee params args c.named implicit = .ok bound ∧
    (∀ t, v = .react (.start t) → t.scope = m.world.store.scopes.size) ∧
    setup.Opens m.world.store.scopes.size bound n

namespace Act

theorem accepts_construct {a : Addr} {name : String} {methods : Table String Addr}
    (ha : m.world.store.read a = .cls name methods) (c : Call) (k : Context .value) :
    Ensures (construct setup a name methods c k) m
      (fun r n => m.world.store.Bare (.ref a) ∧ c.arity = 0 ∨
        setup.Accepts m (.ref a) c (.react r) n) fun _ _ => True := by
  unfold construct
  apply ensures_bind
  change Ensures _ { m with world := ⟨(m.world.store.alloc (.instance_ a [])).2, m.world.host⟩ } _ _
  apply ensures_store
  split
  · next g h =>
    obtain ⟨init, hi, hg⟩ := Option.map_eq_some_iff.mp h
    replace hg := Store.read_made.mp hg
    split
    · trivial
    · next self =>
      rw [List.isEmpty_iff] at self
      apply ensures_bind
      refine (opens_callFunction g name 1 _ _).mono ?_ fun _ _ h => h
      rintro t n ⟨bound, hb, scope, opened⟩
      have binds : m.world.store.Binds c (.ref a) name g.params
          (.ref m.world.store.objects.size :: c.args) 1 := .construct ha hi hg self
      cases t with
      | none => exact .inr ⟨_, _, _, _, bound, binds, hb, nofun, opened⟩
      | some t =>
        refine .inr ⟨_, _, _, _, bound, binds, hb, ?_, opened⟩
        rintro _ ⟨⟩
        exact scope t rfl
  · next none =>
    split
    · next empty =>
      refine .inl ⟨⟨a, name, methods, rfl, ha, fun init g hi hg => ?_⟩, empty⟩
      exact none g (by rw [hi, Option.map_some, Store.read_made.mpr hg])
    · trivial

/-- A call that is accepted calls a function of the language or the host, makes an object for which
there are no arguments, or binds all arguments. -/
theorem accepts_invoke (f : Value) (c : Call) (k : Context .value) :
    Ensures (invoke setup f c k) m
      (fun v n => (∃ name, m.world.store.object? f = some (.builtin name)) ∨
        (m.world.store.Bare f ∧ c.arity = 0) ∨ setup.Accepts m f c v n) fun _ _ => True := by
  have bodied (t : Option Task) (scope : ∀ u ∈ t, u.scope = m.world.store.scopes.size) (u : Task)
      (h : Invocation.react (bodyOf (σ := σ) t) = .react (.start u)) :
      u.scope = m.world.store.scopes.size := by
    cases t with
    | none => cases h
    | some t =>
      cases h
      exact scope _ rfl
  unfold invoke
  apply ensures_store
  split
  · next name h =>
    unfold Ensures
    split
    · exact .inl ⟨name, h⟩
    · trivial
  · next g h =>
    apply ensures_bind
    refine (opens_callFunction g g.name 0 c k).mono ?_ fun _ _ h => h
    rintro t n ⟨bound, hb, scope, opened⟩
    exact .inr (.inr ⟨_, _, _, _, bound, .function h, hb, bodied t scope, opened⟩)
  · next r a h =>
    split
    · next g hg =>
      split
      · trivial
      · next self =>
        rw [List.isEmpty_iff] at self
        apply ensures_bind
        refine (opens_callFunction g g.name 1 _ k).mono ?_ fun _ _ h => h
        rintro t n ⟨bound, hb, scope, opened⟩
        exact .inr (.inr ⟨_, _, _, _, bound, .method h hg self, hb, bodied t scope, opened⟩)
    · trivial
  · next params body scope h =>
    apply ensures_bind
    refine (opens_callLambda params body scope c k).mono ?_ fun _ _ h => h
    rintro t n ⟨bound, hb, place, opened⟩
    refine .inr (.inr ⟨_, _, _, _, bound, .lambda h, hb, ?_, opened⟩)
    rintro _ ⟨⟩
    exact place
  · next name methods a h =>
    apply ensures_bind
    refine (accepts_construct (Option.some.inj h) c k).mono ?_ fun _ _ h => h
    exact fun r n h => .inr h
  · trivial

end Act

end LoopScript
