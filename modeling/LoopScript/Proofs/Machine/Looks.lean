import LoopScript.Proofs.Gap.Actions
import LoopScript.Proofs.Machine.Items
import LoopScript.Proofs.Machine.Leads

/-!
Expressions that only look at the store: names, literals, items and members. Beside an error they come to
a value that is there already, or to a method that is bound anew. Nothing can be looked up in that, or by
it, so that they come to the same when they are evaluated once more.
-/

namespace LoopScript

variable {σ : Type}

inductive Expr.Simple : Expr → Prop where
  | literal (loc : Location) (a : Atom) : Simple (.literal loc a)
  | name (loc : Location) (id : String) : Simple (.name loc id)
  | index (loc : Location) {base i : Expr} (hb : Simple base) (hi : Simple i) :
      Simple (.index loc base i)
  | member (loc : Location) {base : Expr} (hb : Simple base) (name : String) :
      Simple (.member loc base name)

/-- The value of a simple expression. -/
def Act.look (scope : ScopeId) : Expr → Act σ Value
  | .literal _ a => pure (.atom a)
  | .name loc id => reading loc (·.lookup scope id)
  | .index loc base i => do
    let v ← look scope base
    let j ← look scope i
    reading loc (·.getIndex v j)
  | .member loc base name => do
    let v ← look scope base
    making loc (·.getMember v name)
  | _ => pure .none

variable {setup : Setup σ} {a : Awaits} {k : Context a} {e : Expr} {scope : ScopeId}

theorem performs_look (he : e.Simple) {l : Context .value} (hl : k.depth ≤ l.depth) (m : Machine σ) :
    setup.Performs k (.task (.eval e scope l)) m
      (Act.look scope e >>= fun v => pure (.move (.give v l))) := by
  induction he generalizing l m with
  | literal loc a => exact performs_task k _ m
  | name loc id => exact performs_task k _ m
  | @index loc base i _ _ ihb ihi =>
    have inner (h : Hole .value .value) : k.depth ≤ (Context.fill h l).depth := Nat.le_succ_of_le hl
    simp only [Act.look, bind_assoc]
    refine performs_then (performs_task k _ m) (performs_bind (ihb (inner _) m) fun v n _ => ?_)
    refine performs_then (performs_reaction hl rfl rfl) ?_
    refine performs_bind (ihi (inner _) n) fun j n' _ => ?_
    exact performs_react (r := .give) hl rfl fun _ => rfl
  | @member loc base _ name ihb =>
    have inner (h : Hole .value .value) : k.depth ≤ (Context.fill h l).depth := Nat.le_succ_of_le hl
    simp only [Act.look, bind_assoc]
    refine performs_then (performs_task k _ m) (performs_bind (ihb (inner _) m) fun v n _ => ?_)
    exact performs_react (r := .give) hl rfl fun _ => rfl

/-- Behind all that there is, a store may hold methods, which nothing of that refers to. -/
def Store.Spare (s t : Store) : Prop :=
  t.scopes = s.scopes ∧ ∃ methods : Array Obj, t.objects = s.objects ++ methods ∧
    ∀ o ∈ methods, ∃ r f, o = .method r f

def Machine.Spare (m n : Machine σ) : Prop :=
  ∃ t, n = m.stored t ∧ m.world.store.Spare t

section Spare

variable {s t u : Store} {m n n' : Machine σ} {o : Obj} {v : Value} {name : String}

theorem Store.spare_refl (s : Store) : s.Spare s :=
  ⟨rfl, #[], (Array.append_empty).symm, nofun⟩

theorem Store.Spare.trans (h : s.Spare t) (h' : t.Spare u) : s.Spare u := by
  obtain ⟨scopes, xs, objects, methods⟩ := h
  obtain ⟨scopes', ys, objects', methods'⟩ := h'
  refine ⟨scopes'.trans scopes, xs ++ ys, ?_, fun o ho => ?_⟩
  · rw [objects', objects, Array.append_assoc]
  · exact (Array.mem_append.mp ho).elim (methods o) (methods' o)

theorem Store.spare_alloc (s : Store) (r f : Addr) : s.Spare (s.alloc (.method r f)).2 := by
  refine ⟨rfl, #[.method r f], Array.push_eq_append, fun o ho => ⟨r, f, ?_⟩⟩
  simpa using ho

theorem Store.Spare.kept (h : s.Spare t) : s.KeptIn t := by
  obtain ⟨scopes, methods, objects, -⟩ := h
  refine ⟨fun a ha => ?_, fun i _ => by rw [scopes]⟩
  rw [objects, Array.getElem?_append_left ha]

theorem Machine.spare_refl (m : Machine σ) : m.Spare m :=
  ⟨_, rfl, Store.spare_refl _⟩

theorem Machine.Spare.trans (h : m.Spare n) (h' : n.Spare n') : m.Spare n' := by
  obtain ⟨s, rfl, hs⟩ := h
  obtain ⟨t, rfl, ht⟩ := h'
  exact ⟨t, rfl, hs.trans ht⟩

theorem getMember_object (h : s.getMember v name = .ok (.object o)) : ∃ r f, o = .method r f := by
  unfold Store.getMember at h
  repeat' split at h
  all_goals cases h
  exact ⟨_, _, rfl⟩

theorem spare_reading {α : Type} (loc : Location) (f : Store → Except Fault α) :
    Act.Keeps (σ := σ) Machine.Spare (Act.reading loc f) := by
  intro m
  rw [Act.Ensures, Act.reading_eq]
  cases f m.world.store <;> exact m.spare_refl

theorem spare_getMember (loc : Location) (v : Value) (name : String) :
    Act.Keeps (σ := σ) Machine.Spare (Act.making loc (·.getMember v name)) := by
  intro m
  rw [Act.Ensures, Act.making_eq]
  cases h : m.world.store.getMember v name with
  | error f => exact m.spare_refl
  | ok made =>
    cases made with
    | value v => exact m.spare_refl
    | object o =>
      obtain ⟨r, f, rfl⟩ := getMember_object h
      exact ⟨_, rfl, Store.spare_alloc _ r f⟩

theorem spare_bind {α β : Type} {x : Act σ α} {f : α → Act σ β} (hx : Act.Keeps Machine.Spare x)
    (hf : ∀ a, Act.Keeps Machine.Spare (f a)) : Act.Keeps Machine.Spare (x >>= f) := by
  intro m
  refine Act.ensures_bind ((hx m).mono (fun a n hn => ?_) fun _ _ h => h)
  exact (hf a n).mono (fun _ _ h => hn.trans h) fun _ _ h => hn.trans h

/-- To look at a store leaves it as it is, but for methods that are bound on the way. -/
theorem look_spare {e : Expr} (he : e.Simple) (scope : ScopeId) :
    Act.Keeps (σ := σ) Machine.Spare (Act.look scope e) := by
  induction he with
  | literal loc a => exact fun m => m.spare_refl
  | name loc id => exact spare_reading loc _
  | index loc _ _ ihb ihi => exact spare_bind ihb fun v => spare_bind ihi fun j => spare_reading loc _
  | member loc _ name ihb => exact spare_bind ihb fun v => spare_getMember loc v name

end Spare

section Methods

variable {s : Store} {v j x : Value} {r f a : Addr} {name : String}

/-- A method has no items and no members, and none can be set. -/
theorem getIndex_method (h : s.object? v = some (.method r f)) (j : Value) :
    s.getIndex v j ≠ .ok x := by
  cases v with
  | atom c => cases h
  | ref b =>
    simp [Store.getIndex, h]

theorem getMember_method (h : s.object? v = some (.method r f)) (name : String) (made : Made) :
    s.getMember v name ≠ .ok made := by
  cases v with
  | atom c => cases h
  | ref b =>
    simp [Store.getMember, Option.some.inj h]

theorem settable_method (h : s.object? v = some (.method r f)) : s.settable v ≠ .ok a := by
  cases v with
  | atom c => cases h
  | ref b =>
    simp [Store.settable, h]

theorem Store.Whole.read (whole : s.Whole) (a : Addr) : (s.read a).Within s := by
  rw [Store.read, Array.getD_eq_getD_getElem?]
  cases h : s.objects[a]? with
  | none => exact List.forall_mem_nil _
  | some o => exact whole.objects o (Array.mem_of_getElem? h)

/-- Nothing is found by a method that has just been bound. -/
theorem getIndex_fresh (whole : s.Whole) (v : Value) :
    (s.alloc (.method r f)).2.getIndex v (.ref s.objects.size) ≠ .ok x := by
  intro found
  cases v with
  | atom c => cases c <;> cases found
  | ref b =>
    by_cases fresh : b = s.objects.size
    · have bound := object?_alloc_self s (.method r f)
      rw [← fresh] at bound
      exact getIndex_method bound _ found
    · have here : (s.alloc (.method r f)).2.object? (.ref b) = some (s.read b) := by
        rw [Store.object?, Store.read_alloc, if_neg fresh]
      cases hb : s.read b with
      | list xs =>
        rw [hb] at here
        obtain ⟨p, ⟨-, number⟩, -⟩ := (Store.getIndex_list_eq_ok_iff here).mp found
        rcases number with number | number <;> cases number
      | dict es =>
        rw [hb] at here
        obtain ⟨-, entry⟩ := (Store.getIndex_dict_eq_ok_iff here).mp found
        obtain ⟨⟨key, y⟩, he, same, -⟩ := Table.exists_of_get? entry
        cases key with
        | atom c => cases same
        | ref c =>
          have entries := whole.read b
          rw [hb] at entries
          exact (entries _ he).1.ne (eq_of_beq same)
      | _ =>
        rw [hb] at here
        simp only [Store.getIndex, here] at found
        cases found

end Methods

section Again

variable {m n n' : Machine σ} {e base i : Expr} {v j x : Value} {loc : Location} {name : String}

/-- What was made last stays what it is. -/
theorem Machine.Spare.object?_fresh {o : Obj} (h : (m.stored (m.world.store.alloc o).2).Spare n) :
    n.world.store.object? (.ref m.world.store.objects.size) = some o := by
  obtain ⟨t, rfl, spare⟩ := h
  have kept := spare.kept.objects m.world.store.objects.size (by simp [Machine.stored, Store.alloc])
  change some (t.read _) = some o
  rw [Store.read, Array.getD_eq_getD_getElem?, kept]
  simp [Machine.stored, Store.alloc]

/-- What looking at a store comes to where it does not fail: something that is there, or a method that is
made last. -/
def Machine.Looked (m : Machine σ) (v : Value) (n : Machine σ) : Prop :=
  n = m ∨ v = .ref m.world.store.objects.size ∧
    ∃ r f, n = m.stored (m.world.store.alloc (.method r f)).2

/-- Where an item is found, no method was made. -/
theorem item_still (whole : m.world.store.Whole) (hb : m.Looked v n)
    (hi : n = m → n.Looked j n') (spare : n.Spare n')
    (item : n'.world.store.getIndex v j = .ok x) : n = m ∧ n' = m := by
  obtain rfl | ⟨rfl, r, f, rfl⟩ := hb
  · obtain rfl | ⟨rfl, r, f, rfl⟩ := hi rfl
    · exact ⟨rfl, rfl⟩
    · exact absurd item (getIndex_fresh whole v)
  · exact absurd item (getIndex_method spare.object?_fresh j)

theorem look_cases (he : e.Simple) (scope : ScopeId) (whole : m.world.store.Whole)
    (h : Act.look scope e m = .ok v n) : m.Looked v n := by
  induction he generalizing m v n with
  | literal loc a =>
    cases h
    exact .inl rfl
  | name loc id => exact .inl (Act.reading_eq_ok_iff.mp h).2
  | @index loc base i hb hi ihb ihi =>
    obtain ⟨w, m₁, hw, h⟩ := Act.bind_eq_ok_iff.mp h
    obtain ⟨j, m₂, hj, h⟩ := Act.bind_eq_ok_iff.mp h
    obtain ⟨item, rfl⟩ := Act.reading_eq_ok_iff.mp h
    have looked (same : m₁ = m) : m₁.Looked j n := ihi (same ▸ whole) hj
    exact .inl (item_still whole (ihb whole hw) looked ((look_spare hi scope).ok hj) item).2
  | @member loc base hb name ihb =>
    obtain ⟨w, m₁, hw, member⟩ := Act.bind_eq_ok_iff.mp h
    rw [Act.making_eq] at member
    obtain rfl | ⟨rfl, r, f, rfl⟩ := ihb whole hw
    · split at member
      · cases member
        exact .inl rfl
      · next o made =>
        obtain ⟨r, f, rfl⟩ := getMember_object made
        cases member
        exact .inr ⟨rfl, r, f, rfl⟩
      · cases member
    · have bound := (Machine.spare_refl (m.stored (m.world.store.alloc (.method r f)).2)).object?_fresh
      split at member
      · next made => exact absurd made (getMember_method bound name _)
      · next made => exact absurd made (getMember_method bound name _)
      · cases member

theorem passes_look (d : Distance σ) (he : e.Simple) (scope : ScopeId) :
    Act.Passes d (Value.past d) (Act.look scope e) (Act.look (d.scopes.past scope) e) := by
  induction he with
  | literal loc a => exact Act.tallies_pure rfl
  | name loc id => exact Act.passes_reading loc fun s t hs => hs.lookup scope id
  | index loc _ _ ihb ihi =>
    exact Act.passes_bind ihb fun v => Act.passes_bind ihi fun j =>
      Act.passes_reading loc fun s t hs => hs.getIndex v j
  | member loc _ name ihb =>
    exact Act.passes_bind ihb fun v => Act.passes_making loc fun s t hs => hs.getMember v name

theorem Machine.Spare.scopes_past (h : m.Spare n) (i : ScopeId) :
    (m.world.store.behind n.world.store).scopes.past i = i := by
  obtain ⟨t, rfl, scopes, -⟩ := h
  refine Gap.past_of_width ?_ i
  change t.scopes.size - m.world.store.scopes.size = 0
  rw [scopes, Nat.sub_self]

/-- A machine with methods to spare is the one without them, with a gap behind its store. -/
theorem Machine.Spare.past (h : m.Spare n) :
    m.past (m.world.store.behind n.world.store) n.world = n := by
  have calls : m.calls.map (Activation.past (m.world.store.behind n.world.store)) = m.calls :=
    map_fixed fun a _ => congrArg (fun i => Activation.mk a.name i a.id a.callSite) (h.scopes_past _)
  rw [Machine.past, h.scopes_past, calls]
  obtain ⟨t, rfl, -⟩ := h
  rfl

/-- An item is looked up once more as it was before: if it was found, there it is on the same machine, and
if it was not, it is not found for the same reason. -/
theorem item_again (hb : base.Simple) (hi : i.Simple) (scope : ScopeId) (loc : Location)
    (whole : m.world.store.Whole) (hv : Act.look scope base m = .ok v n)
    (hj : Act.look scope i n = .ok j n') :
    (∀ x, n'.world.store.getIndex v j = .ok x →
      Act.look scope (.index loc base i) n' = .ok x n') ∧
    ∀ f, n'.world.store.getIndex v j = .error f →
      ∃ q, Act.look scope (.index loc base i) n' = .error (f.attach (some loc)) q ∧ n'.Spare q := by
  have spare : m.Spare n' := ((look_spare hb scope).ok hv).trans ((look_spare hi scope).ok hj)
  have first : Act.look scope (.index loc base i) m =
      Act.reading loc (·.getIndex v j) n' := by
    rw [Act.look, Act.bind_of_ok hv, Act.bind_of_ok hj]
  refine ⟨fun x item => ?_, fun f missing => ?_⟩
  · have looked (same : n = m) : n.Looked j n' := look_cases hi scope (same ▸ whole) hj
    obtain ⟨-, rfl⟩ := item_still whole (look_cases hb scope whole hv) looked
      ((look_spare hi scope).ok hj) item
    rw [first, Act.reading_eq, item]
  · let d : Distance σ := ⟨m.world.store.behind n'.world.store, Eq⟩
    have matched : m.world.Matches d n'.world := by
      obtain ⟨t, rfl, behind⟩ := spare
      exact ⟨whole.opens behind.kept, rfl⟩
    have ends := passes_look d (.index loc hb hi) scope m n'.world matched
    rw [first, Act.reading_eq, missing, spare.scopes_past, spare.past] at ends
    generalize hr : Act.look scope (.index loc base i) n' = r at ends
    cases ends with
    | error f hv => exact ⟨_, rfl, (look_spare (.index loc hb hi) scope).error hr⟩

end Again

end LoopScript
