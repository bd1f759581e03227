import LoopScript.Proofs.Machine.Evaluation

/-!
Stretches of a run. What a context awaits is evaluated by the steps up to the first that gives it a
value or fails, and what stands around that context has no part in them, so that such stretches are
put together and taken apart.
-/

namespace LoopScript

variable {σ : Type}

/-- A pause of a program: what it waits for, if not only for a new budget, on what machine, and the world
in which it goes on. -/
structure Stop (σ : Type) where
  wait : Option (Wait σ)
  machine : Machine σ
  world : World σ

/-- A point of a run: the control that is next, or a failure. -/
inductive Point (σ : Type) where
  | on (c : Control) (m : Machine σ)
  | failed (f : Fault) (m : Machine σ)

/-- One step of a run. Where the program has to wait, and before a task, for which the budget may have to
be renewed, the host may change the world. -/
inductive Setup.Moves (setup : Setup σ) (c : Control) (m : Machine σ) :
    List (Stop σ) → Point σ → Prop where
  | goes {d : Control} {n : Machine σ} (h : c.step setup m = .ok (.go d) n) :
      Moves setup c m [] (.on d n)
  | fails {f : Fault} {n : Machine σ} (h : c.step setup m = .error f n) :
      Moves setup c m [] (.failed f n)
  | resumes {w : Wait σ} {r : Resumption} {d : Control} {n n' : Machine σ}
      (h : c.step setup m = .ok (.pause w r) n) (world : World σ)
      (hr : r.control setup { n with world := world } = .ok d n') :
      Moves setup c m [⟨some w, n, world⟩] (.on d n')
  | refuses {w : Wait σ} {r : Resumption} {f : Fault} {n n' : Machine σ}
      (h : c.step setup m = .ok (.pause w r) n) (world : World σ)
      (hr : r.control setup { n with world := world } = .error f n') :
      Moves setup c m [⟨some w, n, world⟩] (.failed f n')
  | renews {t : Task} {d : Control} {n : Machine σ} (hc : c = .task t) (world : World σ)
      (h : Act.begin setup t { m with world := world } = .ok d n) :
      Moves setup c m [⟨none, m, world⟩] (.on d n)
  | halts {t : Task} {f : Fault} {n : Machine σ} (hc : c = .task t) (world : World σ)
      (h : Act.begin setup t { m with world := world } = .error f n) :
      Moves setup c m [⟨none, m, world⟩] (.failed f n)

/-- The steps from a control on a machine to a later point, none of which comes after a context was given
what it awaits. -/
inductive Setup.Leads (setup : Setup σ) {a : Awaits} (k : Context a) :
    Control → Machine σ → List (Stop σ) → Point σ → Prop where
  | here (c : Control) (m : Machine σ) : Leads setup k c m [] (.on c m)
  | fails {c : Control} {m n : Machine σ} {stops : List (Stop σ)} {f : Fault} (hk : ¬ c.GivesTo k)
      (h : setup.Moves c m stops (.failed f n)) : Leads setup k c m stops (.failed f n)
  | next {c d : Control} {m n : Machine σ} {stops later : List (Stop σ)} {p : Point σ}
      (hk : ¬ c.GivesTo k) (h : setup.Moves c m stops (.on d n)) (rest : Leads setup k d n later p) :
      Leads setup k c m (stops ++ later) p

/-- A point at which a context is given what it awaits, or at which that has failed. -/
def Point.Ends {a : Awaits} (k : Context a) : Point σ → Prop
  | .on c _ => c.GivesTo k
  | .failed _ _ => True

/-- The host leaves the world as it is while a budget is renewed. -/
def Control.Undisturbed (c : Control) (stops : List (Stop σ)) : Prop :=
  ∀ t, c = .task t → ∀ s ∈ stops, s.wait ≠ none

variable {setup : Setup σ} {a b : Awaits} {k : Context a} {l : Context b} {c d : Control}
  {m n : Machine σ} {p : Point σ} {stops later : List (Stop σ)} {f : Fault} {v : Move} {t : Task}

theorem undisturbed_of_waits (h : ∀ s ∈ stops, s.wait ≠ none) : c.Undisturbed stops :=
  fun _ _ => h

theorem Control.Undisturbed.first (h : c.Undisturbed (stops ++ later)) : c.Undisturbed stops :=
  fun t ht s hs => h t ht s (List.mem_append_left _ hs)

theorem moves_go_iff (h : c.step setup m = .ok (.go d) n) (hs : c.Undisturbed stops) :
    setup.Moves c m stops p ↔ stops = [] ∧ p = .on d n := by
  constructor
  · intro moves
    cases moves with
    | goes h' => cases h.symm.trans h'; exact ⟨rfl, rfl⟩
    | fails h' | resumes h' | refuses h' => cases h.symm.trans h'
    | renews hc | halts hc => exact absurd rfl (hs _ hc _ List.mem_cons_self)
  · rintro ⟨rfl, rfl⟩
    exact .goes h

theorem moves_fail_iff (h : c.step setup m = .error f n) (hs : c.Undisturbed stops) :
    setup.Moves c m stops p ↔ stops = [] ∧ p = .failed f n := by
  constructor
  · intro moves
    cases moves with
    | fails h' => cases h.symm.trans h'; exact ⟨rfl, rfl⟩
    | goes h' | resumes h' | refuses h' => cases h.symm.trans h'
    | renews hc | halts hc => exact absurd rfl (hs _ hc _ List.mem_cons_self)
  · rintro ⟨rfl, rfl⟩
    exact .fails h

theorem leads_trans (h : setup.Leads k c m stops (.on d n)) (h' : setup.Leads k d n later p) :
    setup.Leads k c m (stops ++ later) p := by
  generalize he : Point.on d n = q at h
  induction h with
  | here => cases he; exact h'
  | fails => cases he
  | next hk moves _ ih =>
    rw [List.append_assoc]
    exact .next hk moves (ih he)

theorem leads_go (hk : ¬ c.GivesTo k) (h : c.step setup m = .ok (.go d) n)
    (rest : setup.Leads k d n stops p) : setup.Leads k c m stops p :=
  .next hk (.goes h) rest

theorem leads_task (h : Act.begin setup t m = .ok d n) (rest : setup.Leads k d n stops p) :
    setup.Leads k (.task t) m stops p :=
  leads_go (fun given => nomatch given.choose_spec) (by rw [step_task, h]) rest

theorem Act.begin_name {scope : ScopeId} {id : String} {v : Value} {k : Context .value}
    (loc : Location) (h : m.world.store.lookup scope id = .ok v) :
    Act.begin setup (.eval (.name loc id) scope k) m = .ok (.move (.give v k)) m :=
  Act.bind_of_ok (Act.reading_ok loc h) _

/-- A stretch ends where it begins, or it goes on behind the first step. -/
theorem leads_step (h : c.step setup m = .ok (.go d) n) (hs : c.Undisturbed stops)
    (leads : setup.Leads k c m stops p) :
    (stops = [] ∧ p = .on c m) ∨ setup.Leads k d n stops p := by
  cases leads with
  | here => exact .inl ⟨rfl, rfl⟩
  | fails _ moves => cases ((moves_go_iff h hs).mp moves).2
  | next _ moves rest =>
    obtain ⟨rfl, same⟩ := (moves_go_iff h hs.first).mp moves
    cases same
    exact .inr rest

/-- A step that only goes on may be left out of what leads to an end. -/
theorem leads_go_iff (hk : ¬ c.GivesTo k) (h : c.step setup m = .ok (.go d) n)
    (hs : c.Undisturbed stops) (hp : p.Ends k) :
    setup.Leads k c m stops p ↔ setup.Leads k d n stops p := by
  refine ⟨fun leads => ?_, leads_go hk h⟩
  obtain ⟨-, rfl⟩ | rest := leads_step h hs leads
  · exact absurd hp hk
  · exact rest

/-- A stretch that comes to a failing step ends before it or with it. -/
theorem leads_stop (h : c.step setup m = .error f n) (hs : c.Undisturbed stops)
    (leads : setup.Leads k c m stops p) : stops = [] ∧ (p = .on c m ∨ p = .failed f n) := by
  cases leads with
  | here => exact ⟨rfl, .inl rfl⟩
  | fails _ moves =>
    obtain ⟨rfl, same⟩ := (moves_fail_iff h hs).mp moves
    exact ⟨rfl, .inr same⟩
  | next _ moves => cases ((moves_fail_iff h hs.first).mp moves).2

theorem leads_fail_iff (hk : ¬ c.GivesTo k) (h : c.step setup m = .error f n)
    (hs : c.Undisturbed stops) (hp : p.Ends k) :
    setup.Leads k c m stops p ↔ stops = [] ∧ p = .failed f n := by
  constructor
  · intro leads
    obtain ⟨rfl, rfl | rfl⟩ := leads_stop h hs leads
    · exact absurd hp hk
    · exact ⟨rfl, rfl⟩
  · rintro ⟨rfl, rfl⟩
    exact .fails hk (.fails h)

/-- An evaluation is a stretch without an error during which no budget is renewed. -/
theorem evaluates_iff {x : a.Input} : Evaluates setup k c m x n ↔
    ∃ stops, (∀ s ∈ stops, s.wait ≠ none) ∧ setup.Leads k c m stops (.on (.move (.give x k)) n) := by
  constructor
  · intro h
    induction h with
    | done x m => exact ⟨[], nofun, .here _ _⟩
    | step hk hc _ ih =>
      obtain ⟨stops, waits, leads⟩ := ih
      exact ⟨stops, waits, leads_go hk hc leads⟩
    | wait hk hc world hr _ ih =>
      obtain ⟨stops, waits, leads⟩ := ih
      refine ⟨_, ?_, .next hk (.resumes hc world hr) leads⟩
      exact List.forall_mem_cons.mpr ⟨Option.some_ne_none _, waits⟩
  · rintro ⟨stops, waits, leads⟩
    generalize he : Point.on (.move (.give x k)) n = q at leads
    induction leads with
    | here => cases he; exact .done x _
    | fails => cases he
    | next hk moves _ ih =>
      rw [List.forall_mem_append] at waits
      have rest := ih waits.2 he
      cases moves with
      | goes h => exact .step hk h rest
      | resumes h world hr => exact .wait hk h world hr rest
      | renews => exact absurd rfl (waits.1 _ List.mem_cons_self)

theorem not_givesTo_of_depth (h : k.depth < c.context.2.depth) : ¬ c.GivesTo k := by
  rintro ⟨x, rfl⟩
  exact absurd h (Nat.lt_irrefl _)

/-- The steps from a control come to what an action gives on the same machine, and fail where it does. -/
def Setup.Performs (setup : Setup σ) (k : Context a) (c : Control) (m : Machine σ) (x : Act σ Control) :
    Prop :=
  ∀ stops p, (∀ s ∈ stops, s.wait ≠ none) → p.Ends k →
    (setup.Leads k c m stops p ↔
      match x m with
      | .ok d n => setup.Leads k d n stops p
      | .error f n => stops = [] ∧ p = .failed f n)

section Performs

variable {α : Type} {x y : Act σ Control} {c' : Awaits}

theorem Setup.Performs.congr (h : setup.Performs k c m x) (same : x m = y m) :
    setup.Performs k c m y := by
  intro stops p waits hp
  rw [h stops p waits hp, same]

theorem performs_bind {f : α → Act σ Control} {z : Act σ α} {g : α → Control}
    (h : setup.Performs k c m (z >>= fun v => pure (g v)))
    (hf : ∀ v n, z m = .ok v n → setup.Performs k (g v) n (f v)) :
    setup.Performs k c m (z >>= f) := by
  intro stops p waits hp
  rw [h stops p waits hp]
  simp only [bind, EStateM.bind]
  cases hz : z m with
  | error e n => exact Iff.rfl
  | ok v n => exact hf v n hz stops p waits hp

theorem performs_step (hk : ¬ c.GivesTo k) (h : c.step setup m = (Next.go <$> x) m) :
    setup.Performs k c m x := by
  intro stops p waits hp
  simp only [Functor.map, EStateM.map] at h
  cases hx : x m with
  | ok d n =>
    rw [hx] at h
    exact leads_go_iff hk h (undisturbed_of_waits waits) hp
  | error f n =>
    rw [hx] at h
    exact leads_fail_iff hk h (undisturbed_of_waits waits) hp

theorem performs_task (k : Context a) (t : Task) (m : Machine σ) :
    setup.Performs k (.task t) m (Act.begin setup t) :=
  performs_step (fun given => nomatch given.choose_spec) rfl

theorem performs_then (h : setup.Performs k c m (pure d)) (h' : setup.Performs k d m x) :
    setup.Performs k c m x := by
  intro stops p waits hp
  exact (h stops p waits hp).trans (h' stops p waits hp)

/-- What fills a hole inside a context is followed by the task or the value that it leads to. -/
theorem performs_react {h : Hole b c'} {v : b.Input} {l : Context c'} {z : Act σ α}
    {r : α → Reaction σ c'} {g : α → Control} (hl : k.depth ≤ l.depth)
    (hr : Act.react setup h v l m = (z >>= fun u => pure (r u)) m)
    (hg : ∀ u, Act.continueWith l (r u) = .go (g u)) :
    setup.Performs k (.move (.give v (.fill h l))) m (z >>= fun u => pure (g u)) := by
  refine performs_step (not_givesTo_of_depth (Nat.lt_succ_of_le hl)) ?_
  refine (Act.bind_congr hr _).trans ?_
  simp only [Functor.map, EStateM.map, bind, EStateM.bind]
  cases z m with
  | ok u n => exact congrArg (fun next => EStateM.Result.ok next n) (hg u)
  | error f n => rfl

theorem performs_reaction {h : Hole b c'} {v : b.Input} {l : Context c'} {r : Reaction σ c'}
    (hl : k.depth ≤ l.depth) (hr : Act.react setup h v l m = .ok r m)
    (hg : Act.continueWith l r = .go d) :
    setup.Performs k (.move (.give v (.fill h l))) m (pure d) :=
  performs_react (z := pure ()) (r := fun _ => r) hl hr fun _ => hg

end Performs

section Within

variable {base : List Activation}

theorem moves_stacked (hs : Stacked k base c.context.2 m.calls) (hk : ¬ c.GivesTo k)
    (h : setup.Moves c m stops (.on d n)) : Stacked k base d.context.2 n.calls := by
  have step : Act.Ensures (c.step setup) m _ _ := Act.ensures_step c hs hk
  cases h with
  | goes h => exact Act.ensures_of_ok step h
  | @resumes w r _ q _ h world hr =>
    have paused := Act.ensures_of_ok step h
    exact Act.ensures_of_ok (ensures_control (m := { q with world := world }) r paused) hr
  | @renews t _ _ hc world h =>
    subst hc
    exact Act.ensures_of_ok (Act.ensures_begin (m := { m with world := world }) t hs) h

/-- What is carried out inside a context stays there until that context is given what it awaits. -/
theorem leads_stacked (hs : Stacked k base c.context.2 m.calls)
    (h : setup.Leads k c m stops (.on d n)) : Stacked k base d.context.2 n.calls := by
  generalize he : Point.on d n = q at h
  induction h with
  | here => cases he; exact hs
  | fails => cases he
  | next hk moves _ ih => exact ih (moves_stacked hs hk moves) he

/-- A stretch inside a context is one of what stands around it. -/
theorem leads_outer (hl : k.depth < l.depth) (hs : Stacked l base c.context.2 m.calls)
    (h : setup.Leads l c m stops p) : setup.Leads k c m stops p := by
  have inside {c : Control} {m : Machine σ} (hs : Stacked l base c.context.2 m.calls) :
      ¬ c.GivesTo k := by
    obtain ⟨opened, deeper, -⟩ := hs
    exact not_givesTo_of_depth (Nat.lt_of_lt_of_le hl deeper.depth_le)
  induction h with
  | here c m => exact .here c m
  | fails hk moves => exact .fails (inside hs) moves
  | next hk moves _ ih => exact .next (inside hs) moves (ih (moves_stacked hs hk moves))

/-- A stretch around a context stays inside it, or there is a first time that the context is given
what it awaits. -/
theorem leads_inner (h : setup.Leads k c m stops p) :
    setup.Leads l c m stops p ∨ ∃ x n first later, stops = first ++ later ∧
      setup.Leads l c m first (.on (.move (.give x l)) n) ∧
      setup.Leads k (.move (.give x l)) n later p := by
  induction h with
  | here c m => exact .inl (.here c m)
  | @fails c m n stops f hk moves =>
    by_cases hl : c.GivesTo l
    · obtain ⟨x, rfl⟩ := hl
      exact .inr ⟨x, m, [], stops, rfl, .here _ _, .fails hk moves⟩
    · exact .inl (.fails hl moves)
  | @next c d m n stops later p hk moves rest ih =>
    by_cases hl : c.GivesTo l
    · obtain ⟨x, rfl⟩ := hl
      exact .inr ⟨x, m, [], stops ++ later, rfl, .here _ _, .next hk moves rest⟩
    · obtain inside | ⟨x, q, first, last, rfl, given, after⟩ := ih
      · exact .inl (.next hl moves inside)
      · exact .inr ⟨x, q, stops ++ first, last, (List.append_assoc ..).symm, .next hl moves given, after⟩

/-- What is evaluated inside a context fails there, or gives a value to what stands around it. -/
theorem leads_within_iff (hl : k.depth < l.depth) (hc : c.context = ⟨b, l⟩) (hp : p.Ends k) :
    setup.Leads k c m stops p ↔
      (∃ f n, p = .failed f n ∧ setup.Leads l c m stops p) ∨
      ∃ x n first later, stops = first ++ later ∧
        setup.Leads l c m first (.on (.move (.give x l)) n) ∧
        setup.Leads k (.move (.give x l)) n later p := by
  have hs : Stacked l m.calls c.context.2 m.calls := by
    rw [hc]
    exact .refl l m.calls
  constructor
  · intro h
    obtain inside | given := leads_inner (l := l) h
    · cases p with
      | failed f n => exact .inl ⟨f, n, rfl, inside⟩
      | on d n =>
        obtain ⟨opened, deeper, -⟩ := leads_stacked hs inside
        exact absurd hp (not_givesTo_of_depth (Nat.lt_of_lt_of_le hl deeper.depth_le))
    · exact .inr given
  · rintro (⟨f, n, rfl, inside⟩ | ⟨x, n, first, later, rfl, given, after⟩)
    · exact leads_outer hl hs inside
    · exact leads_trans (leads_outer hl hs given) after

end Within

end LoopScript
