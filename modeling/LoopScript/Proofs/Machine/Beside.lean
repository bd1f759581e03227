import LoopScript.Proofs.Machine.Closed

/-!
Two machines side by side. What an action does not look at it does not depend on: on machines that
differ in nothing else it ends alike and leaves machines that again differ in nothing else.
-/

namespace LoopScript

variable {σ α β : Type}

/-- Two ends of an action: with one value, with one fault, or apart, the first with a fault of its
own. -/
inductive Act.Beside (P : α → Machine σ → Machine σ → Prop)
    (E : Fault → Machine σ → Machine σ → Prop) (A : Fault → Machine σ → Prop) :
    EStateM.Result Fault (Machine σ) α → EStateM.Result Fault (Machine σ) α → Prop where
  | ok {a : α} {m n : Machine σ} (h : P a m n) : Beside P E A (.ok a m) (.ok a n)
  | error {f : Fault} {m n : Machine σ} (h : E f m n) : Beside P E A (.error f m) (.error f n)
  | apart {f : Fault} {m : Machine σ} (h : A f m) (r : EStateM.Result Fault (Machine σ) α) :
      Beside P E A (.error f m) r

/-- A relation between machines that share all that actions look at, and go on to share it. -/
structure Machine.Likeness (R : Machine σ → Machine σ → Prop) : Prop where
  world {m n : Machine σ} (h : R m n) : n.world = m.world
  current {m n : Machine σ} (h : R m n) : n.current = m.current
  forced {m n : Machine σ} (h : R m n) : n.forced = m.forced
  depth {m n : Machine σ} (h : R m n) : n.calls.length = m.calls.length
  setWorld {m n : Machine σ} (h : R m n) (w : World σ) : R { m with world := w } { n with world := w }
  setCurrent {m n : Machine σ} (h : R m n) (loc : Option Location) :
    R { m with current := loc } { n with current := loc }
  setForced {m n : Machine σ} (h : R m n) (names : List String) :
    R { m with forced := names } { n with forced := names }
  enter {m n : Machine σ} (h : R m n) (name : String) (scope : ScopeId) (loc : Location) :
    R { m with calls := ⟨name, scope, m.issued, some loc⟩ :: m.calls, issued := m.issued + 1 }
      { n with calls := ⟨name, scope, n.issued, some loc⟩ :: n.calls, issued := n.issued + 1 }
  exit {m n : Machine σ} (h : R m n) {a b : Activation} {as bs : List Activation}
    (ha : m.calls = a :: as) (hb : n.calls = b :: bs) :
    R { m with calls := as, log := m.log.forget a.id } { n with calls := bs, log := n.log.forget b.id }

namespace Act

/-- Two actions that end alike on machines alike, unless they end apart. -/
def Agree (R : Machine σ → Machine σ → Prop) (A : Fault → Machine σ → Prop) (x y : Act σ α) :
    Prop :=
  ∀ m n, R m n → Beside (fun _ => R) (fun _ => R) A (x m) (y n)

section Beside

variable {P : α → Machine σ → Machine σ → Prop} {E : Fault → Machine σ → Machine σ → Prop}
  {A : Fault → Machine σ → Prop}

theorem Beside.mono {Q : α → Machine σ → Machine σ → Prop}
    {F : Fault → Machine σ → Machine σ → Prop} {B : Fault → Machine σ → Prop}
    {r s : EStateM.Result Fault (Machine σ) α} (h : Beside P E A r s)
    (hp : ∀ a m n, P a m n → Q a m n) (he : ∀ f m n, E f m n → F f m n)
    (ha : ∀ f m, A f m → B f m) : Beside Q F B r s := by
  cases h with
  | ok h => exact .ok (hp _ _ _ h)
  | error h => exact .error (he _ _ _ h)
  | apart h => exact .apart (ha _ _ h) _

theorem Beside.right {r s : EStateM.Result Fault (Machine σ) α} (h : Beside P E A r s) :
    Beside (fun a m n => P a m n ∧ s = .ok a n) E A r s := by
  cases h with
  | ok h => exact .ok ⟨h, rfl⟩
  | error h => exact .error h
  | apart h => exact .apart h _

theorem Beside.of_ok {a : α} {m : Machine σ} {r s : EStateM.Result Fault (Machine σ) α}
    (h : Beside P E A r s) (hr : r = .ok a m) : ∃ n, s = .ok a n ∧ P a m n := by
  subst hr
  cases h with
  | ok h => exact ⟨_, rfl, h⟩

theorem Beside.of_error {f : Fault} {m : Machine σ} {r s : EStateM.Result Fault (Machine σ) α}
    (h : Beside P E A r s) (hr : r = .error f m) :
    (∃ n, s = .error f n ∧ E f m n) ∨ A f m := by
  subst hr
  cases h with
  | error h => exact .inl ⟨_, rfl, h⟩
  | apart h => exact .inr h

theorem beside_bind {Q : β → Machine σ → Machine σ → Prop} {x y : Act σ α} {f g : α → Act σ β}
    {m n : Machine σ} (hx : Beside P E A (x m) (y n))
    (hf : ∀ a m n, P a m n → Beside Q E A (f a m) (g a n)) :
    Beside Q E A ((x >>= f) m) ((y >>= g) n) := by
  simp only [bind, EStateM.bind]
  generalize x m = r, y n = s at hx ⊢
  cases hx with
  | ok h => exact hf _ _ _ h
  | error h => exact .error h
  | apart h => exact .apart h _

end Beside

section Likeness

variable {R : Machine σ → Machine σ → Prop} {A : Fault → Machine σ → Prop}

theorem agree_bind {x y : Act σ α} {f g : α → Act σ β} (hx : Agree R A x y)
    (hf : ∀ a, Agree R A (f a) (g a)) : Agree R A (x >>= f) (y >>= g) :=
  fun m n h => beside_bind (hx m n h) fun a m n h => hf a m n h

theorem agree_force (hR : Machine.Likeness R) (f : List String → List String) :
    Agree R A (modify fun m : Machine σ => { m with forced := f m.forced } : Act σ PUnit)
      (modify fun m => { m with forced := f m.forced }) := by
  intro m n h
  have agree : (modify fun m => { m with forced := f m.forced } : Act σ PUnit) n =
      .ok ⟨⟩ { n with forced := f m.forced } := by rw [← hR.forced h]; rfl
  rw [agree]
  exact .ok (hR.setForced h _)

theorem agree_enter (hR : Machine.Likeness R) (name : String) (scope : ScopeId) (loc : Location) :
    Agree R A (enter (σ := σ) name scope loc) (enter name scope loc) := by
  intro m n h
  change Beside _ _ _
    ((if callLimit < m.calls.length then fail loc .callsTooDeep else set _ : Act σ PUnit) m)
    ((if callLimit < n.calls.length then fail loc .callsTooDeep else set _ : Act σ PUnit) n)
  rw [hR.depth h]
  by_cases hd : callLimit < m.calls.length
  · rw [if_pos hd, if_pos hd]
    exact .error h
  · rw [if_neg hd, if_neg hd]
    exact .ok (hR.enter h name scope loc)

theorem agree_exit (hR : Machine.Likeness R) : Agree R A (exit (σ := σ)) exit := by
  intro m n h
  have depth := hR.depth h
  obtain ⟨world, globals, forced, current, log, calls, issued⟩ := m
  obtain ⟨world', globals', forced', current', log', calls', issued'⟩ := n
  cases calls with
  | nil =>
    cases List.length_eq_zero_iff.mp depth
    exact .error h
  | cons a as =>
    cases calls' with
    | nil => cases depth
    | cons b bs => exact .ok (hR.exit h rfl rfl)

end Likeness

end Act

namespace Machine.Likeness

variable {R : Machine σ → Machine σ → Prop} (hR : Likeness R) (setup : Setup σ)
  (A : Fault → Machine σ → Prop)

include hR

theorem closed : setup.Closed fun _ x => Act.Agree R A x x where
  pure _ _ _ h := .ok h
  throw _ _ _ h := .error h
  bind hx hf := Act.agree_bind hx hf
  onWorld f _ m n h := by
    have agree : Act.onWorld f n =
        .ok (f m.world).1 { n with world := (f m.world).2 } := by rw [← hR.world h]; rfl
    rw [agree]
    exact .ok (hR.setWorld h _)
  store m n h := by
    have agree : Act.store n = .ok m.world.store n := by rw [← hR.world h]; rfl
    rw [agree]
    exact .ok h
  current m n h := by
    have agree : (do return (← get).current : Act σ (Option Location)) n = .ok m.current n := by
      rw [← hR.current h]; rfl
    rw [agree]
    exact .ok h
  forced m n h := by
    have agree : (do return (← get).forced : Act σ (List String)) n = .ok m.forced n := by
      rw [← hR.forced h]; rfl
    rw [agree]
    exact .ok h

theorem closedCalls : setup.ClosedCalls fun _ x => Act.Agree R A x x where
  toClosed := hR.closed setup A
  enter := Act.agree_enter hR
  exit := Act.agree_exit hR

end Machine.Likeness

end LoopScript
