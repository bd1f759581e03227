import LoopScript.Proofs.Machine.Closed

/-!
What actions leave of a machine. A relation between the machine before and the machine after that
holds of each single change holds of every action, of every step and of every run.
-/

namespace LoopScript

variable {σ α β : Type}

/-- A relation that every change of a machine respects which opens or closes no call. -/
structure Setup.Respects (setup : Setup σ) (R : Machine σ → Machine σ → Prop) : Prop where
  refl (m : Machine σ) : R m m
  trans {m n k : Machine σ} : R m n → R n k → R m k
  world (m : Machine σ) (w : World σ) (h : setup.Touches m.world w) : R m { m with world := w }
  current (m : Machine σ) (loc : Option Location) : R m { m with current := loc }
  forced (m : Machine σ) (names : List String) : R m { m with forced := names }
  record (m : Machine σ) (e : LogEntry) : R m { m with log := m.log.record setup.verbose e }

/-- A relation that opening and closing a call respect, too. -/
structure Setup.RespectsCalls (setup : Setup σ) (R : Machine σ → Machine σ → Prop) : Prop
    extends setup.Respects R where
  enter (m : Machine σ) (name : String) (scope : ScopeId) (loc : Location)
    (h : m.calls.length ≤ callLimit) :
    R m { m with calls := ⟨name, scope, m.issued, some loc⟩ :: m.calls, issued := m.issued + 1 }
  exit (m : Machine σ) (a : Activation) (calls : List Activation) (h : m.calls = a :: calls) :
    R m { m with calls := calls, log := m.log.forget a.id }

namespace Act

section Binds

variable {m n : Machine σ} {x y : Act σ α}

theorem bind_of_ok {a : α} (h : x m = .ok a n) (f : α → Act σ β) : (x >>= f) m = f a n := by
  simp only [bind, EStateM.bind, h]

theorem bind_of_error {e : Fault} (h : x m = .error e n) (f : α → Act σ β) :
    (x >>= f) m = .error e n := by
  simp only [bind, EStateM.bind, h]

theorem bind_congr (h : x m = y m) (f : α → Act σ β) : (x >>= f) m = (y >>= f) m := by
  simp only [bind, EStateM.bind, h]

theorem reading_ok {f : Store → Except Fault α} {a : α} (loc : Location)
    (h : f m.world.store = .ok a) : reading loc f m = .ok a m := by
  change placed loc (f m.world.store) m = _
  rw [h]
  rfl

end Binds

/-- How an action ends on a given machine: with a value, or with a fault. -/
def Ensures (x : Act σ α) (m : Machine σ) (P : α → Machine σ → Prop)
    (E : Fault → Machine σ → Prop) : Prop :=
  match x m with
  | .ok a n => P a n
  | .error f n => E f n

def Keeps (R : Machine σ → Machine σ → Prop) (x : Act σ α) : Prop :=
  ∀ m, Ensures x m (fun _ => R m) (fun _ => R m)

section Ensures

variable {m : Machine σ} {P Q : α → Machine σ → Prop} {E F : Fault → Machine σ → Prop}

theorem ensures_of_ok {x : Act σ α} {a : α} {n : Machine σ} (h : Ensures x m P E)
    (e : x m = .ok a n) : P a n := by
  simpa only [Ensures, e] using h

theorem ensures_of_error {x : Act σ α} {f : Fault} {n : Machine σ} (h : Ensures x m P E)
    (e : x m = .error f n) : E f n := by
  simpa only [Ensures, e] using h

theorem Ensures.mono {x : Act σ α} (h : Ensures x m P E) (hp : ∀ a n, P a n → Q a n)
    (he : ∀ f n, E f n → F f n) : Ensures x m Q F := by
  unfold Ensures at *
  split at h
  · exact hp _ _ h
  · exact he _ _ h

theorem Ensures.and {x : Act σ α} (h : Ensures x m P E) (h' : Ensures x m Q F) :
    Ensures x m (fun a n => P a n ∧ Q a n) (fun f n => E f n ∧ F f n) := by
  unfold Ensures at *
  split <;> simp_all only [and_self]

theorem ensures_bind {x : Act σ α} {f : α → Act σ β} {P : β → Machine σ → Prop}
    (h : Ensures x m (fun a n => Ensures (f a) n P E) E) : Ensures (x >>= f) m P E := by
  unfold Ensures at h
  simp only [Ensures, bind, EStateM.bind]
  split at h <;> simp_all

theorem ensures_get {f : Machine σ → Act σ α} (h : Ensures (f m) m P E) :
    Ensures (get >>= f) m P E := h

end Ensures

theorem Keeps.ok {R : Machine σ → Machine σ → Prop} {x : Act σ α} {m n : Machine σ} {a : α}
    (h : Keeps R x) (e : x m = .ok a n) : R m n :=
  ensures_of_ok (P := fun _ => R m) (h m) e

theorem Keeps.error {R : Machine σ → Machine σ → Prop} {x : Act σ α} {m n : Machine σ} {f : Fault}
    (h : Keeps R x) (e : x m = .error f n) : R m n :=
  ensures_of_error (E := fun _ => R m) (h m) e

section Keeps

variable {setup : Setup σ} {R : Machine σ → Machine σ → Prop}

theorem keeps_get (hR : setup.Respects R) : Keeps R (get : Act σ (Machine σ)) :=
  fun m => hR.refl m

theorem keeps_bind (hR : setup.Respects R) {x : Act σ α} {f : α → Act σ β} (hx : Keeps R x)
    (hf : ∀ a, Keeps R (f a)) : Keeps R (x >>= f) := by
  intro m
  apply ensures_bind
  refine (hx m).mono ?_ fun _ _ h => h
  intro a n hn
  exact (hf a n).mono (fun _ _ h => hR.trans hn h) fun _ _ h => hR.trans hn h

end Keeps

end Act

variable {setup : Setup σ} {R : Machine σ → Machine σ → Prop}

theorem Setup.Respects.closed (hR : setup.Respects R) : setup.Closed fun _ => Act.Keeps R where
  pure _ m := hR.refl m
  throw _ m := hR.refl m
  bind hx hf := Act.keeps_bind hR hx hf
  onWorld _ h m := hR.world m _ (h m.world)
  store m := hR.refl m
  current m := hR.refl m
  forced m := hR.refl m

namespace Act

theorem keeps_snapshot (hR : setup.Respects R) (loc : Location) :
    Keeps R (snapshot (σ := σ) loc) := by
  refine keeps_bind hR (keeps_get hR) fun m => ?_
  split
  · exact hR.closed.pure _
  · exact closed_map hR.closed _ (closed_reading hR.closed loc _)

theorem keeps_logStep (hR : setup.Respects R) (rule : String) (loc : Location) :
    Keeps R (logStep setup rule loc) := by
  have rest (bindings : Option (List (String × String))) :
      Keeps R (do
        let step ← record setup.verbose rule loc bindings
        callRules ⟨step, rule, some loc⟩ setup.services.rules) :=
    keeps_bind hR (fun m => hR.record m _) fun _ => closed_callRules hR.closed _ fun _ h => h
  unfold logStep
  split
  · exact keeps_bind hR (keeps_snapshot hR loc) rest
  · exact rest none

theorem keeps_enter (hR : setup.RespectsCalls R) (name : String) (scope : ScopeId)
    (loc : Location) : Keeps R (enter (σ := σ) name scope loc) := by
  intro m
  apply ensures_get
  by_cases h : callLimit < m.calls.length
  · rw [if_pos h]
    exact closed_fail hR.closed loc _ m
  · rw [if_neg h]
    exact hR.enter m name scope loc (Nat.le_of_not_lt h)

theorem keeps_exit (hR : setup.RespectsCalls R) : Keeps R (exit (σ := σ)) := by
  intro m
  apply ensures_get
  cases h : m.calls with
  | nil => exact hR.refl m
  | cons a calls => exact hR.exit m a calls h

end Act

theorem Setup.Respects.closedBegin (hR : setup.Respects R) :
    setup.ClosedBegin fun _ => Act.Keeps R where
  toClosed := hR.closed
  place loc m := hR.current m loc
  force f m := hR.forced m (f m.forced)
  log := Act.keeps_logStep hR

theorem Setup.RespectsCalls.closedCalls (hR : setup.RespectsCalls R) :
    setup.ClosedCalls fun _ => Act.Keeps R where
  toClosed := hR.closed
  enter := Act.keeps_enter hR
  exit := Act.keeps_exit hR

end LoopScript
