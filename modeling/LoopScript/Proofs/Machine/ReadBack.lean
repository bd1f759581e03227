import LoopScript.Proofs.Machine.Binding
import LoopScript.Proofs.Machine.Grounding

/-!
The steps that assign a name, and those between an assignment and the next one. What was assigned is
read, as `Store.Reads` says, until the next step that may bind a name.
-/

namespace LoopScript

variable {σ : Type}

def Machine.written (m : Machine σ) (env : ScopeId) (name : String) (v : Value) : Machine σ :=
  { m with world := { m.world with store := m.world.store.written m.forced env name v } }

/-- The value that a name keeps when the next round of a loop begins. The rounds of an empty body
follow upon each other at once. -/
def nextBinding (body : List Stmt) (v : Value) (todo : List Value) : Value :=
  if body.isEmpty then todo.getLastD v else v

namespace Control

/-- The next step assigns a value to a name: it ends an assignment, or it begins a round of a loop over
items. -/
inductive Assigns (env : ScopeId) (name : String) (m : Machine σ) : Value → Control → Prop where
  | name {loc : Location} {old : Old} {x v : Value} {k : Context .flow} {n : Machine σ}
      (h : Act.combine loc old x m = .ok v n) :
      Assigns env name m v (.move (.give (a := .value) x (.fill (.assignName loc name old env) k)))
  | first {loc : Location} {body : List Stmt} {x v : Value} {todo : List Value} {k : Context .flow}
      (h : m.world.store.items x = .ok (v :: todo)) :
      Assigns env name m (nextBinding body v todo)
        (.move (.give (a := .value) x (.fill (.eachOver loc name body env) k)))
  | next {f : Flow} {body : List Stmt} {v : Value} {todo : List Value} {k : Context .flow}
      (h : f = .normal ∨ f = .continued) :
      Assigns env name m (nextBinding body v todo)
        (.move (.give (a := .flow) f (.fill (.eachBody name (v :: todo) body env) k)))

/-- The next step is no assignment, definition or call. A loop over no items assigns nothing. -/
inductive Quiet (s : Store) : Control → Prop where
  | passive {c : Control} (h : c.acts = false) : Quiet s c
  | idle {loc : Location} {name : String} {body : List Stmt} {env : ScopeId} {x : Value}
      {k : Context .flow} (h : s.items x = .ok []) :
      Quiet s (.move (.give (a := .value) x (.fill (.eachOver loc name body env) k)))

end Control

/-- From one step to another without an assignment, a definition or a call. A program that waits for
its turn finds the bindings as it has left them. -/
inductive Setup.Quietly (setup : Setup σ) (c : Control) (m : Machine σ) :
    Control → Machine σ → Prop where
  | refl : Quietly setup c m c m
  | step {c₁ c₂ : Control} {m₁ m₂ : Machine σ} (h : Quietly setup c m c₁ m₁)
      (quiet : c₁.Quiet m₁.world.store) (hs : c₁.step setup m₁ = .ok (.go c₂) m₂) :
      Quietly setup c m c₂ m₂
  | aside {c₁ : Control} {m₁ m₂ : Machine σ} (h : Quietly setup c m c₁ m₁)
      (order : m₂.world.store.Grounded) (still : m₁.world.store.Grows False m₂.world.store) :
      Quietly setup c m c₁ m₂

namespace Store

variable {s t : Store} {forced : List String} {env : ScopeId} {name : String} {v : Value}

end Store

namespace Act

variable {setup : Setup σ} {m n : Machine σ} {env : ScopeId} {name : String} {v : Value}

theorem assign_eq (m : Machine σ) (env : ScopeId) (name : String) (v : Value) :
    assign env name v m = .ok ⟨⟩ (m.written env name v) := by
  have here : assign env name v m = (if name ∈ m.forced then modifyStore (·.setGlobal env name v)
      else modifyStore (·.assign env name v)) m := rfl
  rw [here, Machine.written, Store.written, Store.target]
  by_cases h : name ∈ m.forced
  · rw [if_pos h, if_pos h]
    rfl
  · rw [if_neg h, if_neg h]
    rfl

theorem ensures_assign {β : Type} {f : PUnit → Act σ β} {P : β → Machine σ → Prop}
    {E : Fault → Machine σ → Prop} (h : Ensures (f ⟨⟩) (m.written env name v) P E) :
    Ensures (assign env name v >>= f) m P E := by
  apply ensures_bind
  rw [Ensures, assign_eq]
  exact h

theorem ensures_reading {α β : Type} {loc : Location} {f : Store → Except Fault α}
    {g : α → Act σ β} {P : β → Machine σ → Prop} {E : Fault → Machine σ → Prop} {a : α}
    (h : f m.world.store = .ok a) (hg : Ensures (g a) m P E) :
    Ensures (reading loc f >>= g) m P E := by
  have here : (reading loc f >>= g) m = (placed loc (f m.world.store) >>= g) m := rfl
  rw [Ensures, here, h]
  exact hg

/-- What changes only the world leaves the names that were declared global. -/
theorem closed_forced (setup : Setup σ) :
    setup.Closed fun _ => Keeps fun m n => n.forced = m.forced where
  pure _ _ := rfl
  throw _ _ := rfl
  bind hx hf m := by
    apply ensures_bind
    refine (hx m).mono ?_ fun _ _ h => h
    intro a n hn
    exact (hf a n).mono (fun _ _ h => h.trans hn) fun _ _ h => h.trans hn
  onWorld _ _ _ := rfl
  store _ := rfl
  current _ := rfl
  forced _ := rfl

theorem reads_forM {s : Store} {m : Machine σ} (h : s.Reads m.forced env name v m.world.store)
    (todo : List Value) :
    Ensures (todo.forM (assign env name)) m
      (fun _ n => s.Reads m.forced env name (todo.getLastD v) n.world.store) fun _ _ => False := by
  induction todo generalizing m v with
  | nil => exact h
  | cons w todo ih =>
    rw [List.getLastD_cons]
    exact ensures_assign (ih (h.rewritten w))

theorem reads_nextRound (body : List Stmt) (v : Value) (todo : List Value) (k : Context .flow)
    (hi : env < m.world.store.scopes.size) :
    Ensures (nextRound (σ := σ) name (v :: todo) body env k) m
      (fun _ n => m.world.store.Reads m.forced env name (nextBinding body v todo) n.world.store)
      fun _ _ => False := by
  have bound := Store.reads_written hi m.forced name v
  cases body with
  | nil =>
    apply ensures_bind
    exact ensures_assign (reads_forM bound todo)
  | cons q qs => exact ensures_assign bound

/-- A step that assigns a name leaves its value to be read. -/
theorem reads_step {c : Control} (hm : m.world.store.Grounded) (hc : c.Grounded m.world.store)
    (h : c.Assigns env name m v) :
    Ensures (c.step setup) m
      (fun _ n => m.world.store.Reads m.forced env name v n.world.store) fun _ _ => False := by
  cases h with
  | @name loc old x _ k n h =>
    have still : m.world.store.Grows False n.world.store :=
      (ensures_of_ok (lays_combine loc old x m hm (.refl True _)) h).2.1
    have forced : n.forced = m.forced := (closed_combine (closed_forced setup) loc old x).ok h
    have hi : env < m.world.store.scopes.size := hc.1
    apply ensures_bind
    apply ensures_bind
    rw [Ensures, h]
    have bound : m.world.store.Reads m.forced env name v (n.written env name v).world.store := by
      rw [Machine.written, forced]
      exact (Store.reads_written (still.lt hi) m.forced name v).earlier still hi
    exact ensures_assign bound
  | @first loc body x v todo k h =>
    apply ensures_bind
    exact ensures_reading h (reads_nextRound body v todo k hc.1)
  | @next f body v todo k h =>
    apply ensures_bind
    rcases h with rfl | rfl
    · exact reads_nextRound body v todo k hc.1
    · exact reads_nextRound body v todo k hc.1

theorem quiet_step (hosts : setup.Grounds False) {c : Control} {r : Next σ}
    (hm : m.world.store.Grounded) (hc : c.Grounded m.world.store) (quiet : c.Quiet m.world.store)
    (e : c.step setup m = .ok r n) :
    n.world.store.Grounded ∧ m.world.store.Grows False n.world.store ∧ r.Grounded n.world.store := by
  cases quiet with
  | passive h =>
    have walked := grounds_step hosts hc (fun acts => by simp [h] at acts) m hm (.refl True _)
    exact ensures_of_ok walked e
  | @idle loc name body env x k h =>
    have ended : Ensures (nextRound (σ := σ) name [] body env k) m
        (fun r n => r = .give .normal ∧ n = m) fun _ _ => False := by
      cases body <;> exact ⟨rfl, rfl⟩
    have step : Ensures (Control.step setup
        (.move (.give (a := .value) x (.fill (.eachOver loc name body env) k)))) m
        (fun r n => n = m ∧ r.Grounded m.world.store) fun _ _ => False := by
      apply ensures_bind
      refine ensures_reading h (ended.mono ?_ fun _ _ h => h)
      rintro _ _ ⟨rfl, rfl⟩
      exact ⟨rfl, hc.2⟩
    obtain ⟨rfl, hr⟩ := ensures_of_ok step e
    exact ⟨hm, .refl False _, hr⟩

end Act

/-- What is assigned is read, up to the next step that may bind a name. -/
theorem Setup.Quietly.reads {setup : Setup σ} (hosts : setup.Grounds False) {s : Store}
    {forced : List String} {env : ScopeId} {name : String} {v : Value} {c₁ c₂ : Control}
    {m₁ m₂ : Machine σ} (h : setup.Quietly c₁ m₁ c₂ m₂) (hm : m₁.world.store.Grounded)
    (hc : c₁.Grounded m₁.world.store) (bound : s.Reads forced env name v m₁.world.store) :
    s.Reads forced env name v m₂.world.store := by
  have order : m₂.world.store.Grounded ∧ c₂.Grounded m₂.world.store ∧
      s.Reads forced env name v m₂.world.store := by
    induction h with
    | refl => exact ⟨hm, hc, bound⟩
    | step h quiet e ih =>
      obtain ⟨hm, hc, bound⟩ := ih
      obtain ⟨order, still, hc⟩ := Act.quiet_step hosts hm hc quiet e
      exact ⟨order, hc, bound.later still⟩
    | aside h order still ih =>
      obtain ⟨-, hc, bound⟩ := ih
      exact ⟨order, hc.mono still.weaken, bound.later still⟩
  exact order.2.2

end LoopScript
