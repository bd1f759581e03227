import LoopScript.Proofs.Machine.Discretion
import LoopScript.Proofs.Machine.Items
import LoopScript.Proofs.Machine.Twins

/-!
The rounds of loops and comprehensions. Both go through the items that there were when they were entered:
a run has come through some whole rounds, one for each of the first items, and is in the round of the next
one, or at the end if none is left.
-/

namespace LoopScript

variable {σ : Type}

/-- A block of statements that is to be carried out. -/
def Control.block (body : List Stmt) (scope : ScopeId) (k : Context .flow) : Control :=
  match body with
  | [] => .move (.give (a := .flow) .normal k)
  | s :: ss => .task (.exec s scope (.fill (.rest ss scope) k))

/-- An expression that is to be evaluated. -/
def Control.eval (e : Expr) (scope : ScopeId) (k : Context .value) : Control :=
  .task (.eval e scope k)

/-- What is carried out comes to a value or a flow, whatever stands around it. -/
def Setup.Comes (setup : Setup σ) {a : Awaits} (c : Context a → Control) (m : Machine σ)
    (stops : List (Stop σ)) (x : a.Input) (n : Machine σ) : Prop :=
  ∀ k, setup.Leads k (c k) m stops (.on (.move (.give x k)) n)

section Loops

variable (setup : Setup σ) (item : String) (body : List Stmt) (scope : ScopeId)

/-- Whole rounds of a loop, one for each item in turn. The body of each begins once the variable is bound
to the item, and does not leave the loop. -/
inductive Setup.Loops : List Value → Machine σ → List (Stop σ) → Machine σ → Prop where
  | none (m : Machine σ) : Loops [] m [] m
  | more {v : Value} {vs : List Value} {m n n' : Machine σ} {first later : List (Stop σ)} {f : Flow}
      (hf : f = .normal ∨ f = .continued)
      (round : setup.Comes (.block body scope) (m.written scope item v) first f n)
      (rest : Loops vs n later n') : Loops (v :: vs) m (first ++ later) n'

/-- How far a loop has come with the items that are left: it is over, its body is at work for the first of
them, or it is left from there. -/
inductive Setup.Looping (k : Context .flow) :
    List Value → Machine σ → List (Stop σ) → Point σ → Prop where
  | ends (m : Machine σ) : Looping k [] m [] (.on (.move (.give (a := .flow) .normal k)) m)
  | inside {v : Value} {vs : List Value} {m : Machine σ} {stops : List (Stop σ)} {p : Point σ}
      (h : setup.Leads (.fill (.eachBody item vs body scope) k)
        (.block body scope (.fill (.eachBody item vs body scope) k)) (m.written scope item v) stops p) :
      Looping k (v :: vs) m stops p
  | breaks {v : Value} {vs : List Value} {m n : Machine σ} {stops : List (Stop σ)}
      (h : setup.Comes (.block body scope) (m.written scope item v) stops .broken n) :
      Looping k (v :: vs) m stops (.on (.move (.give (a := .flow) .normal k)) n)
  | returns {v w : Value} {vs : List Value} {m n : Machine σ} {stops : List (Stop σ)}
      (h : setup.Comes (.block body scope) (m.written scope item v) stops (.returned w) n) :
      Looping k (v :: vs) m stops (.on (.move (.give (a := .flow) (.returned w) k)) n)

end Loops

section Comprehensions

/-- A round of a comprehension that is over: its item, its scope, and the value that it adds to the list,
if any. -/
structure Visit where
  item : Value
  scope : ScopeId
  kept : Option Value

/-- The machine with one more scope, in which nothing but the variable is bound. -/
def Comprehension.opened (c : Comprehension) (v : Value) (m : Machine σ) : Machine σ :=
  m.stored (m.world.store.openScope (some c.scope) [(c.item, v)]).2

variable (setup : Setup σ) (c : Comprehension)

/-- A whole round of a comprehension. In a scope of its own the condition is evaluated, and the element
if the condition is met. -/
inductive Setup.Visits (m : Machine σ) : Visit → List (Stop σ) → Machine σ → Prop where
  | every {v w : Value} {n : Machine σ} {stops : List (Stop σ)} (hc : c.condition = none)
      (element : setup.Comes (.eval c.element m.world.store.scopes.size) (c.opened v m) stops w n) :
      Visits m ⟨v, m.world.store.scopes.size, some w⟩ stops n
  | taken {e : Expr} {v t w : Value} {n n' : Machine σ} {first later : List (Stop σ)}
      (hc : c.condition = some e)
      (test : setup.Comes (.eval e m.world.store.scopes.size) (c.opened v m) first t n)
      (truthy : n.world.store.truthy t = true)
      (element : setup.Comes (.eval c.element m.world.store.scopes.size) n later w n') :
      Visits m ⟨v, m.world.store.scopes.size, some w⟩ (first ++ later) n'
  | dropped {e : Expr} {v t : Value} {n : Machine σ} {stops : List (Stop σ)}
      (hc : c.condition = some e)
      (test : setup.Comes (.eval e m.world.store.scopes.size) (c.opened v m) stops t n)
      (falsy : n.world.store.truthy t = false) :
      Visits m ⟨v, m.world.store.scopes.size, none⟩ stops n

/-- Whole rounds of a comprehension, one after the other. -/
inductive Setup.Gathers : List Visit → Machine σ → List (Stop σ) → Machine σ → Prop where
  | none (m : Machine σ) : Gathers [] m [] m
  | more {r : Visit} {rs : List Visit} {m n n' : Machine σ} {first later : List (Stop σ)}
      (round : setup.Visits c m r first n) (rest : Gathers rs n later n') :
      Gathers (r :: rs) m (first ++ later) n'

/-- How far a comprehension has come with the items that are left, when it has some values already: it
has given them as a new list, or it evaluates the condition or the element for the first of the items. -/
inductive Setup.Gathering (k : Context .value) (kept : List Value) :
    List Value → Machine σ → List (Stop σ) → Point σ → Prop where
  | ends (m : Machine σ) : Gathering k kept [] m []
      (.on (.move (.give (a := .value) (.ref m.world.store.objects.size) k))
        (m.stored (m.world.store.alloc (.list kept)).2))
  | every {v : Value} {vs : List Value} {m : Machine σ} {stops : List (Stop σ)} {p : Point σ}
      (hc : c.condition = none)
      (h : setup.Leads (.fill (.comprehendItem c vs kept.reverse) k)
        (.eval c.element m.world.store.scopes.size (.fill (.comprehendItem c vs kept.reverse) k))
        (c.opened v m) stops p) : Gathering k kept (v :: vs) m stops p
  | tests {e : Expr} {v : Value} {vs : List Value} {m : Machine σ} {stops : List (Stop σ)} {p : Point σ}
      (hc : c.condition = some e)
      (h : setup.Leads (.fill (.comprehendTest c m.world.store.scopes.size vs kept.reverse) k)
        (.eval e m.world.store.scopes.size
          (.fill (.comprehendTest c m.world.store.scopes.size vs kept.reverse) k))
        (c.opened v m) stops p) : Gathering k kept (v :: vs) m stops p
  | takes {e : Expr} {v t : Value} {vs : List Value} {m n : Machine σ} {first later : List (Stop σ)}
      {p : Point σ} (hc : c.condition = some e)
      (test : setup.Comes (.eval e m.world.store.scopes.size) (c.opened v m) first t n)
      (truthy : n.world.store.truthy t = true)
      (h : setup.Leads (.fill (.comprehendItem c vs kept.reverse) k)
        (.eval c.element m.world.store.scopes.size (.fill (.comprehendItem c vs kept.reverse) k))
        n later p) : Gathering k kept (v :: vs) m (first ++ later) p

end Comprehensions

section Unrolled

variable {setup : Setup σ} {m n : Machine σ} {stops : List (Stop σ)} {p : Point σ}

theorem block_twin (body : List Stmt) (scope : ScopeId) (k l : Context .flow) :
    Control.Twin k l (.block body scope k) (.block body scope l) := by
  cases body with
  | nil => exact .give _ .base
  | cons s ss => exact .task (.exec s scope (.fill _ .base))

section Loops

variable {item : String} {body : List Stmt} {scope : ScopeId} {k : Context .flow} {c : Move}

/-- What a loop does with the items that are left. -/
def Setup.LoopsOn (setup : Setup σ) (item : String) (body : List Stmt) (scope : ScopeId)
    (k : Context .flow) (items : List Value) (m : Machine σ) (stops : List (Stop σ)) (p : Point σ) :
    Prop :=
  ∃ done todo n first later, items = done ++ todo ∧ stops = first ++ later ∧
    setup.Loops item body scope done m first n ∧ setup.Looping item body scope k todo n later p

theorem Setup.LoopsOn.more {v : Value} {vs : List Value} {first later : List (Stop σ)} {f : Flow}
    (hf : f = .normal ∨ f = .continued)
    (round : setup.Comes (.block body scope) (m.written scope item v) first f n)
    (rest : setup.LoopsOn item body scope k vs n later p) :
    setup.LoopsOn item body scope k (v :: vs) m (first ++ later) p := by
  obtain ⟨done, todo, n', before, after, rfl, rfl, loops, looping⟩ := rest
  exact ⟨v :: done, todo, n', first ++ before, after, rfl, (List.append_assoc ..).symm,
    .more hf round loops, looping⟩

end Loops

section Comprehensions

variable {c : Comprehension} {k : Context .value} {kept : List Value} {d : Move}

/-- What a comprehension that has some values already does with the items that are left. -/
def Setup.GathersOn (setup : Setup σ) (c : Comprehension) (k : Context .value)
    (kept items : List Value) (m : Machine σ) (stops : List (Stop σ)) (p : Point σ) : Prop :=
  ∃ rounds todo n first later, items = rounds.map Visit.item ++ todo ∧ stops = first ++ later ∧
    setup.Gathers c rounds m first n ∧
    setup.Gathering c k (kept ++ rounds.filterMap Visit.kept) todo n later p

theorem Setup.GathersOn.more {r : Visit} {vs : List Value} {first later : List (Stop σ)}
    (round : setup.Visits c m r first n)
    (rest : setup.GathersOn c k (kept ++ r.kept.toList) vs n later p) :
    setup.GathersOn c k kept (r.item :: vs) m (first ++ later) p := by
  obtain ⟨rounds, todo, n', before, after, rfl, rfl, gathers, gathering⟩ := rest
  refine ⟨r :: rounds, todo, n', first ++ before, after, rfl, (List.append_assoc ..).symm,
    .more round gathers, ?_⟩
  have values : (r :: rounds).filterMap Visit.kept =
      r.kept.toList ++ rounds.filterMap Visit.kept := by
    rw [List.filterMap_cons]
    cases r.kept <;> rfl
  rwa [values, ← List.append_assoc]

end Comprehensions

end Unrolled

end LoopScript
