import LoopScript.Proofs.Relocation.Nesting
import Mathlib.Data.Fintype.Order
import Mathlib.Logic.Relation
import Mathlib.Order.WellFounded

/-!
Values in which no container lies inside itself. Comparisons of such values descend without looking
back, and come to an end before they reach the bound on their depth.
-/

namespace LoopScript

open Relation (TransGen ReflTransGen)

section Lists

theorem lexicographic_congr_mem {f g : Value → Value → Except Fault Ordering} {xs ys : List Value}
    (h : ∀ x ∈ xs, ∀ y, f x y = g x y) : lexicographic f xs ys = lexicographic g xs ys := by
  induction xs generalizing ys with
  | nil => cases ys <;> rfl
  | cons x xs ih =>
    cases ys with
    | nil => rfl
    | cons y ys =>
      rw [lexicographic, lexicographic, h x List.mem_cons_self,
        ih fun z hz => h z (List.mem_cons_of_mem x hz)]

theorem allPairs_congr_mem {f g : Value → Value → Except Fault Bool} {xs ys : List Value}
    (h : ∀ x ∈ xs, ∀ y, f x y = g x y) : allPairs f xs ys = allPairs g xs ys := by
  induction xs generalizing ys with
  | nil => rfl
  | cons x xs ih =>
    cases ys with
    | nil => rfl
    | cons y ys =>
      rw [allPairs, allPairs, h x List.mem_cons_self,
        ih fun z hz => h z (List.mem_cons_of_mem x hz)]

/-- How the entries of a dictionary are looked for in another one. -/
def matchEntries (equal : Value → Value → Except Fault Bool) (es fs : Table Value Value) :
    Except Fault Bool :=
  es.foldlM (fun same (k, x) =>
    if same then
      match fs.get? k with
      | none => .ok false
      | some y => equal x y
    else .ok false) true

theorem matchEntries_cons {equal : Value → Value → Except Fault Bool} {k x : Value}
    {es fs : Table Value Value} :
    matchEntries equal ((k, x) :: es) fs =
      match fs.get? k with
      | none => .ok false
      | some y => equal x y >>= fun same =>
        if same then matchEntries equal es fs else .ok false := by
  have refuted : ∀ es : Table Value Value, (es.foldlM (fun same (k, x) =>
      if same then
        match fs.get? k with
        | none => .ok false
        | some y => equal x y
      else .ok false) false : Except Fault Bool) = .ok false := by
    intro es
    induction es with
    | nil => rfl
    | cons e es ih => exact ih
  rw [matchEntries, List.foldlM_cons]
  simp only [if_true]
  cases fs.get? k with
  | none => exact refuted es
  | some y =>
    dsimp only
    cases equal x y with
    | error f => rfl
    | ok r =>
      cases r with
      | false => exact refuted es
      | true => rfl

theorem matchEntries_congr {f g : Value → Value → Except Fault Bool} {es fs : Table Value Value}
    (h : ∀ e ∈ es, ∀ y, f e.2 y = g e.2 y) : matchEntries f es fs = matchEntries g es fs := by
  induction es with
  | nil => rfl
  | cons e es ih =>
    obtain ⟨k, x⟩ := e
    rw [matchEntries_cons, matchEntries_cons, ih fun e he => h e (List.mem_cons_of_mem _ he)]
    have same := h (k, x) List.mem_cons_self
    simp only [same]

end Lists

namespace Store

/-- The first value stands in the second: as an item, a key, or the value of a key. -/
def Inside (s : Store) (v : Value) : Value → Prop
  | .atom _ => False
  | .ref a => v ∈ (s.read a).items

/-- Below a value there is nothing that stands, at any depth, in itself. -/
def Acyclic (s : Store) (v : Value) : Prop :=
  ∀ w, ReflTransGen s.Inside w v → ¬ TransGen s.Inside w w

variable {s : Store} {v w x : Value} {a b : Addr}

theorem inside_of_list {xs : List Value} (h : s.read a = .list xs) (hx : x ∈ xs) :
    s.Inside x (.ref a) := by
  simp only [Inside, h]
  exact hx

theorem inside_key {es : Table Value Value} {e : Value × Value} (h : s.read a = .dict es)
    (he : e ∈ es) : s.Inside e.1 (.ref a) := by
  simp only [Inside, h, Obj.items, List.mem_flatMap]
  exact ⟨e, he, by simp⟩

theorem inside_entry {es : Table Value Value} {e : Value × Value} (h : s.read a = .dict es)
    (he : e ∈ es) : s.Inside e.2 (.ref a) := by
  simp only [Inside, h, Obj.items, List.mem_flatMap]
  exact ⟨e, he, by simp⟩

theorem Acyclic.inside (h : s.Acyclic v) (hx : s.Inside x v) : s.Acyclic x := by
  intro w hw
  exact h w (hw.tail hx)

theorem Acyclic.not_below (h : s.Acyclic v) (hx : s.Inside x v) : ¬ ReflTransGen s.Inside v x := by
  intro hv
  exact h v .refl (TransGen.tail' hv hx)

/-- A value all of whose parts are acyclic is so itself: a way round would pass through a part. -/
theorem acyclic_of_inside (h : ∀ x, s.Inside x v → s.Acyclic x) : s.Acyclic v := by
  intro w hw loop
  rcases hw.cases_tail with rfl | ⟨y, hwy, hy⟩
  · obtain ⟨y, hvy, hy⟩ := TransGen.tail'_iff.mp loop
    exact h y hy y .refl (TransGen.head' hy hvy)
  · exact h y hy w hwy loop

/-- A descent into an acyclic value comes to an end, as there are only so many objects. -/
theorem Acyclic.acc (h : s.Acyclic v) : Acc s.Inside v := by
  let deeper (i j : Fin s.objects.size) : Prop :=
    TransGen s.Inside (.ref i) (.ref j) ∧ ReflTransGen s.Inside (.ref j) v
  have trans : IsTrans _ deeper := by
    constructor
    intro i j k hij hjk
    exact ⟨hij.1.trans hjk.1, hjk.2⟩
  have irrefl : Std.Irrefl deeper := by
    constructor
    intro i hi
    exact h _ hi.2 hi.1
  have ends : WellFounded deeper := Finite.wellFounded_of_trans_of_irrefl deeper
  have leaf (y : Value) (hy : ∀ z, ¬ s.Inside z y) : Acc s.Inside y :=
    Acc.intro y fun z hz => (hy z hz).elim
  -- an address outside the store holds nothing, so that the order of the others suffices
  have below (i : Fin s.objects.size) : ReflTransGen s.Inside (.ref i) v → Acc s.Inside (.ref i) := by
    induction i using ends.induction with
    | _ i ih =>
      intro hi
      refine Acc.intro _ fun y hy => ?_
      cases y with
      | atom c => exact leaf _ fun _ => id
      | ref b =>
        by_cases hb : b < s.objects.size
        · exact ih ⟨b, hb⟩ ⟨.single hy, hi⟩ (.head hy hi)
        · refine leaf _ fun z hz => hb (lt_size_of_items ?_)
          exact List.ne_nil_of_mem hz
  cases v with
  | atom c => exact leaf _ fun _ => id
  | ref a =>
    by_cases ha : a < s.objects.size
    · exact below ⟨a, ha⟩ .refl
    · exact leaf _ fun z hz => ha (lt_size_of_items (List.ne_nil_of_mem hz))

section Descent

variable {met met' : List (Addr × Addr)}

/-- A pair that does not lie ahead. -/
def Passed (s : Store) (v : Value) (met : List (Addr × Addr)) : Prop :=
  ∀ p ∈ met, ¬ ReflTransGen s.Inside (.ref p.1) v

theorem passed_nil : s.Passed v [] := by
  intro p hp
  cases hp

theorem Passed.not_mem (h : s.Passed (.ref a) met) : (a, b) ∉ met :=
  fun hm => h _ hm .refl

theorem Passed.down (h : s.Passed (.ref a) met) (ha : s.Acyclic (.ref a))
    (hx : s.Inside x (.ref a)) : s.Passed x ((a, b) :: met) := by
  intro p hp hw
  rcases List.mem_cons.mp hp with rfl | hp
  · exact ha.not_below hx hw
  · exact h p hp (hw.tail hx)

theorem compareWithin_passed (n : Nat) (hv : s.Acyclic v) (h : s.Passed v met)
    (h' : s.Passed v met') : s.compareWithin n met v w = s.compareWithin n met' v w := by
  induction n generalizing v w met met' with
  | zero => rfl
  | succ n ih =>
    match v, w with
    | .atom _, .atom _ | .atom _, .ref _ | .ref _, .atom _ => rfl
    | .ref a, .ref b =>
      simp only [compareWithin_succ]
      cases ha : s.read a with
      | list xs =>
        cases hb : s.read b with
        | list ys =>
          simp only [if_neg h.not_mem, if_neg h'.not_mem]
          apply lexicographic_congr_mem
          intro x hx y
          have inside := inside_of_list ha hx
          exact ih (hv.inside inside) (h.down hv inside) (h'.down hv inside)
        | _ => rfl
      | _ => rfl

theorem equalWithin_passed (n : Nat) (hv : s.Acyclic v) (h : s.Passed v met)
    (h' : s.Passed v met') : s.equalWithin n met v w = s.equalWithin n met' v w := by
  induction n generalizing v w met met' with
  | zero => rfl
  | succ n ih =>
    match v, w with
    | .atom _, _ | .ref _, .atom _ => rfl
    | .ref a, .ref b =>
      simp only [equalWithin]
      cases ha : s.read a with
      | list xs =>
        cases hb : s.read b with
        | list ys =>
          simp only [if_neg h.not_mem, if_neg h'.not_mem]
          have items : allPairs (s.equalWithin n ((a, b) :: met)) xs ys =
              allPairs (s.equalWithin n ((a, b) :: met')) xs ys := by
            apply allPairs_congr_mem
            intro x hx y
            have inside := inside_of_list ha hx
            exact ih (hv.inside inside) (h.down hv inside) (h'.down hv inside)
          rw [items]
        | _ => rfl
      | dict es =>
        cases hb : s.read b with
        | dict fs =>
          simp only [if_neg h.not_mem, if_neg h'.not_mem]
          have entries : matchEntries (s.equalWithin n ((a, b) :: met)) es fs =
              matchEntries (s.equalWithin n ((a, b) :: met')) es fs := by
            apply matchEntries_congr
            intro e he y
            have inside := inside_entry ha he
            exact ih (hv.inside inside) (h.down hv inside) (h'.down hv inside)
          split
          · rfl
          split
          · rfl
          · exact entries
        | _ => rfl
      | _ => rfl

theorem square_lt (n : Nat) : n * n < (n + 1) * (n + 1) :=
  Nat.mul_self_lt_mul_self (Nat.lt_succ_self n)

theorem compareWithin_item (hv : s.Acyclic (.ref a)) (hx : s.Inside x (.ref a)) (y : Value) :
    s.compareWithin ((s.objects.size + 1) * (s.objects.size + 1)) [(a, b)] x y = s.compare x y := by
  rw [compareWithin_passed _ (hv.inside hx) (passed_nil.down hv hx) passed_nil]
  exact compareWithin_enough (.nil s) x y (square_lt _) s.lt_pairLimit

theorem equalWithin_item (hv : s.Acyclic (.ref a)) (hx : s.Inside x (.ref a)) (y : Value) :
    s.equalWithin ((s.objects.size + 1) * (s.objects.size + 1)) [(a, b)] x y = s.equal x y := by
  rw [equalWithin_passed _ (hv.inside hx) (passed_nil.down hv hx) passed_nil]
  exact equalWithin_enough (.nil s) x y (square_lt _) s.lt_pairLimit

theorem compare_lists {xs ys : List Value} (hv : s.Acyclic (.ref a)) (ha : s.read a = .list xs)
    (hb : s.read b = .list ys) : s.compare (.ref a) (.ref b) = lexicographic s.compare xs ys := by
  rw [compare, pairLimit, compareWithin_succ]
  simp only [ha, hb, List.not_mem_nil, if_false]
  apply lexicographic_congr_mem
  intro x hx y
  exact compareWithin_item hv (inside_of_list ha hx) y

theorem equal_lists {xs ys : List Value} (hv : s.Acyclic (.ref a)) (ha : s.read a = .list xs)
    (hb : s.read b = .list ys) (hab : a ≠ b) :
    s.equal (.ref a) (.ref b) = if xs.length ≠ ys.length then .ok false else allPairs s.equal xs ys := by
  have apart : (a == b) = false := beq_eq_false_iff_ne.mpr hab
  rw [equal, pairLimit, equalWithin]
  simp only [ha, hb, apart, List.not_mem_nil, if_false, Bool.false_eq_true]
  split
  · rfl
  · apply allPairs_congr_mem
    intro x hx y
    exact equalWithin_item hv (inside_of_list ha hx) y

theorem equal_dicts {es fs : Table Value Value} (hv : s.Acyclic (.ref a)) (ha : s.read a = .dict es)
    (hb : s.read b = .dict fs) (hab : a ≠ b) :
    s.equal (.ref a) (.ref b) = if es.length ≠ fs.length then .ok false else matchEntries s.equal es fs := by
  have apart : (a == b) = false := beq_eq_false_iff_ne.mpr hab
  rw [equal, pairLimit, equalWithin]
  simp only [ha, hb, apart, List.not_mem_nil, if_false, Bool.false_eq_true]
  split
  · rfl
  · apply matchEntries_congr
    intro e he y
    exact equalWithin_item hv (inside_entry ha he) y

end Descent

end Store

end LoopScript
