import LoopScript.Proofs.Value.Faults
import LoopScript.Proofs.Value.Ordering

/-!
The order of values in which containers may stand in themselves. A comparison that has a result
has the one that it would have without a look back at the pairs of lists that it is about, and of
two such comparisons in a row a third one follows as for values without end.
-/

namespace LoopScript

open Relation (ReflTransGen)

section Lists

variable {α : Type} {f g : α → α → Except Fault Ordering} {xs ys : List α} {o : Ordering}

theorem lexicographic_mono (h : ∀ x ∈ xs, ∀ y ∈ ys, ∀ o, f x y = .ok o → g x y = .ok o)
    (ho : lexicographic f xs ys = .ok o) : lexicographic g xs ys = .ok o := by
  induction xs generalizing ys with
  | nil => cases ys <;> exact ho
  | cons x xs ih =>
    cases ys with
    | nil => exact ho
    | cons y ys =>
      have heads := h x List.mem_cons_self y List.mem_cons_self
      rw [lexicographic_cons]
      obtain ⟨first, ho⟩ | ⟨ne, first⟩ := lexicographic_cons_ok ho
      · rw [heads _ first]
        exact ih (fun x hx y hy => h x (List.mem_cons_of_mem _ hx) y (List.mem_cons_of_mem _ hy)) ho
      · rw [heads _ first]
        exact if_neg ne

theorem lexicographic_swap (h : ∀ x ∈ xs, ∀ y ∈ ys, ∀ o, f x y = .ok o → g y x = .ok o.swap)
    (ho : lexicographic f xs ys = .ok o) : lexicographic g ys xs = .ok o.swap := by
  induction xs generalizing ys with
  | nil =>
    cases ys <;>
      · cases ho
        rfl
  | cons x xs ih =>
    cases ys with
    | nil =>
      cases ho
      rfl
    | cons y ys =>
      have heads := h x List.mem_cons_self y List.mem_cons_self
      rw [lexicographic_cons]
      obtain ⟨first, ho⟩ | ⟨ne, first⟩ := lexicographic_cons_ok ho
      · rw [heads _ first]
        exact ih (fun x hx y hy => h x (List.mem_cons_of_mem _ hx) y (List.mem_cons_of_mem _ hy)) ho
      · rw [heads _ first]
        exact if_neg fun e => ne (Ordering.swap_inj.mp e)

end Lists

namespace Store

/-- The result of an undefined operation stands nowhere in a value. -/
def Definite (s : Store) (v : Value) : Prop :=
  ∀ w, ReflTransGen s.Inside w v → w.isNaN = false

variable {s : Store} {v w u x : Value} {a b : Addr} {xs : List Value} {o o' : Ordering} {n : Nat}
  {met met' : List (Addr × Addr)}

theorem Definite.item (h : s.Definite (.ref a)) (ha : s.read a = .list xs) (hx : x ∈ xs) :
    s.Definite x :=
  fun w hw => h w (hw.tail (inside_of_list ha hx))

/-- The comparisons that give a result. -/
theorem ok_of_compareWithin (h : s.compareWithin (n + 1) met v w = .ok o) :
    (∃ c d, v = .atom c ∧ w = .atom d ∧ c.compare? d = some o) ∨
      ∃ a b xs ys, v = .ref a ∧ w = .ref b ∧ s.read a = .list xs ∧ s.read b = .list ys ∧
        (a, b) ∉ met ∧ lexicographic (s.compareWithin n ((a, b) :: met)) xs ys = .ok o := by
  rw [compareWithin_succ] at h
  dsimp only at h
  split at h
  · next c d =>
    split at h
    · next hcd =>
      cases h
      exact .inl ⟨c, d, rfl, rfl, hcd⟩
    · cases h
  · next a b =>
    split at h
    · next xs ys ha hb =>
      split at h
      · cases h
      · next new => exact .inr ⟨a, b, xs, ys, rfl, rfl, ha, hb, new, h⟩
    · cases h
  · cases h

theorem compareWithin_swap (hv : s.Definite v) (hw : s.Definite w)
    (hm : ∀ a b, (b, a) ∈ met' ↔ (a, b) ∈ met) (h : s.compareWithin n met v w = .ok o) :
    s.compareWithin n met' w v = .ok o.swap := by
  induction n generalizing met met' v w o with
  | zero => cases h
  | succ n ih =>
    rw [compareWithin_succ]
    obtain ⟨c, d, rfl, rfl, hcd⟩ | ⟨a, b, xs, ys, rfl, rfl, ha, hb, new, hlex⟩ :=
      ok_of_compareWithin h
    · simp only [Atom.compare?_swap (hv _ .refl) (hw _ .refl), hcd, Option.map_some]
    · simp only [ha, hb]
      rw [if_neg fun old => new ((hm a b).mp old)]
      refine lexicographic_swap (fun x hx y hy o ho => ?_) hlex
      refine ih (hv.item ha hx) (hw.item hb hy) (fun a' b' => ?_) ho
      simp only [List.mem_cons, Prod.mk.injEq, hm, and_comm]

/-- Comparisons in opposite directions have opposite results. -/
theorem compare_swap (hv : s.Definite v) (hw : s.Definite w) (h : s.compare v w = .ok o) :
    s.compare w v = .ok o.swap :=
  compareWithin_swap hv hw (fun _ _ => by simp only [List.not_mem_nil]) h

/-- The comparison without a look back. -/
def compareAhead (s : Store) : Nat → Value → Value → Except Fault Ordering
  | 0, _, _ => .error .endless
  | n + 1, v, w =>
    match v, w with
    | .atom a, .atom b => ((a.compare? b).map .ok).getD (s.refusal (.atom a) (.atom b))
    | .ref a, .ref b =>
      match s.read a, s.read b with
      | .list xs, .list ys => lexicographic (s.compareAhead n) xs ys
      | _, _ => s.refusal (.ref a) (.ref b)
    | v, w => s.refusal v w

theorem compareAhead_atoms {c d : Atom} (h : c.compare? d = some o) :
    s.compareAhead (n + 1) (.atom c) (.atom d) = .ok o := by
  simp only [compareAhead, h, Option.map_some, Option.getD_some]

theorem compareAhead_lists {xs ys : List Value} (ha : s.read a = .list xs)
    (hb : s.read b = .list ys) :
    s.compareAhead (n + 1) (.ref a) (.ref b) = lexicographic (s.compareAhead n) xs ys := by
  simp only [compareAhead, ha, hb]

theorem compareAhead_of_within (h : s.compareWithin n met v w = .ok o) :
    s.compareAhead n v w = .ok o := by
  induction n generalizing met v w o with
  | zero => cases h
  | succ n ih =>
    obtain ⟨c, d, rfl, rfl, hcd⟩ | ⟨a, b, xs, ys, rfl, rfl, ha, hb, -, hlex⟩ :=
      ok_of_compareWithin h
    · exact compareAhead_atoms hcd
    · rw [compareAhead_lists ha hb]
      exact lexicographic_mono (fun x _ y _ o ho => ih ho) hlex

theorem ok_of_compareAhead (h : s.compareAhead (n + 1) v w = .ok o) :
    (∃ c d, v = .atom c ∧ w = .atom d ∧ c.compare? d = some o) ∨
      ∃ a b xs ys, v = .ref a ∧ w = .ref b ∧ s.read a = .list xs ∧ s.read b = .list ys ∧
        lexicographic (s.compareAhead n) xs ys = .ok o := by
  unfold compareAhead at h
  split at h
  · next c d =>
    cases hcd : c.compare? d with
    | none =>
      rw [hcd] at h
      cases h
    | some o' =>
      rw [hcd] at h
      cases h
      exact .inl ⟨c, d, rfl, rfl, hcd⟩
  · next a b =>
    split at h
    · next xs ys ha hb => exact .inr ⟨a, b, xs, ys, rfl, rfl, ha, hb, h⟩
    · cases h
  · cases h

theorem compareAhead_chained (hv : s.Definite v) (hw : s.Definite w) (hu : s.Definite u) :
    Chained (s.compareAhead n v w) (s.compareAhead n w u) (s.compareAhead n v u) := by
  induction n generalizing v w u with
  | zero => exact nofun
  | succ n ih =>
    intro o o' ho ho' ngt ngt'
    obtain ⟨c, d, rfl, rfl, hcd⟩ | ⟨a, b, xs, ys, rfl, rfl, ha, hb, hlex⟩ := ok_of_compareAhead ho
    · obtain ⟨d', e, same, rfl, hde⟩ | ⟨b, _, _, _, same, -⟩ := ok_of_compareAhead ho'
      · cases same
        have hc := hv _ .refl
        have hd := hw _ .refl
        have he := hu _ .refl
        have first := (Atom.compare?_eq_some_iff hc hd).mp hcd
        have second := (Atom.compare?_eq_some_iff hd he).mp hde
        exact compareAhead_atoms
          ((Atom.compare?_eq_some_iff hc he).mpr (first.then second ngt ngt'))
      · cases same
    · obtain ⟨_, _, same, -⟩ | ⟨b', c, ys', zs, same, rfl, hb', hc, hlex'⟩ := ok_of_compareAhead ho'
      · cases same
      · cases same
        cases hb.symm.trans hb'
        rw [compareAhead_lists ha hc]
        refine lexicographic_chained ?_ o o' hlex hlex' ngt ngt'
        exact fun x hx y hy z hz => ih (hv.item ha hx) (hw.item hb hy) (hu.item hc hz)

end Store

end LoopScript
