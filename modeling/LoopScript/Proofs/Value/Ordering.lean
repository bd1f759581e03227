import LoopScript.Proofs.Decimal.Order
import LoopScript.Proofs.Value.Acyclic

/-!
The order of values is a partial preorder. Two values compare in both directions with opposite
results, or in neither, and an order between a first and a second value and between the second and a
third one is an order between the first and the third.
-/

namespace LoopScript

open Relation (ReflTransGen)

/-- In an order that is total, the step that decides is the first that is not an equality. -/
theorem trans_then {α : Type} {cmp : α → α → Ordering} [Std.TransCmp cmp] {a b c : α}
    (hab : cmp a b ≠ .gt) (hbc : cmp b c ≠ .gt) : cmp a c = (cmp a b).then (cmp b c) := by
  cases h : cmp a b with
  | gt => exact absurd h hab
  | lt => exact Std.TransCmp.lt_of_lt_of_isLE h (Ordering.isLE_iff_ne_gt.mpr hbc)
  | eq =>
    cases h' : cmp b c with
    | gt => exact absurd h' hbc
    | lt => exact Std.TransCmp.lt_of_isLE_of_lt (by simp [h]) h'
    | eq => exact Std.TransCmp.eq_trans h h'

theorem compareChars_eq (cs ds : List Char) :
    compareChars cs ds = List.compareLex compare (cs.map Char.val) (ds.map Char.val) := by
  induction cs generalizing ds with
  | nil => cases ds <;> rfl
  | cons c cs ih =>
    cases ds with
    | nil => rfl
    | cons d ds =>
      rw [compareChars, ih, List.map_cons, List.map_cons, List.compareLex_cons_cons]

namespace Atom

def isNaN : Atom → Bool
  | num x => Decimal.classOf x == .nan
  | _ => false

variable {a b c : Atom} {x y : Extended} {o o' : Ordering}

theorem on_line (ha : a.isNaN = false) (hx : a.extended? = some x) : x.isNowhere = false := by
  cases a with
  | num f =>
    simp only [extended?, Option.some.injEq, Extended.ofFloat] at hx
    subst hx
    cases h : Decimal.classOf f with
    | nan => simp [isNaN, h] at ha
    | infinite => cases Decimal.isNegative f <;> rfl
    | finite => rfl
  | bool b => simp only [extended?, Option.some.injEq] at hx; subst hx; rfl
  | int i => simp only [extended?, Option.some.injEq] at hx; subst hx; rfl
  | none => cases hx
  | str s => cases hx

/-- The pairs of atoms that have an order, and what decides it. -/
inductive Comparable : Atom → Atom → Ordering → Prop where
  | numbers {a b : Atom} {x y : Extended} (ha : a.extended? = some x) (hb : b.extended? = some y)
      (hx : x.isNowhere = false) (hy : y.isNowhere = false) :
      Comparable a b (compare x.rank y.rank)
  | strings (s t : String) :
      Comparable (.str s) (.str t)
        (List.compareLex compare (s.toList.map Char.val) (t.toList.map Char.val))

theorem compare?_eq_some_iff (ha : a.isNaN = false) (hb : b.isNaN = false) :
    a.compare? b = some o ↔ Comparable a b o := by
  constructor
  · intro h
    unfold compare? at h
    split at h
    · next x y hx hy =>
      have hx' := on_line ha hx
      have hy' := on_line hb hy
      rw [Extended.compare_eq hx' hy', cmp_eq_compare, Option.some.injEq] at h
      exact h ▸ .numbers hx hy hx' hy'
    · split at h
      · next s t _ =>
        rw [compareChars_eq, Option.some.injEq] at h
        exact h ▸ .strings s t
      · cases h
  · intro h
    cases h with
    | numbers hx hy hx' hy' =>
      have same := Extended.compare_eq hx' hy'
      rw [cmp_eq_compare] at same
      simp only [compare?, hx, hy, same]
    | strings s t => simp only [compare?, extended?, compareChars_eq]

theorem Comparable.swap (h : Comparable a b o) : Comparable b a o.swap := by
  cases h with
  | numbers ha hb hx hy =>
    rw [← Std.OrientedCmp.eq_swap]
    exact .numbers hb ha hy hx
  | strings s t =>
    rw [← Std.OrientedCmp.eq_swap]
    exact .strings t s

theorem Comparable.then (h : Comparable a b o) (h' : Comparable b c o') (ho : o ≠ .gt)
    (ho' : o' ≠ .gt) : Comparable a c (o.then o') := by
  cases h with
  | numbers ha hb hx hy =>
    cases h' with
    | numbers hb' hc hy' hz =>
      cases hb.symm.trans hb'
      rw [← trans_then ho ho']
      exact .numbers ha hc hx hz
    | strings s t => cases hb
  | strings s t =>
    cases h' with
    | numbers hb => cases hb
    | strings _ u =>
      rw [← trans_then ho ho']
      exact .strings s u

theorem compare?_swap (ha : a.isNaN = false) (hb : b.isNaN = false) :
    b.compare? a = (a.compare? b).map Ordering.swap := by
  cases h : a.compare? b with
  | some o =>
    apply (compare?_eq_some_iff hb ha).mpr
    exact ((compare?_eq_some_iff ha hb).mp h).swap
  | none =>
    cases h' : b.compare? a with
    | none => rfl
    | some o =>
      have back := (compare?_eq_some_iff ha hb).mpr ((compare?_eq_some_iff hb ha).mp h').swap
      cases h.symm.trans back

end Atom

section Lists

/-- Opposite results, or refusals that name the two sides in opposite order. -/
inductive Mirrored : Except Fault Ordering → Except Fault Ordering → Prop where
  | ordered (o : Ordering) : Mirrored (.ok o) (.ok o.swap)
  | refused (left right : String) :
      Mirrored (.error (.of (.incomparable left right))) (.error (.of (.incomparable right left)))

theorem Mirrored.ok_iff {r r' : Except Fault Ordering} (h : Mirrored r r') (o : Ordering) :
    r' = .ok o ↔ r = .ok o.swap := by
  cases h with
  | ordered o' =>
    rw [Except.ok.injEq, Except.ok.injEq]
    cases o <;> cases o' <;> decide
  | refused left right => exact ⟨nofun, nofun⟩

theorem eq_lt_of_upward {o : Ordering} (differ : o ≠ .eq) (ngt : o ≠ .gt) : o = .lt := by
  cases o with
  | lt => rfl
  | eq => exact absurd rfl differ
  | gt => exact absurd rfl ngt

/-- The third result follows from the first two where neither of these is downwards. -/
def Chained (r r' r'' : Except Fault Ordering) : Prop :=
  ∀ o o', r = .ok o → r' = .ok o' → o ≠ .gt → o' ≠ .gt → r'' = .ok (o.then o')

variable {α : Type} {f : α → α → Except Fault Ordering} {xs ys zs : List α}

theorem lexicographic_cons (x y : α) : lexicographic f (x :: xs) (y :: ys) =
    f x y >>= fun o => if o = .eq then lexicographic f xs ys else .ok o := by
  rw [lexicographic]
  cases f x y with
  | error e => rfl
  | ok o => cases o <;> rfl

theorem lexicographic_mirrored (h : ∀ x ∈ xs, ∀ y ∈ ys, Mirrored (f x y) (f y x)) :
    Mirrored (lexicographic f xs ys) (lexicographic f ys xs) := by
  induction xs generalizing ys with
  | nil =>
    cases ys with
    | nil => exact .ordered .eq
    | cons y ys => exact .ordered .lt
  | cons x xs ih =>
    cases ys with
    | nil => exact .ordered .gt
    | cons y ys =>
      have rest := @ih ys fun x hx y hy =>
        h x (List.mem_cons_of_mem _ hx) y (List.mem_cons_of_mem _ hy)
      have first := h x List.mem_cons_self y List.mem_cons_self
      rw [lexicographic_cons, lexicographic_cons]
      generalize f x y = r, f y x = r' at first
      cases first with
      | ordered o =>
        cases o with
        | eq => exact rest
        | lt => exact .ordered .lt
        | gt => exact .ordered .gt
      | refused left right => exact .refused left right

/-- What a comparison of two lists that are not empty comes to. -/
theorem lexicographic_cons_ok {x y : α} {o : Ordering}
    (h : lexicographic f (x :: xs) (y :: ys) = .ok o) :
    (f x y = .ok .eq ∧ lexicographic f xs ys = .ok o) ∨ (o ≠ .eq ∧ f x y = .ok o) := by
  rw [lexicographic_cons] at h
  obtain ⟨o', first, h⟩ := ok_of_bind h
  split at h
  · next e => exact .inl ⟨e ▸ first, h⟩
  · next ne =>
    cases h
    exact .inr ⟨ne, first⟩

theorem lexicographic_chained
    (h : ∀ x ∈ xs, ∀ y ∈ ys, ∀ z ∈ zs, Chained (f x y) (f y z) (f x z)) :
    Chained (lexicographic f xs ys) (lexicographic f ys zs) (lexicographic f xs zs) := by
  induction xs generalizing ys zs with
  | nil =>
    intro o o' ho ho' ngt ngt'
    cases ys with
    | nil =>
      cases ho
      exact ho'
    | cons y ys =>
      cases ho
      cases zs with
      | nil => exact absurd (Except.ok.inj ho').symm ngt'
      | cons z zs => rfl
  | cons x xs ih =>
    intro o o' ho ho' ngt ngt'
    cases ys with
    | nil => exact absurd (Except.ok.inj ho).symm ngt
    | cons y ys =>
      cases zs with
      | nil => exact absurd (Except.ok.inj ho').symm ngt'
      | cons z zs =>
        have heads := h x List.mem_cons_self y List.mem_cons_self z List.mem_cons_self
        have rest := @ih ys zs fun x hx y hy z hz =>
          h x (List.mem_cons_of_mem _ hx) y (List.mem_cons_of_mem _ hy) z (List.mem_cons_of_mem _ hz)
        rw [lexicographic_cons]
        obtain ⟨first, ho⟩ | ⟨ne, first⟩ := lexicographic_cons_ok ho
        · obtain ⟨second, ho'⟩ | ⟨ne', second⟩ := lexicographic_cons_ok ho'
          · rw [heads .eq .eq first second nofun nofun]
            exact rest o o' ho ho' ngt ngt'
          · obtain rfl := eq_lt_of_upward ne' ngt'
            rw [heads .eq .lt first second nofun nofun]
            cases o with
            | gt => exact absurd rfl ngt
            | lt | eq => rfl
        · obtain rfl := eq_lt_of_upward ne ngt
          obtain ⟨second, -⟩ | ⟨-, second⟩ := lexicographic_cons_ok ho'
          · rw [heads .lt .eq first second nofun nofun]
            rfl
          · rw [heads .lt o' first second nofun ngt']
            rfl

end Lists

def Value.isNaN : Value → Bool
  | .atom a => a.isNaN
  | .ref _ => false

namespace Store

/-- No container stands in itself in a value, nor does the result of an undefined operation stand
in it. -/
structure Regular (s : Store) (v : Value) : Prop where
  acyclic : s.Acyclic v
  numbers : ∀ w, ReflTransGen s.Inside w v → w.isNaN = false

variable {s : Store} {v w u x : Value} {a b : Addr} {o : Ordering}

theorem Regular.inside (h : s.Regular v) (hx : s.Inside x v) : s.Regular x where
  acyclic := h.acyclic.inside hx
  numbers := fun w hw => h.numbers w (hw.tail hx)

theorem regular_of_inside (hv : v.isNaN = false) (h : ∀ x, s.Inside x v → s.Regular x) :
    s.Regular v where
  acyclic := acyclic_of_inside fun x hx => (h x hx).acyclic
  numbers := by
    intro w hw
    rcases hw.cases_tail with rfl | ⟨y, hwy, hy⟩
    · exact hv
    · exact (h y hy).numbers w hwy

theorem regular_atom {c : Atom} (hc : c.isNaN = false) : s.Regular (.atom c) :=
  regular_of_inside hc nofun

theorem regular_list {xs : List Value} (ha : s.read a = .list xs) (h : ∀ x ∈ xs, s.Regular x) :
    s.Regular (.ref a) := by
  apply regular_of_inside rfl
  intro x hx
  simp only [Inside, ha] at hx
  exact h x hx

abbrev refusal (s : Store) (v w : Value) : Except Fault Ordering :=
  .error (.of (.incomparable (s.typeName v) (s.typeName w)))

theorem compare_atoms (s : Store) (c d : Atom) :
    s.compare (.atom c) (.atom d) = ((c.compare? d).map .ok).getD (s.refusal (.atom c) (.atom d)) := by
  simp only [compare, pairLimit, compareWithin_succ]
  cases c.compare? d <;> rfl

theorem compare_atom_ref (s : Store) (c : Atom) (b : Addr) :
    s.compare (.atom c) (.ref b) = s.refusal (.atom c) (.ref b) := by
  simp only [compare, pairLimit, compareWithin_succ]

theorem compare_ref_atom (s : Store) (a : Addr) (d : Atom) :
    s.compare (.ref a) (.atom d) = s.refusal (.ref a) (.atom d) := by
  simp only [compare, pairLimit, compareWithin_succ]

theorem compare_unlike (h : ∀ xs ys, s.read a = .list xs → s.read b = .list ys → False) :
    s.compare (.ref a) (.ref b) = s.refusal (.ref a) (.ref b) := by
  simp only [compare, pairLimit, compareWithin_succ]

/-- The comparisons that give a result. -/
theorem ok_of_compare (hv : s.Acyclic v) (h : s.compare v w = .ok o) :
    (∃ c d, v = .atom c ∧ w = .atom d ∧ c.compare? d = some o) ∨
      ∃ a b xs ys, v = .ref a ∧ w = .ref b ∧ s.read a = .list xs ∧ s.read b = .list ys ∧
        lexicographic s.compare xs ys = .ok o := by
  match v, w with
  | .atom c, .atom d =>
    rw [compare_atoms] at h
    cases hcd : c.compare? d with
    | none =>
      rw [hcd] at h
      cases h
    | some o' =>
      rw [hcd] at h
      cases h
      exact .inl ⟨c, d, rfl, rfl, hcd⟩
  | .atom c, .ref b =>
    rw [compare_atom_ref] at h
    cases h
  | .ref a, .atom d =>
    rw [compare_ref_atom] at h
    cases h
  | .ref a, .ref b =>
    by_cases lists : ∃ xs ys, s.read a = .list xs ∧ s.read b = .list ys
    · obtain ⟨xs, ys, ha, hb⟩ := lists
      rw [compare_lists hv ha hb] at h
      exact .inr ⟨a, b, xs, ys, rfl, rfl, ha, hb, h⟩
    · rw [compare_unlike fun xs ys ha hb => lists ⟨xs, ys, ha, hb⟩] at h
      cases h

theorem compare_mirrored (hv : s.Regular v) (hw : s.Regular w) :
    Mirrored (s.compare v w) (s.compare w v) := by
  induction hv.acyclic.acc generalizing w with
  | intro v _ ih =>
    match v, w with
    | .atom c, .atom d =>
      have swap := Atom.compare?_swap (hv.numbers _ .refl) (hw.numbers _ .refl)
      rw [compare_atoms, compare_atoms, swap]
      cases c.compare? d with
      | none => exact .refused _ _
      | some o => exact .ordered o
    | .atom c, .ref b =>
      rw [compare_atom_ref, compare_ref_atom]
      exact .refused _ _
    | .ref a, .atom d =>
      rw [compare_ref_atom, compare_atom_ref]
      exact .refused _ _
    | .ref a, .ref b =>
      by_cases lists : ∃ xs ys, s.read a = .list xs ∧ s.read b = .list ys
      · obtain ⟨xs, ys, ha, hb⟩ := lists
        rw [compare_lists hv.acyclic ha hb, compare_lists hw.acyclic hb ha]
        apply lexicographic_mirrored
        intro x hx y hy
        have inside := inside_of_list ha hx
        exact ih x inside (hv.inside inside) (hw.inside (inside_of_list hb hy))
      · rw [compare_unlike fun xs ys ha hb => lists ⟨xs, ys, ha, hb⟩,
          compare_unlike fun ys xs hb ha => lists ⟨xs, ys, ha, hb⟩]
        exact .refused _ _

theorem compare_chained (hv : s.Regular v) (hw : s.Regular w) (hu : s.Regular u) :
    Chained (s.compare v w) (s.compare w u) (s.compare v u) := by
  induction hv.acyclic.acc generalizing w u with
  | intro v _ ih =>
    intro o o' ho ho' ngt ngt'
    obtain ⟨c, d, rfl, rfl, hcd⟩ | ⟨a, b, xs, ys, rfl, rfl, ha, hb, hlex⟩ := ok_of_compare hv.acyclic ho
    · obtain ⟨d', e, same, rfl, hde⟩ | ⟨b, _, _, _, same, -⟩ := ok_of_compare hw.acyclic ho'
      · cases same
        have hc := hv.numbers _ .refl
        have hd := hw.numbers _ .refl
        have he := hu.numbers _ .refl
        have first := (Atom.compare?_eq_some_iff hc hd).mp hcd
        have second := (Atom.compare?_eq_some_iff hd he).mp hde
        have both := (Atom.compare?_eq_some_iff hc he).mpr (first.then second ngt ngt')
        rw [compare_atoms, both]
        rfl
      · cases same
    · obtain ⟨_, _, same, -⟩ | ⟨b', c, ys', zs, same, rfl, hb', hc, hlex'⟩ :=
        ok_of_compare hw.acyclic ho'
      · cases same
      · cases same
        cases hb.symm.trans hb'
        rw [compare_lists hv.acyclic ha hc]
        refine lexicographic_chained ?_ o o' hlex hlex' ngt ngt'
        intro x hx y hy z hz
        have inside := inside_of_list ha hx
        exact ih x inside (hv.inside inside) (hw.inside (inside_of_list hb hy))
          (hu.inside (inside_of_list hc hz))

/-- Ordered comparison: an error in one direction is an error in the other one, two results are
opposite, and where neither of two steps goes down their composition is defined and goes down
nowhere, and goes up where one of them does. -/
theorem compare_partial_preorder (s : Store) {v w u : Value} (hv : s.Regular v) (hw : s.Regular w)
    (hu : s.Regular u) :
    ((∃ f, s.compare v w = .error f) ↔ ∃ f, s.compare w v = .error f) ∧
      (∀ o, s.compare v w = .ok o → s.compare w v = .ok o.swap) ∧
      ∀ o o', s.compare v w = .ok o → s.compare w u = .ok o' → o ≠ .gt → o' ≠ .gt →
        ∃ o'', s.compare v u = .ok o'' ∧ o'' ≠ .gt ∧ (o = .lt ∨ o' = .lt → o'' = .lt) := by
  refine ⟨?_, ?_, ?_⟩
  · have opposite := compare_mirrored hv hw
    generalize s.compare v w = r, s.compare w v = r' at opposite
    cases opposite with
    | ordered o => exact ⟨nofun, nofun⟩
    | refused left right => exact ⟨fun _ => ⟨_, rfl⟩, fun _ => ⟨_, rfl⟩⟩
  · intro o ho
    rw [(compare_mirrored hv hw).ok_iff, Ordering.swap_swap]
    exact ho
  · intro o o' ho ho' ngt ngt'
    refine ⟨o.then o', compare_chained hv hw hu o o' ho ho' ngt ngt', ?_⟩
    cases o <;> cases o' <;> simp_all [Ordering.then]

/-- A list before a longer one with a part that has no order, and that one before a third. -/
theorem compare_lists_of_strings :
    let s : Store := ⟨#[.list [.str "a"], .list [.str "a", .none], .list [.str "b", .bool true]], #[]⟩
    ∃ o, s.compare (.ref 0) (.ref 2) = .ok o ∧ o ≠ .gt ∧
      ((Ordering.lt = .lt ∨ Ordering.lt = .lt) → o = .lt) := by
  intro s
  have first : s.Regular (.ref 0) :=
    regular_list rfl (List.forall_mem_singleton.mpr (regular_atom rfl))
  have second : s.Regular (.ref 1) :=
    regular_list rfl (by
      simpa using ⟨regular_atom rfl, regular_atom rfl⟩)
  have third : s.Regular (.ref 2) :=
    regular_list rfl (by
      simpa using ⟨regular_atom rfl, regular_atom rfl⟩)
  exact (s.compare_partial_preorder first second third).2.2 .lt .lt rfl rfl (by decide) (by decide)

end Store

end LoopScript
