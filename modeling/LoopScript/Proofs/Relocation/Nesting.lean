import LoopScript.Proofs.Computation
import LoopScript.Proofs.Relocation.Link
import LoopScript.Proofs.Value.Ends
import LoopScript.Value.Order
import Mathlib.Combinatorics.Pigeonhole
import Mathlib.Order.Interval.Finset.Nat

/-!
Texts and comparisons of moved values. Both descend into containers, and the stores may be of
different sizes: what bounds the descent in either is reached only by a descent without an end.
-/

namespace LoopScript

section Text

namespace Obj

def items : Obj → List Value
  | .list xs => xs
  | .dict es => es.flatMap fun e => [e.1, e.2]
  | _ => []

end Obj

namespace Store

/-- The text of an object, given the texts of what is inside it. -/
def textOf (s : Store) (text : Value → Except Fault String) : Obj → Except Fault String
  | .list xs => do
    let texts ← xs.mapM text
    .ok ("[" ++ String.intercalate ", " texts ++ "]")
  | .dict es => do
    let texts ← es.mapM fun (k, v) => do
      .ok ((← text k) ++ ": " ++ (← text v))
    .ok ("\x7b" ++ String.intercalate ", " texts ++ "\x7d")
  | .builtin name => .ok ("<built-in function " ++ name ++ ">")
  | .function f => .ok ("<function " ++ f.name ++ ">")
  | .lambda .. => .ok "<lambda>"
  | .cls name _ => .ok ("<class " ++ name ++ ">")
  | .instance_ c _ => .ok ("<" ++ s.className c ++ " object>")
  | .method receiver f =>
    .ok ("<bound method " ++ s.typeName (.ref receiver) ++ "." ++ s.functionName f ++ ">")

theorem textWithin_succ (s : Store) (n : Nat) (a : Addr) :
    s.textWithin (n + 1) (.ref a) = s.textOf (s.textWithin n) (s.read a) := by
  rw [Store.textWithin.eq_def]
  simp only
  split <;> simp_all only [Store.textOf, reduceCtorEq, Nat.succ_eq_add_one, Nat.add_right_cancel_iff]

/-- A value of which at most `n` containers lie inside one another. -/
def Legible (s : Store) (n : Nat) (v : Value) : Prop :=
  ∃ text, s.textWithin n v = .ok text

variable {s : Store} {n m : Nat} {v : Value} {a : Addr}

theorem legible_atom (n : Nat) (a : Atom) : s.Legible n (.atom a) :=
  ⟨a.text, by cases n <;> rfl⟩

theorem isOk_textOf {text : Value → Except Fault String} {o : Obj} :
    (∃ t, s.textOf text o = .ok t) ↔ ∀ v ∈ o.items, ∃ t, text v = .ok t := by
  cases o with
  | list xs => simp only [textOf, isOk_bind, Except.ok.injEq, exists_eq', and_true, isOk_mapM, Obj.items]
  | dict es =>
    simp only [textOf, isOk_bind, Except.ok.injEq, exists_eq', and_true, isOk_mapM, Obj.items,
      List.forall_mem_flatMap, List.forall_mem_cons, exists_and_right, List.not_mem_nil,
      false_implies, implies_true]
  | builtin | function | lambda | cls | instance_ | method => simp [Obj.items, textOf]

theorem legible_succ : s.Legible (n + 1) (.ref a) ↔ ∀ v ∈ (s.read a).items, s.Legible n v := by
  simp only [Legible, textWithin_succ, isOk_textOf]

theorem textOf_of_ok {f g : Value → Except Fault String} {o : Obj} {t : String}
    (h : ∀ v x, f v = .ok x → g v = .ok x) (e : s.textOf f o = .ok t) : s.textOf g o = .ok t := by
  cases o with
  | list xs =>
    obtain ⟨texts, hx, e⟩ := ok_of_bind e
    simp only [textOf, mapM_of_ok hx h]
    exact e
  | dict es =>
    obtain ⟨texts, hx, e⟩ := ok_of_bind e
    simp only [textOf]
    rw [mapM_of_ok hx]
    · exact e
    · intro entry x hx
      obtain ⟨key, hk, hx⟩ := ok_of_bind hx
      obtain ⟨value, hv, hx⟩ := ok_of_bind hx
      rw [h _ _ hk, h _ _ hv]
      exact hx
  | builtin | function | lambda | cls | instance_ | method => exact e

theorem textWithin_of_ok {t : String} (h : s.textWithin n v = .ok t) :
    s.textWithin (n + 1) v = .ok t := by
  induction n generalizing v t with
  | zero =>
    cases v with
    | atom a => exact h
    | ref a =>
      rw [textWithin.eq_def] at h
      rw [textWithin_succ]
      simp only at h
      split at h <;> simp_all [textOf]
  | succ n ih =>
    cases v with
    | atom a => exact h
    | ref a =>
      rw [textWithin_succ] at h ⊢
      exact textOf_of_ok (fun _ _ => ih) h

theorem textWithin_le {t : String} (h : s.textWithin n v = .ok t) (hnm : n ≤ m) :
    s.textWithin m v = .ok t := by
  induction hnm with
  | refl => exact h
  | step _ ih => exact textWithin_of_ok ih

theorem Legible.mono (h : s.Legible n v) (hnm : n ≤ m) : s.Legible m v :=
  h.imp fun _ ht => textWithin_le ht hnm

/-- Below the least depth at which a value has a text, each depth is the least one of something. -/
theorem exists_least (ha : s.Legible (n + 1) (.ref a)) (hn : ¬ s.Legible n (.ref a)) (hm : m ≤ n) :
    ∃ b, s.Legible (m + 1) (.ref b) ∧ ¬ s.Legible m (.ref b) := by
  induction n generalizing a with
  | zero =>
    rw [Nat.le_zero.mp hm]
    exact ⟨a, ha, hn⟩
  | succ n ih =>
    rcases Nat.le_succ_iff.mp hm with hm | rfl
    · rw [legible_succ] at ha hn
      push Not at hn
      obtain ⟨v, hv, hd⟩ := hn
      cases v with
      | atom c => exact absurd (legible_atom n c) hd
      | ref c => exact ih (ha _ hv) hd hm
    · exact ⟨a, ha, hn⟩

theorem lt_size_of_items (h : (s.read a).items ≠ []) : a < s.objects.size := by
  by_contra hl
  have outside : s.read a = .list [] := by
    simp only [read, Array.getD_eq_getD_getElem?, Array.getElem?_eq_none (Nat.le_of_not_lt hl)]
    rfl
  rw [outside] at h
  exact h rfl

/-- More containers than there are cannot lie inside one another. -/
theorem Legible.bounded (h : s.Legible m v) : s.Legible (s.objects.size + 1) v := by
  -- else there is something for each of more depths than there are containers
  by_contra hv
  let size := s.objects.size
  have deeper : ∃ n, ¬ s.Legible n v ∧ s.Legible (n + 1) v ∧ size + 1 ≤ n := by
    induction m with
    | zero => exact absurd (h.mono (Nat.zero_le _)) hv
    | succ m ih =>
      by_cases hm : s.Legible m v
      · exact ih hm
      · refine ⟨m, hm, h, Nat.le_of_not_lt fun hl => hv (h.mono hl)⟩
  obtain ⟨n, hn, hn', hs⟩ := deeper
  cases v with
  | atom c => exact hn (legible_atom n c)
  | ref a =>
    have least : ∀ m : Nat, ∃ b, m ≤ n → s.Legible (m + 1) (.ref b) ∧ ¬ s.Legible m (.ref b) := by
      intro m
      by_cases hm : m ≤ n
      · obtain ⟨b, hb⟩ := exists_least hn' hn hm
        exact ⟨b, fun _ => hb⟩
      · exact ⟨0, fun h => absurd h hm⟩
    choose b hb using least
    have inside : ∀ i ∈ Finset.Icc 1 (size + 1), b i ∈ Finset.range size := by
      intro i hi
      obtain ⟨h1, h2⟩ := Finset.mem_Icc.mp hi
      obtain ⟨k, rfl⟩ : ∃ k, i = k + 1 := ⟨i - 1, by omega⟩
      have illegible := (hb _ (h2.trans hs)).2
      rw [legible_succ] at illegible
      refine Finset.mem_range.mpr (lt_size_of_items fun e => illegible ?_)
      rw [e]
      exact fun _ h => absurd h List.not_mem_nil
    obtain ⟨i, hi, j, hj, hij, e⟩ := Finset.exists_ne_map_eq_of_card_lt_of_maps_to
      (by simp) inside
    -- a thing has one least depth only
    have apart : ∀ i j, i ≤ n → j ≤ n → i < j → b i ≠ b j := by
      intro i j hi hj hij e
      apply (hb j hj).2
      rw [← e]
      exact (hb i hi).1.mono hij
    have le : ∀ i ∈ Finset.Icc 1 (size + 1), i ≤ n := fun i hi => (Finset.mem_Icc.mp hi).2.trans hs
    rcases Nat.lt_or_gt_of_ne hij with h | h
    · exact apart i j (le i hi) (le j hj) h e
    · exact apart j i (le j hj) (le i hi) h e.symm

theorem text_eq_textWithin (s : Store) (v : Value) (h : s.objects.size + 1 ≤ n) :
    s.text v = s.textWithin n v := by
  cases e : s.text v with
  | ok x => exact (textWithin_le e h).symm
  | error f =>
    cases e' : s.textWithin n v with
    | ok x =>
      obtain ⟨y, hy⟩ := Legible.bounded ⟨x, e'⟩
      exact absurd (hy.symm.trans e) nofun
    | error f' =>
      have endless := (s.ends_textWithin _ v).error e
      have endless' := (s.ends_textWithin _ v).error e'
      rw [endless, endless']

end Store

variable {L : Link} {s t : Store} (hs : s.Moved L t) {v w : Value}

include hs

theorem textOf_moved {f g : Value → Except Fault String} {o o' : Obj} (h : o.Moved L o')
    (hf : ∀ v w, v.Moved L w → f v = g w) : s.textOf f o = t.textOf g o' := by
  cases h with
  | list h => simp only [Store.textOf, mapM_congr h hf]
  | dict h =>
    simp only [Store.textOf]
    rw [mapM_congr h]
    intro e e' he
    simp only [hf _ _ he.1, hf _ _ he.2]
  | builtin | function | lambda | cls => rfl
  | instance_ hc _ => simp only [Store.textOf, className_moved hs hc]
  | method hr hf => simp only [Store.textOf, typeName_moved hs (.ref hr), functionName_moved hs hf]

theorem textWithin_moved (n : Nat) (hv : v.Moved L w) : s.textWithin n v = t.textWithin n w := by
  induction n generalizing v w with
  | zero =>
    cases hv with
    | atom a => rfl
    | @ref a b h =>
      simp only [Store.textWithin.eq_def _ 0]
      match s.read a, t.read b, hs.read h with
      | _, _, .list _ | _, _, .dict _ | _, _, .builtin _ | _, _, .function _ _
      | _, _, .lambda _ _ | _, _, .cls _ => rfl
      | _, _, .instance_ hc _ => simp only [className_moved hs hc]
      | _, _, .method hr hf => simp only [typeName_moved hs (.ref hr), functionName_moved hs hf]
  | succ n ih =>
    cases hv with
    | atom a => rfl
    | ref h =>
      rw [Store.textWithin_succ, Store.textWithin_succ]
      exact textOf_moved hs (hs.read h) fun _ _ => ih

theorem text_moved (hv : v.Moved L w) : s.text v = t.text w := by
  -- a depth that suffices in both stores
  let n := max (s.objects.size + 1) (t.objects.size + 1)
  rw [s.text_eq_textWithin v (le_max_left _ _ : _ ≤ n),
    t.text_eq_textWithin w (le_max_right _ _ : _ ≤ n)]
  exact textWithin_moved hs n hv

end Text

section Comparison

abbrev Link.Meets (L : Link) : List (Addr × Addr) → List (Addr × Addr) → Prop :=
  List.Forall₂ fun p q => L.objects p.1 q.1 ∧ L.objects p.2 q.2

theorem Link.Meets.mem_iff {L : Link} {met met' : List (Addr × Addr)} {a b a' b' : Addr}
    (h : L.Meets met met') (ha : L.objects a a') (hb : L.objects b b') :
    (a, b) ∈ met ↔ (a', b') ∈ met' := by
  induction h with
  | nil => simp
  | @cons p q _ _ hpq _ ih =>
    have same : (a, b) = p ↔ (a', b') = q := by
      rw [Prod.ext_iff, Prod.ext_iff]
      exact and_congr (L.objects_iff ha hpq.1) (L.objects_iff hb hpq.2)
    rw [List.mem_cons, List.mem_cons, ih, same]

theorem allPairs_congr {α β α' β' : Type} {R : α → α' → Prop} {S : β → β' → Prop}
    {test : α → β → Except Fault Bool} {test' : α' → β' → Except Fault Bool} {xs : List α}
    {ys : List β} {xs' : List α'} {ys' : List β'} (hx : List.Forall₂ R xs xs')
    (hy : List.Forall₂ S ys ys') (h : ∀ x y x' y', R x x' → S y y' → test x y = test' x' y') :
    allPairs test xs ys = allPairs test' xs' ys' := by
  induction hx generalizing ys ys' with
  | nil => cases hy <;> rfl
  | cons hab _ ih =>
    cases hy with
    | nil => rfl
    | cons hcd hy => simp only [allPairs, h _ _ _ _ hab hcd, ih hy]

theorem lexicographic_congr {α α' : Type} {R : α → α' → Prop}
    {order : α → α → Except Fault Ordering} {order' : α' → α' → Except Fault Ordering}
    {xs ys : List α} {xs' ys' : List α'} (hx : List.Forall₂ R xs xs') (hy : List.Forall₂ R ys ys')
    (h : ∀ x y x' y', R x x' → R y y' → order x y = order' x' y') :
    lexicographic order xs ys = lexicographic order' xs' ys' := by
  induction hx generalizing ys ys' with
  | nil => cases hy <;> rfl
  | cons hab _ ih =>
    cases hy with
    | nil => rfl
    | cons hcd hy => simp only [lexicographic, h _ _ _ _ hab hcd, ih hy]

section Moved

variable {L : Link} {s t : Store} (hs : s.Moved L t) {v w v' w' : Value}
  {met met' : List (Addr × Addr)}

include hs

theorem equalWithin_moved (n : Nat) (hm : L.Meets met met') (hv : v.Moved L v')
    (hw : w.Moved L w') : s.equalWithin n met v w = t.equalWithin n met' v' w' := by
  induction n generalizing met met' v v' w w' with
  | zero => rfl
  | succ n ih =>
    have same := hv.beq hw
    cases hv with
    | atom a => simp only [Store.equalWithin, same]
    | @ref a a' ha =>
      cases hw with
      | atom b => simp only [Store.equalWithin, same]
      | @ref b b' hb =>
        have grown : L.Meets ((a, b) :: met) ((a', b') :: met') := .cons ⟨ha, hb⟩ hm
        have inner {x y x' y' : Value} (hx : x.Moved L x') (hy : y.Moved L y') := ih grown hx hy
        have eqv : (a == b) = (a' == b') := same
        simp only [Store.equalWithin, eqv, hm.mem_iff ha hb]
        have hx := hs.read ha
        have hy := hs.read hb
        generalize s.read a = o, t.read a' = o', s.read b = p, t.read b' = p' at hx hy ⊢
        cases hx <;> cases hy <;> try rfl
        case list.list hx _ _ hy =>
          simp only [hx.length_eq, hy.length_eq,
            allPairs_congr hx hy fun _ _ _ _ hx hy => inner hx hy]
        case dict.dict hx _ _ hy =>
          simp only [hx.length_eq, hy.length_eq]
          rw [foldlM_congr hx true]
          intro same e e' he
          match Table.get? _ e.1, Table.get? _ e'.1, Table.get?_paired hy fun k k' hk => hk.beq he.1 with
          | _, _, .none => rfl
          | _, _, .some h => simp only [inner he.2 h]

theorem compareWithin_moved (n : Nat) (hm : L.Meets met met') (hv : v.Moved L v')
    (hw : w.Moved L w') : s.compareWithin n met v w = t.compareWithin n met' v' w' := by
  induction n generalizing met met' v v' w w' with
  | zero => rfl
  | succ n ih =>
    have left := typeName_moved hs hv
    have right := typeName_moved hs hw
    cases hv with
    | atom a => cases hw <;> simp only [Store.compareWithin_succ, left, right]
    | @ref a a' ha =>
      cases hw with
      | atom b => simp only [Store.compareWithin_succ, left, right]
      | @ref b b' hb =>
        have grown : L.Meets ((a, b) :: met) ((a', b') :: met') := .cons ⟨ha, hb⟩ hm
        have inner {x y x' y' : Value} (hx : x.Moved L x') (hy : y.Moved L y') := ih grown hx hy
        simp only [Store.compareWithin_succ, left, right, hm.mem_iff ha hb]
        have hx := hs.read ha
        have hy := hs.read hb
        generalize s.read a = o, t.read a' = o', s.read b = p, t.read b' = p' at hx hy ⊢
        cases hx <;> cases hy <;> try rfl
        case list.list hx _ _ hy =>
          simp only [lexicographic_congr hx hy fun _ _ _ _ hx hy => inner hx hy]

end Moved

section Bounds

variable {s : Store} {met : List (Addr × Addr)} {n m : Nat}

/-- Pairs on the way to two values: all different, and each of containers that are there. -/
structure Store.Trail (s : Store) (met : List (Addr × Addr)) : Prop where
  nodup : met.Nodup
  inside : ∀ p ∈ met, p.1 < s.objects.size ∧ p.2 < s.objects.size

theorem Store.Trail.length_le (h : s.Trail met) : met.length ≤ s.objects.size * s.objects.size := by
  let pairs := Finset.range s.objects.size ×ˢ Finset.range s.objects.size
  have sub : met.toFinset ⊆ pairs := by
    intro p hp
    obtain ⟨ha, hb⟩ := h.inside p (List.mem_toFinset.mp hp)
    exact Finset.mem_product.mpr ⟨Finset.mem_range.mpr ha, Finset.mem_range.mpr hb⟩
  calc met.length = met.toFinset.card := (List.toFinset_card_of_nodup h.nodup).symm
    _ ≤ pairs.card := Finset.card_le_card sub
    _ = s.objects.size * s.objects.size := by simp [pairs]

theorem Store.Trail.cons (h : s.Trail met) {a b : Addr} (hab : (a, b) ∉ met)
    (ha : (s.read a).items ≠ []) (hb : (s.read b).items ≠ []) : s.Trail ((a, b) :: met) := by
  refine ⟨h.nodup.cons hab, List.forall_mem_cons.mpr ⟨?_, h.inside⟩⟩
  exact ⟨Store.lt_size_of_items ha, Store.lt_size_of_items hb⟩

theorem equalWithin_enough (h : s.Trail met) (v w : Value)
    (hn : s.objects.size * s.objects.size < n + met.length)
    (hm : s.objects.size * s.objects.size < m + met.length) :
    s.equalWithin n met v w = s.equalWithin m met v w := by
  -- on each step down the bounds lose what the trail gains, and a trail has an end
  induction n generalizing m met v w with
  | zero => exact absurd h.length_le (by omega)
  | succ n ih =>
    cases m with
    | zero => exact absurd h.length_le (by omega)
    | succ m =>
      match v, w with
      | .atom _, _ | .ref _, .atom _ => rfl
      | .ref a, .ref b =>
        have inner (hab : (a, b) ∉ met) (ha : (s.read a).items ≠ []) (hb : (s.read b).items ≠ []) :
            s.equalWithin n ((a, b) :: met) = s.equalWithin m ((a, b) :: met) := by
          funext x y
          have longer : ((a, b) :: met).length = met.length + 1 := rfl
          exact ih (h.cons hab ha hb) x y (by omega) (by omega)
        simp only [Store.equalWithin]
        cases ha : s.read a with
        | list xs =>
          cases hb : s.read b with
          | list ys =>
            rw [ha, hb] at inner
            dsimp only
            split_ifs with _ hl hab
            · rfl
            · rfl
            · rfl
            · cases xs with
              | nil => rfl
              | cons x xs =>
                have hy : ys ≠ [] := List.ne_nil_of_length_pos (by rw [← not_not.mp hl]; simp)
                rw [inner hab (List.cons_ne_nil x xs) hy]
          | _ => rfl
        | dict es =>
          cases hb : s.read b with
          | dict fs =>
            rw [ha, hb] at inner
            dsimp only
            split_ifs with _ hl hab
            · rfl
            · rfl
            · rfl
            · cases es with
              | nil => rfl
              | cons e es =>
                cases fs with
                | nil => exact absurd (not_not.mp hl) (by simp)
                | cons f fs => rw [inner hab (by simp [Obj.items]) (by simp [Obj.items])]
          | _ => rfl
        | _ => rfl

theorem compareWithin_enough (h : s.Trail met) (v w : Value)
    (hn : s.objects.size * s.objects.size < n + met.length)
    (hm : s.objects.size * s.objects.size < m + met.length) :
    s.compareWithin n met v w = s.compareWithin m met v w := by
  induction n generalizing m met v w with
  | zero => exact absurd h.length_le (by omega)
  | succ n ih =>
    cases m with
    | zero => exact absurd h.length_le (by omega)
    | succ m =>
      match v, w with
      | .atom _, .atom _ | .atom _, .ref _ | .ref _, .atom _ => rfl
      | .ref a, .ref b =>
        have inner (hab : (a, b) ∉ met) (ha : (s.read a).items ≠ []) (hb : (s.read b).items ≠ []) :
            s.compareWithin n ((a, b) :: met) = s.compareWithin m ((a, b) :: met) := by
          funext x y
          have longer : ((a, b) :: met).length = met.length + 1 := rfl
          exact ih (h.cons hab ha hb) x y (by omega) (by omega)
        simp only [Store.compareWithin_succ]
        cases ha : s.read a with
        | list xs =>
          cases hb : s.read b with
          | list ys =>
            rw [ha, hb] at inner
            dsimp only
            split_ifs with hab
            · rfl
            · cases xs with
              | nil => cases ys <;> rfl
              | cons x xs =>
                cases ys with
                | nil => rfl
                | cons y ys => rw [inner hab (List.cons_ne_nil x xs) (List.cons_ne_nil y ys)]
          | _ => rfl
        | _ => rfl

theorem Store.Trail.nil (s : Store) : s.Trail [] :=
  ⟨List.nodup_nil, fun _ h => absurd h List.not_mem_nil⟩

theorem Store.lt_pairLimit (s : Store) : s.objects.size * s.objects.size < s.pairLimit := by
  have le : s.objects.size * s.objects.size ≤ (s.objects.size + 1) * (s.objects.size + 1) :=
    Nat.mul_le_mul (Nat.le_succ _) (Nat.le_succ _)
  exact Nat.lt_succ_of_le le

theorem equal_eq_equalWithin (s : Store) (v w : Value) (h : s.pairLimit ≤ n) :
    s.equal v w = s.equalWithin n [] v w :=
  equalWithin_enough (.nil s) v w s.lt_pairLimit (s.lt_pairLimit.trans_le h)

theorem compare_eq_compareWithin (s : Store) (v w : Value) (h : s.pairLimit ≤ n) :
    s.compare v w = s.compareWithin n [] v w :=
  compareWithin_enough (.nil s) v w s.lt_pairLimit (s.lt_pairLimit.trans_le h)

end Bounds

variable {L : Link} {s t : Store} (hs : s.Moved L t) {v w v' w' : Value} (hv : v.Moved L v')
  (hw : w.Moved L w')

include hs hv hw

theorem equal_moved : s.equal v w = t.equal v' w' := by
  let n := max s.pairLimit t.pairLimit
  rw [equal_eq_equalWithin s v w (le_max_left _ _ : _ ≤ n),
    equal_eq_equalWithin t v' w' (le_max_right _ _ : _ ≤ n)]
  exact equalWithin_moved hs n .nil hv hw

theorem compare_moved : s.compare v w = t.compare v' w' := by
  let n := max s.pairLimit t.pairLimit
  rw [compare_eq_compareWithin s v w (le_max_left _ _ : _ ≤ n),
    compare_eq_compareWithin t v' w' (le_max_right _ _ : _ ≤ n)]
  exact compareWithin_moved hs n .nil hv hw

end Comparison

end LoopScript
