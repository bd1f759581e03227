import LoopScript.Proofs.Value.Keys
import LoopScript.Value.Operators
import Mathlib.Data.List.Perm.Basic

/-!
Equality of values. Two dictionaries are equal if the entries of one, in some order, are equal one by one
to those of the other, as two lists are in the order that they have. So equality is an equivalence, and
identity, the order of values and the keys of dictionaries agree with it.
-/

namespace LoopScript

open Relation (Comp)

section Lists

variable {α β γ : Type} {R : α → β → Prop} {S : β → γ → Prop}

theorem forall₂_imp_mem {S : α → β → Prop} {xs : List α} {ys : List β}
    (h : ∀ x ∈ xs, ∀ y ∈ ys, R x y → S x y) (hr : List.Forall₂ R xs ys) : List.Forall₂ S xs ys := by
  induction hr with
  | nil => exact .nil
  | cons head _ ih =>
    apply List.Forall₂.cons
    · exact h _ List.mem_cons_self _ List.mem_cons_self head
    · exact ih fun x hx y hy => h x (List.mem_cons_of_mem _ hx) y (List.mem_cons_of_mem _ hy)

theorem forall₂_trans_mem {T : α → γ → Prop} {xs : List α} {ys : List β} {zs : List γ}
    (h : ∀ x ∈ xs, ∀ y ∈ ys, ∀ z ∈ zs, R x y → S y z → T x z) (hr : List.Forall₂ R xs ys)
    (hs : List.Forall₂ S ys zs) : List.Forall₂ T xs zs := by
  induction hr generalizing zs with
  | nil =>
    cases hs
    exact .nil
  | cons head _ ih =>
    cases hs with
    | cons head' tail' =>
      apply List.Forall₂.cons
      · exact h _ List.mem_cons_self _ List.mem_cons_self _ List.mem_cons_self head head'
      · apply ih _ tail'
        intro x hx y hy z hz
        exact h x (List.mem_cons_of_mem _ hx) y (List.mem_cons_of_mem _ hy) z (List.mem_cons_of_mem _ hz)

theorem forall₂_exists {P : α → β → Prop} {xs : List α} (h : ∀ x ∈ xs, ∃ y, P x y) :
    ∃ ys, List.Forall₂ P xs ys := by
  induction xs with
  | nil => exact ⟨[], .nil⟩
  | cons x xs ih =>
    obtain ⟨y, hy⟩ := h x List.mem_cons_self
    obtain ⟨ys, hys⟩ := ih fun z hz => h z (List.mem_cons_of_mem _ hz)
    exact ⟨y :: ys, .cons hy hys⟩

theorem allPairs_iff {test : α → β → Except Fault Bool} {xs : List α} {ys : List β}
    (hl : xs.length = ys.length) :
    allPairs test xs ys = .ok true ↔ List.Forall₂ (fun x y => test x y = .ok true) xs ys := by
  induction xs generalizing ys with
  | nil =>
    cases ys with
    | nil => exact ⟨fun _ => .nil, fun _ => rfl⟩
    | cons y ys => cases hl
  | cons x xs ih =>
    cases ys with
    | nil => cases hl
    | cons y ys =>
      rw [List.forall₂_cons, ← ih (Nat.succ.inj hl), allPairs]
      cases test x y with
      | error f => simp [bind, Except.bind]
      | ok b => cases b <;> simp [bind, Except.bind]

theorem allPairs_total {test : α → β → Except Fault Bool} {xs : List α} {ys : List β}
    (h : ∀ x ∈ xs, ∀ y ∈ ys, ∃ b, test x y = .ok b) : ∃ b, allPairs test xs ys = .ok b := by
  induction xs generalizing ys with
  | nil => exact ⟨true, rfl⟩
  | cons x xs ih =>
    cases ys with
    | nil => exact ⟨true, rfl⟩
    | cons y ys =>
      obtain ⟨b, hb⟩ := h x List.mem_cons_self y List.mem_cons_self
      rw [allPairs, hb]
      cases b with
      | false => exact ⟨false, rfl⟩
      | true =>
        exact ih fun x hx y hy => h x (List.mem_cons_of_mem _ hx) y (List.mem_cons_of_mem _ hy)

theorem lexicographic_eq_iff {f : α → α → Except Fault Ordering} {R : α → α → Prop} {xs ys : List α}
    {o : Ordering} (h : ∀ x ∈ xs, ∀ y ∈ ys, ∀ o, f x y = .ok o → (o = .eq ↔ R x y))
    (ho : lexicographic f xs ys = .ok o) : o = .eq ↔ List.Forall₂ R xs ys := by
  induction xs generalizing ys with
  | nil =>
    cases ys with
    | nil =>
      cases ho
      exact ⟨fun _ => .nil, fun _ => rfl⟩
    | cons y ys =>
      cases ho
      exact ⟨nofun, nofun⟩
  | cons x xs ih =>
    cases ys with
    | nil =>
      cases ho
      exact ⟨nofun, nofun⟩
    | cons y ys =>
      have heads := h x List.mem_cons_self y List.mem_cons_self
      rw [List.forall₂_cons]
      obtain ⟨first, ho⟩ | ⟨differ, first⟩ := lexicographic_cons_ok ho
      · have same := (heads .eq first).mp rfl
        rw [and_iff_right same]
        apply ih _ ho
        exact fun x hx y hy => h x (List.mem_cons_of_mem _ hx) y (List.mem_cons_of_mem _ hy)
      · have other := mt (heads o first).mpr differ
        exact ⟨fun e => absurd e differ, fun both => absurd both.1 other⟩

end Lists

section Entries

variable {equal : Value → Value → Except Fault Bool} {es fs : Table Value Value}

theorem matchEntries_iff : matchEntries equal es fs = .ok true ↔
    ∀ e ∈ es, ∃ y, fs.get? e.1 = some y ∧ equal e.2 y = .ok true := by
  induction es with
  | nil => exact ⟨nofun, fun _ => rfl⟩
  | cons e es ih =>
    obtain ⟨k, x⟩ := e
    rw [matchEntries_cons, List.forall_mem_cons, ← ih]
    cases fs.get? k with
    | none => simp
    | some y =>
      cases h : equal x y with
      | error f => simp [bind, Except.bind, h]
      | ok b => cases b <;> simp [bind, Except.bind, h]

theorem matchEntries_total (h : ∀ e ∈ es, ∀ f ∈ fs, ∃ b, equal e.2 f.2 = .ok b) :
    ∃ b, matchEntries equal es fs = .ok b := by
  induction es with
  | nil => exact ⟨true, rfl⟩
  | cons e es ih =>
    obtain ⟨k, x⟩ := e
    rw [matchEntries_cons]
    cases hk : Table.get? fs k with
    | none => exact ⟨false, rfl⟩
    | some y =>
      obtain ⟨f, hf, -, rfl⟩ := Table.exists_of_get? hk
      obtain ⟨b, hb⟩ := h (k, x) List.mem_cons_self f hf
      dsimp only at hb ⊢
      rw [hb]
      cases b with
      | false => exact ⟨false, rfl⟩
      | true => exact ih fun e he => h e (List.mem_cons_of_mem _ he)

/-- An entry with the same key and an equal value. -/
def SameEntry (equal : Value → Value → Except Fault Bool) (e f : Value × Value) : Prop :=
  (e.1 == f.1) = true ∧ equal e.2 f.2 = .ok true

/-- Entries that have the different keys of a table are different themselves. -/
theorem nodup_of_sameEntry {gs : List (Value × Value)} (hes : es.Distinct)
    (paired : List.Forall₂ (SameEntry equal) es gs) : gs.Nodup := by
  obtain ⟨hl, same⟩ := List.forall₂_iff_get.mp paired
  rw [List.Nodup, List.pairwise_iff_getElem]
  intro i j hi hj hij equals
  have first : (es[i].1 == gs[i].1) = true := (same i (hl ▸ hi) hi).1
  have second : (es[j].1 == gs[j].1) = true := (same j (hl ▸ hj) hj).1
  have differ := List.pairwise_iff_getElem.mp hes i j (hl ▸ hi) (hl ▸ hj) hij
  rw [equals] at first
  exact absurd (BEq.trans first (BEq.symm second)) (Bool.eq_false_iff.mp differ)

/-- Entries that are found one by one in a table of the same length are all of that table. -/
theorem matchEntries_iff_perm (hes : es.Distinct) (hfs : fs.Distinct) :
    (es.length = fs.length ∧ matchEntries equal es fs = .ok true) ↔
      Comp (List.Forall₂ (SameEntry equal)) List.Perm es fs := by
  rw [matchEntries_iff]
  constructor
  · rintro ⟨hl, found⟩
    obtain ⟨gs, paired⟩ := forall₂_exists (P := fun e f => f ∈ fs ∧ SameEntry equal e f) fun e he => by
      obtain ⟨y, hy, same⟩ := found e he
      obtain ⟨f, hf, key, rfl⟩ := Table.exists_of_get? hy
      exact ⟨f, hf, BEq.symm key, same⟩
    have matched := paired.imp fun e f h => h.2
    refine ⟨gs, matched, ?_⟩
    have inside : gs ⊆ fs := by
      intro f hf
      obtain ⟨i, hi, rfl⟩ := List.getElem_of_mem hf
      exact (List.forall₂_iff_get.mp paired).2 i (by rw [paired.length_eq]; exact hi) hi |>.1
    have apart : gs.Nodup := nodup_of_sameEntry hes matched
    -- as many different entries as the table has, and each of them its own
    apply (List.subperm_of_subset apart inside).perm_of_length_le
    rw [← paired.length_eq, hl]
  · rintro ⟨gs, paired, perm⟩
    refine ⟨paired.length_eq.trans perm.length_eq, fun e he => ?_⟩
    obtain ⟨i, hi, rfl⟩ := List.getElem_of_mem he
    have hj : i < gs.length := paired.length_eq ▸ hi
    obtain ⟨key, same⟩ := (List.forall₂_iff_get.mp paired).2 i hi hj
    have here : gs[i] ∈ fs := perm.subset (List.getElem_mem hj)
    exact ⟨gs[i].2, Table.get?_of_distinct hfs here (BEq.symm key), same⟩

end Entries

namespace Store

variable {s : Store} {v w u : Value} {a b : Addr}

def Alike (s : Store) (v w : Value) : Prop := s.equal v w = .ok true

def Distinct (s : Store) : Prop := ∀ a es, s.read a = .dict es → es.Distinct

theorem equal_atoms (s : Store) (c d : Atom) : s.equal (.atom c) (.atom d) = .ok (c.same d) := by
  simp only [equal, pairLimit, equalWithin]
  rfl

theorem equal_atom_ref (s : Store) (c : Atom) (b : Addr) :
    s.equal (.atom c) (.ref b) = .ok false := by
  simp only [equal, pairLimit, equalWithin]
  rfl

theorem equal_ref_atom (s : Store) (a : Addr) (d : Atom) :
    s.equal (.ref a) (.atom d) = .ok false := by
  simp only [equal, pairLimit, equalWithin]
  rfl

theorem equal_self (s : Store) (a : Addr) : s.equal (.ref a) (.ref a) = .ok true := by
  simp only [equal, pairLimit, equalWithin, beq_self_eq_true, if_true]

theorem equal_unlike (hab : a ≠ b) (hl : ∀ xs ys, s.read a = .list xs → s.read b = .list ys → False)
    (hd : ∀ es fs, s.read a = .dict es → s.read b = .dict fs → False) :
    s.equal (.ref a) (.ref b) = .ok false := by
  have apart : (a == b) = false := beq_eq_false_iff_ne.mpr hab
  simp only [equal, pairLimit, equalWithin, apart, Bool.false_eq_true, if_false]

/-- What makes two values equal. -/
inductive Match (s : Store) : Value → Value → Prop where
  | atoms {c d : Atom} (h : c.same d = true) : Match s (.atom c) (.atom d)
  | self (a : Addr) : Match s (.ref a) (.ref a)
  | lists {a b : Addr} {xs ys : List Value} (ha : s.read a = .list xs) (hb : s.read b = .list ys)
      (h : List.Forall₂ s.Alike xs ys) : Match s (.ref a) (.ref b)
  | dicts {a b : Addr} {es fs : Table Value Value} (ha : s.read a = .dict es)
      (hb : s.read b = .dict fs) (h : Comp (List.Forall₂ (SameEntry s.equal)) List.Perm es fs) :
      Match s (.ref a) (.ref b)

theorem alike_lists {xs ys : List Value} (hv : s.Acyclic (.ref a)) (ha : s.read a = .list xs)
    (hb : s.read b = .list ys) (hab : a ≠ b) :
    s.Alike (.ref a) (.ref b) ↔ List.Forall₂ s.Alike xs ys := by
  rw [Alike, equal_lists hv ha hb hab]
  by_cases hl : xs.length = ys.length
  · rw [if_neg (not_not.mpr hl)]
    exact allPairs_iff hl
  · rw [if_pos hl]
    exact ⟨nofun, fun h => absurd h.length_eq hl⟩

theorem alike_dicts (hs : s.Distinct) {es fs : Table Value Value} (hv : s.Acyclic (.ref a))
    (ha : s.read a = .dict es) (hb : s.read b = .dict fs) (hab : a ≠ b) :
    s.Alike (.ref a) (.ref b) ↔ Comp (List.Forall₂ (SameEntry s.equal)) List.Perm es fs := by
  rw [← matchEntries_iff_perm (hs a es ha) (hs b fs hb), Alike, equal_dicts hv ha hb hab]
  by_cases hl : es.length = fs.length
  · rw [if_neg (not_not.mpr hl), and_iff_right hl]
  · rw [if_pos hl]
    exact ⟨nofun, fun h => absurd h.1 hl⟩

theorem alike_iff_match (hs : s.Distinct) (hv : s.Acyclic v) : s.Alike v w ↔ s.Match v w := by
  constructor
  · intro h
    match v, w with
    | .atom c, .atom d =>
      rw [Alike, equal_atoms, Except.ok.injEq] at h
      exact .atoms h
    | .atom c, .ref b =>
      rw [Alike, equal_atom_ref] at h
      cases h
    | .ref a, .atom d =>
      rw [Alike, equal_ref_atom] at h
      cases h
    | .ref a, .ref b =>
      by_cases hab : a = b
      · exact hab ▸ .self a
      by_cases lists : ∃ xs ys, s.read a = .list xs ∧ s.read b = .list ys
      · obtain ⟨xs, ys, ha, hb⟩ := lists
        exact .lists ha hb ((alike_lists hv ha hb hab).mp h)
      by_cases dicts : ∃ es fs, s.read a = .dict es ∧ s.read b = .dict fs
      · obtain ⟨es, fs, ha, hb⟩ := dicts
        exact .dicts ha hb ((alike_dicts hs hv ha hb hab).mp h)
      · rw [Alike, equal_unlike hab (fun xs ys ha hb => lists ⟨xs, ys, ha, hb⟩)
          fun es fs ha hb => dicts ⟨es, fs, ha, hb⟩] at h
        cases h
  · intro h
    cases h with
    | atoms h => rw [Alike, equal_atoms, h]
    | self a => exact equal_self s a
    | @lists a b xs ys ha hb h =>
      by_cases hab : a = b
      · exact hab ▸ equal_self s a
      · exact (alike_lists hv ha hb hab).mpr h
    | @dicts a b es fs ha hb h =>
      by_cases hab : a = b
      · exact hab ▸ equal_self s a
      · exact (alike_dicts hs hv ha hb hab).mpr h

theorem equal_total (hv : s.Acyclic v) (w : Value) : ∃ r, s.equal v w = .ok r := by
  induction hv.acc generalizing w with
  | intro v _ ih =>
    match v, w with
    | .atom c, .atom d => exact ⟨_, equal_atoms s c d⟩
    | .atom c, .ref b => exact ⟨_, equal_atom_ref s c b⟩
    | .ref a, .atom d => exact ⟨_, equal_ref_atom s a d⟩
    | .ref a, .ref b =>
      by_cases hab : a = b
      · exact ⟨true, hab ▸ equal_self s a⟩
      by_cases lists : ∃ xs ys, s.read a = .list xs ∧ s.read b = .list ys
      · obtain ⟨xs, ys, ha, hb⟩ := lists
        rw [equal_lists hv ha hb hab]
        split
        · exact ⟨false, rfl⟩
        · apply allPairs_total
          intro x hx y _
          exact ih x (inside_of_list ha hx) (hv.inside (inside_of_list ha hx)) y
      by_cases dicts : ∃ es fs, s.read a = .dict es ∧ s.read b = .dict fs
      · obtain ⟨es, fs, ha, hb⟩ := dicts
        rw [equal_dicts hv ha hb hab]
        split
        · exact ⟨false, rfl⟩
        · apply matchEntries_total
          intro e he f _
          exact ih e.2 (inside_entry ha he) (hv.inside (inside_entry ha he)) f.2
      · exact ⟨false, equal_unlike hab (fun xs ys ha hb => lists ⟨xs, ys, ha, hb⟩)
          fun es fs ha hb => dicts ⟨es, fs, ha, hb⟩⟩

theorem alike_refl (hv : s.Regular v) : s.Alike v v := by
  cases v with
  | atom c =>
    rw [Alike, equal_atoms, Atom.same_refl (hv.numbers _ .refl)]
  | ref a => exact equal_self s a

theorem alike_symm (hs : s.Distinct) (hv : s.Acyclic v) (hw : s.Acyclic w) (h : s.Alike v w) :
    s.Alike w v := by
  induction hv.acc generalizing w with
  | intro v _ ih =>
    apply (alike_iff_match hs hw).mpr
    cases (alike_iff_match hs hv).mp h with
    | atoms same => exact .atoms (Atom.same_symm same)
    | self a => exact .self a
    | lists ha hb items =>
      refine .lists hb ha (List.Forall₂.flip (forall₂_imp_mem ?_ items))
      intro x hx y hy
      have inside := inside_of_list ha hx
      exact ih x inside (hv.inside inside) (hw.inside (inside_of_list hb hy))
    | @dicts a b es fs ha hb entries =>
      obtain ⟨gs, paired, perm⟩ := entries
      have back : List.Forall₂ (SameEntry s.equal) gs es := by
        apply List.Forall₂.flip
        apply forall₂_imp_mem _ paired
        rintro e he f hf ⟨key, same⟩
        have inside := inside_entry ha he
        have inside' := inside_entry hb (perm.subset hf)
        exact ⟨BEq.symm key, ih e.2 inside (hv.inside inside) (hw.inside inside') same⟩
      exact .dicts hb ha (List.perm_comp_forall₂ perm.symm back)

theorem alike_trans (hs : s.Distinct) (hv : s.Acyclic v) (hw : s.Acyclic w) (h : s.Alike v w)
    (h' : s.Alike w u) : s.Alike v u := by
  induction hv.acc generalizing w u with
  | intro v _ ih =>
    apply (alike_iff_match hs hv).mpr
    have first := (alike_iff_match hs hv).mp h
    have second := (alike_iff_match hs hw).mp h'
    cases first with
    | atoms first =>
      cases second with
      | atoms second => exact .atoms (Atom.same_trans first second)
    | self a => exact second
    | lists ha hb first =>
      cases second with
      | self => exact .lists ha hb first
      | dicts hb' => cases hb.symm.trans hb'
      | lists hb' hc second =>
        cases hb.symm.trans hb'
        refine .lists ha hc (forall₂_trans_mem ?_ first second)
        intro x hx y hy z _
        have inside := inside_of_list ha hx
        exact ih x inside (hv.inside inside) (hw.inside (inside_of_list hb hy))
    | dicts ha hb first =>
      cases second with
      | self => exact .dicts ha hb first
      | lists hb' => cases hb.symm.trans hb'
      | dicts hb' hc second =>
        cases hb.symm.trans hb'
        obtain ⟨fs', paired, perm⟩ := first
        obtain ⟨gs', paired', perm'⟩ := second
        -- the second pairing is moved to the order in which the first one leaves the entries
        obtain ⟨gs'', paired'', perm''⟩ := List.perm_comp_forall₂ perm paired'
        refine .dicts ha hc ⟨gs'', forall₂_trans_mem ?_ paired paired'', perm''.trans perm'⟩
        rintro e he f hf g _ ⟨key, same⟩ ⟨key', same'⟩
        have inside := inside_entry ha he
        have inside' := inside_entry hb (perm.subset hf)
        exact ⟨BEq.trans key key', ih e.2 inside (hv.inside inside) (hw.inside inside') same same'⟩

theorem alike_of_perm (hs : s.Distinct) {es fs : Table Value Value} (hv : s.Regular (.ref a))
    (ha : s.read a = .dict es) (hb : s.read b = .dict fs) (perm : es.Perm fs) :
    s.Alike (.ref a) (.ref b) := by
  apply (alike_iff_match hs hv.acyclic).mpr
  refine .dicts ha hb ⟨es, List.forall₂_same.mpr fun e he => ?_, perm⟩
  have key := (hv.inside (inside_key ha he)).numbers _ .refl
  exact ⟨Value.beq_self key, alike_refl (hv.inside (inside_entry ha he))⟩

theorem alike_of_identical (h : identical v w = true) : s.Alike v w := by
  have same : (v == w) = true := by
    unfold identical at h
    split at h
    · rfl
    · next c d => exact Atom.same_bool h
    · cases h
    · cases h
    · exact h
  match v, w with
  | .atom c, .atom d => rw [Alike, equal_atoms, show c.same d = true from same]
  | .ref a, .ref b =>
    obtain rfl : a = b := eq_of_beq same
    exact equal_self s a
  | .atom c, .ref b | .ref a, .atom d => cases same

theorem compare_eq_iff (hs : s.Distinct) (hv : s.Regular v) (hw : s.Regular w) {o : Ordering}
    (h : s.compare v w = .ok o) : o = .eq ↔ s.Alike v w := by
  induction hv.acyclic.acc generalizing w o with
  | intro v _ ih =>
    obtain ⟨c, d, rfl, rfl, hcd⟩ | ⟨a, b, xs, ys, rfl, rfl, ha, hb, hlex⟩ :=
      ok_of_compare hv.acyclic h
    · rw [Alike, equal_atoms, Except.ok.injEq]
      exact Atom.eq_iff_same (hv.numbers _ .refl) (hw.numbers _ .refl) hcd
    · have items := lexicographic_eq_iff (R := s.Alike) (fun x hx y hy o ho => by
        have inside := inside_of_list ha hx
        exact ih x inside (hv.inside inside) (hw.inside (inside_of_list hb hy)) ho) hlex
      rw [items]
      constructor
      · intro same
        exact (alike_iff_match hs hv.acyclic).mpr (.lists ha hb same)
      · intro same
        cases (alike_iff_match hs hv.acyclic).mp same with
        | self =>
          cases ha.symm.trans hb
          exact List.forall₂_same.mpr fun x hx => alike_refl (hv.inside (inside_of_list ha hx))
        | lists ha' hb' same =>
          cases ha.symm.trans ha'
          cases hb.symm.trans hb'
          exact same
        | dicts ha' => cases ha.symm.trans ha'

/-- What an operator says of two values. -/
def Says (s : Store) (op : BinaryOp) (v w : Value) (answer : Bool) : Prop :=
  s.operate op v w = .ok (.bool answer)

theorem says_eq_iff (r : Bool) : s.Says .eq v w r ↔ s.equal v w = .ok r := by
  simp only [Says, operate]
  cases s.equal v w with
  | error f => exact ⟨nofun, nofun⟩
  | ok r' => simp [bind, Except.bind, pure, Except.pure]

theorem says_ne (s : Store) (r : Bool) (h : s.Says .eq v w r) : s.Says .ne v w !r := by
  rw [says_eq_iff] at h
  simp only [Says, operate, h]
  rfl

theorem says_same_iff (r : Bool) : s.Says .same v w r ↔ identical v w = r := by
  simp [Says, operate]

theorem says_mem (hv : s.requireKey v = .ok ()) {es : Table Value Value}
    (hw : s.object? w = some (.dict es)) : s.Says .mem v w (es.has v) := by
  have here : s.holds w v = .ok (es.has v) := by
    cases w with
    | atom c => cases hw
    | ref a =>
      simp only [holds, hw, hv]
      rfl
  simp only [Says, operate, here]
  rfl

/-- Equality, its negation, identity, the order of values and the keys of dictionaries agree. -/
structure Coherent (s : Store) : Prop where
  decides {v w : Value} (hv : s.Regular v) (hw : s.Regular w) :
    ∃ r, s.Says .eq v w r ∧ s.Says .ne v w !r
  refl {v : Value} (hv : s.Regular v) : s.Says .eq v v true
  symm {v w : Value} (hv : s.Regular v) (hw : s.Regular w) (h : s.Says .eq v w true) :
    s.Says .eq w v true
  trans {v w u : Value} (hv : s.Regular v) (hw : s.Regular w) (hu : s.Regular u)
    (h : s.Says .eq v w true) (h' : s.Says .eq w u true) : s.Says .eq v u true
  reordered {a b : Addr} {es fs : Table Value Value} (hv : s.Regular (.ref a))
    (ha : s.read a = .dict es) (hb : s.read b = .dict fs) (perm : es.Perm fs) :
    s.Says .eq (.ref a) (.ref b) true
  identity {v w : Value} (h : s.Says .same v w true) : s.Says .eq v w true
  ordering {v w : Value} (hv : s.Regular v) (hw : s.Regular w) {o : Ordering}
    (h : s.compare v w = .ok o) : o = .eq ↔ s.Says .eq v w true
  membership {v w : Value} {es : Table Value Value} (hv : s.requireKey v = .ok ())
    (line : v.isNaN = false) (hw : s.object? w = some (.dict es)) :
    ∃ r, s.Says .mem v w r ∧ (r = true ↔ ∃ e ∈ es, s.Says .eq e.1 v true)
  keys {a : Addr} {es : Table Value Value} (ha : s.read a = .dict es) :
    es.Pairwise fun e f => s.Says .eq e.1 f.1 false

theorem coherent_of_keyed (hs : ∀ a es, s.read a = .dict es → s.Keyed es) : s.Coherent := by
  have distinct : s.Distinct := fun a es ha => (hs a es ha).distinct
  constructor
  case decides =>
    intro v w hv _
    obtain ⟨r, hr⟩ := equal_total hv.acyclic w
    have said := (says_eq_iff r).mpr hr
    exact ⟨r, said, says_ne s r said⟩
  case refl =>
    intro v hv
    exact (says_eq_iff true).mpr (alike_refl hv)
  case symm =>
    intro v w hv hw h
    rw [says_eq_iff] at h ⊢
    exact alike_symm distinct hv.acyclic hw.acyclic h
  case trans =>
    intro v w u hv hw _ h h'
    rw [says_eq_iff] at h h' ⊢
    exact alike_trans distinct hv.acyclic hw.acyclic h h'
  case reordered =>
    intro a b es fs hv ha hb perm
    exact (says_eq_iff true).mpr (alike_of_perm distinct hv ha hb perm)
  case identity =>
    intro v w h
    exact (says_eq_iff true).mpr (alike_of_identical ((says_same_iff true).mp h))
  case ordering =>
    intro v w hv hw o h
    exact (compare_eq_iff distinct hv hw h).trans (says_eq_iff true).symm
  case membership =>
    intro v w es hv _ hw
    refine ⟨es.has v, says_mem hv hw, ?_⟩
    simp only [Table.has_iff_exists, says_eq_iff, equal_of_hashable (.inr hv), Except.ok.injEq]
  case keys =>
    intro a es ha
    obtain ⟨hashable, apart⟩ := hs a es ha
    apply List.Pairwise.imp_of_mem _ apart
    intro e f he _ differ
    rw [says_eq_iff, equal_of_hashable (.inl (hashable e he)), differ]

end Store

end LoopScript
