import LoopScript.Proofs.MergeSort.Permutation

/-!
A sort whose comparisons agree with an order puts the items in that order. A comparison of two items
tells which of them is to come first, and an order that ranks equal items as the list has them is one
that every comparison agrees with: a sort by it is stable.
-/

namespace LoopScript

/-- A computation that gives a result, and one with the property. -/
abbrev Succeeds {α : Type} (P : α → Prop) (x : Except Fault α) : Prop := Ends P (fun _ => False) x

theorem Ends.exists_ok {α : Type} {P : α → Prop} {x : Except Fault α} (h : Succeeds P x) :
    ∃ a, x = .ok a ∧ P a := by
  cases x with
  | ok a => exact ⟨a, rfl, h⟩
  | error f => exact h.elim

theorem raises_anything {α : Type} (x : Except Fault α) : Raises (fun _ => True) x := by
  cases x <;> trivial

theorem Ends.and_succeeds {α : Type} {P Q : α → Prop} {E : Fault → Prop} {x : Except Fault α}
    (h : Ends P E x) (h' : Succeeds Q x) : Succeeds (fun a => P a ∧ Q a) x := by
  cases x with
  | ok a => exact ⟨h, h'⟩
  | error f => exact h'

/-- A test whose answer tells which of two things is the case. -/
abbrev Decides (x : Except Fault Bool) (p q : Prop) : Prop := Succeeds (fun b => cond b p q) x

theorem Decides.not {x : Except Fault Bool} {p q : Prop} (h : Decides x p q) :
    Decides (return !(← x)) q p :=
  ends_bind h fun b hb => by cases b <;> exact hb

namespace MergeSort

variable {α : Type}

section Search

variable {test : α → Except Fault Bool} {P Q : α → Prop} {xs : List α} {low high : Nat}

/-- The items before the first place have the one property, and those behind the second the
other. -/
structure Parts (P Q : α → Prop) (xs : List α) (low high : Nat) : Prop where
  before : ∀ x ∈ xs.take low, P x
  behind : ∀ x ∈ xs.drop high, Q x

theorem forall_take_succ {i : Nat} (h : i < xs.length)
    (hp : xs.Pairwise fun x x' => P x' → P x) (hi : P xs[i]) : ∀ x ∈ xs.take (i + 1), P x := by
  intro x hx
  obtain ⟨j, hj, rfl⟩ := List.getElem_of_mem hx
  rw [List.getElem_take]
  rw [List.length_take] at hj
  obtain hji | rfl : j < i ∨ j = i := by omega
  · exact List.pairwise_iff_getElem.mp hp j i _ h hji hi
  · exact hi

theorem forall_drop {i : Nat} (h : i < xs.length)
    (hq : xs.Pairwise fun x x' => Q x → Q x') (hi : Q xs[i]) : ∀ x ∈ xs.drop i, Q x := by
  intro x hx
  obtain ⟨j, hj, rfl⟩ := List.getElem_of_mem hx
  rw [List.getElem_drop]
  rw [List.length_drop] at hj
  cases j with
  | zero => exact hi
  | succ j => exact List.pairwise_iff_getElem.mp hq i (i + (j + 1)) h (by omega) (by omega) hi

variable (ht : ∀ x ∈ xs, Decides (test x) (P x) (Q x))
  (hp : xs.Pairwise fun x x' => P x' → P x) (hq : xs.Pairwise fun x x' => Q x → Q x')

include ht

theorem decides_passes {i : Nat} (h : i < xs.length) :
    Decides (passes test xs i) (P xs[i]) (Q xs[i]) := by
  simp only [passes, List.getElem?_eq_getElem h]
  exact ht _ (List.getElem_mem h)

include hp hq

theorem parts_boundary (side : Side) (h : low ≤ high) (hn : high ≤ xs.length)
    (parts : Parts P Q xs low high) :
    Succeeds (fun k => Parts P Q xs k k) (boundary side test xs low high) := by
  fun_induction boundary side test xs low high with
  | case1 low high hlt middle ih₁ ih₂ =>
    have hm : low ≤ middle ∧ middle < high := by
      cases side <;> simp only [middle, Side.middle] <;> omega
    have within : middle < xs.length := by omega
    refine ends_bind (decides_passes ht within) fun b hb => ?_
    cases b with
    | true => exact ih₁ (by omega) hn ⟨forall_take_succ within hp hb, parts.behind⟩
    | false => exact ih₂ (by omega) (by omega) ⟨parts.before, forall_drop within hq hb⟩
  | case2 low high hge =>
    obtain rfl : low = high := by omega
    exact parts

theorem parts_stride {last next : Nat} (h : last < next) (hl : last < xs.length)
    (before : ∀ x ∈ xs.take (last + 1), P x) :
    Succeeds (fun r => r.1 < r.2 ∧ r.2 ≤ xs.length ∧ Parts P Q xs (r.1 + 1) r.2)
      (stride test xs last next) := by
  fun_induction stride test xs last next with
  | case1 last next _ =>
    refine ⟨hl, Nat.le_refl _, before, fun x hx => ?_⟩
    rw [List.drop_length] at hx
    exact absurd hx List.not_mem_nil
  | case2 last next x hx ih =>
    obtain ⟨within, rfl⟩ := List.getElem?_eq_some_iff.mp hx
    refine ends_bind (ht _ (List.getElem_mem within)) fun b hb => ?_
    cases b with
    | true => exact ih (by omega) within (forall_take_succ within hp hb)
    | false => exact ⟨h, Nat.le_of_lt within, before, forall_drop within hq hb⟩

theorem parts_gallop (side : Side) :
    Succeeds (fun k => Parts P Q xs k k) (gallop side test xs) := by
  unfold gallop
  by_cases hn : 0 < xs.length
  · refine ends_bind (decides_passes ht hn) fun b hb => ?_
    cases b with
    | true =>
      refine ends_bind (parts_stride ht hp hq (by omega) hn (forall_take_succ hn hp hb))
        fun places h => ?_
      exact parts_boundary ht hp hq side h.1 h.2.1 h.2.2
    | false => exact ⟨fun x hx => absurd hx List.not_mem_nil, forall_drop hn hq hb⟩
  · obtain rfl : xs = [] := List.length_eq_zero_iff.mp (by omega)
    exact ⟨fun x hx => absurd hx List.not_mem_nil, fun x hx => absurd hx List.not_mem_nil⟩

end Search

/-- The order in which items come out of a merge that begins at the given end. -/
def Side.order (side : Side) (B : α → α → Prop) : α → α → Prop :=
  match side with
  | front => B
  | back => fun x y => B y x

/-- The comparison of an earlier with a later item tells which of them is to come first. -/
abbrev Told (less : α → α → Except Fault Bool) (B : α → α → Prop) (x y : α) : Prop :=
  Decides (less y x) (B y x) (B x y)

variable {less : α → α → Except Fault Bool} {B : α → α → Prop} {side : Side} {x y : α}
  {xs ys zs : List α}

theorem decides_leads (side : Side) (h : Told less B x y) :
    Decides (side.leads less y x) (side.order B y x) (side.order B x y) :=
  ends_bind h fun b hb => by cases side <;> cases b <;> exact hb

/-- The item that comes out last is one of the run that does not give the first. -/
def Side.Last (side : Side) (D : α → α → Prop) (xs ys : List α) : Prop :=
  match side with
  | front => ∀ x ∈ xs.getLast?, ∀ y ∈ ys, D y x
  | back => ∀ y ∈ ys.getLast?, ∀ x ∈ xs, D x y

/-- Two runs that are sorted each, in the order of a merge that begins at the given end. -/
structure Runs (less : α → α → Except Fault Bool) (B : α → α → Prop) (side : Side)
    (xs ys : List α) : Prop where
  earlier : xs.Pairwise (side.order B)
  later : ys.Pairwise (side.order B)
  told : ∀ x ∈ xs, ∀ y ∈ ys, Told less B x y

theorem Runs.sublists {xs' ys' : List α} (h : Runs less B side xs ys) (hx : xs'.Sublist xs)
    (hy : ys'.Sublist ys) : Runs less B side xs' ys' where
  earlier := h.earlier.sublist hx
  later := h.later.sublist hy
  told := fun x hx' y hy' => h.told x (hx.subset hx') y (hy.subset hy')

theorem getLast?_of_suffix {xs' : List α} (h : xs'.IsSuffix xs) {x : α} (hx : x ∈ xs'.getLast?) :
    x ∈ xs.getLast? := by
  obtain ⟨front, rfl⟩ := h
  rw [List.getLast?_append, Option.mem_def.mp hx]
  rfl

theorem Side.Last.suffixes {D : α → α → Prop} {xs' ys' : List α} (h : side.Last D xs ys)
    (hx : xs'.IsSuffix xs) (hy : ys'.IsSuffix ys) : side.Last D xs' ys' := by
  cases side with
  | front => exact fun x hx' y hy' => h x (getLast?_of_suffix hx hx') y (hy.subset hy')
  | back => exact fun y hy' x hx' => h y (getLast?_of_suffix hy hy') x (hx.subset hx')

section Merge

variable (trans : ∀ x y z, B x y → B y z → B x z)

include trans

theorem order_trans (side : Side) {x y z : α} (h : side.order B x y) (h' : side.order B y z) :
    side.order B x z := by
  cases side with
  | front => exact trans x y z h h'
  | back => exact trans z y x h' h

theorem parts_countBefore (side : Side) (sorted : xs.Pairwise (side.order B))
    (told : ∀ x ∈ xs, Told less B x y) :
    Succeeds (fun k => Parts (side.order B · y) (side.order B y) xs k k)
      (side.countBefore less y xs) := by
  apply parts_gallop
  · exact fun x hx => (decides_leads side (told x hx)).not
  · exact sorted.imp fun h h' => order_trans trans side h h'
  · exact sorted.imp fun h h' => order_trans trans side h' h

theorem parts_countLeading (side : Side) (sorted : ys.Pairwise (side.order B))
    (told : ∀ y ∈ ys, Told less B x y) :
    Succeeds (fun k => Parts (side.order B · x) (side.order B x) ys k k)
      (side.countLeading less x ys) := by
  apply parts_gallop
  · exact fun y hy => decides_leads side (told y hy)
  · exact sorted.imp fun h h' => order_trans trans side h h'
  · exact sorted.imp fun h h' => order_trans trans side h' h

omit trans in
theorem sorted_remainder (h : Runs less B side xs ys) (last : side.Last (side.order B) xs ys)
    (e : side.remainder? xs ys = some zs) : zs.Pairwise (side.order B) := by
  unfold Side.remainder? at e
  split at e
  · exact Option.some.inj e ▸ h.later
  · exact Option.some.inj e ▸ h.earlier
  · next x ys =>
    rw [← Option.some.inj e, List.pairwise_append]
    refine ⟨h.later, h.earlier, fun y hy x' hx' => ?_⟩
    obtain rfl := List.mem_singleton.mp hx'
    exact last _ rfl y hy
  · next y =>
    rw [← Option.some.inj e, List.pairwise_append]
    refine ⟨h.earlier, h.later, fun x hx y' hy' => ?_⟩
    obtain rfl := List.mem_singleton.mp hy'
    exact last _ rfl x hx
  · cases e

/-- An item that comes out of a merge before the first item of a run does so before the others. -/
theorem order_forall (side : Side) {z : α} (hx : (x :: xs).Pairwise (side.order B)) (h : side.order B z x) :
    ∀ x' ∈ x :: xs, side.order B z x' := by
  intro x' hx'
  rcases List.mem_cons.mp hx' with rfl | hx'
  · exact h
  · exact order_trans trans side h ((List.pairwise_cons.mp hx).1 x' hx')

/-- A part of the first run, an item of the second that comes out next, and what is left. -/
theorem sorted_take_append (side : Side) {k : Nat} (hx : xs.Pairwise (side.order B))
    (hy : (y :: ys).Pairwise (side.order B))
    (parts : Parts (side.order B · y) (side.order B y) xs k k)
    (perm : zs.Perm (xs.drop k ++ ys)) (sorted : zs.Pairwise (side.order B)) :
    (xs.take k ++ y :: zs).Pairwise (side.order B) := by
  have split := List.pairwise_append.mp ((List.take_append_drop k xs).symm ▸ hx)
  rw [List.pairwise_append, List.pairwise_cons]
  refine ⟨split.1, ⟨fun z hz => ?_, sorted⟩, fun x hx z hz => ?_⟩
  · rcases List.mem_append.mp (perm.subset hz) with hz | hz
    · exact parts.behind z hz
    · exact (List.pairwise_cons.mp hy).1 z hz
  · rcases List.mem_cons.mp hz with rfl | hz
    · exact parts.before x hx
    · rcases List.mem_append.mp (perm.subset hz) with hz | hz
      · exact split.2.2 x hx z hz
      · exact order_trans trans side (parts.before x hx) ((List.pairwise_cons.mp hy).1 z hz)

theorem sorted_merge (side : Side) (pace : Pace) (patience : Nat) (h : Runs less B side xs ys)
    (last : side.Last (side.order B) xs ys) :
    Succeeds (fun r => r.1.Pairwise (side.order B)) (merge less side pace patience xs ys) := by
  fun_induction merge less side pace patience xs ys with
  | case1 patience x xs y ys m n none ih₂ ih₁ =>
    simp only [none]
    refine ends_bind (decides_leads side (h.told x List.mem_cons_self y List.mem_cons_self))
      fun b hb => ?_
    cases b with
    | true =>
      have rest := ih₂ (h.sublists (List.Sublist.refl _) (List.sublist_cons_self y ys))
        (last.suffixes List.suffix_rfl (List.suffix_cons y ys))
      refine ends_bind ((ends_merge (fun _ _ => raises_anything _) ..).and_succeeds rest)
        fun r hr => ?_
      exact sorted_take_append (k := 0) trans side h.earlier h.later
        ⟨by simp, order_forall trans side h.earlier hb⟩ hr.1 hr.2
    | false =>
      have rest := ih₁ (h.sublists (List.sublist_cons_self x xs) (List.Sublist.refl _))
        (last.suffixes (List.suffix_cons x xs) List.suffix_rfl)
      refine ends_bind ((ends_merge (fun _ _ => raises_anything _) ..).and_succeeds rest)
        fun r hr => ?_
      exact sorted_take_append (k := 0) trans side h.later h.earlier
        ⟨by simp, order_forall trans side h.later hb⟩ (hr.1.trans List.perm_append_comm) hr.2
  | case2 patience x xs y ys none ih =>
    simp only [none]
    refine ends_bind (parts_countBefore trans side h.earlier
      fun x hx => h.told x hx y List.mem_cons_self) fun k hk => ?_
    have rest := ih k (h.sublists (List.drop_sublist _ _) (List.sublist_cons_self y ys))
      (last.suffixes (List.drop_suffix _ _) (List.suffix_cons y ys))
    refine ends_bind ((ends_merge (fun _ _ => raises_anything _) ..).and_succeeds rest) fun r hr => ?_
    exact sorted_take_append trans side h.earlier h.later hk hr.1 hr.2
  | case3 patience x xs y ys k none ih =>
    simp only [none]
    refine ends_bind (parts_countLeading trans side h.later
      fun y hy => h.told x List.mem_cons_self y hy) fun l hl => ?_
    have rest := fun pace n => ih l pace n
      (h.sublists (List.sublist_cons_self x xs) (List.drop_sublist _ _))
      (last.suffixes (List.suffix_cons x xs) (List.drop_suffix _ _))
    refine ends_bind ((ends_merge (fun _ _ => raises_anything _) ..).and_succeeds (rest _ _))
      fun r hr => ?_
    exact sorted_take_append trans side h.later h.earlier hl (hr.1.trans List.perm_append_comm) hr.2
  | case4 pace patience xs ys more =>
    cases e : side.remainder? xs ys with
    | some rest => exact sorted_remainder h last e
    | none =>
      cases xs with
      | nil => cases side <;> cases e
      | cons x xs =>
        cases ys with
        | nil => cases side <;> cases e
        | cons y ys => exact (more x xs y ys e rfl rfl).elim

/-- The item that comes out first is one of the run that does not give the last. -/
def Side.First (side : Side) (D : α → α → Prop) (xs ys : List α) : Prop :=
  match side with
  | front => ∀ y ∈ ys.head?, ∀ x ∈ xs, D y x
  | back => ∀ x ∈ xs.head?, ∀ y ∈ ys, D x y

theorem sorted_mergeFrom (side : Side) (patience : Nat) (h : Runs less B side xs ys)
    (first : side.First (side.order B) xs ys) (last : side.Last (side.order B) xs ys) :
    Succeeds (fun r => r.1.Pairwise (side.order B)) (mergeFrom less side patience xs ys) := by
  cases side with
  | front =>
    cases ys with
    | nil =>
      change (xs ++ []).Pairwise _
      exact (List.append_nil xs).symm ▸ h.earlier
    | cons y ys =>
      have rest := sorted_merge trans .front (.walk 0 0) patience
        (h.sublists (List.Sublist.refl _) (List.sublist_cons_self y ys))
        (last.suffixes List.suffix_rfl (List.suffix_cons y ys))
      refine ends_bind ((ends_merge (fun _ _ => raises_anything _) ..).and_succeeds rest)
        fun r hr => ?_
      exact sorted_take_append (k := 0) trans .front h.earlier h.later ⟨nofun, first y rfl⟩ hr.1 hr.2
  | back =>
    cases xs with
    | nil => exact h.later
    | cons x xs =>
      have rest := sorted_merge trans .back (.walk 0 0) patience
        (h.sublists (List.sublist_cons_self x xs) (List.Sublist.refl _))
        (last.suffixes (List.suffix_cons x xs) List.suffix_rfl)
      refine ends_bind ((ends_merge (fun _ _ => raises_anything _) ..).and_succeeds rest)
        fun r hr => ?_
      exact sorted_take_append (k := 0) trans .back h.later h.earlier ⟨nofun, first x rfl⟩
        (hr.1.trans List.perm_append_comm) hr.2

theorem sorted_mergeOverlap (patience : Nat) (h : Runs less B .front xs ys)
    (first : ∀ y ∈ ys.head?, ∀ x ∈ xs, B y x) (last : ∀ x ∈ xs.getLast?, ∀ y ∈ ys, B y x) :
    Succeeds (fun r => r.1.Pairwise B) (mergeOverlap less patience xs ys) := by
  unfold mergeOverlap
  split
  · exact sorted_mergeFrom trans .front patience h first last
  · have back : Runs less B .back xs.reverse ys.reverse := {
      earlier := List.pairwise_reverse.mpr h.earlier
      later := List.pairwise_reverse.mpr h.later
      told := fun x hx y hy => h.told x (List.mem_reverse.mp hx) y (List.mem_reverse.mp hy) }
    refine ends_bind (sorted_mergeFrom trans .back patience back ?_ ?_) fun r hr =>
      List.pairwise_reverse.mpr hr
    · exact fun x hx y hy => last x (by rwa [List.head?_reverse] at hx) y (List.mem_reverse.mp hy)
    · exact fun y hy x hx => first y (by rwa [List.getLast?_reverse] at hy) x (List.mem_reverse.mp hx)

omit trans in
/-- A part of the earlier run, a merge of the rest of it with a part of the later run, and the rest
of that. -/
theorem sorted_take_append_drop {k n : Nat} (hx : xs.Pairwise B) (hy : ys.Pairwise B)
    (front : ∀ x ∈ xs.take k, ∀ y ∈ ys, B x y) (back : ∀ x ∈ xs, ∀ y ∈ ys.drop n, B x y)
    (perm : zs.Perm (xs.drop k ++ ys.take n)) (sorted : zs.Pairwise B) :
    (xs.take k ++ zs ++ ys.drop n).Pairwise B := by
  have earlier := List.pairwise_append.mp ((List.take_append_drop k xs).symm ▸ hx)
  have later := List.pairwise_append.mp ((List.take_append_drop n ys).symm ▸ hy)
  rw [List.pairwise_append, List.pairwise_append]
  refine ⟨⟨earlier.1, sorted, fun x hx z hz => ?_⟩, later.2.1, fun z hz y hy => ?_⟩
  · rcases List.mem_append.mp (perm.subset hz) with hz | hz
    · exact earlier.2.2 x hx z hz
    · exact front x hx z (List.mem_of_mem_take hz)
  · rcases List.mem_append.mp hz with hz | hz
    · exact back z (List.mem_of_mem_take hz) y hy
    · rcases List.mem_append.mp (perm.subset hz) with hz | hz
      · exact back z (List.mem_of_mem_drop hz) y hy
      · exact later.2.2 z hz y hy

theorem forall_getLast {k : Nat} (hx : xs.Pairwise B) (last : x ∈ (xs.drop k).getLast?)
    (h : B x y) : ∀ x' ∈ xs, B x' y := by
  have suffix := getLast?_of_suffix (List.drop_suffix k xs) last
  obtain ⟨front, rfl⟩ := List.getLast?_eq_some_iff.mp suffix
  intro x' hx'
  rcases List.mem_append.mp hx' with hx' | hx'
  · exact trans x' x y ((List.pairwise_append.mp hx).2.2 x' hx' x List.mem_cons_self) h
  · exact List.mem_singleton.mp hx' ▸ h

theorem sorted_mergeRuns (patience : Nat) (h : Runs less B .front xs ys) :
    Succeeds (fun r => r.1.Pairwise B) (mergeRuns less patience xs ys) := by
  unfold mergeRuns
  split
  · exact h.earlier
  · next y ys =>
    refine ends_bind (parts_countBefore trans .front h.earlier
      fun x hx => h.told x hx y List.mem_cons_self) fun k hk => ?_
    have front : ∀ x ∈ xs.take k, ∀ y' ∈ y :: ys, B x y' := fun x hx =>
      order_forall trans .front h.later (hk.before x hx)
    split
    · next none =>
      rw [List.getLast?_eq_none_iff, List.drop_eq_nil_iff] at none
      rw [List.take_of_length_le none] at front
      exact List.pairwise_append.mpr ⟨h.earlier, h.later, front⟩
    · next x hx =>
      have hxs : x ∈ xs := List.mem_of_mem_drop (List.mem_of_getLast? hx)
      refine ends_bind (parts_countLeading trans .back (List.pairwise_reverse.mpr h.later)
        fun y hy => h.told x hxs y (List.mem_reverse.mp hy)) fun l hl => ?_
      obtain ⟨behind, before⟩ := hl
      rw [List.take_reverse] at behind
      rw [List.drop_reverse] at before
      have overlap := sorted_mergeOverlap trans patience
        (h.sublists (List.drop_sublist k xs) (List.take_sublist ((y :: ys).length - l) (y :: ys)))
        (fun y' hy' => ?_) (fun x' hx' y' hy' => ?_)
      · refine ends_bind ((ends_mergeOverlap (fun _ _ => raises_anything _) ..).and_succeeds overlap)
          fun r hr => ?_
        refine sorted_take_append_drop h.earlier h.later front (fun x' hx' y' hy' => ?_) hr.1 hr.2
        exact forall_getLast trans h.earlier hx (behind y' (List.mem_reverse.mpr hy')) x' hx'
      · rw [List.head?_take] at hy'
        split at hy'
        · cases hy'
        · cases hy'
          exact hk.behind
      · cases Option.some.inj (hx.symm.trans hx')
        exact before y' (List.mem_reverse.mpr hy')

end Merge

section Runs

variable (trans : ∀ x y z, B x y → B y z → B x z)

theorem insertIdx_eq {k : Nat} (h : k ≤ xs.length) :
    xs.insertIdx k y = xs.take k ++ y :: xs.drop k := by
  induction xs generalizing k with
  | nil =>
    obtain rfl : k = 0 := by simpa using h
    rfl
  | cons x xs ih =>
    cases k with
    | zero => rfl
    | succ k =>
      rw [List.insertIdx_succ_cons, ih (by simpa using h)]
      rfl

include trans

theorem sorted_insert (sorted : xs.Pairwise B) (told : ∀ x ∈ xs, Told less B x y) :
    Succeeds (·.Pairwise B) (insert less xs y) := by
  have parts := parts_boundary (fun x hx => (told x hx).not)
    (sorted.imp fun h h' => trans _ _ _ h h') (sorted.imp fun h h' => trans _ _ _ h' h) .front
    (Nat.zero_le _) (Nat.le_refl xs.length) ⟨nofun, by simp⟩
  refine ends_bind ((ends_boundary (fun _ => raises_anything _) ..).and_succeeds parts)
    fun k hk => ?_
  change (xs.insertIdx k y).Pairwise B
  rw [insertIdx_eq (by omega)]
  exact sorted_take_append trans .front sorted (List.pairwise_singleton B y)
    hk.2 (List.append_nil _ ▸ .refl _) (sorted.sublist (List.drop_sublist k xs))

theorem sorted_insertAll (sorted : xs.Pairwise B)
    (told : ∀ x ∈ xs, ∀ y ∈ ys, Told less B x y) (told' : ys.Pairwise (Told less B)) :
    Succeeds (·.Pairwise B) (ys.foldlM (insert less) xs) := by
  induction ys generalizing xs with
  | nil => exact sorted
  | cons y ys ih =>
    rw [List.foldlM_cons]
    rw [List.pairwise_cons] at told'
    refine ends_bind ((ends_insert (fun _ _ => raises_anything _) ..).and_succeeds
      (sorted_insert trans sorted fun x hx => told x hx y List.mem_cons_self)) fun more hm => ?_
    refine ih hm.2 (fun x hx y' hy' => ?_) told'.2
    rcases List.mem_cons.mp (hm.1.subset hx) with rfl | hx
    · exact told'.1 y' hy'
    · exact told x hx y' (List.mem_cons_of_mem _ hy')

/-- The order in which the items of a run lie. -/
def Lies (B : α → α → Prop) (falling : Bool) : α → α → Prop :=
  fun x y => cond falling (B y x) (B x y)

omit trans in
theorem chain_runLength (falling : Bool) (told : (x :: xs).Pairwise (Told less B)) :
    Succeeds (fun n => (x :: xs.take n).IsChain (Lies B falling)) (runLength less falling x xs) := by
  induction xs generalizing x with
  | nil => exact .singleton x
  | cons y ys ih =>
    rw [List.pairwise_cons] at told
    refine ends_bind (told.1 y List.mem_cons_self) fun b hb => ?_
    split
    · next same =>
      refine ends_bind (ih told.2) fun n hn => ?_
      exact .cons_cons (same ▸ hb) hn
    · exact .singleton x

theorem sorted_runFrom (told : (x :: xs).Pairwise (Told less B)) :
    Succeeds (fun r => (x :: xs.take r.2).Pairwise (Lies B r.1)) (runFrom less x xs) := by
  cases xs with
  | nil => exact List.pairwise_singleton _ x
  | cons y ys =>
    rw [List.pairwise_cons] at told
    refine ends_bind (told.1 y List.mem_cons_self) fun falling hf => ?_
    refine ends_bind (chain_runLength falling told.2) fun n hn => ?_
    have chain : (x :: y :: ys.take n).IsChain (Lies B falling) := .cons_cons hf hn
    have transitive : IsTrans α (Lies B falling) := ⟨fun x y z => by
      cases falling with
      | true => exact fun h h' => trans z y x h' h
      | false => exact trans x y z⟩
    exact chain.pairwise

/-- Sorted runs of which each lies before the one that stands in front of it. -/
structure Stacked (less : α → α → Except Fault Bool) (B : α → α → Prop) (runs : List (List α)) :
    Prop where
  sorted : ∀ run ∈ runs, run.Pairwise B
  told : runs.Pairwise fun later earlier => ∀ x ∈ earlier, ∀ y ∈ later, Told less B x y

section Stacked

variable {later earlier run : List α} {runs : List (List α)}

omit trans

theorem stacked_cons : Stacked less B (run :: runs) ↔
    run.Pairwise B ∧ (∀ x ∈ runs.flatten, ∀ y ∈ run, Told less B x y) ∧ Stacked less B runs := by
  constructor
  · rintro ⟨sorted, told⟩
    rw [List.forall_mem_cons] at sorted
    rw [List.pairwise_cons] at told
    refine ⟨sorted.1, fun x hx => ?_, sorted.2, told.2⟩
    obtain ⟨earlier, he, hx⟩ := List.mem_flatten.mp hx
    exact told.1 earlier he x hx
  · rintro ⟨sorted, told, rest⟩
    refine ⟨List.forall_mem_cons.mpr ⟨sorted, rest.sorted⟩, List.pairwise_cons.mpr ⟨?_, rest.told⟩⟩
    exact fun earlier he x hx => told x (List.mem_flatten_of_mem he hx)

theorem Stacked.top (h : Stacked less B (later :: earlier :: runs)) :
    Runs less B .front earlier later where
  earlier := h.sorted earlier (by simp)
  later := h.sorted later (by simp)
  told := (List.pairwise_cons.mp h.told).1 earlier List.mem_cons_self

theorem Stacked.merged (h : Stacked less B (later :: earlier :: runs))
    (perm : run.Perm (earlier ++ later)) (sorted : run.Pairwise B) :
    Stacked less B (run :: runs) := by
  obtain ⟨-, told, h⟩ := stacked_cons.mp h
  obtain ⟨-, told', h⟩ := stacked_cons.mp h
  refine stacked_cons.mpr ⟨sorted, fun x hx y hy => ?_, h⟩
  rcases List.mem_append.mp (perm.subset hy) with hy | hy
  · exact told' x hx y hy
  · exact told x (List.mem_append_right _ hx) y hy

end Stacked

/-- The runs that wait. -/
abbrev Waiting.runs (waiting : Waiting α) : List (List α) := waiting.map (·.1)

theorem stacked_collapse (limit patience : Nat) {run : List α} {waiting : Waiting α}
    (h : Stacked less B (run :: waiting.runs)) :
    Succeeds (fun r => Stacked less B (r.1 :: Waiting.runs r.2.1))
      (collapse less limit patience run waiting) := by
  induction waiting generalizing run patience with
  | nil => exact h
  | cons w waiting ih =>
    obtain ⟨before, d⟩ := w
    unfold collapse
    split
    · have merged := sorted_mergeRuns trans patience h.top
      refine ends_bind ((ends_mergeRuns (fun _ _ => raises_anything _) ..).and_succeeds merged)
        fun r hr => ?_
      exact ih r.2 (h.merged hr.1 hr.2)
    · exact h

theorem stacked_push (total patience : Nat) {run : List α} {waiting : Waiting α}
    (h : Stacked less B (run :: waiting.runs)) :
    Succeeds (fun r => Stacked less B (Waiting.runs r.1)) (push less total patience run waiting) := by
  cases waiting with
  | nil => exact h
  | cons w waiting =>
    obtain ⟨sorted, told, h⟩ := stacked_cons.mp h
    refine ends_bind ((ends_collapse (fun _ _ => raises_anything _) ..).and_succeeds
      (stacked_collapse trans _ patience h)) fun r hr => ?_
    exact stacked_cons.mpr ⟨sorted, fun x hx => told x (hr.1.subset hx), hr.2⟩

theorem stacked_pushRuns (total least patience : Nat) {waiting : Waiting α}
    (h : Stacked less B waiting.runs) (told : ∀ x ∈ waiting.items, ∀ y ∈ xs, Told less B x y)
    (told' : xs.Pairwise (Told less B)) :
    Succeeds (fun r => Stacked less B (Waiting.runs r.1))
      (pushRuns less total least patience waiting xs) := by
  fun_induction pushRuns less total least patience waiting xs with
  | case1 patience waiting => exact h
  | case2 patience waiting x xs ih =>
    refine ends_bind (sorted_runFrom trans told') fun r natural => ?_
    obtain ⟨falling, n⟩ := r
    have split : x :: xs = (x :: xs.take n) ++ (xs.take (max n (least - 1))).drop n ++
        xs.drop (max n (least - 1)) := by
      have cut : xs.take n ++ (xs.take (max n (least - 1))).drop n =
          xs.take (max n (least - 1)) := by
        conv_rhs =>
          rw [← List.take_append_drop n (xs.take _), List.take_take,
            Nat.min_eq_left (Nat.le_max_left _ _)]
      rw [List.cons_append, cut, List.cons_append, List.take_append_drop]
    rw [split, List.pairwise_append, List.pairwise_append] at told'
    obtain ⟨⟨-, among, across⟩, rest, behind⟩ := told'
    have perm : (if falling then (x :: xs.take n).reverse else x :: xs.take n).Perm
        (x :: xs.take n) := by
      split
      · exact List.reverse_perm _
      · exact List.Perm.refl _
    have rising : (if falling then (x :: xs.take n).reverse else x :: xs.take n).Pairwise B := by
      cases falling with
      | true => exact List.pairwise_reverse.mpr natural
      | false => exact natural
    have inserted := sorted_insertAll trans rising (fun y hy => across y (perm.subset hy)) among
    refine ends_bind ((ends_insertAll (fun _ _ => raises_anything _) ..).and_succeeds inserted)
      fun run hr => ?_
    have inside : ∀ y ∈ run, y ∈ (x :: xs.take n) ++ (xs.take (max n (least - 1))).drop n :=
      fun y hy => (perm.append_right _).subset (hr.1.subset hy)
    have stacked : Stacked less B (run :: waiting.runs) := stacked_cons.mpr
      ⟨hr.2, fun z hz y hy => told z hz y (split ▸ List.mem_append_left _ (inside y hy)), h⟩
    refine ends_bind ((ends_push (fun _ _ => raises_anything _) ..).and_succeeds
      (stacked_push trans total patience stacked)) fun pushed hp => ?_
    refine ih n pushed.1 pushed.2 hp.2 (fun z hz y hy => ?_) rest
    rcases List.mem_append.mp (hp.1.subset hz) with hz | hz
    · exact behind z (inside z hz) y hy
    · exact told z hz y (split ▸ List.mem_append_right _ hy)

theorem sorted_mergeAll (patience : Nat) {runs : List (List α)} (h : Stacked less B runs) :
    Succeeds (·.Pairwise B) (mergeAll less patience runs) := by
  fun_induction mergeAll less patience runs with
  | case1 => exact .nil
  | case2 patience run => exact h.sorted run List.mem_cons_self
  | case3 patience last before =>
    exact ends_bind (sorted_mergeRuns trans patience h.top) fun r hr => hr
  | case4 patience last before first waiting short ih =>
    obtain ⟨sorted, told, h⟩ := stacked_cons.mp h
    refine ends_bind ((ends_mergeRuns (fun _ _ => raises_anything _) ..).and_succeeds
      (sorted_mergeRuns trans patience h.top)) fun r hr => ?_
    refine ih r.1 r.2 (stacked_cons.mpr ⟨sorted, fun x hx => told x ?_, h.merged hr.1 hr.2⟩)
    rcases List.mem_append.mp hx with hx | hx
    · rcases List.mem_append.mp (hr.1.subset hx) with hx | hx
      · exact List.mem_append_right _ (List.mem_append_left _ hx)
      · exact List.mem_append_left _ hx
    · exact List.mem_append_right _ (List.mem_append_right _ hx)
  | case5 patience last before first waiting long ih =>
    refine ends_bind ((ends_mergeRuns (fun _ _ => raises_anything _) ..).and_succeeds
      (sorted_mergeRuns trans patience h.top)) fun r hr => ?_
    exact ih r.1 r.2 (h.merged hr.1 hr.2)

theorem sorted_ascending (told : xs.Pairwise (Told less B)) :
    Succeeds (·.Pairwise B) (ascending less xs) := by
  have none : Stacked less B (Waiting.runs []) := ⟨nofun, .nil⟩
  have runs := stacked_pushRuns trans xs.length (leastRun xs.length) worthwhile none nofun told
  exact ends_bind runs fun r hr => sorted_mergeAll trans r.2 hr

end Runs

end MergeSort

/-- A sort in reverse begins with the last item, and gives the last one first. -/
theorem sorted_stableSort {α : Type} {less : α → α → Except Fault Bool} {B : α → α → Prop}
    (trans : ∀ x y z, B x y → B y z → B x z) (reversed : Bool) {xs : List α}
    (told : (if reversed then xs.reverse else xs).Pairwise (MergeSort.Told less B)) :
    Succeeds (fun r => (if reversed then r.reverse else r).Pairwise B)
      (stableSort less reversed xs) := by
  cases reversed with
  | true =>
    refine ends_bind (MergeSort.sorted_ascending trans told) fun r hr => ?_
    change r.reverse.reverse.Pairwise B
    rwa [List.reverse_reverse]
  | false => exact MergeSort.sorted_ascending trans told

end LoopScript
