import LoopScript.Proofs.Computation
import LoopScript.Proofs.MergeSort.Permutation

/-!
Sorting corresponding lists gives corresponding lists if the comparisons answer alike: what a sort
does with its items depends on nothing else.
-/

namespace LoopScript

variable {ε α β : Type} {R : α → β → Prop}

theorem rel_getElem? {xs : List α} {ys : List β} (h : List.Forall₂ R xs ys) (i : Nat) :
    Option.Rel R xs[i]? ys[i]? := by
  induction h generalizing i with
  | nil => exact .none
  | cons hab _ ih =>
    cases i with
    | zero => exact .some hab
    | succ i => exact ih i

theorem rel_getLast? {xs : List α} {ys : List β} (h : List.Forall₂ R xs ys) :
    Option.Rel R xs.getLast? ys.getLast? := by
  rw [List.getLast?_eq_getElem?, List.getLast?_eq_getElem?, h.length_eq]
  exact rel_getElem? h _

theorem rel_insertIdx {xs : List α} {ys : List β} (h : List.Forall₂ R xs ys) (i : Nat) {x : α}
    {y : β} (hxy : R x y) : List.Forall₂ R (xs.insertIdx i x) (ys.insertIdx i y) := by
  induction h generalizing i with
  | nil =>
    cases i with
    | zero => exact .cons hxy .nil
    | succ i => exact .nil
  | cons hab h ih =>
    cases i with
    | zero => exact .cons hxy (.cons hab h)
    | succ i => exact .cons hab (ih i)

namespace MergeSort

section Search

variable {test : α → Except ε Bool} {test' : β → Except ε Bool}
  (ht : ∀ x y, R x y → test x = test' y) {xs : List α} {ys : List β} (h : List.Forall₂ R xs ys)

include ht h

theorem passes_congr (i : Nat) : passes test xs i = passes test' ys i := by
  unfold passes
  match xs[i]?, ys[i]?, rel_getElem? h i with
  | _, _, .none => rfl
  | _, _, .some hxy => exact ht _ _ hxy

theorem boundary_congr (side : Side) (low high : Nat) :
    boundary side test xs low high = boundary side test' ys low high := by
  fun_induction boundary side test xs low high with
  | case1 low high hl middle ih₁ ih₂ =>
    conv_rhs => rw [boundary, dif_pos hl]
    simp only [passes_congr ht h, ih₁, ih₂, middle]
  | case2 low high hl => rw [boundary, dif_neg hl]

theorem stride_congr (last next : Nat) : stride test xs last next = stride test' ys last next := by
  have found := rel_getElem? h
  fun_induction stride test xs last next with
  | case1 last next e =>
    conv_rhs => rw [stride]
    have same := found next
    split
    · rw [h.length_eq]
    · next y e' =>
      rw [e, e'] at same
      cases same
  | case2 last next x e ih =>
    conv_rhs => rw [stride]
    have same := found next
    split
    · next e' =>
      rw [e, e'] at same
      cases same
    · next y e' =>
      rw [e, e'] at same
      cases same with
      | some hxy => rw [ht _ _ hxy, ih]

theorem gallop_congr (side : Side) : gallop side test xs = gallop side test' ys := by
  simp only [gallop, passes_congr ht h, stride_congr ht h, boundary_congr ht h]

end Search

section Merge

variable {less : α → α → Except ε Bool} {less' : β → β → Except ε Bool}
  (hl : ∀ x y x' y', R x x' → R y y' → less x y = less' x' y')

/-- Merged items, with the patience that is left. -/
abbrev Merged (R : α → β → Prop) (p : List α × Nat) (q : List β × Nat) : Prop :=
  List.Forall₂ R p.1 q.1 ∧ p.2 = q.2

theorem remainder?_congr (side : Side) {xs ys : List α} {xs' ys' : List β}
    (hx : List.Forall₂ R xs xs') (hy : List.Forall₂ R ys ys') :
    Option.Rel (List.Forall₂ R) (side.remainder? xs ys) (side.remainder? xs' ys') := by
  cases hx with
  | nil => cases side <;> exact .some hy
  | cons hxx hx =>
    cases hy with
    | nil => cases side <;> exact .some (.cons hxx hx)
    | cons hyy hy =>
      have front := List.rel_append (.cons hyy hy) (.cons hxx .nil)
      have back := List.rel_append (.cons hxx hx) (.cons hyy .nil)
      cases hx <;> cases hy <;> cases side <;>
        first | exact .none | exact .some front | exact .some back

include hl

theorem leads_congr (side : Side) {x y : α} {x' y' : β} (hx : R x x') (hy : R y y') :
    side.leads less y x = side.leads less' y' x' := by
  simp only [Side.leads, hl _ _ _ _ hy hx]

theorem countBefore_congr (side : Side) {y : α} {y' : β} {xs : List α} {xs' : List β} (hy : R y y')
    (hx : List.Forall₂ R xs xs') : side.countBefore less y xs = side.countBefore less' y' xs' := by
  unfold Side.countBefore
  refine gallop_congr (fun x x' hx => ?_) hx side
  rw [leads_congr hl side hx hy]

theorem countLeading_congr (side : Side) {x : α} {x' : β} {ys : List α} {ys' : List β} (hx : R x x')
    (hy : List.Forall₂ R ys ys') :
    side.countLeading less x ys = side.countLeading less' x' ys' :=
  gallop_congr (fun _ _ hy => leads_congr hl side hx hy) hy side

theorem merge_congr (side : Side) (pace : Pace) (patience : Nat) {xs ys : List α} {xs' ys' : List β}
    (hx : List.Forall₂ R xs xs') (hy : List.Forall₂ R ys ys') :
    Concur (Merged R) (merge less side pace patience xs ys)
      (merge less' side pace patience xs' ys') := by
  have rest {xs ys : List α} {xs' ys' : List β} (hx : List.Forall₂ R xs xs')
      (hy : List.Forall₂ R ys ys') (e : side.remainder? xs ys = none) :
      side.remainder? xs' ys' = none := by
    have same := remainder?_congr side hx hy
    rw [e] at same
    cases e' : side.remainder? xs' ys' with
    | none => rfl
    | some zs =>
      rw [e'] at same
      cases same
  fun_induction merge less side pace patience xs ys generalizing xs' ys' with
  | case1 patience x xs y ys m n none ih₂ ih₁ =>
    have none' := rest hx hy none
    cases hx with
    | cons hxx hx =>
      cases hy with
      | cons hyy hy =>
        rw [merge.eq_def less']
        simp only [none, none', leads_congr hl side hxx hyy]
        refine concur_bind_same fun leads => ?_
        split
        · exact concur_bind (ih₂ (.cons hxx hx) hy) fun _ _ h => .ok ⟨.cons hyy h.1, h.2⟩
        · exact concur_bind (ih₁ hx (.cons hyy hy)) fun _ _ h => .ok ⟨.cons hxx h.1, h.2⟩
  | case2 patience x xs y ys none ih =>
    have none' := rest hx hy none
    cases hy with
    | cons hyy hy =>
      have counted := countBefore_congr hl side hyy hx
      cases hx with
      | cons hxx hx =>
        rw [merge.eq_def less']
        simp only [none, none', counted]
        refine concur_bind_same fun k => ?_
        have left := List.Forall₂.cons hxx hx
        refine concur_bind (ih k (List.forall₂_drop k left) hy) fun _ _ h => .ok ⟨?_, h.2⟩
        exact List.rel_append (List.forall₂_take k left) (.cons hyy h.1)
  | case3 patience x xs y ys k none ih =>
    have none' := rest hx hy none
    cases hx with
    | @cons _ x' _ xs' hxx hx =>
      have counted := countLeading_congr hl side hxx hy
      cases hy with
      | @cons _ y' _ ys' hyy hy =>
        rw [merge.eq_def less']
        simp only [none, none', counted]
        refine concur_bind_same fun l => ?_
        have right := List.Forall₂.cons hyy hy
        have left := List.forall₂_drop l right
        have last := remainder?_congr side hx left
        generalize side.remainder? xs ((y :: ys).drop l) = o,
          side.remainder? xs' ((y' :: ys').drop l) = o' at last ⊢
        cases last <;>
          exact concur_bind (ih l _ _ hx left) fun _ _ h =>
            .ok ⟨List.rel_append (List.forall₂_take l right) (.cons hxx h.1), h.2⟩
  | case4 pace patience xs ys more =>
    have same := remainder?_congr side hx hy
    cases e : side.remainder? xs ys with
    | some zs =>
      rw [e] at same
      rw [merge.eq_def less']
      cases e' : side.remainder? xs' ys' with
      | none =>
        rw [e'] at same
        cases same
      | some zs' =>
        rw [e'] at same
        cases same with
        | some h => exact .ok ⟨h, rfl⟩
    | none =>
      cases xs with
      | nil => cases side <;> cases e
      | cons x xs =>
        cases ys with
        | nil => cases side <;> cases e
        | cons y ys => exact (more x xs y ys e rfl rfl).elim

theorem mergeFrom_congr (side : Side) (patience : Nat) {xs ys : List α} {xs' ys' : List β}
    (hx : List.Forall₂ R xs xs') (hy : List.Forall₂ R ys ys') :
    Concur (Merged R) (mergeFrom less side patience xs ys)
      (mergeFrom less' side patience xs' ys') := by
  cases side with
  | front =>
    cases hy with
    | nil => exact .ok ⟨List.rel_append hx .nil, rfl⟩
    | cons hyy hy =>
      exact concur_bind (merge_congr hl .front _ patience hx hy) fun _ _ h =>
        .ok ⟨.cons hyy h.1, h.2⟩
  | back =>
    cases hx with
    | nil => exact .ok ⟨hy, rfl⟩
    | cons hxx hx =>
      exact concur_bind (merge_congr hl .back _ patience hx hy) fun _ _ h =>
        .ok ⟨.cons hxx h.1, h.2⟩

theorem mergeOverlap_congr (patience : Nat) {xs ys : List α} {xs' ys' : List β}
    (hx : List.Forall₂ R xs xs') (hy : List.Forall₂ R ys ys') :
    Concur (Merged R) (mergeOverlap less patience xs ys) (mergeOverlap less' patience xs' ys') := by
  unfold mergeOverlap
  rw [hx.length_eq, hy.length_eq]
  split
  · exact mergeFrom_congr hl .front patience hx hy
  · have reversed := mergeFrom_congr hl .back patience (List.rel_reverse hx) (List.rel_reverse hy)
    exact concur_bind reversed fun _ _ h => .ok ⟨List.rel_reverse h.1, h.2⟩

theorem mergeRuns_congr (patience : Nat) {xs ys : List α} {xs' ys' : List β}
    (hx : List.Forall₂ R xs xs') (hy : List.Forall₂ R ys ys') :
    Concur (Merged R) (mergeRuns less patience xs ys) (mergeRuns less' patience xs' ys') := by
  unfold mergeRuns
  cases hy with
  | nil => exact .ok ⟨hx, rfl⟩
  | @cons y y' ys ys' hyy hy =>
    have later := List.Forall₂.cons hyy hy
    dsimp only
    rw [countBefore_congr hl .front hyy hx]
    refine concur_bind_same fun k => ?_
    match (xs.drop k).getLast?, (xs'.drop k).getLast?, rel_getLast? (List.forall₂_drop k hx) with
    | _, _, .none => exact .ok ⟨List.rel_append hx later, rfl⟩
    | _, _, .some hxx =>
      dsimp only
      rw [countLeading_congr hl .back hxx (List.rel_reverse later), later.length_eq]
      refine concur_bind_same fun n => ?_
      refine concur_bind (mergeOverlap_congr hl patience (List.forall₂_drop k hx)
        (List.forall₂_take _ later)) fun _ _ h => .ok ⟨?_, h.2⟩
      exact List.rel_append (List.rel_append (List.forall₂_take k hx) h.1)
        (List.forall₂_drop _ later)

end Merge

section Runs

variable {less : α → α → Except ε Bool} {less' : β → β → Except ε Bool}
  (hl : ∀ x y x' y', R x x' → R y y' → less x y = less' x' y')

abbrev Waits (R : α → β → Prop) : Waiting α → Waiting β → Prop :=
  List.Forall₂ (Merged R)

include hl

theorem insert_congr {xs : List α} {xs' : List β} (hx : List.Forall₂ R xs xs') {x : α} {x' : β}
    (hxx : R x x') : Concur (List.Forall₂ R) (insert less xs x) (insert less' xs' x') := by
  unfold insert
  rw [hx.length_eq, boundary_congr (fun y y' hyy => ?_) hx .front]
  · exact concur_bind_same fun i => .ok (rel_insertIdx hx i hxx)
  · rw [hl _ _ _ _ hxx hyy]

theorem runLength_congr (falling : Bool) {x : α} {x' : β} (hxx : R x x') {xs : List α}
    {xs' : List β} (hx : List.Forall₂ R xs xs') :
    runLength less falling x xs = runLength less' falling x' xs' := by
  induction hx generalizing x x' with
  | nil => rfl
  | cons hyy _ ih => simp only [runLength, hl _ _ _ _ hyy hxx, ih hyy]

theorem runFrom_congr {x : α} {x' : β} (hxx : R x x') {xs : List α} {xs' : List β}
    (hx : List.Forall₂ R xs xs') : runFrom less x xs = runFrom less' x' xs' := by
  cases hx with
  | nil => rfl
  | cons hyy hx => simp only [runFrom, hl _ _ _ _ hyy hxx, runLength_congr hl _ hyy hx]

theorem collapse_congr (limit patience : Nat) {run : List α} {run' : List β}
    (hr : List.Forall₂ R run run') {waiting : Waiting α} {waiting' : Waiting β}
    (hw : Waits R waiting waiting') :
    Concur (fun p q => List.Forall₂ R p.1 q.1 ∧ Waits R p.2.1 q.2.1 ∧ p.2.2 = q.2.2)
      (collapse less limit patience run waiting) (collapse less' limit patience run' waiting') := by
  induction hw generalizing patience run run' with
  | nil => exact .ok ⟨hr, .nil, rfl⟩
  | @cons w w' _ _ hww hw ih =>
    obtain ⟨before, d⟩ := w
    obtain ⟨before', d'⟩ := w'
    obtain ⟨hb, rfl⟩ := hww
    simp only [collapse]
    split
    · refine concur_bind (mergeRuns_congr hl patience hb hr) ?_
      rintro ⟨r, n⟩ ⟨r', n'⟩ ⟨h, rfl⟩
      exact ih n h
    · exact .ok ⟨hr, .cons ⟨hb, rfl⟩ hw, rfl⟩

theorem push_congr (total patience : Nat) {run : List α} {run' : List β}
    (hr : List.Forall₂ R run run') {waiting : Waiting α} {waiting' : Waiting β}
    (hw : Waits R waiting waiting') :
    Concur (fun p q => Waits R p.1 q.1 ∧ p.2 = q.2) (push less total patience run waiting)
      (push less' total patience run' waiting') := by
  cases hw with
  | nil => exact .ok ⟨.cons ⟨hr, rfl⟩ .nil, rfl⟩
  | @cons w w' rest rest' hww hw =>
    obtain ⟨last, d⟩ := w
    obtain ⟨last', d'⟩ := w'
    obtain ⟨hlast, -⟩ := hww
    have start : rest.foldl (fun n w => n + w.1.length) 0 =
        rest'.foldl (fun n w => n + w.1.length) 0 := by
      refine List.rel_foldl (P := Eq) ?_ rfl hw
      rintro n _ rfl w w' hww
      exact congrArg (n + ·) hww.1.length_eq
    simp only [push, start, hlast.length_eq, hr.length_eq]
    refine concur_bind (collapse_congr hl _ patience hlast hw) ?_
    rintro ⟨r, w, n⟩ ⟨r', w', n'⟩ ⟨h, hw, rfl⟩
    exact .ok ⟨.cons ⟨hr, rfl⟩ (.cons ⟨h, rfl⟩ hw), rfl⟩

theorem pushRuns_congr (total least patience : Nat) {waiting : Waiting α} {waiting' : Waiting β}
    (hw : Waits R waiting waiting') {xs : List α} {xs' : List β} (hx : List.Forall₂ R xs xs') :
    Concur (fun p q => Waits R p.1 q.1 ∧ p.2 = q.2)
      (pushRuns less total least patience waiting xs)
      (pushRuns less' total least patience waiting' xs') := by
  fun_induction pushRuns less total least patience waiting xs generalizing xs' waiting' with
  | case1 patience waiting =>
    cases hx
    rw [pushRuns]
    exact .ok ⟨hw, rfl⟩
  | case2 patience waiting x xs ih =>
    cases hx with
    | cons hxx hx =>
      rw [pushRuns, runFrom_congr hl hxx hx]
      refine concur_bind_same fun found => ?_
      obtain ⟨falling, n⟩ := found
      have natural := List.Forall₂.cons hxx (List.forall₂_take n hx)
      have rest := List.forall₂_drop n (List.forall₂_take (max n (least - 1)) hx)
      refine concur_bind (concur_foldlM (Q := List.Forall₂ R) rest ?_
        fun _ _ _ _ hr hy => insert_congr hl hr hy) fun run run' hr => ?_
      · cases falling with
        | true => exact List.rel_reverse natural
        | false => exact natural
      refine concur_bind (push_congr hl total patience hr hw) ?_
      rintro ⟨w, m⟩ ⟨w', _⟩ ⟨hw, rfl⟩
      exact ih n w m hw (List.forall₂_drop _ hx)

theorem mergeAll_congr (patience : Nat) {runs : List (List α)} {runs' : List (List β)}
    (h : List.Forall₂ (List.Forall₂ R) runs runs') :
    Concur (List.Forall₂ R) (mergeAll less patience runs) (mergeAll less' patience runs') := by
  fun_induction mergeAll less patience runs generalizing runs' with
  | case1 =>
    cases h
    rw [mergeAll]
    exact .ok .nil
  | case2 patience run =>
    obtain ⟨run', _, hr, hn, rfl⟩ := List.forall₂_cons_left_iff.mp h
    cases hn
    rw [mergeAll.eq_def]
    exact .ok hr
  | case3 patience last before =>
    obtain ⟨last', _, hl', hm, rfl⟩ := List.forall₂_cons_left_iff.mp h
    obtain ⟨before', _, hb, hn, rfl⟩ := List.forall₂_cons_left_iff.mp hm
    cases hn
    rw [mergeAll]
    exact concur_bind (mergeRuns_congr hl patience hb hl') fun _ _ h => .ok h.1
  | case4 patience last before first waiting short ih =>
    obtain ⟨last', _, hl', hm, rfl⟩ := List.forall₂_cons_left_iff.mp h
    obtain ⟨before', _, hb, hn, rfl⟩ := List.forall₂_cons_left_iff.mp hm
    obtain ⟨first', waiting', hf, hw, rfl⟩ := List.forall₂_cons_left_iff.mp hn
    rw [mergeAll, if_pos (by rwa [← hf.length_eq, ← hl'.length_eq])]
    refine concur_bind (mergeRuns_congr hl patience hf hb) ?_
    rintro ⟨run, m⟩ ⟨run', _⟩ ⟨hr, rfl⟩
    exact ih run m (.cons hl' (.cons hr hw))
  | case5 patience last before first waiting long ih =>
    obtain ⟨last', _, hl', hm, rfl⟩ := List.forall₂_cons_left_iff.mp h
    obtain ⟨before', _, hb, hn, rfl⟩ := List.forall₂_cons_left_iff.mp hm
    obtain ⟨first', waiting', hf, hw, rfl⟩ := List.forall₂_cons_left_iff.mp hn
    rw [mergeAll, if_neg (by rwa [← hf.length_eq, ← hl'.length_eq])]
    refine concur_bind (mergeRuns_congr hl patience hb hl') ?_
    rintro ⟨run, m⟩ ⟨run', _⟩ ⟨hr, rfl⟩
    exact ih run m (.cons hr (.cons hf hw))

theorem ascending_congr {xs : List α} {xs' : List β} (hx : List.Forall₂ R xs xs') :
    Concur (List.Forall₂ R) (ascending less xs) (ascending less' xs') := by
  unfold ascending
  rw [hx.length_eq]
  refine concur_bind (pushRuns_congr hl _ _ _ .nil hx) ?_
  rintro ⟨w, n⟩ ⟨w', n'⟩ ⟨h, rfl⟩
  exact mergeAll_congr hl n (List.rel_map (fun _ _ hw => hw.1) h)

end Runs

end MergeSort

theorem stableSort_congr {less : α → α → Except ε Bool} {less' : β → β → Except ε Bool}
    (hl : ∀ x y x' y', R x x' → R y y' → less x y = less' x' y') (reversed : Bool) {xs : List α}
    {xs' : List β} (hx : List.Forall₂ R xs xs') :
    Concur (List.Forall₂ R) (stableSort less reversed xs) (stableSort less' reversed xs') := by
  unfold stableSort
  split
  · exact concur_bind (MergeSort.ascending_congr hl (List.rel_reverse hx)) fun _ _ h =>
      .ok (List.rel_reverse h)
  · exact MergeSort.ascending_congr hl hx

end LoopScript
