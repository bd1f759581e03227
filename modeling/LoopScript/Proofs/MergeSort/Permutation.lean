import LoopScript.MergeSort
import LoopScript.Proofs.Value.Ends
import Mathlib.Data.List.Perm.Basic

/-!
A sort puts the items of a list into another order: it loses none and makes none, whatever the
comparisons answer. It fails only if a comparison does.
-/

namespace LoopScript

namespace MergeSort

variable {α : Type} {E : Fault → Prop}

section Search

variable {test : α → Except Fault Bool} (ht : ∀ x, Raises E (test x))

include ht

theorem raises_passes (xs : List α) (i : Nat) : Raises E (passes test xs i) := by
  unfold passes
  split
  · exact ht _
  · trivial

theorem ends_boundary (side : Side) (xs : List α) (low high : Nat) :
    Ends (· ≤ max low high) E (boundary side test xs low high) := by
  fun_induction boundary side test xs low high with
  | case1 low high h middle ih₁ ih₂ =>
    have hm : middle < high := by
      cases side <;> simp only [middle, Side.middle] <;> omega
    refine ends_bind (raises_passes ht xs middle) fun pass _ => ?_
    split
    · exact ih₁.mono (fun i hi => by omega) fun _ h => h
    · exact ih₂.mono (fun i hi => by omega) fun _ h => h
  | case2 low high h => exact Nat.le_max_left low high

theorem raises_stride (xs : List α) (last next : Nat) : Raises E (stride test xs last next) := by
  fun_induction stride test xs last next with
  | case1 => trivial
  | case2 last next x h ih =>
    refine ends_bind (ht x) fun pass _ => ?_
    split
    · exact ih
    · trivial

theorem raises_gallop (side : Side) (xs : List α) : Raises E (gallop side test xs) := by
  refine ends_bind (raises_passes ht xs 0) fun pass _ => ?_
  split
  · refine ends_bind (raises_stride ht xs 0 1) fun places _ => ?_
    exact (ends_boundary ht side xs _ _).mono (fun _ _ => trivial) fun _ h => h
  · trivial

end Search

section Lists

variable {xs ys zs : List α} {x y : α} {k : Nat}

theorem perm_take_append (h : zs.Perm (xs.drop k ++ ys)) :
    (xs.take k ++ y :: zs).Perm (xs ++ y :: ys) :=
  calc (xs.take k ++ y :: zs).Perm (xs.take k ++ y :: (xs.drop k ++ ys)) := (h.cons y).append_left _
    (xs.take k ++ y :: (xs.drop k ++ ys)).Perm (xs.take k ++ (xs.drop k ++ y :: ys)) :=
      List.perm_middle.symm.append_left _
    _ = xs ++ y :: ys := by rw [← List.append_assoc, List.take_append_drop]

theorem perm_take_cons (h : zs.Perm (xs ++ ys.drop k)) :
    (ys.take k ++ x :: zs).Perm (x :: xs ++ ys) :=
  calc (ys.take k ++ x :: zs).Perm (ys.take k ++ x :: (xs ++ ys.drop k)) := (h.cons x).append_left _
    (ys.take k ++ (x :: xs ++ ys.drop k)).Perm (x :: xs ++ (ys.take k ++ ys.drop k)) :=
      List.perm_append_comm_assoc _ _ _
    _ = x :: xs ++ ys := by rw [List.take_append_drop]

theorem perm_remainder {side : Side} (h : side.remainder? xs ys = some zs) : zs.Perm (xs ++ ys) := by
  unfold Side.remainder? at h
  split at h
  · exact Option.some.inj h ▸ .refl _
  · rw [← Option.some.inj h, List.append_nil]
  · exact Option.some.inj h ▸ List.perm_append_comm
  · exact Option.some.inj h ▸ .refl _
  · cases h

end Lists

section Merge

variable {less : α → α → Except Fault Bool} (hl : ∀ x y, Raises E (less x y))

include hl

theorem raises_leads (side : Side) (y x : α) : Raises E (side.leads less y x) :=
  ends_bind (hl y x) fun _ _ => trivial

theorem raises_countBefore (side : Side) (y : α) (xs : List α) :
    Raises E (side.countBefore less y xs) := by
  apply raises_gallop
  intro x
  exact ends_bind (raises_leads hl side y x) fun _ _ => trivial

theorem raises_countLeading (side : Side) (x : α) (ys : List α) :
    Raises E (side.countLeading less x ys) :=
  raises_gallop (fun y => raises_leads hl side y x) side ys

theorem ends_merge (side : Side) (pace : Pace) (patience : Nat) (xs ys : List α) :
    Ends (fun r => r.1.Perm (xs ++ ys)) E (merge less side pace patience xs ys) := by
  fun_induction merge less side pace patience xs ys with
  | case1 patience x xs y ys m n none ih₂ ih₁ =>
    simp only [none]
    refine ends_bind (raises_leads hl side y x) fun leads _ => ?_
    split
    · exact ends_bind ih₂ fun r hr => (hr.cons y).trans List.perm_middle.symm
    · exact ends_bind ih₁ fun r hr => hr.cons x
  | case2 patience x xs y ys none ih =>
    simp only [none]
    refine ends_bind (raises_countBefore hl side y _) fun k _ => ?_
    exact ends_bind (ih k) fun r hr => perm_take_append hr
  | case3 patience x xs y ys k none ih =>
    simp only [none]
    refine ends_bind (raises_countLeading hl side x _) fun l _ => ?_
    exact ends_bind (ih l _ _) fun r hr => perm_take_cons hr
  | case4 pace patience xs ys more =>
    cases h : side.remainder? xs ys with
    | some rest => exact perm_remainder h
    | none =>
      cases xs with
      | nil => cases side <;> cases h
      | cons x xs =>
        cases ys with
        | nil => cases side <;> cases h
        | cons y ys => exact (more x xs y ys h rfl rfl).elim

theorem ends_mergeFrom (side : Side) (patience : Nat) (xs ys : List α) :
    Ends (fun r => r.1.Perm (xs ++ ys)) E (mergeFrom less side patience xs ys) := by
  unfold mergeFrom
  split
  · exact ends_bind (ends_merge hl _ _ _ _ _) fun r hr => (hr.cons _).trans List.perm_middle.symm
  · exact ends_bind (ends_merge hl _ _ _ _ _) fun r hr => hr.cons _
  · exact List.Perm.refl _

theorem ends_mergeOverlap (patience : Nat) (xs ys : List α) :
    Ends (fun r => r.1.Perm (xs ++ ys)) E (mergeOverlap less patience xs ys) := by
  unfold mergeOverlap
  split
  · exact ends_mergeFrom hl _ _ _ _
  · refine ends_bind (ends_mergeFrom hl _ _ _ _) fun r hr => ?_
    calc r.1.reverse.Perm r.1 := List.reverse_perm _
      r.1.Perm (xs.reverse ++ ys.reverse) := hr
      (xs.reverse ++ ys.reverse).Perm (xs ++ ys) :=
        (List.reverse_perm xs).append (List.reverse_perm ys)

theorem ends_mergeRuns (patience : Nat) (earlier later : List α) :
    Ends (fun r => r.1.Perm (earlier ++ later)) E (mergeRuns less patience earlier later) := by
  unfold mergeRuns
  split
  · exact (List.append_nil earlier).symm ▸ List.Perm.refl _
  · next y ys =>
    refine ends_bind (raises_countBefore hl _ y earlier) fun k _ => ?_
    split
    · exact List.Perm.refl _
    · next x _ =>
      refine ends_bind (raises_countLeading hl _ x _) fun l _ => ?_
      refine ends_bind (ends_mergeOverlap hl _ _ _) fun r hr => ?_
      generalize (y :: ys).length - l = n at hr ⊢
      generalize y :: ys = later at hr ⊢
      calc (earlier.take k ++ r.1 ++ later.drop n).Perm
            (earlier.take k ++ (earlier.drop k ++ later.take n) ++ later.drop n) :=
          (hr.append_left _).append_right _
        _ = earlier ++ later := by
          rw [← List.append_assoc, List.take_append_drop, List.append_assoc, List.take_append_drop]

end Merge

section Runs

variable {less : α → α → Except Fault Bool} (hl : ∀ x y, Raises E (less x y))

include hl

theorem ends_insert (sorted : List α) (x : α) :
    Ends (·.Perm (x :: sorted)) E (insert less sorted x) := by
  refine ends_bind (ends_boundary (fun y => ?_) .front sorted 0 sorted.length) fun i hi => ?_
  · exact ends_bind (hl x y) fun _ _ => trivial
  · exact List.perm_insertIdx x sorted (by omega)

theorem raises_runLength (falling : Bool) (last : α) (xs : List α) :
    Raises E (runLength less falling last xs) := by
  induction xs generalizing last with
  | nil => trivial
  | cons x xs ih =>
    refine ends_bind (hl x last) fun b _ => ?_
    split
    · exact ends_bind (ih x) fun _ _ => trivial
    · trivial

theorem raises_runFrom (x : α) (xs : List α) : Raises E (runFrom less x xs) := by
  cases xs with
  | nil => trivial
  | cons y ys =>
    refine ends_bind (hl y x) fun falling _ => ?_
    exact ends_bind (raises_runLength hl falling y ys) fun _ _ => trivial

theorem ends_insertAll (sorted xs : List α) :
    Ends (·.Perm (sorted ++ xs)) E (xs.foldlM (insert less) sorted) := by
  induction xs generalizing sorted with
  | nil => exact (List.append_nil sorted).symm ▸ List.Perm.refl _
  | cons x xs ih =>
    rw [List.foldlM_cons]
    refine ends_bind (ends_insert hl sorted x) fun more hm => ?_
    refine (ih more).mono (fun r hr => hr.trans ?_) fun _ h => h
    exact (hm.append_right xs).trans List.perm_middle.symm

/-- The items of runs that wait, the last run first. -/
def Waiting.items (waiting : Waiting α) : List α := waiting.flatMap (·.1)

theorem ends_collapse (limit patience : Nat) (run : List α) (waiting : Waiting α) :
    Ends (fun r => (r.1 ++ Waiting.items r.2.1).Perm (run ++ waiting.items)) E
      (collapse less limit patience run waiting) := by
  induction waiting generalizing run patience with
  | nil => exact List.Perm.refl _
  | cons w waiting ih =>
    obtain ⟨before, d⟩ := w
    unfold collapse
    split
    · refine ends_bind (ends_mergeRuns hl patience before run) fun r hr => ?_
      refine (ih r.2 r.1).mono (fun s hs => hs.trans ?_) fun _ h => h
      calc (r.1 ++ Waiting.items waiting).Perm (before ++ run ++ Waiting.items waiting) := hr.append_right _
        (before ++ run ++ Waiting.items waiting).Perm (run ++ before ++ Waiting.items waiting) :=
          List.perm_append_comm.append_right _
        _ = run ++ Waiting.items ((before, d) :: waiting) := List.append_assoc _ _ _
    · exact List.Perm.refl _

theorem ends_push (total patience : Nat) (run : List α) (waiting : Waiting α) :
    Ends (fun r => (Waiting.items r.1).Perm (run ++ waiting.items)) E
      (push less total patience run waiting) := by
  cases waiting with
  | nil => exact List.Perm.refl _
  | cons w waiting =>
    exact ends_bind (ends_collapse hl _ patience w.1 waiting) fun r hr => hr.append_left run

theorem ends_pushRuns (total least patience : Nat) (waiting : Waiting α) (xs : List α) :
    Ends (fun r => (Waiting.items r.1).Perm (waiting.items ++ xs)) E
      (pushRuns less total least patience waiting xs) := by
  fun_induction pushRuns less total least patience waiting xs with
  | case1 patience waiting => exact (List.append_nil _).symm ▸ List.Perm.refl _
  | case2 patience waiting x xs ih =>
    refine ends_bind (raises_runFrom hl x xs) fun r _ => ?_
    obtain ⟨falling, n⟩ := r
    have natural : (if falling then (x :: xs.take n).reverse else x :: xs.take n).Perm
        (x :: xs.take n) := by
      split
      · exact List.reverse_perm _
      · exact List.Perm.refl _
    refine ends_bind (ends_insertAll hl _ _) fun run hr => ?_
    refine ends_bind (ends_push hl total patience run waiting) fun pushed hp => ?_
    refine (ih n pushed.1 pushed.2).mono (fun r h => h.trans ?_) fun _ h => h
    -- A natural run that is short takes more items of the list, up to the least length of a run.
    generalize hm : max n (least - 1) = more at hr ⊢
    calc (pushed.1.items ++ xs.drop more).Perm (run ++ waiting.items ++ xs.drop more) :=
        hp.append_right _
      (run ++ waiting.items ++ xs.drop more).Perm
          (x :: xs.take n ++ (xs.take more).drop n ++ waiting.items ++ xs.drop more) :=
        ((hr.trans (natural.append_right _)).append_right _).append_right _
      _ = x :: xs.take more ++ waiting.items ++ xs.drop more := by
        have split : xs.take n ++ (xs.take more).drop n = xs.take more := by
          conv_rhs =>
            rw [← List.take_append_drop n (xs.take more), List.take_take, Nat.min_eq_left (by omega)]
        rw [List.cons_append, split]
      (x :: xs.take more ++ waiting.items ++ xs.drop more).Perm
          (waiting.items ++ x :: xs.take more ++ xs.drop more) :=
        List.perm_append_comm.append_right _
      _ = waiting.items ++ x :: xs := by
        rw [List.append_assoc, List.cons_append, List.take_append_drop]

theorem ends_mergeAll (patience : Nat) (runs : List (List α)) :
    Ends (·.Perm runs.flatten) E (mergeAll less patience runs) := by
  fun_induction mergeAll less patience runs with
  | case1 => exact List.Perm.refl _
  | case2 patience run =>
    change run.Perm (run ++ [])
    rw [List.append_nil]
  | case3 patience last before =>
    refine ends_bind (ends_mergeRuns hl patience before last) fun r hr => ?_
    change r.1.Perm (last ++ (before ++ []))
    rw [List.append_nil]
    exact hr.trans List.perm_append_comm
  | case4 patience last before first waiting short ih =>
    refine ends_bind (ends_mergeRuns hl patience first before) fun r hr => ?_
    refine (ih r.1 r.2).mono (fun s hs => hs.trans ?_) fun _ h => h
    simp only [List.flatten_cons, ← List.append_assoc before]
    exact ((hr.trans List.perm_append_comm).append_right _).append_left last
  | case5 patience last before first waiting long ih =>
    refine ends_bind (ends_mergeRuns hl patience before last) fun r hr => ?_
    refine (ih r.1 r.2).mono (fun s hs => hs.trans ?_) fun _ h => h
    simp only [List.flatten_cons, ← List.append_assoc last]
    exact (hr.trans List.perm_append_comm).append_right _

theorem ends_ascending (xs : List α) : Ends (·.Perm xs) E (ascending less xs) := by
  refine ends_bind (ends_pushRuns hl _ _ _ [] xs) fun r hr => ?_
  exact (ends_mergeAll hl r.2 _).mono (fun _ h => h.trans hr) fun _ h => h

end Runs

end MergeSort

/-- A sort gives the items of the list in some order. -/
theorem ends_stableSort {α : Type} {E : Fault → Prop} {less : α → α → Except Fault Bool}
    (hl : ∀ x y, Raises E (less x y)) (reversed : Bool) (xs : List α) :
    Ends (·.Perm xs) E (stableSort less reversed xs) := by
  unfold stableSort
  split
  · refine ends_bind (MergeSort.ends_ascending hl xs.reverse) fun r hr => ?_
    exact (List.reverse_perm r).trans (hr.trans (List.reverse_perm xs))
  · exact MergeSort.ends_ascending hl xs

end LoopScript
