import LoopScript.Machine.Step
import LoopScript.Proofs.MergeSort.Permutation
import LoopScript.Proofs.Value.Faults
import Mathlib.Tactic.Linarith

/-!
What the functions of the language and the passing of arguments give and fail with.
-/

namespace LoopScript

variable {L N : Prop} {σ : Type}

theorem natAbs_of_mem_rangeOf {start stop step i : Int} {b : Nat} (hs : start.natAbs ≤ b)
    (ht : stop.natAbs ≤ b) (hi : i ∈ rangeOf start stop step) : i.natAbs ≤ b := by
  obtain ⟨k, hk, rfl⟩ := List.mem_map.mp hi
  rw [List.mem_range] at hk
  split at hk
  · next h =>
    have last : ((k : Int) + 1) * step ≤ stop - start + step - 1 :=
      (Int.le_ediv_iff_mul_le h).mp (by omega)
    have first : 0 ≤ (k : Int) * step := Int.mul_nonneg (by omega) (by omega)
    rw [Int.add_mul] at last
    omega
  · next h =>
    by_cases hz : step = 0
    · rw [hz, Int.mul_zero]
      omega
    have last : ((k : Int) + 1) * -step ≤ start - stop - step - 1 :=
      (Int.le_ediv_iff_mul_le (by omega)).mp (by omega)
    have first : 0 ≤ (k : Int) * -step := Int.mul_nonneg (by omega) (by omega)
    rw [Int.add_mul] at last
    rw [Int.mul_neg] at first last
    omega

namespace Store

variable (s : Store)

/-- How many items or characters a value has. -/
def size? (s : Store) (v : Value) : Option Nat :=
  match v, s.object? v with
  | .str t, _ => some t.length
  | _, some (.list xs) => some xs.length
  | _, some (.dict es) => some es.length
  | _, _ => none

/-- A value that has more items than the largest float can count. -/
def Exceeds (s : Store) (v : Value) : Prop :=
  ∃ n, s.size? v = some n ∧ Decimal.limit ≤ n

theorem raises_lengthOf (v : Value) : Raises (Fault.Plain (s.Exceeds v)) (s.lengthOf v) := by
  have few {n : Nat} (h : s.size? v = some n) : Raises (Fault.Plain (s.Exceeds v)) (floatOfInt n) := by
    apply raises_floatOfInt
    intro none
    by_cases hn : n < Decimal.limit
    · have some := Decimal.ofInt?_isSome (i := n) hn
      rw [none] at some
      cases some
    · exact ⟨n, h, Nat.le_of_not_lt hn⟩
  unfold lengthOf
  split
  · exact few rfl
  · next xs hx h => exact few (by simp only [size?, h])
  · next es hx h => exact few (by simp only [size?, h])
  · exact ends_cause rfl

theorem raises_expectNumber {v : Value} (hv : v.Native N) (rule : String) :
    Raises (Fault.Plain ¬N) (s.expectNumber rule v) := by
  unfold expectNumber
  split
  · next h => exact raises_float? hv h
  · exact ends_cause rfl

theorem ends_best (rule : String) (beats : Ordering) (items : List Value) :
    (∀ x ∈ items, x.Native N) → Ends (Value.Native N) (Fault.Plain L)
      (match items with
        | [] => .error (.of (.emptySequence rule))
        | x :: xs =>
          xs.foldlM (fun best y => return if (← s.compare y best) == beats then y else best) x) := by
  intro hx
  split
  · exact ends_cause rfl
  · next x xs =>
    refine ends_foldlM xs (hx x List.mem_cons_self) fun best hb y hy => ?_
    refine ends_bind (s.raises_compare y best) fun o _ => ?_
    split
    · exact hx y (List.mem_cons_of_mem x hy)
    · exact hb

theorem ends_extreme (hs : s.Native N) (rule : String) (beats : Ordering) {args : List Value}
    (ha : ∀ v ∈ args, v.Native N) :
    Ends (Value.Native N) (Fault.Plain L) (s.extreme rule beats args) := by
  unfold extreme
  dsimp only
  split
  · exact ends_bind (s.ends_items hs _) (s.ends_best rule beats)
  · exact s.ends_best rule beats args ha

theorem ends_rangeItems {args : List Value} (ha : ∀ v ∈ args, v.Native N) :
    Ends (fun xs => ∀ x ∈ xs, x.Native N) (Fault.Plain ¬N) (s.rangeItems args) := by
  have made {start stop step : Int} (h : start.natAbs ≤ Decimal.largest)
      (h' : stop.natAbs ≤ Decimal.largest) :
      Ends (fun xs : List Value => ∀ x ∈ xs, x.Native N) (Fault.Plain ¬N)
        (if step = 0 then .error (.of .zeroStep)
          else (rangeOf start stop step).mapM fun i => return Value.num (← floatOfInt i)) := by
    split
    · exact ends_cause rfl
    · refine ends_mapM _ fun i hi => ?_
      have small := (natAbs_of_mem_rangeOf h h' hi).trans (Nat.le_add_right _ 1)
      exact ends_bind (raises_floatOfInt_of_le small) fun x _ => native_num x
  refine ends_bind (ends_mapM args fun v hv => s.ends_toInt (ha v hv) "range") fun bounds hb => ?_
  match bounds with
  | [] => exact made (Nat.zero_le _) (Nat.zero_le _)
  | [stop] => exact made (Nat.zero_le _) (hb stop (by simp))
  | [start, stop] => exact made (hb start (by simp)) (hb stop (by simp))
  | start :: stop :: step :: _ => exact made (hb start (by simp)) (hb stop (by simp))

theorem raises_sumOf (hs : s.Native N) (v : Value) : Raises (Fault.Plain ¬N) (s.sumOf v) := by
  refine ends_bind (s.ends_items hs v) fun xs hx => ?_
  refine ends_foldlM xs trivial fun total _ x h => ?_
  exact ends_bind (s.raises_expectNumber (hx x h) "sum") fun _ _ => trivial

theorem raises_duration {v : Value} (hv : v.Native N) : Raises (Fault.Plain ¬N) (s.duration v) := by
  refine ends_bind (s.raises_expectNumber hv "sleep") fun x _ => ?_
  split
  · exact ends_cause rfl
  · trivial

theorem ends_sortBy (reversed : Bool) (keys : List Value) {items : List Value}
    (hi : ∀ v ∈ items, v.Native N) :
    Ends (fun xs => ∀ x ∈ xs, x.Native N) (Fault.Plain L) (s.sortBy reversed keys items) := by
  have less (p q : Value × Value) : Raises (Fault.Plain L) (do
      return (← s.compare p.1 q.1) == Ordering.lt) :=
    ends_bind (s.raises_compare p.1 q.1) fun _ _ => trivial
  refine ends_bind (ends_stableSort less reversed _) fun pairs hp => ?_
  intro x hx
  obtain ⟨p, hm, rfl⟩ := List.mem_map.mp hx
  exact hi _ (List.of_mem_zip (hp.mem_iff.mp hm)).2

end Store

theorem ends_bindNamed (callee : String) (open_ : List String) {bound : Table String Value}
    {named : List (String × Value)} (hb : ∀ e ∈ bound, e.2.Native N)
    (hn : ∀ e ∈ named, e.2.Native N) :
    Ends (fun t => ∀ e ∈ t, e.2.Native N) (Fault.Plain L) (bindNamed callee open_ bound named) := by
  induction named generalizing bound with
  | nil => exact hb
  | cons e named ih =>
    obtain ⟨he, hn⟩ := List.forall_mem_cons.mp hn
    simp only [bindNamed]
    split
    · exact ends_cause rfl
    · split
      · exact ends_cause rfl
      · exact ih (Table.values_put hb he) hn

theorem ends_bindArguments (callee : String) (params : List String) {args : List Value}
    {named : Table String Value} (implicit : Nat) (ha : ∀ v ∈ args, v.Native N)
    (hn : ∀ e ∈ named, e.2.Native N) :
    Ends (fun t => ∀ e ∈ t, e.2.Native N) (Fault.Plain L)
      (bindArguments callee params args named implicit) := by
  unfold bindArguments
  split
  · exact ends_cause rfl
  · have given : ∀ e ∈ Table.ofList (params.zip args), e.2.Native N := by
      apply Table.values_ofList
      exact fun e he => ha _ (List.of_mem_zip he).2
    refine ends_bind (ends_bindNamed callee _ given hn) fun bound hb => ?_
    split
    · exact ends_cause rfl
    · exact hb

theorem Builtin.raises_keywordsOf (b : Builtin σ) (keys : List String) :
    Raises (Fault.Plain L) (accepts.keywordsOf b keys) := by
  induction keys with
  | nil => trivial
  | cons key keys ih =>
    simp only [accepts.keywordsOf]
    split
    · exact ih
    · exact ends_cause rfl

theorem Builtin.ends_accepts (b : Builtin σ) (c : Call) :
    Ends (fun _ => b.least ≤ c.args.length) (Fault.Plain L) (b.accepts c) := by
  unfold accepts
  split
  · exact ends_cause rfl
  · next h =>
    have enough := Nat.le_of_not_lt h
    have keys : Ends (fun _ => b.least ≤ c.args.length) (Fault.Plain L)
        (accepts.keywordsOf b c.named.keys) :=
      (b.raises_keywordsOf _).mono (fun _ _ => enough) fun _ h => h
    split
    · split
      · exact ends_cause rfl
      · exact keys
    · exact keys

end LoopScript
