import LoopScript.Proofs.Decimal.Range
import LoopScript.Proofs.Value.Ends
import LoopScript.Proofs.Value.Native
import LoopScript.Value.Operators

/-!
What computations on values fail with. On native values that is an error of the language or a nesting
without end; only the bitwise operators can come to a whole number that has no float.
-/

namespace LoopScript

/-- The causes that belong to the language, and not to its host. -/
def Cause.isOwn : Cause → Bool
  | hookFailed .. | stepRuleFailed _ | internal _ | host .. => false
  | _ => true

/-- The fault of a whole number that has no float. -/
def Fault.tooLarge : Fault := .foreign "int too large to convert to float"

/-- The faults of computations on values. Errors have no place yet, and a whole number is too large
only if `L`. -/
inductive Fault.Plain (L : Prop) : Fault → Prop where
  | error {c : Cause} (h : c.isOwn = true) : Plain L (.of c)
  | endless : Plain L .endless
  | large (h : L) : Plain L tooLarge

theorem Fault.Plain.mono {L M : Prop} {f : Fault} (h : f.Plain L) (hm : L → M) : f.Plain M := by
  cases h with
  | error h => exact .error h
  | endless => exact .endless
  | large h => exact .large (hm h)

/-- How the bitwise operators join two whole numbers. -/
def BinaryOp.bits? : BinaryOp → Option (Int → Int → Int)
  | bitAnd => some Bits.and
  | bitOr => some Bits.or
  | bitXor => some Bits.xor
  | _ => none

variable {α : Type} {L N : Prop} {P : α → Prop}

theorem ends_cause {c : Cause} (h : c.isOwn = true) :
    Ends P (Fault.Plain L) (.error (.of c)) :=
  Fault.Plain.error h

theorem Ends.plain {M : Prop} {x : Except Fault α} (h : Ends P (Fault.Plain L) x) (hm : L → M) :
    Ends P (Fault.Plain M) x :=
  h.mono (fun _ h => h) fun _ h => h.mono hm

theorem raises_floatOfInt {i : Int} (h : Decimal.ofInt? i = none → L) :
    Raises (Fault.Plain L) (floatOfInt i) := by
  unfold floatOfInt
  split
  · trivial
  · next e => exact .large (h e)

theorem raises_floatOfInt_of_le {i : Int} (h : i.natAbs ≤ Decimal.largest + 1) :
    Raises (Fault.Plain L) (floatOfInt i) := by
  have some := Decimal.ofInt?_isSome (h.trans_lt Decimal.largest_add_one_lt)
  apply raises_floatOfInt
  intro none
  rw [none] at some
  cases some

namespace Store

variable (s : Store)

section Numbers

variable {v w : Value} (hv : v.Native N)

theorem raises_float? {x : Except Fault Float} (hv : v.Native N) (h : float? v = some x) :
    Raises (Fault.Plain ¬N) x := by
  cases v with
  | ref a => cases h
  | atom a =>
    cases a with
    | none | str t => cases h
    | bool b | num x => exact Option.some.inj h ▸ trivial
    | int i =>
      refine Option.some.inj h ▸ raises_floatOfInt fun _ n => ?_
      cases hv n

theorem raises_toNumber (hv : v.Native N) (rule : String) :
    Raises (Fault.Plain ¬N) (s.toNumber v rule) := by
  unfold toNumber
  split
  · split
    · trivial
    · exact ends_cause rfl
  · split
    · next h => exact raises_float? hv h
    · exact ends_cause rfl

/-- The whole part of a number lies in the range of the finite floats. -/
theorem ends_toInt (hv : v.Native N) (rule : String) :
    Ends (fun i => i.natAbs ≤ Decimal.largest) (Fault.Plain ¬N) (s.toInt v rule) := by
  refine ends_bind (s.raises_toNumber hv rule) fun x _ => ?_
  split
  · next h => exact Decimal.natAbs_truncate_le h
  · exact ends_cause rfl

theorem raises_requireKey : Raises (Fault.Plain L) (s.requireKey v) := by
  unfold requireKey
  split
  · exact ends_cause rfl
  · exact ends_cause rfl
  · trivial

theorem raises_toIndex (hv : v.Native N) : Raises (Fault.Plain ¬N) (s.toIndex v) := by
  unfold toIndex
  split
  · exact ends_cause rfl
  · next h =>
    refine ends_bind (raises_float? hv h) fun x _ => ?_
    split
    · trivial
    · exact ends_cause rfl

end Numbers

section Comparisons

theorem raises_allPairs {α β : Type} {E : Fault → Prop} {test : α → β → Except Fault Bool}
    (h : ∀ a b, Raises E (test a b)) (as : List α) (bs : List β) :
    Raises E (allPairs test as bs) := by
  induction as generalizing bs with
  | nil => trivial
  | cons a as ih =>
    cases bs with
    | nil => trivial
    | cons b bs =>
      refine ends_bind (h a b) fun same _ => ?_
      split
      · exact ih bs
      · trivial

theorem raises_entries {E : Fault → Prop} {test : Value → Value → Except Fault Bool}
    (h : ∀ v w, Raises E (test v w)) (es fs : Table Value Value) :
    Raises E (es.foldlM (fun same (k, x) =>
      if same then
        match fs.get? k with
        | none => .ok false
        | some y => test x y
      else .ok false) true) := by
  refine ends_foldlM _ trivial fun same _ e _ => ?_
  dsimp only
  split
  · split
    · trivial
    · exact h _ _
  · trivial

theorem raises_equalWithin (n : Nat) (met : List (Addr × Addr)) (v w : Value) :
    Raises (Fault.Plain L) (s.equalWithin n met v w) := by
  induction n generalizing met v w with
  | zero => exact .endless
  | succ n ih =>
    unfold equalWithin
    -- Only two lists of one length, or two such dictionaries, are compared by what they hold.
    split
    · split
      · trivial
      split
      · split
        · trivial
        split
        · exact .endless
        · exact raises_allPairs (fun v w => ih _ v w) _ _
      · split
        · trivial
        split
        · exact .endless
        · exact raises_entries (fun v w => ih _ v w) _ _
      · trivial
    · trivial

theorem raises_equal (v w : Value) : Raises (Fault.Plain L) (s.equal v w) :=
  s.raises_equalWithin _ _ v w

theorem raises_lexicographic {α : Type} {E : Fault → Prop} {order : α → α → Except Fault Ordering}
    (h : ∀ a b, Raises E (order a b)) (as bs : List α) :
    Raises E (lexicographic order as bs) := by
  induction as generalizing bs with
  | nil => cases bs <;> trivial
  | cons a as ih =>
    cases bs with
    | nil => trivial
    | cons b bs =>
      refine ends_bind (h a b) fun o _ => ?_
      split
      · exact ih bs
      · trivial

theorem raises_compareWithin (n : Nat) (met : List (Addr × Addr)) (v w : Value) :
    Raises (Fault.Plain L) (s.compareWithin n met v w) := by
  induction n generalizing met v w with
  | zero => exact .endless
  | succ n ih =>
    rw [compareWithin_succ]
    split
    · split
      · trivial
      · exact ends_cause rfl
    · split
      · split
        · exact .endless
        · exact raises_lexicographic (fun v w => ih _ v w) _ _
      · exact ends_cause rfl
    · exact ends_cause rfl

theorem raises_compare (v w : Value) : Raises (Fault.Plain L) (s.compare v w) :=
  s.raises_compareWithin _ _ v w

theorem raises_text (v : Value) : Raises (Fault.Plain L) (s.text v) :=
  (s.ends_text v).mono (fun _ h => h) fun _ h => h ▸ .endless

theorem raises_holds (v w : Value) : Raises (Fault.Plain L) (s.holds v w) := by
  unfold holds
  split
  · refine ends_foldlM _ trivial fun found _ x _ => ?_
    split
    · trivial
    · exact s.raises_equal x w
  · exact ends_bind s.raises_requireKey fun _ _ => trivial
  · split
    · trivial
    · exact ends_cause rfl
  · exact ends_cause rfl

end Comparisons

section Operators

/-- Two numbers that an operator joins bit by bit to a whole number that has no float. -/
def Overflows (s : Store) (op : BinaryOp) (v w : Value) : Prop :=
  ∃ join a b, op.bits? = some join ∧ s.toInt v op.text = .ok a ∧ s.toInt w op.text = .ok b ∧
    Decimal.ofInt? (join a b) = none

variable {v w : Value}

theorem ends_refuse {op : BinaryOp} {P : α → Prop} :
    Ends P (Fault.Plain L) (s.refuseOperands op v w) :=
  ends_cause rfl

theorem ends_onFloats {f : Float → Float → Except Fault Float} (op : BinaryOp) (hv : v.Native N)
    (hw : w.Native N) (hf : ∀ a b, Raises (Fault.Plain ¬N) (f a b)) :
    Ends (Value.Native N) (Fault.Plain ¬N) (s.onFloats op f v w) := by
  unfold onFloats
  split
  · next a b ha hb =>
    refine ends_bind (raises_float? hv ha) fun a _ => ?_
    refine ends_bind (raises_float? hw hb) fun b _ => ?_
    exact ends_bind (hf a b) fun x _ => native_num x
  · exact s.ends_refuse

theorem ends_onInts {f : Int → Int → Except Fault Float} (op : BinaryOp) (hv : v.Native N)
    (hw : w.Native N) (hl : ¬N → L)
    (hf : ∀ a b, s.toInt v op.text = .ok a → s.toInt w op.text = .ok b →
      a.natAbs ≤ Decimal.largest → b.natAbs ≤ Decimal.largest → Raises (Fault.Plain L) (f a b)) :
    Ends (Value.Native N) (Fault.Plain L) (s.onInts op f v w) := by
  unfold onInts
  split
  · refine ends_bind ((s.ends_toInt hv op.text).with_eq.plain hl) fun a ha => ?_
    refine ends_bind ((s.ends_toInt hw op.text).with_eq.plain hl) fun b hb => ?_
    exact ends_bind (hf a b ha.2 hb.2 ha.1 hb.1) fun x _ => native_num x
  · exact s.ends_refuse

theorem raises_divide (a b : Float) : Raises (Fault.Plain L) (Arithmetic.divide a b) := by
  unfold Arithmetic.divide
  split
  · exact ends_cause rfl
  · dsimp only
    split
    · next h =>
      exact raises_floatOfInt_of_le ((Decimal.natAbs_truncate_le h).trans (Nat.le_add_right _ 1))
    · trivial

theorem raises_power (a b : Float) : Raises (Fault.Plain L) (Arithmetic.power a b) := by
  unfold Arithmetic.power
  dsimp only
  split
  · trivial
  · split
    · trivial
    · exact ends_cause rfl
    · split
      · exact ends_cause rfl
      · exact ends_cause rfl

theorem raises_remainder {a : Int} (b : Int) (ha : a.natAbs ≤ Decimal.largest) :
    Raises (Fault.Plain L) (Arithmetic.remainder a b) := by
  unfold Arithmetic.remainder
  split
  · exact ends_cause rfl
  · split
    · trivial
    · apply raises_floatOfInt_of_le
      rw [Int.natAbs_tmod]
      exact (Nat.mod_le _ _).trans (ha.trans (Nat.le_add_right _ 1))

theorem raises_shift (op : BinaryOp) (a b : Int) :
    Raises (Fault.Plain L) (Arithmetic.shift op a b) := by
  unfold Arithmetic.shift
  split
  · exact ends_cause rfl
  · simp only
    split
    · trivial
    · exact ends_cause rfl

theorem ends_operate (op : BinaryOp) (hv : v.Native N) (hw : w.Native N) :
    Ends (Value.Native N) (Fault.Plain (¬N ∨ s.Overflows op v w)) (s.operate op v w) := by
  have small {x : Except Fault Value} (h : Ends (Value.Native N) (Fault.Plain ¬N) x) :
      Ends (Value.Native N) (Fault.Plain (¬N ∨ s.Overflows op v w)) x := h.plain Or.inl
  -- All other operators guard their result.
  have joined {join : Int → Int → Int} (h : op.bits? = some join) :
      Ends (Value.Native N) (Fault.Plain (¬N ∨ s.Overflows op v w))
        (s.onInts op (fun a b => floatOfInt (join a b)) v w) :=
    s.ends_onInts op hv hw Or.inl fun a b ha hb _ _ =>
      raises_floatOfInt fun none => .inr ⟨join, a, b, h, ha, hb, none⟩
  have compared {test : Ordering → Bool} :
      Ends (Value.Native N) (Fault.Plain (¬N ∨ s.Overflows op v w))
        (do return .bool (test (← s.compare v w))) :=
    ends_bind (s.raises_compare v w) fun o _ => native_bool _
  cases op with
  | sub | mul => exact small (s.ends_onFloats _ hv hw fun a b => trivial)
  | div => exact small (s.ends_onFloats _ hv hw fun a b => raises_divide a b)
  | pow => exact small (s.ends_onFloats _ hv hw fun a b => raises_power a b)
  | mod => exact small (s.ends_onInts _ hv hw id fun a b _ _ ha _ => raises_remainder b ha)
  | bitAnd | bitOr | bitXor => exact joined rfl
  | shiftLeft | shiftRight => exact small (s.ends_onInts _ hv hw id fun a b _ _ _ _ => raises_shift _ a b)
  | eq | ne => exact ends_bind (s.raises_equal v w) fun b _ => native_bool _
  | lt | gt | le | ge => exact compared
  | mem => exact ends_bind (s.raises_holds w v) fun b _ => native_bool _
  | same => exact native_bool _
  | or_ | and_ | add | other t => exact ends_cause rfl

theorem ends_plus (hs : s.Native N) (hv : v.Native N) (hw : w.Native N) :
    Ends (Made.Native N) (Fault.Plain ¬N) (s.plus v w) := by
  unfold plus
  split
  · exact native_str _
  · split
    · next xs ys hx hy =>
      have left : (Obj.list xs).Native N := native_object hs hx
      have right : (Obj.list ys).Native N := native_object hs hy
      exact fun v hv => (List.mem_append.mp hv).elim (left v) (right v)
    · exact ends_map (s.ends_onFloats .add hv hw fun a b => trivial)

theorem ends_binary (hs : s.Native N) (op : BinaryOp) (hv : v.Native N) (hw : w.Native N) :
    Ends (Made.Native N) (Fault.Plain (¬N ∨ s.Overflows op v w)) (s.binary op v w) := by
  unfold binary
  split
  · exact (s.ends_plus hs hv hw).plain Or.inl
  · exact ends_map (s.ends_operate _ hv hw)

theorem ends_unary (op : UnaryOp) (hv : v.Native N) :
    Ends (Value.Native N) (Fault.Plain ¬N) (s.unary op v) := by
  unfold unary
  split
  · exact native_bool _
  · exact ends_cause rfl
  · next h => exact ends_bind (raises_float? hv h) fun x _ => native_num _
  · next h => exact ends_bind (raises_float? hv h) fun x _ => native_num _
  · refine ends_bind (s.ends_toInt hv _) fun i hi => ?_
    refine ends_bind (raises_floatOfInt_of_le ?_) fun x _ => native_num _
    omega
  · exact ends_cause rfl

end Operators

section Access

variable {v w x : Value}

theorem ends_lookup (hs : s.Native N) (i : ScopeId) (name : String) :
    Ends (Value.Native N) (Fault.Plain L) (s.lookup i name) := by
  unfold lookup
  split
  · next v h =>
    obtain ⟨o, -, hv⟩ := Option.bind_eq_some_iff.mp h
    exact Table.value_of_get? (Q := Value.Native N) (native_bindings hs o) hv
  · exact ends_cause rfl

theorem ends_items (hs : s.Native N) (v : Value) :
    Ends (fun xs => ∀ x ∈ xs, x.Native N) (Fault.Plain L) (s.items v) := by
  unfold items
  split
  · intro x hx
    obtain ⟨c, -, rfl⟩ := List.mem_map.mp hx
    exact native_str _
  · next h => exact native_object hs h
  · next es _ h =>
    have entries : (Obj.dict es).Native N := native_object hs h
    intro x hx
    obtain ⟨e, he, rfl⟩ := List.mem_map.mp hx
    exact (entries e he).1
  · exact ends_cause rfl

theorem ends_getIndex (hs : s.Native N) (base : Value) (hv : v.Native N) :
    Ends (Value.Native N) (Fault.Plain ¬N) (s.getIndex base v) := by
  unfold getIndex
  split
  · refine ends_bind (s.raises_toIndex hv) fun i _ => ?_
    split
    · exact native_str _
    · exact ends_cause rfl
  · next xs _ h =>
    have items : (Obj.list xs).Native N := native_object hs h
    refine ends_bind (s.raises_toIndex hv) fun i _ => ?_
    split
    · next x hx =>
      obtain ⟨j, -, hj⟩ := Option.bind_eq_some_iff.mp hx
      exact items x (List.mem_of_getElem? hj)
    · exact ends_cause rfl
  · next es _ h =>
    have entries : (Obj.dict es).Native N := native_object hs h
    refine ends_bind s.raises_requireKey fun _ _ => ?_
    split
    · next x hx =>
      exact Table.value_of_get? (Q := Value.Native N) (fun e he => (entries e he).2) hx
    · exact ends_bind (s.raises_text v) fun t _ => ends_cause rfl
  · exact ends_cause rfl

theorem ends_setIndex (hs : s.Native N) (base : Value) (hv : v.Native N) (hx : x.Native N) :
    Ends (fun p => p.2.Native N) (Fault.Plain ¬N) (s.setIndex base v x) := by
  unfold setIndex
  split
  · exact ends_cause rfl
  · next a =>
    have old := native_read hs a
    split
    · next xs h =>
      rw [h] at old
      refine ends_bind (s.raises_toIndex hv) fun i _ => ?_
      split
      · exact fun y hy => (List.mem_or_eq_of_mem_set hy).elim (old y) fun e => e ▸ hx
      · exact ends_cause rfl
    · next es h =>
      rw [h] at old
      exact ends_bind s.raises_requireKey fun _ _ => Table.forall_put old hv hx
    · exact ends_cause rfl

theorem raises_sliceable (v : Value) : Raises (Fault.Plain L) (s.sliceable v) := by
  unfold sliceable
  split
  · trivial
  · trivial
  · exact ends_cause rfl

theorem ends_getMember (hs : s.Native N) (base : Value) (name : String) :
    Ends (Made.Native N) (Fault.Plain L) (s.getMember base name) := by
  unfold getMember
  split
  · exact ends_cause rfl
  · next a =>
    have old := native_read hs a
    split
    · next es h =>
      rw [h] at old
      split
      · next v hv =>
        exact Table.value_of_get? (Q := Value.Native N) (fun e he => (old e he).2) hv
      · exact ends_cause rfl
    · next c fields h =>
      rw [h] at old
      split
      · next v hv => exact Table.value_of_get? (Q := Value.Native N) old hv
      · split
        · split
          · trivial
          · exact ends_cause rfl
        · exact ends_cause rfl
    · split
      · exact native_ref _
      · exact ends_cause rfl
    · exact ends_cause rfl

theorem raises_settable (v : Value) : Raises (Fault.Plain L) (s.settable v) := by
  unfold settable
  split
  · trivial
  · exact ends_cause rfl

end Access

end Store

theorem mem_of_strided {step : Nat} {xs : List α} {x : α} (h : x ∈ strided step xs) : x ∈ xs := by
  fun_induction strided step xs with
  | case1 => exact h
  | case2 y ys ih =>
    rcases List.mem_cons.mp h with rfl | h
    · exact List.mem_cons_self
    · exact List.mem_cons_of_mem _ (List.mem_of_mem_drop (ih h))

theorem mem_of_sliceOf {xs : List α} {start stop step : Option Int} {x : α}
    (h : x ∈ sliceOf xs start stop step) : x ∈ xs := by
  unfold sliceOf at h
  dsimp only at h
  split at h
  · cases h
  · exact List.mem_of_mem_take (List.mem_of_mem_drop (mem_of_strided h))

theorem Store.native_slice {s : Store} (hs : s.Native N) {base : Value} (hb : base.Native N)
    (start stop step : Option Int) : (s.slice base start stop step).Native N := by
  unfold slice
  split
  · exact native_str _
  · next xs _ h =>
    have items : (Obj.list xs).Native N := native_object hs h
    exact fun x hx => items x (mem_of_sliceOf hx)
  · exact hb

end LoopScript
