import LoopScript.Proofs.Gap.Store
import LoopScript.Proofs.Relocation.Nesting

/-!
Texts and comparisons in stores with a gap. They descend into containers as far as the size of the store
lets them, which is farther the wider the gap is; no value that can be read to its end lies that deep.
-/

namespace LoopScript

section Mapped

variable {ε α β : Type} (f : α → β)

theorem forall₂_map (xs : List α) : List.Forall₂ (fun x y => f x = y) xs (xs.map f) :=
  List.forall₂_map_right_iff.mpr (List.forall₂_same.mpr fun _ _ => rfl)

theorem map_of_concur {x : Except ε (List α)} {y : Except ε (List β)}
    (h : Concur (List.Forall₂ fun a b => f a = b) x y) : y = List.map f <$> x := by
  cases h with
  | error e => rfl
  | @ok xs ys h =>
    have mapped : List.Forall₂ Eq (xs.map f) ys := List.forall₂_map_left_iff.mpr h
    rw [List.forall₂_eq_eq_eq] at mapped
    exact congrArg Except.ok mapped.symm

end Mapped

namespace Store.Opens

variable {g : Gaps} {s t : Store} (h : s.Opens g t)

include h

theorem className (a : Addr) : t.className (g.objects.past a) = s.className a := by
  unfold Store.className
  rw [h.read]
  cases s.read a <;> rfl

theorem functionName (a : Addr) : t.functionName (g.objects.past a) = s.functionName a := by
  unfold Store.functionName
  rw [h.read]
  cases s.read a <;> rfl

theorem typeName (v : Value) : t.typeName (v.past g) = s.typeName v := by
  cases v with
  | atom a => cases a <;> rfl
  | ref a =>
    simp only [Store.typeName, Value.past_ref, h.read]
    cases s.read a with
    | instance_ c fields => exact h.className c
    | list | dict | builtin | function | lambda | cls | method => rfl

theorem typeName_ref (a : Addr) : t.typeName (.ref (g.objects.past a)) = s.typeName (.ref a) :=
  h.typeName (.ref a)

theorem truthy (v : Value) : t.truthy (v.past g) = s.truthy v := by
  cases v with
  | atom a => cases a <;> rfl
  | ref a =>
    simp only [Store.truthy, Value.past_ref, h.read]
    cases s.read a with
    | list items => cases items <;> rfl
    | dict entries => cases entries <;> rfl
    | instance_ | builtin | function | lambda | cls | method => rfl

section Text

theorem textOf {f k : Value → Except Fault String} (hf : ∀ v, k (v.past g) = f v) (o : Obj) :
    t.textOf k (o.past g) = s.textOf f o := by
  have inner : k ∘ Value.past g = f := funext hf
  cases o with
  | list items => simp only [Obj.past, Store.textOf, List.mapM_map, inner]
  | dict entries =>
    simp only [Obj.past, Store.textOf, List.mapM_map]
    congr 2
    funext e
    simp only [Function.comp_apply, Prod.map, hf]
  | builtin | function | lambda | cls => rfl
  | instance_ c fields => simp only [Obj.past, Store.textOf, h.className]
  | method r f => simp only [Obj.past, Store.textOf, h.typeName_ref, h.functionName]

theorem textWithin (n : Nat) (v : Value) : t.textWithin n (v.past g) = s.textWithin n v := by
  induction n generalizing v with
  | zero =>
    -- at the greatest depth, only containers fail, whatever they hold
    cases v with
    | atom a => rfl
    | ref a =>
      let deeper (_ : Value) : Except Fault String := .error .endless
      have whole := h.textOf (f := deeper) (k := deeper) (fun _ => rfl) (s.read a)
      simp only [Store.textWithin.eq_def _ 0, Value.past_ref, h.read]
      cases hr : s.read a with
      | list | dict => rfl
      | builtin | function | lambda | cls | instance_ | method =>
        rw [hr] at whole
        exact whole
  | succ n ih =>
    cases v with
    | atom a => rfl
    | ref a =>
      rw [Value.past_ref, Store.textWithin_succ, Store.textWithin_succ, h.read]
      exact h.textOf ih _

theorem succ_size_le : s.objects.size + 1 ≤ t.objects.size + 1 := by
  rw [h.objects.size]
  omega

theorem text (v : Value) : t.text (v.past g) = s.text v := by
  rw [s.text_eq_textWithin v h.succ_size_le]
  exact h.textWithin _ v

theorem isBuiltin (v : Value) : t.isBuiltin (v.past g) = s.isBuiltin v := by
  simp only [Store.isBuiltin, h.object?]
  cases s.object? v with
  | none => rfl
  | some o => cases o <;> rfl

theorem visible (i : ScopeId) : t.visible (g.scopes.past i) = Bindings.past g (s.visible i) := by
  simp only [Store.visible, h.scope, Scope.past, List.filter_map]
  refine congrArg _ (List.filter_congr fun e _ => ?_)
  simp only [Function.comp_apply, Prod.map, h.isBuiltin]

theorem snapshot (i : ScopeId) : t.snapshot (g.scopes.past i) = s.snapshot i := by
  simp only [Store.snapshot, h.visible, List.mapM_map]
  refine congrArg (fun f => (s.visible i).mapM f) (funext fun e => ?_)
  simp only [Function.comp_apply, Prod.map, h.text, id]

end Text

section Comparison

omit h in
theorem mem_past (met : List (Addr × Addr)) (a b : Addr) :
    (g.objects.past a, g.objects.past b) ∈ met.map (Prod.map g.objects.past g.objects.past) ↔
      (a, b) ∈ met := by
  have injective : Function.Injective g.objects.past := fun _ _ => Gap.past_inj.mp
  exact List.mem_map_of_injective (injective.prodMap injective) (a := (a, b))

theorem equalWithin (n : Nat) (met : List (Addr × Addr)) (v w : Value) :
    t.equalWithin n (met.map (Prod.map g.objects.past g.objects.past)) (v.past g) (w.past g) =
      s.equalWithin n met v w := by
  induction n generalizing met v w with
  | zero => rfl
  | succ n ih =>
    have same := Value.past_beq (g := g) v w
    cases v with
    | atom a => simp only [Store.equalWithin, ← same, Value.past_atom]
    | ref a =>
      cases w with
      | atom b => simp only [Store.equalWithin, ← same, Value.past_ref, Value.past_atom]
      | ref b =>
        have eqv : (g.objects.past a == g.objects.past b) = (a == b) := same
        -- deeper down, the pair counts as met in both stores
        have inner := ih ((a, b) :: met)
        rw [List.map_cons, Prod.map] at inner
        simp only [Store.equalWithin, Value.past_ref, h.read, eqv, mem_past]
        cases s.read a with
        | list xs =>
          cases s.read b with
          | list ys =>
            simp only [Obj.past, List.length_map]
            rw [allPairs_congr (forall₂_map (Value.past g) xs) (forall₂_map (Value.past g) ys)]
            rintro x y _ _ rfl rfl
            exact (inner x y).symm
          | _ => rfl
        | dict es =>
          cases s.read b with
          | dict fs =>
            simp only [Obj.past, List.length_map]
            rw [foldlM_congr (forall₂_map (Prod.map (Value.past g) (Value.past g)) es) true]
            rintro same e _ rfl
            simp only [Prod.map, Table.get?_map Value.past_beq]
            cases Table.get? fs e.1 with
            | none => rfl
            | some y => simp only [Option.map_some, inner]
          | _ => rfl
        | _ => rfl

theorem compareWithin (n : Nat) (met : List (Addr × Addr)) (v w : Value) :
    t.compareWithin n (met.map (Prod.map g.objects.past g.objects.past)) (v.past g) (w.past g) =
      s.compareWithin n met v w := by
  induction n generalizing met v w with
  | zero => rfl
  | succ n ih =>
    have left := h.typeName v
    have right := h.typeName w
    cases v with
    | atom a => cases w <;> simp only [Store.compareWithin_succ, ← left, ← right,
        Value.past_atom, Value.past_ref]
    | ref a =>
      cases w with
      | atom b =>
        simp only [Store.compareWithin_succ, ← left, ← right, Value.past_ref, Value.past_atom]
      | ref b =>
        have inner := ih ((a, b) :: met)
        rw [List.map_cons, Prod.map] at inner
        simp only [Store.compareWithin_succ, Value.past_ref, h.read, mem_past, h.typeName_ref]
        cases s.read a with
        | list xs =>
          cases s.read b with
          | list ys =>
            simp only [Obj.past]
            rw [lexicographic_congr (forall₂_map (Value.past g) xs) (forall₂_map (Value.past g) ys)]
            rintro x y _ _ rfl rfl
            exact (inner x y).symm
          | _ => rfl
        | _ => rfl

theorem pairLimit : s.pairLimit ≤ t.pairLimit :=
  Nat.succ_le_succ (Nat.mul_le_mul h.succ_size_le h.succ_size_le)

theorem equal (v w : Value) : t.equal (v.past g) (w.past g) = s.equal v w := by
  rw [equal_eq_equalWithin s v w h.pairLimit]
  exact h.equalWithin _ [] v w

theorem compare (v w : Value) : t.compare (v.past g) (w.past g) = s.compare v w := by
  rw [compare_eq_compareWithin s v w h.pairLimit]
  exact h.compareWithin _ [] v w

end Comparison

end Store.Opens

end LoopScript
