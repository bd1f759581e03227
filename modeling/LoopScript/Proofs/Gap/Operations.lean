import LoopScript.Machine.Step
import LoopScript.Proofs.Gap.Values
import LoopScript.Proofs.MergeSort.Correspondence

/-!
Accesses, operators and functions of the language in stores with a gap: they give the same, found past the
gap, or fail with the same error.
-/

namespace LoopScript

variable {g : Gaps}

theorem float?_past (v : Value) : Store.float? (v.past g) = Store.float? v := by
  cases v <;> rfl

theorem isNumber_past (v : Value) : Store.isNumber (v.past g) = Store.isNumber v := by
  cases v <;> rfl

theorem identical_past (v w : Value) :
    Store.identical (v.past g) (w.past g) = Store.identical v w := by
  have same := Value.past_beq (g := g) v w
  cases v with
  | atom a =>
    cases w with
    | atom b => rfl
    | ref b => cases a <;> rfl
  | ref a =>
    cases w with
    | atom b => cases b <;> rfl
    | ref b => exact same

theorem strided_past {α β : Type} (f : α → β) (step : Nat) (xs : List α) :
    strided step (xs.map f) = (strided step xs).map f := by
  fun_induction strided step xs with
  | case1 => rw [List.map_nil, strided]
  | case2 x xs ih => rw [List.map_cons, strided, List.map_cons, ← List.map_drop, ih]

theorem sliceOf_past {α β : Type} (f : α → β) (xs : List α) (start stop step : Option Int) :
    sliceOf (xs.map f) start stop step = (sliceOf xs start stop step).map f := by
  simp only [sliceOf, List.length_map, ← List.map_take, ← List.map_drop, strided_past]
  split <;> rfl

namespace Store.Opens

variable {s t : Store} (h : s.Opens g t)

include h

section Conversions

theorem toNumber (v : Value) (rule : String) : t.toNumber (v.past g) rule = s.toNumber v rule := by
  cases v with
  | atom a => cases a <;> rfl
  | ref a => simp only [Store.toNumber, Value.past_ref, h.typeName_ref, Store.float?]

theorem toInt (v : Value) (rule : String) : t.toInt (v.past g) rule = s.toInt v rule := by
  simp only [Store.toInt, h.toNumber]

theorem requireKey (v : Value) : t.requireKey (v.past g) = s.requireKey v := by
  simp only [Store.requireKey, h.typeName, h.object?]
  cases s.object? v with
  | none => rfl
  | some o => cases o <;> rfl

theorem toIndex (v : Value) : t.toIndex (v.past g) = s.toIndex v := by
  simp only [Store.toIndex, float?_past, h.typeName]

theorem expectNumber (rule : String) (v : Value) :
    t.expectNumber rule (v.past g) = s.expectNumber rule v := by
  simp only [Store.expectNumber, float?_past, h.typeName]

theorem duration (v : Value) : t.duration (v.past g) = s.duration v := by
  simp only [Store.duration, h.expectNumber]

theorem lengthOf (v : Value) : t.lengthOf (v.past g) = s.lengthOf v := by
  cases v with
  | atom a => cases a <;> rfl
  | ref a =>
    simp only [Store.lengthOf, Store.object?, Value.past_ref, h.read]
    cases s.read a with
    | list | dict => simp only [Obj.past, List.length_map]
    | builtin | function | lambda | cls | instance_ | method =>
      simp only [Obj.past, h.typeName_ref]

end Conversions

section Items

theorem items (v : Value) : t.items (v.past g) = List.map (Value.past g) <$> s.items v := by
  cases v with
  | atom a =>
    cases a with
    | str text => simp [Store.items]
    | none | bool | int | num => rfl
  | ref a =>
    simp only [Store.items, Store.object?, Value.past_ref, h.read]
    cases s.read a with
    | list xs => rfl
    | dict es => simp [Obj.past, Table.keys_map]
    | builtin | function | lambda | cls | instance_ | method =>
      simp only [Obj.past, h.typeName_ref]
      rfl

theorem sumOf (v : Value) : t.sumOf (v.past g) = s.sumOf v := by
  simp only [Store.sumOf, h.items, bind_map_left, List.foldlM_map, h.expectNumber]

theorem getIndex (v i : Value) :
    t.getIndex (v.past g) (i.past g) = Value.past g <$> s.getIndex v i := by
  cases v with
  | atom a =>
    cases a with
    | str text =>
      simp only [Store.getIndex, Value.past_atom, h.toIndex, map_bind]
      refine congrArg (s.toIndex i >>= ·) (funext fun k => ?_)
      cases (place? text.length k).bind (text.toList[·]?) <;> rfl
    | none | bool | int | num => rfl
  | ref a =>
    simp only [Store.getIndex, Store.object?, Value.past_ref, h.read, h.toIndex, h.requireKey, h.text]
    cases s.read a with
    | list xs =>
      simp only [Obj.past, List.length_map, List.getElem?_map, map_bind]
      refine congrArg (s.toIndex i >>= ·) (funext fun k => ?_)
      cases place? xs.length k with
      | none => rfl
      | some k => cases hx : xs[k]? <;> simp [hx]
    | dict es =>
      simp only [Obj.past, Table.get?_map Value.past_beq, map_bind]
      refine congrArg (s.requireKey i >>= ·) (funext fun _ => ?_)
      cases Table.get? es i with
      | none => simp
      | some x => rfl
    | builtin | function | lambda | cls | instance_ | method =>
      simp only [Obj.past, h.typeName_ref]
      rfl

theorem setIndex (v i x : Value) :
    t.setIndex (v.past g) (i.past g) (x.past g) =
      Prod.map g.objects.past (Obj.past g) <$> s.setIndex v i x := by
  cases v with
  | atom a => cases a <;> rfl
  | ref a =>
    simp only [Store.setIndex, Value.past_ref, h.read, h.toIndex, h.requireKey]
    cases s.read a with
    | list xs =>
      simp only [Obj.past, List.length_map, map_bind]
      refine congrArg (s.toIndex i >>= ·) (funext fun k => ?_)
      cases place? xs.length k with
      | none => rfl
      | some k => simp [Obj.past]
    | dict es =>
      simp only [Obj.past, Table.put_map Value.past_beq, map_bind]
      rfl
    | builtin | function | lambda | cls | instance_ | method =>
      simp only [Obj.past, h.typeName_ref]
      rfl

theorem sliceable (v : Value) : t.sliceable (v.past g) = s.sliceable v := by
  cases v with
  | atom a => cases a <;> rfl
  | ref a =>
    simp only [Store.sliceable, Store.object?, Value.past_ref, h.read]
    cases s.read a with
    | list => rfl
    | dict | builtin | function | lambda | cls | instance_ | method =>
      simp only [Obj.past, h.typeName_ref]

theorem slice (v : Value) (start stop step : Option Int) :
    t.slice (v.past g) start stop step = (s.slice v start stop step).past g := by
  cases v with
  | atom a => cases a <;> rfl
  | ref a =>
    simp only [Store.slice, Store.object?, Value.past_ref, h.read]
    cases s.read a with
    | list xs => simp only [Obj.past, sliceOf_past, Made.past]
    | dict | builtin | function | lambda | cls | instance_ | method => rfl

theorem getMember (v : Value) (name : String) :
    t.getMember (v.past g) name = Made.past g <$> s.getMember v name := by
  cases v with
  | atom a => cases a <;> rfl
  | ref a =>
    simp only [Store.getMember, Value.past_ref, h.read]
    cases s.read a with
    | dict es =>
      have found := Table.get?_map (f := Value.past g) (u := Value.past g) Value.past_beq es (.str name)
      rw [Value.past_atom] at found
      simp only [Obj.past, found]
      cases Table.get? es (.str name) <;> rfl
    | instance_ c fields =>
      simp only [Obj.past, Table.get?_values]
      cases fields.get? name with
      | some v => rfl
      | none =>
        simp only [Option.map_none, h.read]
        cases s.read c with
        | cls cName methods =>
          simp only [Obj.past, Table.get?_values]
          cases methods.get? name <;> rfl
        | list | dict | builtin | function | lambda | instance_ | method =>
          simp only [Obj.past, h.typeName_ref]
          rfl
    | cls cName methods =>
      simp only [Obj.past, Table.get?_values]
      cases methods.get? name <;> rfl
    | list | builtin | function | lambda | method =>
      simp only [Obj.past, h.typeName_ref]
      rfl

theorem settable (v : Value) : t.settable (v.past g) = g.objects.past <$> s.settable v := by
  cases v with
  | atom a => cases a <;> rfl
  | ref a =>
    simp only [Store.settable, Store.object?, Value.past_ref, h.read]
    cases s.read a with
    | instance_ => rfl
    | list | dict | builtin | function | lambda | cls | method =>
      simp only [Obj.past, h.typeName_ref]
      rfl

theorem setField (a : Addr) (name : String) (v : Value) :
    (s.setField a name v).Opens g (t.setField (g.objects.past a) name (v.past g)) := by
  simp only [Store.setField, h.read]
  cases s.read a with
  | instance_ c fields =>
    have written := h.write a (.instance_ c (fields.put name v))
    simp only [Obj.past, ← Table.put_values] at written ⊢
    exact written
  | list | dict | builtin | function | lambda | cls | method => exact h

end Items

section Operators

theorem onFloats (op : BinaryOp) (f : Float → Float → Except Fault Float) (v w : Value) :
    t.onFloats op f (v.past g) (w.past g) = Value.past g <$> s.onFloats op f v w := by
  simp only [Store.onFloats, Store.refuseOperands, float?_past, h.typeName]
  split
  · simp only [map_bind]
    rfl
  · rfl

theorem onInts (op : BinaryOp) (f : Int → Int → Except Fault Float) (v w : Value) :
    t.onInts op f (v.past g) (w.past g) = Value.past g <$> s.onInts op f v w := by
  simp only [Store.onInts, Store.refuseOperands, isNumber_past, h.toInt, h.typeName]
  split
  · simp only [map_bind]
    rfl
  · rfl

theorem holds (v w : Value) : t.holds (v.past g) (w.past g) = s.holds v w := by
  cases v with
  | atom a =>
    cases a with
    | str text =>
      cases w with
      | atom b => cases b <;> rfl
      | ref b => simp only [Store.holds, Store.object?, Value.past_atom, Value.past_ref, h.typeName_ref]
    | none | bool | int | num => rfl
  | ref a =>
    simp only [Store.holds, Store.object?, Value.past_ref, h.read, h.requireKey]
    cases s.read a with
    | list xs => simp only [Obj.past, List.foldlM_map, h.equal]
    | dict es => simp only [Obj.past, Table.has_map Value.past_beq]
    | builtin | function | lambda | cls | instance_ | method =>
      simp only [Obj.past, h.typeName_ref]

theorem operate (op : BinaryOp) (v w : Value) :
    t.operate op (v.past g) (w.past g) = Value.past g <$> s.operate op v w := by
  cases op with
  | sub | mul | div | pow => exact h.onFloats _ _ v w
  | mod | bitAnd | bitOr | bitXor | shiftLeft | shiftRight => exact h.onInts _ _ v w
  | eq | ne =>
    simp only [Store.operate, h.equal, map_bind]
    rfl
  | lt | gt | le | ge =>
    simp only [Store.operate, h.compare, map_bind]
    rfl
  | mem =>
    simp only [Store.operate, h.holds, map_bind]
    rfl
  | same =>
    simp only [Store.operate, identical_past]
    rfl
  | or_ | and_ | add | other => rfl

theorem plus (v w : Value) : t.plus (v.past g) (w.past g) = Made.past g <$> s.plus v w := by
  have floats : Made.value <$> t.onFloats .add (fun a b => .ok (a + b)) (v.past g) (w.past g) =
      Made.past g <$> Made.value <$> s.onFloats .add (fun a b => .ok (a + b)) v w := by
    rw [h.onFloats, Functor.map_map, Functor.map_map]
    rfl
  cases v with
  | atom a =>
    cases w with
    | atom b =>
      cases a with
      | str text =>
        cases b with
        | str text' => rfl
        | none | bool | int | num => exact floats
      | none | bool | int | num => exact floats
    | ref b => cases a <;> exact floats
  | ref a =>
    cases w with
    | atom b =>
      simp only [Store.plus, Store.object?, Value.past_ref, Value.past_atom, h.read] at floats ⊢
      cases s.read a <;> exact floats
    | ref b =>
      simp only [Store.plus, Store.object?, Value.past_ref, h.read] at floats ⊢
      cases s.read a with
      | list xs =>
        cases s.read b with
        | list ys =>
          simp only [Obj.past, ← List.map_append]
          rfl
        | dict | builtin | function | lambda | cls | instance_ | method => exact floats
      | dict | builtin | function | lambda | cls | instance_ | method => exact floats

theorem binary (op : BinaryOp) (v w : Value) :
    t.binary op (v.past g) (w.past g) = Made.past g <$> s.binary op v w := by
  have others : Made.value <$> t.operate op (v.past g) (w.past g) =
      Made.past g <$> Made.value <$> s.operate op v w := by
    rw [h.operate, Functor.map_map, Functor.map_map]
    rfl
  cases op with
  | add => exact h.plus v w
  | _ => exact others

theorem unary (op : UnaryOp) (v : Value) :
    t.unary op (v.past g) = Value.past g <$> s.unary op v := by
  simp only [Store.unary, float?_past, h.truthy, h.typeName, h.toInt]
  split
  · rfl
  · rfl
  · simp only [map_bind]
    rfl
  · simp only [map_bind]
    rfl
  · simp only [map_bind]
    rfl
  · rfl

end Operators

section Functions

theorem extreme (rule : String) (beats : Ordering) (args : List Value) :
    t.extreme rule beats (args.map (Value.past g)) = Value.past g <$> s.extreme rule beats args := by
  have best (x : Value) (xs : List Value) :
      (xs.map (Value.past g)).foldlM
          (fun best y => return if (← t.compare y best) == beats then y else best) (x.past g) =
        Value.past g <$>
          xs.foldlM (fun best y => return if (← s.compare y best) == beats then y else best) x := by
    induction xs generalizing x with
    | nil => rfl
    | cons y ys ih =>
      simp only [List.map_cons, List.foldlM_cons, h.compare, bind_assoc, pure_bind, map_bind]
      refine congrArg (s.compare y x >>= ·) (funext fun o => ?_)
      split
      · exact ih y
      · exact ih x
  cases args with
  | nil => rfl
  | cons v args =>
    cases args with
    | cons w args => exact best v (w :: args)
    | nil =>
      simp only [Store.extreme, List.map_cons, List.map_nil, h.items, bind_map_left, map_bind]
      refine congrArg (s.items v >>= ·) (funext fun items => ?_)
      cases items with
      | nil => rfl
      | cons x xs => exact best x xs

theorem rangeItems (args : List Value) :
    t.rangeItems (args.map (Value.past g)) = List.map (Value.past g) <$> s.rangeItems args := by
  have bounds : (t.toInt · "range") ∘ Value.past g = (s.toInt · "range") :=
    funext fun v => h.toInt v "range"
  have numbers (is : List Int) : is.mapM (fun i => return Value.num (← floatOfInt i)) =
      List.map (Value.past g) <$> is.mapM (fun i => return Value.num (← floatOfInt i)) := by
    refine map_of_concur _ (concur_mapM (P := Eq) (List.forall₂_eq_eq_eq ▸ rfl) ?_)
    rintro i _ rfl
    exact concur_bind_same fun x => .ok rfl
  simp only [Store.rangeItems, List.mapM_map, bounds, map_bind]
  refine congrArg (args.mapM (s.toInt · "range") >>= ·) (funext fun bounds => ?_)
  split <;> split
  all_goals first
    | rfl
    | exact numbers _

theorem sortBy (reversed : Bool) (keys items : List Value) :
    t.sortBy reversed (keys.map (Value.past g)) (items.map (Value.past g)) =
      List.map (Value.past g) <$> s.sortBy reversed keys items := by
  let pair := Prod.map (Value.past g) (Value.past g)
  refine map_of_concur _ (concur_bind (P := List.Forall₂ fun p q => pair p = q) ?_ ?_)
  · rw [List.zip_map]
    refine stableSort_congr ?_ reversed (forall₂_map pair _)
    rintro p q _ _ rfl rfl
    exact congrArg (· >>= _) (h.compare p.1 q.1).symm
  · intro ps qs hpq
    refine .ok (List.rel_map ?_ hpq)
    rintro p _ rfl
    rfl

end Functions

end Store.Opens

section Calls

def Call.past (g : Gaps) (c : Call) : Call :=
  ⟨c.args.map (Value.past g), Bindings.past g c.named, c.location⟩

theorem accepts_past {σ : Type} (b : Builtin σ) (c : Call) : b.accepts (c.past g) = b.accepts c := by
  simp only [Builtin.accepts, Call.past, List.length_map, Table.keys_map, List.map_id]

theorem bindNamed_past (callee : String) (free : List String) (bound : Table String Value)
    (named : List (String × Value)) :
    bindNamed callee free (Bindings.past g bound) (Bindings.past g named) =
      Bindings.past g <$> bindNamed callee free bound named := by
  induction named generalizing bound with
  | nil => rfl
  | cons e named ih =>
    obtain ⟨key, v⟩ := e
    simp only [List.map_cons, Prod.map_apply, bindNamed, id, Table.has_values, Table.put_values]
    split
    · rfl
    · split
      · rfl
      · exact ih _

theorem bindArguments_past (callee : String) (params : List String) (args : List Value)
    (named : Table String Value) (implicit : Nat) :
    bindArguments callee params (args.map (Value.past g)) (Bindings.past g named) implicit =
      Bindings.past g <$> bindArguments callee params args named implicit := by
  have positional : Table.ofList (params.zip (args.map (Value.past g))) =
      Bindings.past g (Table.ofList (params.zip args)) := by
    have zipped : params.zip (args.map (Value.past g)) = Bindings.past g (params.zip args) := by
      rw [Bindings.past, ← List.zip_map, List.map_id]
    rw [zipped]
    exact Table.ofList_values _
  simp only [bindArguments, List.length_map, List.isEmpty_map, positional, bindNamed_past]
  split
  · rfl
  · simp only [bind_map_left, map_bind]
    refine congrArg (bindNamed _ _ _ _ >>= ·) (funext fun bound => ?_)
    simp only [Table.has_values]
    cases params.find? (!bound.has ·) <;> rfl

theorem sortingKey?_past (named : Table String Value) (more : List Value) :
    Act.sortingKey? (Bindings.past g named) (more.map (Value.past g)) =
      (Act.sortingKey? named more).map (Value.past g) := by
  have key : (more.map (Value.past g)).head?.or ((Bindings.past g named).get? "key") =
      (more.head?.or (named.get? "key")).map (Value.past g) := by
    rw [List.head?_map, Option.map_or, Table.get?_values]
  simp only [Act.sortingKey?, key]
  cases more.head?.or (named.get? "key") with
  | none => rfl
  | some v =>
    cases v with
    | atom a => cases a <;> rfl
    | ref a => rfl

end Calls

end LoopScript
