import LoopScript.Machine.Step
import LoopScript.Proofs.MergeSort.Correspondence
import LoopScript.Proofs.Relocation.Nesting

/-!
Operators, accesses and functions of the language on moved values: they give moved results, or fail
with the same error.
-/

namespace LoopScript

/-- A moved value, or a moved object that is yet to be made. -/
inductive Made.Moved (L : Link) : Made → Made → Prop where
  | value {v w : Value} (h : v.Moved L w) : Moved L (.value v) (.value w)
  | object {o o' : Obj} (h : o.Moved L o') : Moved L (.object o) (.object o')

variable {L : Link} {s t : Store} {v w x y : Value}

section Numbers

theorem float?_moved (hv : v.Moved L w) : Store.float? v = Store.float? w := by
  cases hv <;> rfl

theorem isNumber_moved (hv : v.Moved L w) : Store.isNumber v = Store.isNumber w := by
  cases hv <;> rfl

variable (hs : s.Moved L t) (hv : v.Moved L w)

include hs hv

theorem toNumber_moved (rule : String) : s.toNumber v rule = t.toNumber w rule := by
  have type := typeName_moved hs hv
  cases hv with
  | atom a => cases a <;> rfl
  | ref h => simp only [Store.toNumber, type, Store.float?]

theorem toInt_moved (rule : String) : s.toInt v rule = t.toInt w rule := by
  simp only [Store.toInt, toNumber_moved hs hv]

theorem requireKey_moved : s.requireKey v = t.requireKey w := by
  simp only [Store.requireKey, typeName_moved hs hv]
  match s.object? v, t.object? w, hs.object? hv with
  | _, _, .none => rfl
  | _, _, .some h => cases h <;> rfl

theorem toIndex_moved : s.toIndex v = t.toIndex w := by
  simp only [Store.toIndex, float?_moved hv, typeName_moved hs hv]

theorem expectNumber_moved (rule : String) : s.expectNumber rule v = t.expectNumber rule w := by
  simp only [Store.expectNumber, float?_moved hv, typeName_moved hs hv]

theorem duration_moved : s.duration v = t.duration w := by
  simp only [Store.duration, expectNumber_moved hs hv]

theorem lengthOf_moved : s.lengthOf v = t.lengthOf w := by
  have type := typeName_moved hs hv
  cases hv with
  | atom a => cases a <;> rfl
  | @ref a b h =>
    simp only [Store.lengthOf, Store.object?]
    match s.read a, t.read b, hs.read h with
    | _, _, .list h | _, _, .dict h => simp only [h.length_eq]
    | _, _, .builtin _ | _, _, .function _ _ | _, _, .lambda _ _ | _, _, .cls _
    | _, _, .instance_ _ _ | _, _, .method _ _ => simp only [type]

end Numbers

section Items

variable (hs : s.Moved L t) (hv : v.Moved L w)

include hs hv

theorem items_moved : Concur (List.Forall₂ (Value.Moved L)) (s.items v) (t.items w) := by
  have type := typeName_moved hs hv
  cases hv with
  | atom a =>
    cases a with
    | str text =>
      refine .ok ?_
      rw [List.forall₂_map_left_iff, List.forall₂_map_right_iff, List.forall₂_same]
      exact fun c _ => .atom _
    | none | bool | int | num => exact .error _
  | @ref a b h =>
    simp only [Store.items, Store.object?]
    match s.read a, t.read b, hs.read h with
    | _, _, .list h => exact .ok h
    | _, _, .dict h => exact .ok (Table.keys_paired h)
    | _, _, .builtin _ | _, _, .function _ _ | _, _, .lambda _ _ | _, _, .cls _
    | _, _, .instance_ _ _ | _, _, .method _ _ =>
      simp only [type]
      exact .error _

theorem sumOf_moved : s.sumOf v = t.sumOf w := by
  refine concur_eq.mp (concur_bind (items_moved hs hv) fun xs ys h => ?_)
  refine concur_eq.mpr (foldlM_congr h _ fun total a b hab => ?_)
  simp only [expectNumber_moved hs hab]

theorem getIndex_moved (hx : x.Moved L y) :
    Concur (Value.Moved L) (s.getIndex v x) (t.getIndex w y) := by
  have type := typeName_moved hs hv
  cases hv with
  | atom a =>
    cases a with
    | str text =>
      simp only [Store.getIndex, toIndex_moved hs hx]
      refine concur_bind_same fun i => ?_
      cases (place? text.length i).bind (text.toList[·]?) with
      | none => exact .error _
      | some c => exact .ok (.atom _)
    | none | bool | int | num => exact .error _
  | @ref a b h =>
    simp only [Store.getIndex, Store.object?, toIndex_moved hs hx, requireKey_moved hs hx,
      text_moved hs hx]
    match s.read a, t.read b, hs.read h with
    | _, _, @Obj.Moved.list _ xs ys h =>
      refine concur_bind_same fun i => ?_
      rw [h.length_eq]
      cases place? ys.length i with
      | none => exact .error _
      | some k =>
        simp only [Option.bind_some]
        match xs[k]?, ys[k]?, rel_getElem? h k with
        | _, _, .none => exact .error _
        | _, _, .some h => exact .ok h
    | _, _, .dict h =>
      refine concur_bind_same fun _ => ?_
      match Table.get? _ x, Table.get? _ y, Table.get?_paired h fun k k' hk => hk.beq hx with
      | _, _, .none => exact concur_bind_same fun _ => .error _
      | _, _, .some h => exact .ok h
    | _, _, .builtin _ | _, _, .function _ _ | _, _, .lambda _ _ | _, _, .cls _
    | _, _, .instance_ _ _ | _, _, .method _ _ =>
      simp only [type]
      exact .error _

omit hs hv in
theorem set_moved {xs ys : List Value} (h : List.Forall₂ (Value.Moved L) xs ys) (i : Nat)
    (hx : x.Moved L y) : List.Forall₂ (Value.Moved L) (xs.set i x) (ys.set i y) := by
  induction h generalizing i with
  | nil => exact .nil
  | cons hab h ih =>
    cases i with
    | zero => exact .cons hx h
    | succ i => exact .cons hab (ih i)

theorem setIndex_moved {i j : Value} (hi : i.Moved L j) (hx : x.Moved L y) :
    Concur (fun p q => L.objects p.1 q.1 ∧ p.2.Moved L q.2) (s.setIndex v i x)
      (t.setIndex w j y) := by
  have type := typeName_moved hs hv
  cases hv with
  | atom a =>
    simp only [Store.setIndex, type]
    exact .error _
  | @ref a b h =>
    simp only [Store.setIndex, type, toIndex_moved hs hi, requireKey_moved hs hi]
    match s.read a, t.read b, hs.read h with
    | _, _, @Obj.Moved.list _ xs ys hxs =>
      refine concur_bind_same fun k => ?_
      rw [hxs.length_eq]
      cases place? ys.length k with
      | none => exact .error _
      | some k => exact .ok ⟨h, .list (set_moved hxs k hx)⟩
    | _, _, .dict hes =>
      refine concur_bind_same fun _ => .ok ⟨h, .dict ?_⟩
      exact Table.put_paired hes (fun k k' hk => hk.beq hi) hi hx
    | _, _, .builtin _ | _, _, .function _ _ | _, _, .lambda _ _ | _, _, .cls _
    | _, _, .instance_ _ _ | _, _, .method _ _ => exact .error _

theorem sliceable_moved : s.sliceable v = t.sliceable w := by
  have type := typeName_moved hs hv
  cases hv with
  | atom a => cases a <;> rfl
  | @ref a b h =>
    simp only [Store.sliceable, Store.object?]
    match s.read a, t.read b, hs.read h with
    | _, _, .list _ => rfl
    | _, _, .builtin _ | _, _, .function _ _ | _, _, .lambda _ _ | _, _, .cls _
    | _, _, .instance_ _ _ | _, _, .method _ _ | _, _, .dict _ => simp only [type]

omit hs hv in
theorem strided_moved {xs ys : List Value} (h : List.Forall₂ (Value.Moved L) xs ys) (step : Nat) :
    List.Forall₂ (Value.Moved L) (strided step xs) (strided step ys) := by
  fun_induction strided step xs generalizing ys with
  | case1 =>
    cases h
    rw [strided]
    exact .nil
  | case2 a xs ih =>
    cases h with
    | cons hab h =>
      rw [strided]
      exact .cons hab (ih (List.forall₂_drop step h))

omit hs hv in
theorem sliceOf_moved {xs ys : List Value} (h : List.Forall₂ (Value.Moved L) xs ys)
    (start stop step : Option Int) :
    List.Forall₂ (Value.Moved L) (sliceOf xs start stop step) (sliceOf ys start stop step) := by
  simp only [sliceOf, h.length_eq]
  split_ifs
  · exact .nil
  · exact strided_moved (List.forall₂_drop _ (List.forall₂_take _ h)) _

theorem slice_moved (start stop step : Option Int) :
    (s.slice v start stop step).Moved L (t.slice w start stop step) := by
  cases hv with
  | atom a => cases a <;> exact .value (.atom _)
  | @ref a b h =>
    simp only [Store.slice, Store.object?]
    match s.read a, t.read b, hs.read h with
    | _, _, .list hxs => exact .object (.list (sliceOf_moved hxs start stop step))
    | _, _, .builtin _ | _, _, .function _ _ | _, _, .lambda _ _ | _, _, .cls _
    | _, _, .instance_ _ _ | _, _, .method _ _ | _, _, .dict _ => exact .value (.ref h)

theorem getMember_moved (name : String) :
    Concur (Made.Moved L) (s.getMember v name) (t.getMember w name) := by
  have type := typeName_moved hs hv
  cases hv with
  | atom a =>
    simp only [Store.getMember, type]
    exact .error _
  | @ref a b h =>
    simp only [Store.getMember, type]
    match s.read a, t.read b, hs.read h with
    | _, _, @Obj.Moved.dict _ es fs hes =>
      dsimp only
      match es.get? (.str name), fs.get? (.str name),
        Table.get?_paired hes fun k k' hk => hk.beq (.atom (.str name)) with
      | _, _, .none => exact .error _
      | _, _, .some h => exact .ok (.value h)
    | _, _, @Obj.Moved.instance_ _ c d es fs hc hes =>
      dsimp only
      match es.get? name, fs.get? name, Table.get?_alike hes name with
      | _, _, .some h => exact .ok (.value h)
      | _, _, .none =>
        match s.read c, t.read d, hs.read hc with
        | _, _, @Obj.Moved.cls _ _ ms ns hms =>
          dsimp only
          match ms.get? name, ns.get? name, Table.get?_alike hms name with
          | _, _, .some hf => exact .ok (.object (.method h hf))
          | _, _, .none => exact .error _
        | _, _, .builtin _ | _, _, .function _ _ | _, _, .lambda _ _ | _, _, .list _
        | _, _, .instance_ _ _ | _, _, .method _ _ | _, _, .dict _ => exact .error _
    | _, _, @Obj.Moved.cls _ _ ms ns hms =>
      dsimp only
      match ms.get? name, ns.get? name, Table.get?_alike hms name with
      | _, _, .some hf => exact .ok (.value (.ref hf))
      | _, _, .none => exact .error _
    | _, _, .builtin _ | _, _, .function _ _ | _, _, .lambda _ _ | _, _, .list _
    | _, _, .method _ _ => exact .error _

theorem settable_moved : Concur L.objects (s.settable v) (t.settable w) := by
  have type := typeName_moved hs hv
  cases hv with
  | atom a =>
    simp only [Store.settable, type]
    exact .error _
  | @ref a b h =>
    simp only [Store.settable, Store.object?]
    match s.read a, t.read b, hs.read h with
    | _, _, .instance_ _ _ => exact .ok h
    | _, _, .builtin _ | _, _, .function _ _ | _, _, .lambda _ _ | _, _, .cls _
    | _, _, .list _ | _, _, .method _ _ | _, _, .dict _ =>
      simp only [type]
      exact .error _

end Items

section Operators

variable (hs : s.Moved L t) (hv : v.Moved L w) (hx : x.Moved L y)

include hs hv hx

theorem onFloats_moved (op : BinaryOp) (f : Float → Float → Except Fault Float) :
    Concur (Value.Moved L) (s.onFloats op f v x) (t.onFloats op f w y) := by
  simp only [Store.onFloats, Store.refuseOperands, float?_moved hv, float?_moved hx,
    typeName_moved hs hv, typeName_moved hs hx]
  split
  · iterate 3 refine concur_bind_same fun _ => ?_
    exact .ok (.atom _)
  · exact .error _

theorem onInts_moved (op : BinaryOp) (f : Int → Int → Except Fault Float) :
    Concur (Value.Moved L) (s.onInts op f v x) (t.onInts op f w y) := by
  simp only [Store.onInts, Store.refuseOperands, isNumber_moved hv, isNumber_moved hx,
    toInt_moved hs hv, toInt_moved hs hx, typeName_moved hs hv, typeName_moved hs hx]
  split
  · iterate 3 refine concur_bind_same fun _ => ?_
    exact .ok (.atom _)
  · exact .error _

theorem holds_moved : s.holds v x = t.holds w y := by
  have type := typeName_moved hs hv
  have inner := typeName_moved hs hx
  cases hv with
  | atom a =>
    cases a with
    | str text =>
      cases hx with
      | atom b => cases b <;> rfl
      | ref h => simp only [Store.holds, Store.object?, inner]
    | none | bool | int | num => rfl
  | @ref a b h =>
    simp only [Store.holds, Store.object?, requireKey_moved hs hx]
    match s.read a, t.read b, hs.read h with
    | _, _, .list hxs =>
      refine foldlM_congr hxs false fun found a b hab => ?_
      rw [equal_moved hs hab hx]
    | _, _, .dict hes =>
      simp only [Table.has_paired hes fun k k' hk => hk.beq hx]
    | _, _, .builtin _ | _, _, .function _ _ | _, _, .lambda _ _ | _, _, .cls _
    | _, _, .instance_ _ _ | _, _, .method _ _ => simp only [type]

omit hs in
theorem identical_moved : Store.identical v x = Store.identical w y := by
  have same := hv.beq hx
  cases hv with
  | atom a =>
    cases hx with
    | atom b => rfl
    | ref h => cases a <;> rfl
  | ref h =>
    cases hx with
    | atom b => cases b <;> rfl
    | ref h' => exact same

theorem operate_moved (op : BinaryOp) :
    Concur (Value.Moved L) (s.operate op v x) (t.operate op w y) := by
  cases op with
  | sub | mul | div | pow => exact onFloats_moved hs hv hx _ _
  | mod | bitAnd | bitOr | bitXor | shiftLeft | shiftRight => exact onInts_moved hs hv hx _ _
  | eq | ne =>
    simp only [Store.operate, equal_moved hs hv hx]
    exact concur_bind_same fun _ => .ok (.atom _)
  | lt | gt | le | ge =>
    simp only [Store.operate, compare_moved hs hv hx]
    exact concur_bind_same fun _ => .ok (.atom _)
  | mem =>
    simp only [Store.operate, holds_moved hs hx hv]
    exact concur_bind_same fun _ => .ok (.atom _)
  | same =>
    simp only [Store.operate, identical_moved hv hx]
    exact .ok (.atom _)
  | or_ | and_ | add | other => exact .error _

theorem plus_moved : Concur (Made.Moved L) (s.plus v x) (t.plus w y) := by
  have floats := concur_map (onFloats_moved hs hv hx .add fun a b => .ok (a + b))
    (f := Made.value) (g := Made.value) fun _ _ => Made.Moved.value
  cases hv with
  | atom a =>
    cases hx with
    | atom b =>
      cases a with
      | str text =>
        cases b with
        | str text' => exact .ok (.value (.atom _))
        | none | bool | int | num => exact floats
      | none | bool | int | num => exact floats
    | ref h => cases a <;> exact floats
  | @ref a b ha =>
    cases hx with
    | atom c =>
      simp only [Store.plus, Store.object?]
      have hxs := hs.read ha
      generalize s.read a = o, t.read b = o' at hxs ⊢
      cases hxs <;> exact floats
    | @ref c d hc =>
      simp only [Store.plus, Store.object?]
      have hxs := hs.read ha
      have hys := hs.read hc
      generalize s.read a = o, t.read b = o', s.read c = p, t.read d = p' at hxs hys ⊢
      cases hxs <;> cases hys <;> try exact floats
      case list.list hxs _ _ hys => exact .ok (.object (.list (List.rel_append hxs hys)))

theorem binary_moved (op : BinaryOp) :
    Concur (Made.Moved L) (s.binary op v x) (t.binary op w y) := by
  have others := concur_map (operate_moved hs hv hx op) (f := Made.value) (g := Made.value)
    fun _ _ => Made.Moved.value
  cases op with
  | add => exact plus_moved hs hv hx
  | _ => exact others

omit hx in
theorem unary_moved (op : UnaryOp) : Concur (Value.Moved L) (s.unary op v) (t.unary op w) := by
  simp only [Store.unary, float?_moved hv, truthy_moved hs hv, typeName_moved hs hv,
    toInt_moved hs hv]
  split
  · exact .ok (.atom _)
  · exact .error _
  · exact concur_bind_same fun _ => .ok (.atom _)
  · exact concur_bind_same fun _ => .ok (.atom _)
  · iterate 2 refine concur_bind_same fun _ => ?_
    exact .ok (.atom _)
  · exact .error _

end Operators

section Functions

structure Call.Moved (L : Link) (c d : Call) : Prop where
  args : List.Forall₂ (Value.Moved L) c.args d.args
  named : Table.Paired Eq (Value.Moved L) c.named d.named
  location : c.location = d.location

variable {args args' : List Value} {named named' : Table String Value}
  (ha : List.Forall₂ (Value.Moved L) args args')
  (hn : Table.Paired Eq (Value.Moved L) named named')

theorem accepts_moved {σ : Type} (b : Builtin σ) {c d : Call} (hc : c.Moved L d) :
    b.accepts c = b.accepts d := by
  simp only [Builtin.accepts, hc.args.length_eq, Table.keys_alike hc.named]

theorem bindNamed_moved (callee : String) (free : List String) {bound bound' : Table String Value}
    (hb : Table.Paired Eq (Value.Moved L) bound bound')
    (hn : Table.Paired Eq (Value.Moved L) named named') :
    Concur (Table.Paired Eq (Value.Moved L)) (bindNamed callee free bound named)
      (bindNamed callee free bound' named') := by
  induction hn generalizing bound bound' with
  | nil => exact .ok hb
  | @cons p q _ _ hpq _ ih =>
    obtain ⟨key, v⟩ := p
    obtain ⟨key', w⟩ := q
    obtain ⟨rfl, hv⟩ := hpq
    simp only [bindNamed, Table.has_alike hb]
    split_ifs
    · exact .error _
    · exact ih (Table.put_alike hb key hv)
    · exact .error _

include ha hn

theorem bindArguments_moved (callee : String) (params : List String) (implicit : Nat) :
    Concur (Table.Paired Eq (Value.Moved L)) (bindArguments callee params args named implicit)
      (bindArguments callee params args' named' implicit) := by
  have empty : named.isEmpty = named'.isEmpty := by cases hn <;> rfl
  have positional : Table.Paired Eq (Value.Moved L) (params.zip args) (params.zip args') := by
    induction ha generalizing params with
    | nil => simp
    | cons hvw _ ih =>
      cases params with
      | nil => exact .nil
      | cons p params => exact .cons ⟨rfl, hvw⟩ (ih params)
  simp only [bindArguments, ha.length_eq, hn.length_eq, empty]
  split_ifs
  · exact .error _
  · refine concur_bind (bindNamed_moved callee _ (Table.ofList_alike positional) hn) ?_
    intro bound bound' hb
    simp only [Table.has_alike hb]
    cases params.find? (!bound'.has ·) with
    | some p => exact .error _
    | none => exact .ok hb

omit ha hn in
theorem sortingKey?_moved (ha : List.Forall₂ (Value.Moved L) args args')
    (hn : Table.Paired Eq (Value.Moved L) named named') :
    Option.Rel (Value.Moved L) (Act.sortingKey? named args)
      (Act.sortingKey? named' args') := by
  have key : Option.Rel (Value.Moved L) (args.head?.or (named.get? "key"))
      (args'.head?.or (named'.get? "key")) := by
    cases ha with
    | nil => exact Table.get?_alike hn "key"
    | cons hvw _ => exact .some hvw
  unfold Act.sortingKey?
  match args.head?.or _, args'.head?.or _, key with
  | _, _, .none => exact .none
  | _, _, .some (.ref h) => exact .some (.ref h)
  | _, _, .some (.atom a) =>
    cases a with
    | none => exact .none
    | bool | int | num | str => exact .some (.atom _)

omit hn

variable (hs : s.Moved L t)

include hs

theorem extreme_moved (rule : String) (beats : Ordering) :
    Concur (Value.Moved L) (s.extreme rule beats args) (t.extreme rule beats args') := by
  have best {v w : Value} (hv : v.Moved L w) {xs ys : List Value}
      (h : List.Forall₂ (Value.Moved L) xs ys) := concur_foldlM h hv
    (f := fun best y => return if (← s.compare y best) == beats then y else best)
    (g := fun best y => return if (← t.compare y best) == beats then y else best)
    fun v w x y hv hx => by
      rw [compare_moved hs hx hv]
      refine concur_bind_same fun o => ?_
      split
      · exact .ok hx
      · exact .ok hv
  cases ha with
  | nil => exact .error _
  | cons hv ha =>
    cases ha with
    | cons hw ha => exact best hv (.cons hw ha)
    | nil =>
      refine concur_bind (items_moved hs hv) fun xs ys h => ?_
      cases h with
      | nil => exact .error _
      | cons hx h => exact best hx h

theorem rangeItems_moved :
    Concur (List.Forall₂ (Value.Moved L)) (s.rangeItems args) (t.rangeItems args') := by
  have bounds : args.mapM (s.toInt · "range") = args'.mapM (t.toInt · "range") :=
    mapM_congr ha fun _ _ hv => toInt_moved hs hv "range"
  simp only [Store.rangeItems, bounds]
  refine concur_bind_same fun bounds => ?_
  split <;> split
  all_goals first
    | exact .error _
    | refine concur_mapM (P := Eq) (List.forall₂_eq_eq_eq ▸ rfl) ?_
      rintro i _ rfl
      exact concur_bind_same fun x => .ok (.atom _)

theorem sortBy_moved (reversed : Bool) {items items' : List Value}
    (hi : List.Forall₂ (Value.Moved L) items items') :
    Concur (List.Forall₂ (Value.Moved L)) (s.sortBy reversed args items)
      (t.sortBy reversed args' items') := by
  let Pair (p q : Value × Value) : Prop := p.1.Moved L q.1 ∧ p.2.Moved L q.2
  have pairs : List.Forall₂ Pair (args.zip items) (args'.zip items') := by
    induction ha generalizing items items' with
    | nil => exact .nil
    | cons hk _ ih =>
      cases hi with
      | nil => exact .nil
      | cons hv hi => exact .cons ⟨hk, hv⟩ (ih hi)
  refine concur_bind (stableSort_congr ?_ reversed pairs) fun ps qs h => .ok ?_
  · intro p q p' q' hp hq
    simp only [compare_moved hs hp.1 hq.1]
  · exact List.rel_map (fun _ _ h => h.2) h

end Functions

end LoopScript
