import LoopScript.Proofs.Decimal.Exactness
import LoopScript.Proofs.Machine.Grounded
import LoopScript.Proofs.Relocation.Nesting
import LoopScript.Value.Access

/-!
Items of lists and dictionaries. Reading an item and setting one go to the same place of a list, or to
the same entry of a dictionary, and an item that is set changes nothing else.
-/

namespace LoopScript

open Decimal

/-- The number that a value stands for as an index. A whole number of the host stands for the float
nearest to it. -/
def Value.number? : Value → Option ℚ
  | .bool b => some (if b then 1 else 0)
  | .int i => (ofInt? i).map exact
  | .num x => if classOf x = .finite then some (exact x) else Option.none
  | _ => Option.none

/-- The indexes that a sequence takes: the whole numbers from `-n` up to, but not including, `n`. -/
def Value.InRange (n : Nat) (index : Value) : Prop :=
  ∃ z : Int, index.number? = some (z : ℚ) ∧ -n ≤ z ∧ z < n

/-- An index means a place of a sequence: it is the number of that place, counted from the start or from
the end. -/
def Value.Means (n : Nat) (index : Value) (p : Nat) : Prop :=
  p < n ∧ (index.number? = some (p : ℚ) ∨ index.number? = some ((p : ℚ) - n))

section Numbers

variable {s : Store} {index : Value} {z : Int} {n p : Nat}

theorem classOf_of_ofInt? {i : Int} {x : Float} (h : ofInt? i = some x) :
    x = Float.ofInt i ∧ classOf x = .finite := by
  simp only [ofInt?] at h
  split at h
  · next finite => exact ⟨(Option.some.inj h).symm, Option.some.inj h ▸ finite⟩
  · cases h

theorem number?_int (i : Int) (h : i.natAbs < 2 ^ 53) : (Value.int i).number? = some (i : ℚ) := by
  have within : i.natAbs < limit := h.trans (by decide +kernel)
  obtain ⟨x, hx⟩ := Option.isSome_iff_exists.mp (ofInt?_isSome within)
  rw [Value.number?, hx, Option.map_some, (classOf_of_ofInt? hx).1, exact_ofInt h]

theorem toIndex_of_float? {x : Float} (h : Store.float? index = some (.ok x)) :
    s.toIndex index = .ok z ↔ (if classOf x = .finite then some (exact x) else none) = some (z : ℚ) := by
  have step : s.toIndex index =
      if classOf x = .finite ∧ isWhole (exact x) then .ok (exact x).num
      else .error (.of (.indexNotWhole (display x))) := by
    rw [Store.toIndex, h]
    rfl
  rw [step]
  by_cases finite : classOf x = .finite
  · rw [if_pos finite, Option.some.injEq, ← isWhole_iff]
    by_cases whole : isWhole (exact x) = true
    · simp [finite, whole]
    · simp [whole]
  · simp [finite]

/-- An index is taken as the number that it stands for, if that is a whole one. -/
theorem toIndex_eq_ok_iff : s.toIndex index = .ok z ↔ index.number? = some (z : ℚ) := by
  have neither {v : Value} (h : s.toIndex v ≠ .ok z) (h' : v.number? = none) :
      s.toIndex v = .ok z ↔ v.number? = some (z : ℚ) := by simp [h, h']
  cases index with
  | ref a => exact neither (fun h => by cases h) rfl
  | atom c =>
    cases c with
    | none | str t => exact neither (fun h => by cases h) rfl
    | num x => exact toIndex_of_float? rfl
    | bool b =>
      have float : Store.float? (.bool b) = some (.ok (if b then 1.0 else 0.0)) := rfl
      rw [toIndex_of_float? float]
      cases b with
      | false =>
        have zero : exact 0.0 = 0 := by decide +kernel
        simp only [Bool.false_eq_true, if_false, zero, Value.number?]
        rfl
      | true =>
        have one : exact 1.0 = 1 := by decide +kernel
        simp only [if_true, one, Value.number?]
        rfl
    | int i =>
      cases h : ofInt? i with
      | none =>
        have float :
            Store.float? (.int i) = some (.error (.foreign "int too large to convert to float")) := by
          simp only [Store.float?, Atom.float?, floatOfInt, h]
        refine neither ?_ (by rw [Value.number?, h, Option.map_none])
        rw [Store.toIndex, float]
        intro h
        cases h
      | some x =>
        have float : Store.float? (.int i) = some (.ok x) := by
          simp only [Store.float?, Atom.float?, floatOfInt, h]
        rw [toIndex_of_float? float, if_pos (classOf_of_ofInt? h).2, Value.number?, h,
          Option.map_some]

theorem place?_eq_some_iff : place? n z = some p ↔ p < n ∧ (z = p ∨ z = (p : Int) - n) := by
  have place : place? n z = if 0 ≤ (if z < 0 then z + n else z) ∧ (if z < 0 then z + n else z) < n
      then some (if z < 0 then z + n else z).toNat else none := rfl
  rw [place]
  by_cases inside : 0 ≤ (if z < 0 then z + n else z) ∧ (if z < 0 then z + n else z) < n
  · rw [if_pos inside, Option.some.injEq]
    omega
  · rw [if_neg inside]
    simp only [reduceCtorEq, false_iff]
    omega

theorem means_iff : index.Means n p ↔ ∃ z, s.toIndex index = .ok z ∧ place? n z = some p := by
  simp only [toIndex_eq_ok_iff, place?_eq_some_iff]
  constructor
  · rintro ⟨hp, same | same⟩
    · exact ⟨p, by rw [same]; norm_cast, hp, .inl rfl⟩
    · exact ⟨(p : Int) - n, by rw [same]; norm_cast, hp, .inr rfl⟩
  · rintro ⟨z, same, hp, rfl | rfl⟩
    · exact ⟨hp, .inl (by rw [same]; norm_cast)⟩
    · exact ⟨hp, .inr (by rw [same]; norm_cast)⟩

theorem means_place {q : Nat} (h : index.Means n p) (h' : index.Means n q) : p = q := by
  obtain ⟨z, hz, hp⟩ := (means_iff (s := .empty)).mp h
  obtain ⟨y, hy, hq⟩ := (means_iff (s := .empty)).mp h'
  cases hz.symm.trans hy
  exact Option.some.inj (hp.symm.trans hq)

theorem exists_means_iff : (∃ p, index.Means n p) ↔ index.InRange n := by
  simp only [Value.InRange, means_iff (s := .empty), toIndex_eq_ok_iff, place?_eq_some_iff]
  constructor
  · rintro ⟨p, z, same, hp⟩
    exact ⟨z, same, by omega, by omega⟩
  · rintro ⟨z, same, low, high⟩
    by_cases negative : z < 0
    · exact ⟨(z + n).toNat, z, same, by omega, by omega⟩
    · exact ⟨z.toNat, z, same, by omega, by omega⟩

/-- A list that is not too long takes a whole number of the host if that is within the bounds itself. -/
theorem inRange_int_iff {i : Int} (hn : n < 2 ^ 53) :
    (Value.int i).InRange n ↔ -n ≤ i ∧ i < n := by
  unfold Value.InRange
  by_cases few : i.natAbs < 2 ^ 53
  · simp only [number?_int i few, Option.some.injEq, Int.cast_inj]
    constructor
    · rintro ⟨z, rfl, inside⟩
      exact inside
    · exact fun inside => ⟨i, rfl, inside⟩
  · refine iff_of_false ?_ (by omega)
    rintro ⟨z, number, low, high⟩
    simp only [Value.number?, Option.map_eq_some_iff] at number
    obtain ⟨x, hx, same⟩ := number
    obtain ⟨rfl, finite⟩ := classOf_of_ofInt? hx
    obtain ⟨above, below⟩ := exact_ofInt_large finite
    rw [same] at above below
    by_cases positive : 0 ≤ i
    · have large : 2 ^ 53 ≤ z := by exact_mod_cast above (by omega)
      omega
    · have large : z ≤ -2 ^ 53 := by exact_mod_cast below (by omega)
      omega

end Numbers

namespace Table

variable {κ ν : Type} [BEq κ] [PartialEquivBEq κ] {t : Table κ ν} {key other : κ} {value : ν}

theorem get?_put_of_same (h : (key == other) = true) : (t.put key value).get? other = some value := by
  induction t with
  | nil => simp [put, get?, h]
  | cons e t ih =>
    obtain ⟨k, v⟩ := e
    simp only [put]
    split
    · next same => simp [get?, BEq.trans same h]
    · next apart =>
      have passed : ¬ (k == other) = true := fun same => apart (BEq.trans same (BEq.symm h))
      simpa only [get?, if_neg passed] using ih

theorem get?_put_of_other (h : ¬ (key == other) = true) :
    (t.put key value).get? other = t.get? other := by
  induction t with
  | nil => simp [put, get?, h]
  | cons e t ih =>
    obtain ⟨k, v⟩ := e
    simp only [put]
    split
    · next same =>
      have passed : ¬ (k == other) = true := fun found => h (BEq.trans (BEq.symm same) found)
      simp only [get?, if_neg passed]
    · simp only [get?, ih]

omit [PartialEquivBEq κ] in
/-- A key that is there keeps its place, and a new one comes after all others. -/
theorem keys_put (t : Table κ ν) (key : κ) (value : ν) :
    (t.put key value).keys = if t.has key then t.keys else t.keys ++ [key] := by
  induction t with
  | nil => rfl
  | cons e t ih =>
    obtain ⟨k, v⟩ := e
    by_cases same : (k == key) = true
    · simp [put, has, get?, same, keys]
    · simp only [put, has, get?, if_neg same, keys_cons]
      rw [ih, has]
      split <;> rfl

end Table

/-- What an object may become when an item of it is set: a list stays a list, a dictionary stays one, and
all other objects stay as they are. -/
inductive Obj.Refilled : Obj → Obj → Prop where
  | same (o : Obj) : Refilled o o
  | list (xs ys : List Value) : Refilled (.list xs) (.list ys)
  | dict (es fs : Table Value Value) : Refilled (.dict es) (.dict fs)

namespace Store

section Refilled

variable {s t : Store} (h : ∀ a, (s.read a).Refilled (t.read a))

include h

theorem className_refilled (a : Addr) : t.className a = s.className a := by
  have ha := h a
  unfold className
  generalize s.read a = o, t.read a = p at ha ⊢
  cases ha <;> rfl

theorem functionName_refilled (a : Addr) : t.functionName a = s.functionName a := by
  have ha := h a
  unfold functionName
  generalize s.read a = o, t.read a = p at ha ⊢
  cases ha <;> rfl

theorem typeName_refilled (v : Value) : t.typeName v = s.typeName v := by
  cases v with
  | atom a => cases a <;> rfl
  | ref a =>
    have ha := h a
    simp only [typeName]
    generalize s.read a = o, t.read a = p at ha ⊢
    cases ha with
    | same o => cases o <;> simp only [className_refilled h]
    | list | dict => rfl

theorem toIndex_refilled (v : Value) : t.toIndex v = s.toIndex v := by
  unfold toIndex
  rw [typeName_refilled h v]

theorem requireKey_refilled (v : Value) : t.requireKey v = s.requireKey v := by
  cases v with
  | atom a => rfl
  | ref a =>
    have ha := h a
    have name := typeName_refilled h (.ref a)
    simp only [requireKey, object?]
    generalize s.read a = o, t.read a = p at ha ⊢
    cases ha with
    | same o => cases o <;> simp only [name]
    | list | dict => simp only [name]

/-- The text of what may be a key shows the contents of no container. -/
theorem text_refilled {v : Value} (hv : s.requireKey v = .ok ()) : t.text v = s.text v := by
  cases v with
  | atom a => rfl
  | ref a =>
    have ha := h a
    rw [requireKey_ref_iff] at hv
    rw [text, text, textWithin_succ, textWithin_succ]
    generalize s.read a = o, t.read a = p at ha hv ⊢
    cases ha with
    | list | dict => cases hv
    | same o =>
      cases o with
      | list | dict => cases hv
      | instance_ c fields => simp only [textOf, className_refilled h]
      | method r f => simp only [textOf, typeName_refilled h, functionName_refilled h]
      | _ => rfl

end Refilled

section Lists

variable {s : Store} {base index v x : Value} {xs : List Value} {a : Addr} {o : Obj} {p : Nat}

theorem getIndex_list (hb : s.object? base = some (.list xs)) (index : Value) :
    s.getIndex base index = s.toIndex index >>= fun z =>
      ((place? xs.length z).bind (xs[·]?)).elim (.error (.of .listIndex)) .ok := by
  cases base with
  | atom c => cases hb
  | ref a =>
    simp only [getIndex, hb]
    congr 1
    funext z
    cases (place? xs.length z).bind (xs[·]?) <;> rfl

theorem getIndex_list_eq_ok_iff (hb : s.object? base = some (.list xs)) :
    s.getIndex base index = .ok x ↔ ∃ p, index.Means xs.length p ∧ xs[p]? = some x := by
  rw [getIndex_list hb]
  simp only [means_iff (s := s)]
  cases h : s.toIndex index with
  | error f =>
    refine iff_of_false nofun ?_
    rintro ⟨p, ⟨z, hz, -⟩, -⟩
    cases hz
  | ok z =>
    change ((place? xs.length z).bind (xs[·]?)).elim (Except.error (Fault.of .listIndex)) Except.ok =
      .ok x ↔ _
    simp only [Except.ok.injEq, exists_eq_left']
    cases hp : place? xs.length z with
    | none => simp
    | some p => cases hx : xs[p]? <;> simp [hx]

theorem readable_list_iff (hb : s.object? base = some (.list xs)) :
    (∃ x, s.getIndex base index = .ok x) ↔ index.InRange xs.length := by
  rw [← exists_means_iff]
  simp only [getIndex_list_eq_ok_iff hb]
  constructor
  · rintro ⟨x, p, hp, -⟩
    exact ⟨p, hp⟩
  · rintro ⟨p, hp⟩
    exact ⟨xs.get ⟨p, hp.1⟩, p, hp, List.getElem?_eq_getElem hp.1⟩

theorem setIndex_list_eq_ok_iff {b : Addr} (hb : s.read a = .list xs) :
    s.setIndex (.ref a) index v = .ok (b, o) ↔
      b = a ∧ ∃ p, index.Means xs.length p ∧ o = .list (xs.set p v) := by
  simp only [setIndex, hb, means_iff (s := s)]
  cases h : s.toIndex index with
  | error f =>
    simp [bind, Except.bind]
  | ok z =>
    simp only [Except.ok.injEq, exists_eq_left']
    cases hp : place? xs.length z with
    | none => simp [bind, Except.bind, hp]
    | some p => simp [bind, Except.bind, hp, eq_comm]

end Lists

section Dictionaries

variable {s : Store} {base index v x : Value} {es : Table Value Value} {a b : Addr} {o : Obj}

theorem getIndex_dict (hb : s.object? base = some (.dict es)) (index : Value) :
    s.getIndex base index = s.requireKey index >>= fun _ =>
      (es.get? index).elim (s.text index >>= fun t => .error (.of (.keyNotFound t))) .ok := by
  cases base with
  | atom c => cases hb
  | ref a =>
    simp only [getIndex, hb]
    congr 1
    funext _
    cases es.get? index <;> rfl

theorem getIndex_dict_eq_ok_iff (hb : s.object? base = some (.dict es)) :
    s.getIndex base index = .ok x ↔ s.requireKey index = .ok () ∧ es.get? index = some x := by
  rw [getIndex_dict hb]
  cases hk : s.requireKey index with
  | error f => exact iff_of_false nofun nofun
  | ok _ =>
    cases es.get? index with
    | some y =>
      change Except.ok y = .ok x ↔ _
      simp
    | none =>
      change (s.text index >>= fun t => Except.error (Fault.of (.keyNotFound t))) = .ok x ↔ _
      cases s.text index <;> exact iff_of_false nofun nofun

theorem setIndex_dict_eq_ok_iff (hb : s.read a = .dict es) :
    s.setIndex (.ref a) index v = .ok (b, o) ↔
      b = a ∧ s.requireKey index = .ok () ∧ o = .dict (es.put index v) := by
  simp only [setIndex, hb]
  cases hk : s.requireKey index with
  | error f => simp [bind, Except.bind]
  | ok _ =>
    change Except.ok (a, Obj.dict (es.put index v)) = .ok (b, o) ↔ _
    simp [eq_comm]

theorem requireKey_of_same {i j : Value} (same : (i == j) = true) (h : s.requireKey i = .ok ()) :
    s.requireKey j = .ok () := by
  match i, j with
  | .atom c, .atom d => rfl
  | .ref a, .ref b =>
    obtain rfl : a = b := eq_of_beq same
    exact h
  | .atom c, .ref b | .ref a, .atom d => cases same

end Dictionaries

theorem settable_list_iff {s : Store} {base index v : Value} {xs : List Value}
    (hb : s.object? base = some (.list xs)) :
    (∃ r, s.setIndex base index v = .ok r) ↔ index.InRange xs.length := by
  cases base with
  | atom c => cases hb
  | ref a =>
    rw [← exists_means_iff]
    simp only [Prod.exists, setIndex_list_eq_ok_iff (Option.some.inj hb)]
    constructor
    · rintro ⟨b, o, -, p, hp, -⟩
      exact ⟨p, hp⟩
    · rintro ⟨p, hp⟩
      exact ⟨a, _, rfl, p, hp, rfl⟩

/-- Two indexes mean the same item of a list or a dictionary. -/
def SameItem (s : Store) (base i j : Value) : Prop :=
  match s.object? base with
  | some (.list xs) => ∃ p, i.Means xs.length p ∧ j.Means xs.length p
  | some (.dict _) => (i == j) = true
  | _ => False

/-- What setting an item of a list or a dictionary comes to. -/
structure ItemSet (s : Store) (base index v : Value) (t : Store) : Prop where
  scopes : t.scopes = s.scopes
  elsewhere : ∀ a, base ≠ .ref a → t.read a = s.read a
  here : t.getIndex base index = .ok v
  same : ∀ i, s.SameItem base index i → t.getIndex base i = .ok v
  others : ∀ i, ¬ s.SameItem base index i → t.getIndex base i = s.getIndex base i
  readable : ∀ i, (∃ x, t.getIndex base i = .ok x) ↔ (∃ x, s.getIndex base i = .ok x) ∨
    (∃ es, s.object? base = some (.dict es)) ∧ (index == i) = true
  length : ∀ xs, s.object? base = some (.list xs) →
    ∃ ys, t.object? base = some (.list ys) ∧ ys.length = xs.length
  keys : ∀ es, s.object? base = some (.dict es) → ∃ fs, t.object? base = some (.dict fs) ∧
    fs.keys = if es.has index then es.keys else es.keys ++ [index]

section Setting

variable {s : Store} {index v : Value} {a : Addr} {o : Obj}

theorem lt_of_read (h : s.read a ≠ .list []) : a < s.objects.size := by
  by_contra beyond
  exact h (read_of_le (Nat.le_of_not_lt beyond))

theorem read_write_self (ha : a < s.objects.size) : (s.write a o).read a = o := by
  rw [read_write, if_pos ⟨rfl, ha⟩]

theorem read_write_other {b : Addr} (h : b ≠ a) : (s.write a o).read b = s.read b := by
  rw [read_write, if_neg fun e => h e.1.symm]

theorem write_refilled (h : (s.read a).Refilled o) (b : Addr) :
    (s.read b).Refilled ((s.write a o).read b) := by
  rw [read_write]
  split
  · next e => exact e.1 ▸ h
  · exact .same _

theorem itemSet_list {xs : List Value} {p : Nat} (hb : s.read a = .list xs)
    (hp : index.Means xs.length p) :
    s.ItemSet (.ref a) index v (s.write a (.list (xs.set p v))) := by
  have ha : a < s.objects.size := by
    apply lt_of_read
    rintro empty
    cases hb.symm.trans empty
    exact absurd hp.1 (Nat.not_lt_zero p)
  have old : s.object? (.ref a) = some (.list xs) := congrArg some hb
  have new : (s.write a (.list (xs.set p v))).object? (.ref a) = some (.list (xs.set p v)) :=
    congrArg some (read_write_self ha)
  have kinds := write_refilled (s := s) (a := a) (o := .list (xs.set p v)) (hb ▸ .list xs _)
  have size : (xs.set p v).length = xs.length := List.length_set
  have same (i : Value) (h : s.SameItem (.ref a) index i) :
      (s.write a (.list (xs.set p v))).getIndex (.ref a) i = .ok v := by
    simp only [SameItem, old] at h
    obtain ⟨q, hq, hi⟩ := h
    obtain rfl := means_place hp hq
    rw [getIndex_list_eq_ok_iff new]
    exact ⟨p, size ▸ hi, List.getElem?_set_self hp.1⟩
  constructor
  · rfl
  · intro b hne
    exact read_write_other fun e => hne (congrArg Value.ref e.symm)
  · apply same
    simp only [SameItem, old]
    exact ⟨p, hp, hp⟩
  · exact same
  · intro i apart
    simp only [SameItem, old] at apart
    rw [getIndex_list new, getIndex_list old, toIndex_refilled kinds, size]
    cases hz : s.toIndex i with
    | error f => rfl
    | ok z =>
      cases hq : place? xs.length z with
      | none => simp only [hq, bind, Except.bind, Option.bind_none]
      | some q =>
        have hne : p ≠ q := by
          rintro rfl
          exact apart ⟨p, hp, (means_iff (s := s)).mpr ⟨z, hz, hq⟩⟩
        simp only [hq, bind, Except.bind, Option.bind_some, List.getElem?_set_ne hne]
  · intro i
    rw [readable_list_iff new, readable_list_iff old, size, iff_self_or]
    rintro ⟨⟨es, he⟩, -⟩
    cases old.symm.trans he
  · intro ys hy
    cases old.symm.trans hy
    exact ⟨_, new, size⟩
  · intro es he
    cases old.symm.trans he

theorem itemSet_dict {es : Table Value Value} (hb : s.read a = .dict es)
    (hk : s.requireKey index = .ok ()) (hn : index.isNaN = false) :
    s.ItemSet (.ref a) index v (s.write a (.dict (es.put index v))) := by
  have ha : a < s.objects.size := lt_of_read (by rw [hb]; nofun)
  have old : s.object? (.ref a) = some (.dict es) := congrArg some hb
  have new : (s.write a (.dict (es.put index v))).object? (.ref a) = some (.dict (es.put index v)) :=
    congrArg some (read_write_self ha)
  have kinds := write_refilled (s := s) (a := a) (o := .dict (es.put index v)) (hb ▸ .dict es _)
  have same (i : Value) (h : s.SameItem (.ref a) index i) :
      (s.write a (.dict (es.put index v))).getIndex (.ref a) i = .ok v := by
    simp only [SameItem, old] at h
    rw [getIndex_dict_eq_ok_iff new, requireKey_refilled kinds]
    exact ⟨requireKey_of_same h hk, Table.get?_put_of_same h⟩
  have others (i : Value) (h : ¬ s.SameItem (.ref a) index i) :
      (s.write a (.dict (es.put index v))).getIndex (.ref a) i = s.getIndex (.ref a) i := by
    simp only [SameItem, old] at h
    rw [getIndex_dict new, getIndex_dict old, requireKey_refilled kinds, Table.get?_put_of_other h]
    cases hi : s.requireKey i with
    | error f => rfl
    | ok _ => rw [text_refilled kinds hi]
  constructor
  · rfl
  · intro b hne
    exact read_write_other fun e => hne (congrArg Value.ref e.symm)
  · apply same
    simp only [SameItem, old]
    exact Value.beq_self hn
  · exact same
  · exact others
  · intro i
    by_cases h : s.SameItem (.ref a) index i
    · have key : (index == i) = true := by simpa only [SameItem, old] using h
      exact iff_of_true ⟨v, same i h⟩ (.inr ⟨⟨es, old⟩, key⟩)
    · have key : ¬ (index == i) = true := by simpa only [SameItem, old] using h
      rw [others i h, iff_self_or]
      exact fun found => absurd found.2 key
  · intro xs hx
    cases old.symm.trans hx
  · intro fs hf
    cases old.symm.trans hf
    exact ⟨_, new, Table.keys_put es index v⟩

end Setting

end Store

end LoopScript
