import LoopScript.Table
import Mathlib.Data.List.Forall2
import Mathlib.Data.List.Nodup

/-!
Tables: what becomes of their entries, and tables with corresponding entries.
-/

namespace LoopScript

namespace Table

variable {κ κ' ν ν' : Type}

@[simp] theorem keys_append (t u : Table κ ν) : keys (t ++ u) = t.keys ++ u.keys :=
  List.map_append

@[simp] theorem keys_cons (k : κ) (v : ν) (t : Table κ ν) : keys ((k, v) :: t) = k :: t.keys := rfl

@[simp] theorem keys_nil : keys ([] : Table κ ν) = [] := rfl

theorem keys_zip (names : List κ) (values : List ν) :
    keys (names.zip values) = names.take values.length := by
  induction names generalizing values with
  | nil => simp [keys]
  | cons k names ih =>
    cases values with
    | nil => rfl
    | cons v values => exact congrArg (k :: ·) (ih values)

section Entries

variable [BEq κ] [LawfulBEq κ]

theorem get?_put_self (t : Table κ ν) (key : κ) (value : ν) :
    (t.put key value).get? key = some value := by
  induction t with
  | nil => simp [put, get?]
  | cons e t ih =>
    obtain ⟨k, v⟩ := e
    by_cases h : k = key <;> simp [put, get?, h, ih]

theorem get?_put_of_ne (t : Table κ ν) {key other : κ} (value : ν) (h : key ≠ other) :
    (t.put key value).get? other = t.get? other := by
  induction t with
  | nil => simp [put, get?, h]
  | cons e t ih =>
    obtain ⟨k, v⟩ := e
    by_cases hk : k = key
    · subst hk
      simp [put, get?, h]
    · simp [put, get?, hk, ih]

theorem mem_of_get? {t : Table κ ν} {key : κ} {value : ν} (h : t.get? key = some value) :
    (key, value) ∈ t := by
  induction t with
  | nil => cases h
  | cons e t ih =>
    obtain ⟨k, v⟩ := e
    simp only [get?] at h
    split at h
    · next hk =>
      cases h
      rw [eq_of_beq hk]
      exact List.mem_cons_self
    · exact List.mem_cons_of_mem _ (ih h)

theorem mem_put {t : Table κ ν} {key : κ} {value : ν} {e : κ × ν} (h : e ∈ t.put key value) :
    e ∈ t ∨ e = (key, value) := by
  induction t with
  | nil => exact .inr (List.mem_singleton.mp h)
  | cons d t ih =>
    obtain ⟨k, v⟩ := d
    simp only [put] at h
    split at h
    · next hk =>
      rw [eq_of_beq hk] at h
      exact (List.mem_cons.mp h).symm.imp_left (List.mem_cons_of_mem _)
    · rcases List.mem_cons.mp h with rfl | h
      · exact .inl List.mem_cons_self
      · exact (ih h).imp_left (List.mem_cons_of_mem _)

theorem get?_of_mem {t : Table κ ν} (hn : t.keys.Nodup) {key : κ} {value : ν}
    (h : (key, value) ∈ t) : t.get? key = some value := by
  induction t with
  | nil => cases h
  | cons e t ih =>
    obtain ⟨k, v⟩ := e
    obtain ⟨fresh, hn⟩ := List.nodup_cons.mp hn
    rcases List.mem_cons.mp h with h | h
    · cases h
      simp [get?]
    · have key_mem : key ∈ keys t := List.mem_map_of_mem h
      have hk : k ≠ key := fun e => fresh (e ▸ key_mem)
      simp [get?, hk, ih hn h]

theorem has_put (t : Table κ ν) (key other : κ) (value : ν) :
    (t.put key value).has other = (key == other || t.has other) := by
  by_cases h : key = other
  · simp [has, h, get?_put_self]
  · simp [has, h, get?_put_of_ne t value h]

theorem get?_erase_of_ne (t : Table κ ν) {key other : κ} (h : key ≠ other) :
    (t.erase key).get? other = t.get? other := by
  induction t with
  | nil => rfl
  | cons e t ih =>
    obtain ⟨k, v⟩ := e
    by_cases hk : k = key
    · subst hk
      simp [erase, get?, h]
    · simp [erase, get?, hk, ih]

theorem get?_eq_none_iff {t : Table κ ν} {key : κ} : t.get? key = none ↔ key ∉ t.keys := by
  induction t with
  | nil => simp [get?, keys]
  | cons e t ih =>
    obtain ⟨k, v⟩ := e
    by_cases h : k = key
    · simp [get?, keys, h]
    · simp only [keys] at ih
      simp [get?, keys, h, ih, Ne.symm h]

theorem has_iff {t : Table κ ν} {key : κ} : t.has key = true ↔ key ∈ t.keys := by
  rw [has, Option.isSome_iff_ne_none, ne_eq, get?_eq_none_iff, not_not]

theorem put_of_not_mem {t : Table κ ν} {key : κ} (h : key ∉ t.keys) (value : ν) :
    t.put key value = t ++ [(key, value)] := by
  induction t with
  | nil => rfl
  | cons e t ih =>
    obtain ⟨k, v⟩ := e
    obtain ⟨hk, ht⟩ := not_or.mp (mt List.mem_cons.mpr h)
    simp [put, beq_eq_false_iff_ne.mpr (Ne.symm hk), ih ht]

theorem keys_erase (t : Table κ ν) (key : κ) : (t.erase key).keys = t.keys.erase key := by
  induction t with
  | nil => rfl
  | cons e t ih =>
    obtain ⟨k, v⟩ := e
    simp only [keys] at ih
    by_cases h : k = key <;> simp [erase, keys, h, ih]

theorem mem_keys_put {t : Table κ ν} {key other : κ} {value : ν} :
    other ∈ (t.put key value).keys ↔ other = key ∨ other ∈ t.keys := by
  induction t with
  | nil => simp [put, keys]
  | cons e t ih =>
    obtain ⟨k, v⟩ := e
    simp only [keys] at ih
    by_cases h : k = key
    · simp [put, keys, h]
    · simp [put, keys, h, ih, or_left_comm]

theorem nodup_keys_put {t : Table κ ν} (h : t.keys.Nodup) (key : κ) (value : ν) :
    (t.put key value).keys.Nodup := by
  induction t with
  | nil => simp [put, keys]
  | cons e t ih =>
    obtain ⟨k, v⟩ := e
    have tail := List.nodup_cons.mp h
    by_cases hk : k = key
    · simp only [put, hk, beq_self_eq_true, if_true]
      exact hk ▸ h
    · have fresh : k ∉ (Table.put t key value).keys := by
        rw [mem_keys_put]
        rintro (rfl | hm)
        · exact hk rfl
        · exact tail.1 hm
      simp only [put, beq_eq_false_iff_ne.mpr hk, Bool.false_eq_true, if_false]
      exact List.nodup_cons.mpr ⟨fresh, ih tail.2⟩

theorem keys_put_sublist (t : Table κ ν) (key : κ) (value : ν) :
    (t.put key value).keys.Sublist (t.keys ++ [key]) := by
  induction t with
  | nil => exact .refl _
  | cons e t ih =>
    obtain ⟨k, v⟩ := e
    by_cases hk : k = key
    · simp only [put, hk, beq_self_eq_true, if_true, keys_cons]
      exact List.sublist_append_left _ _
    · simp only [put, beq_eq_false_iff_ne.mpr hk, Bool.false_eq_true, if_false, keys_cons]
      exact ih.cons_cons k

theorem foldl_put_of_nodup {t entries : Table κ ν} (h : (t.keys ++ entries.keys).Nodup) :
    entries.foldl (fun t (k, v) => t.put k v) t = t ++ entries := by
  induction entries generalizing t with
  | nil => exact (List.append_nil t).symm
  | cons e entries ih =>
    obtain ⟨k, v⟩ := e
    have fresh : k ∉ t.keys := by
      intro hk
      exact List.disjoint_of_nodup_append h hk List.mem_cons_self
    change entries.foldl (fun t (k, v) => t.put k v) (t.put k v) = _
    rw [put_of_not_mem fresh, ih]
    · simp
    · simpa using h

theorem ofList_of_nodup {entries : Table κ ν} (h : entries.keys.Nodup) : ofList entries = entries :=
  foldl_put_of_nodup (t := []) h

theorem get?_foldl_put_of_not_mem {entries : Table κ ν} {key : κ} (h : key ∉ entries.keys)
    (t : Table κ ν) : (entries.foldl (fun t (k, v) => t.put k v) t).get? key = t.get? key := by
  induction entries generalizing t with
  | nil => rfl
  | cons e entries ih =>
    obtain ⟨hne, hrest⟩ := not_or.mp (mt List.mem_cons.mpr h)
    exact (ih hrest _).trans (get?_put_of_ne t _ (Ne.symm hne))

theorem get?_foldl_put_of_mem {entries : Table κ ν} (hn : entries.keys.Nodup) {e : κ × ν}
    (h : e ∈ entries) (t : Table κ ν) :
    (entries.foldl (fun t (k, v) => t.put k v) t).get? e.1 = some e.2 := by
  induction entries generalizing t with
  | nil => cases h
  | cons d entries ih =>
    obtain ⟨fresh, hn⟩ := List.nodup_cons.mp hn
    rcases List.mem_cons.mp h with rfl | h
    · exact (get?_foldl_put_of_not_mem fresh _).trans (get?_put_self t _ _)
    · exact ih hn h _

theorem nodup_keys_ofList (entries : List (κ × ν)) : (ofList entries).keys.Nodup := by
  refine List.foldlRecOn (motive := fun t : Table κ ν => t.keys.Nodup) entries _ List.nodup_nil ?_
  exact fun _ h e _ => nodup_keys_put h e.1 e.2

theorem mem_keys_ofList {entries : List (κ × ν)} {key : κ} (h : key ∈ (ofList entries).keys) :
    key ∈ entries.map (·.1) := by
  revert h
  refine List.foldlRecOn (motive := fun t : Table κ ν => key ∈ t.keys → _) entries _
    (fun h => (List.not_mem_nil h).elim) fun _ ih e he h => ?_
  rcases mem_keys_put.mp h with rfl | h
  · exact List.mem_map_of_mem he
  · exact ih h

end Entries

abbrev Paired (R : κ → κ' → Prop) (S : ν → ν' → Prop) : Table κ ν → Table κ' ν' → Prop :=
  List.Forall₂ fun p q => R p.1 q.1 ∧ S p.2 q.2

section Paired

variable [BEq κ] [BEq κ'] {R : κ → κ' → Prop} {S : ν → ν' → Prop} {t : Table κ ν} {u : Table κ' ν'}
  {key : κ} {key' : κ'}

theorem get?_paired (h : Paired R S t u) (hk : ∀ k k', R k k' → (k == key) = (k' == key')) :
    Option.Rel S (t.get? key) (u.get? key') := by
  induction h with
  | nil => exact .none
  | cons hab _ ih =>
    simp only [get?, hk _ _ hab.1]
    split
    · exact .some hab.2
    · exact ih

theorem has_paired (h : Paired R S t u) (hk : ∀ k k', R k k' → (k == key) = (k' == key')) :
    t.has key = u.has key' := by
  unfold has
  match t.get? key, u.get? key', get?_paired h hk with
  | _, _, .none => rfl
  | _, _, .some _ => rfl

theorem put_paired (h : Paired R S t u) (hk : ∀ k k', R k k' → (k == key) = (k' == key'))
    (hkey : R key key') {v : ν} {w : ν'} (hv : S v w) : Paired R S (t.put key v) (u.put key' w) := by
  induction h with
  | nil => exact .cons ⟨hkey, hv⟩ .nil
  | cons hab hrest ih =>
    simp only [put, hk _ _ hab.1]
    split
    · exact .cons ⟨hab.1, hv⟩ hrest
    · exact .cons hab ih

omit [BEq κ] [BEq κ'] in
theorem keys_paired (h : Paired R S t u) : List.Forall₂ R t.keys u.keys :=
  List.rel_map (fun _ _ hp => hp.1) h

end Paired

section Alike

variable [BEq κ] {S : ν → ν' → Prop} {t : Table κ ν} {u : Table κ ν'}

theorem get?_alike (h : Paired Eq S t u) (key : κ) : Option.Rel S (t.get? key) (u.get? key) :=
  get?_paired h fun _ _ e => by rw [e]

theorem has_alike (h : Paired Eq S t u) (key : κ) : t.has key = u.has key :=
  has_paired h fun _ _ e => by rw [e]

theorem put_alike (h : Paired Eq S t u) (key : κ) {v : ν} {w : ν'} (hv : S v w) :
    Paired Eq S (t.put key v) (u.put key w) :=
  put_paired h (fun _ _ e => by rw [e]) rfl hv

omit [BEq κ] in
theorem keys_alike (h : Paired Eq S t u) : t.keys = u.keys := by
  have alike := keys_paired h
  rwa [List.forall₂_eq_eq_eq] at alike

theorem ofList_alike (h : Paired Eq S t u) : Paired Eq S (ofList t) (ofList u) := by
  have puts : ∀ {r : Table κ ν} {r' : Table κ ν'}, Paired Eq S r r' →
      Paired Eq S (t.foldl (fun t (k, v) => t.put k v) r)
        (u.foldl (fun t (k, v) => t.put k v) r') := by
    induction h with
    | nil => exact id
    | @cons p q _ _ hab _ ih =>
      obtain ⟨k, v⟩ := p
      obtain ⟨k', w⟩ := q
      obtain ⟨rfl, hv⟩ := hab
      exact fun hr => ih (put_alike hr k hv)
  exact puts .nil

end Alike

section Map

variable {f : κ → κ'} {u : ν → ν'}

theorem paired_map_iff {t : Table κ ν} {t' : Table κ' ν'} :
    Paired (fun k k' => f k = k') (fun v w => u v = w) t t' ↔ t.map (Prod.map f u) = t' := by
  rw [← List.forall₂_eq_eq_eq, List.forall₂_map_left_iff]
  simp only [Prod.ext_iff, Prod.map]

theorem keys_map (t : Table κ ν) : keys (t.map (Prod.map f u)) = t.keys.map f := by
  simp [keys, Function.comp_def]

variable [BEq κ] [BEq κ']

theorem get?_map (hf : ∀ a b, (f a == f b) = (a == b)) (t : Table κ ν) (key : κ) :
    get? (t.map (Prod.map f u)) (f key) = (t.get? key).map u := by
  have found : Option.Rel (u · = ·) (t.get? key) (get? (t.map (Prod.map f u)) (f key)) :=
    get?_paired (paired_map_iff.mpr rfl) fun k _ hk => hk ▸ (hf k key).symm
  generalize t.get? key = x, get? (t.map (Prod.map f u)) (f key) = y at found ⊢
  cases found with
  | none => rfl
  | some h => rw [Option.map_some, h]

theorem has_map (hf : ∀ a b, (f a == f b) = (a == b)) (t : Table κ ν) (key : κ) :
    has (t.map (Prod.map f u)) (f key) = t.has key := by
  rw [has, get?_map hf, Option.isSome_map, has]

theorem put_map (hf : ∀ a b, (f a == f b) = (a == b)) (t : Table κ ν) (key : κ) (v : ν) :
    put (t.map (Prod.map f u)) (f key) (u v) = (t.put key v).map (Prod.map f u) :=
  (paired_map_iff.mp (put_paired (paired_map_iff.mpr rfl) (fun k _ hk => hk ▸ (hf k key).symm)
    rfl rfl)).symm

theorem get?_values (t : Table κ ν) (key : κ) :
    get? (t.map (Prod.map id u)) key = (t.get? key).map u :=
  get?_map (f := id) (fun _ _ => rfl) t key

theorem has_values (t : Table κ ν) (key : κ) : has (t.map (Prod.map id u)) key = t.has key :=
  has_map (f := id) (fun _ _ => rfl) t key

theorem put_values (t : Table κ ν) (key : κ) (v : ν) :
    put (t.map (Prod.map id u)) key (u v) = (t.put key v).map (Prod.map id u) :=
  put_map (f := id) (fun _ _ => rfl) t key v

theorem ofList_values (t : List (κ × ν)) :
    ofList (t.map (Prod.map id u)) = (ofList t).map (Prod.map id u) := by
  have alike := ofList_alike (paired_map_iff (f := id) (u := u).mpr (rfl : t.map _ = _))
  exact (paired_map_iff.mp alike).symm

end Map

end Table

end LoopScript
