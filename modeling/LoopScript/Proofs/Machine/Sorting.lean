import LoopScript.Machine.Core
import LoopScript.Proofs.MergeSort.Correspondence
import LoopScript.Proofs.MergeSort.Stability
import LoopScript.Proofs.Value.Ranks

/-!
What `sorted`, `min` and `max` do with items that have an order. A sort is stable in both directions,
and the first of the least items, as of the greatest ones, is what a sort puts first.
-/

namespace LoopScript

/-- An item of a sort, with the key that it is sorted by and its place among the others. -/
structure Row where
  key : Value
  item : Value
  place : Nat

def rows (keys items : List Value) : List Row :=
  (keys.zip items).zipIdx.map fun p => ⟨p.1.1, p.1.2, p.2⟩

namespace Store

/-- How a key compares with those that come behind it. -/
abbrev leading (reversed : Bool) : Ordering := if reversed then .gt else .lt

/-- One row comes before another by their keys, or by their places if the keys are equal. -/
def Precedes (s : Store) (reversed : Bool) (p q : Row) : Prop :=
  ∃ o, s.compare p.key q.key = .ok o ∧
    (o = leading reversed ∨ o = .eq ∧ p.place < q.place)

/-- The items in the order of their keys, those with equal keys in the order of their places. -/
def StablySorts (s : Store) (reversed : Bool) (keys items sorted : List Value) : Prop :=
  ∃ order : List Row, order.Perm (rows keys items) ∧ order.Pairwise (s.Precedes reversed) ∧
    sorted = order.map (·.item)

/-- Two values that have an order, and in which no undefined number stands. -/
structure Ranked (s : Store) (v w : Value) : Prop where
  left : s.Definite v
  right : s.Definite w
  order : ∃ o, s.compare v w = .ok o

variable {s : Store} {p q r : Row} {reversed : Bool} {keys items sorted : List Value}

theorem Ranked.swap {v w : Value} (h : s.Ranked v w) : s.Ranked w v := by
  obtain ⟨o, ho⟩ := h.order
  exact ⟨h.right, h.left, o.swap, compare_swap h.left h.right ho⟩

section Rows

theorem rows_pairs (keys items : List Value) :
    (rows keys items).map (fun p => (p.key, p.item)) = keys.zip items := by
  rw [rows, List.map_map]
  exact List.zipIdx_map_fst 0 _

theorem rows_item (h : keys.length = items.length) : (rows keys items).map (·.item) = items := by
  have second := congrArg (List.map Prod.snd) (rows_pairs keys items)
  rwa [List.map_map, List.map_snd_zip h.ge] at second

theorem StablySorts.perm (h : s.StablySorts reversed keys items sorted)
    (hn : keys.length = items.length) : sorted.Perm items := by
  obtain ⟨order, perm, -, rfl⟩ := h
  exact rows_item hn ▸ perm.map _

theorem rows_rising (keys items : List Value) :
    (rows keys items).Pairwise fun p q => p.place < q.place := by
  apply List.pairwise_map.mp
  have places : (rows keys items).map (·.place) = List.range' 0 (keys.zip items).length := by
    rw [rows, List.map_map]
    exact List.zipIdx_map_snd 0 _
  exact places ▸ List.pairwise_lt_range'

theorem rows_ranked (hn : keys.length = items.length) (h : keys.Pairwise s.Ranked) :
    (rows keys items).Pairwise fun p q => s.Ranked p.key q.key := by
  have first := congrArg (List.map Prod.fst) (rows_pairs keys items)
  rw [List.map_map, List.map_fst_zip hn.le] at first
  apply List.pairwise_map.mp
  change ((rows keys items).map (Prod.fst ∘ fun p => (p.key, p.item))).Pairwise s.Ranked
  rwa [first]

end Rows

/-- What `Precedes` says, without a look back at the lists that are being compared. -/
def Ahead (s : Store) (reversed : Bool) (p q : Row) : Prop :=
  s.Definite p.key ∧ s.Definite q.key ∧
    ∃ o, (if reversed then s.compareAhead s.pairLimit q.key p.key
      else s.compareAhead s.pairLimit p.key q.key) = .ok o ∧
      (o = .lt ∨ o = .eq ∧ p.place < q.place)

theorem Ahead.trans (h : s.Ahead reversed p q) (h' : s.Ahead reversed q r) :
    s.Ahead reversed p r := by
  obtain ⟨hp, hq, o, ho, hpq⟩ := h
  obtain ⟨-, hr, o', ho', hqr⟩ := h'
  have ngt : o ≠ .gt := by rintro rfl; simp at hpq
  have ngt' : o' ≠ .gt := by rintro rfl; simp at hqr
  refine ⟨hp, hr, ?_⟩
  cases reversed with
  | true =>
    refine ⟨_, compareAhead_chained hr hq hp o' o ho' ho ngt' ngt, ?_⟩
    rcases hpq with rfl | ⟨rfl, hpq⟩ <;> rcases hqr with rfl | ⟨rfl, hqr⟩
    · exact .inl rfl
    · exact .inl rfl
    · exact .inl rfl
    · exact .inr ⟨rfl, hpq.trans hqr⟩
  | false =>
    refine ⟨_, compareAhead_chained hp hq hr o o' ho ho' ngt ngt', ?_⟩
    rcases hpq with rfl | ⟨rfl, hpq⟩ <;> rcases hqr with rfl | ⟨rfl, hqr⟩
    · exact .inl rfl
    · exact .inl rfl
    · exact .inl rfl
    · exact .inr ⟨rfl, hpq.trans hqr⟩

theorem ahead_iff (h : s.Ranked p.key q.key) (reversed : Bool) :
    s.Ahead reversed p q ↔ s.Precedes reversed p q := by
  obtain ⟨o, ho⟩ := h.order
  have upward := compareAhead_of_within ho
  have downward := compareAhead_of_within (compare_swap h.left h.right ho)
  simp only [Ahead, Precedes, h.left, h.right, true_and, ho, Except.ok.injEq, exists_eq_left',
    upward, downward]
  cases reversed <;> cases o <;> simp [leading]

/-- The order of the merges in a sort in either direction. -/
def Onward (s : Store) (reversed : Bool) (p q : Row) : Prop :=
  if reversed then s.Ahead reversed q p else s.Ahead reversed p q

theorem Onward.trans (h : s.Onward reversed p q) (h' : s.Onward reversed q r) :
    s.Onward reversed p r := by
  cases reversed with
  | true => exact Ahead.trans h' h
  | false => exact Ahead.trans h h'

abbrev lessKey (s : Store) (p q : Row) : Except Fault Bool :=
  return (← s.compare p.key q.key) == .lt

theorem told_of_ranked (h : s.Ranked p.key q.key)
    (apart : if reversed then q.place < p.place else p.place < q.place) :
    MergeSort.Told s.lessKey (s.Onward reversed) p q := by
  obtain ⟨o, ho⟩ := h.swap.order
  have ho' := compare_swap h.right h.left ho
  have ahead := ahead_iff h reversed
  have behind := ahead_iff h.swap reversed
  simp only [Precedes, ho, ho', Except.ok.injEq, exists_eq_left'] at ahead behind
  have second : o = .lt → s.Onward reversed q p := by
    rintro rfl
    cases reversed with
    | true => exact ahead.mpr (.inl rfl)
    | false => exact behind.mpr (.inl rfl)
  have first : o ≠ .lt → s.Onward reversed p q := by
    intro nlt
    cases o with
    | lt => exact absurd rfl nlt
    | eq =>
      cases reversed with
      | true => exact behind.mpr (.inr ⟨rfl, apart⟩)
      | false => exact ahead.mpr (.inr ⟨rfl, apart⟩)
    | gt =>
      cases reversed with
      | true => exact behind.mpr (.inl rfl)
      | false => exact ahead.mpr (.inl rfl)
  change Succeeds _ (s.compare q.key p.key >>= fun o => .ok (o == .lt))
  rw [ho]
  cases o with
  | lt => exact second rfl
  | eq => exact first nofun
  | gt => exact first nofun

theorem precedes_onward (h : s.Ranked p.key q.key)
    (ho : if reversed then s.Onward reversed q p else s.Onward reversed p q) :
    s.Precedes reversed p q := by
  apply (ahead_iff h reversed).mp
  cases reversed <;> exact ho

theorem sorted_rows (hn : keys.length = items.length) (h : keys.Pairwise s.Ranked)
    (reversed : Bool) :
    Succeeds (fun order => order.Perm (rows keys items) ∧ order.Pairwise (s.Precedes reversed))
      (stableSort s.lessKey reversed (rows keys items)) := by
  have ranked := rows_ranked hn h
  have rising := rows_rising keys items
  have told : (if reversed then (rows keys items).reverse else rows keys items).Pairwise
      (MergeSort.Told s.lessKey (s.Onward reversed)) := by
    cases reversed with
    | true =>
      apply List.pairwise_reverse.mpr
      exact (ranked.and rising).imp fun h => told_of_ranked h.1.swap h.2
    | false => exact (ranked.and rising).imp fun h => told_of_ranked h.1 h.2
  have trans : ∀ p q r, s.Onward reversed p q → s.Onward reversed q r → s.Onward reversed p r :=
    fun _ _ _ => Onward.trans
  have sorted := sorted_stableSort trans reversed told
  have perm : Ends _ _ (stableSort s.lessKey reversed (rows keys items)) :=
    ends_stableSort (fun _ _ => raises_anything _) reversed (rows keys items)
  refine (perm.and_succeeds sorted).mono (fun order ho => ⟨ho.1, ?_⟩) fun _ => False.elim
  have onward : order.Pairwise fun p q =>
      if reversed then s.Onward reversed q p else s.Onward reversed p q := by
    cases reversed with
    | true => exact List.pairwise_reverse.mp ho.2
    | false => exact ho.2
  have among := (ho.1.pairwise_iff fun h => h.swap).mpr ranked
  exact (among.and onward).imp fun h => precedes_onward h.1 h.2

abbrev lessPair (s : Store) (p q : Value × Value) : Except Fault Bool :=
  return (← s.compare p.1 q.1) == .lt

theorem sortBy_eq (s : Store) (reversed : Bool) (keys items : List Value) :
    s.sortBy reversed keys items =
      return (← stableSort s.lessKey reversed (rows keys items)).map (·.item) := by
  have pairs : List.Forall₂ (fun (p : Row) q => (p.key, p.item) = q) (rows keys items)
      (keys.zip items) := by
    rw [← rows_pairs keys items, List.forall₂_map_right_iff]
    exact List.forall₂_same.mpr fun _ _ => rfl
  have same : ∀ p q p' q', (p.key, p.item) = p' → (q.key, q.item) = q' →
      s.lessKey p q = s.lessPair p' q' := by
    rintro p q _ _ rfl rfl
    rfl
  apply Eq.symm
  apply concur_eq.mp
  refine concur_bind (stableSort_congr same reversed pairs) fun order zs h => .ok ?_
  induction h with
  | nil => rfl
  | cons h _ ih => rw [List.map_cons, List.map_cons, ih, ← h]

/-- A sort by keys that have an order succeeds. -/
theorem sortBy_stable (hn : keys.length = items.length) (h : keys.Pairwise s.Ranked)
    (reversed : Bool) :
    Succeeds (s.StablySorts reversed keys items) (s.sortBy reversed keys items) := by
  rw [sortBy_eq]
  exact ends_bind (sorted_rows hn h reversed) fun order ho => ⟨order, ho.1, ho.2, rfl⟩

theorem Precedes.asymm (h : s.Ranked p.key q.key) (first : s.Precedes reversed p q)
    (second : s.Precedes reversed q p) : False := by
  obtain ⟨o, ho, first⟩ := first
  obtain ⟨o', ho', second⟩ := second
  cases (compare_swap h.left h.right ho).symm.trans ho'
  rcases first with rfl | ⟨rfl, first⟩
  · cases reversed <;> simp [leading] at second
  · cases reversed <;>
      · simp [leading] at second
        omega

theorem swap_of_ne_leading {o : Ordering} (h : o ≠ leading reversed) :
    o.swap = leading reversed ∨ o.swap = .eq := by
  cases reversed <;> cases o <;> simp_all [leading]

/-- How `min` and `max` go through the items behind the first. -/
def best (s : Store) (beats : Ordering) (v : Value) (items : List Value) : Except Fault Value :=
  items.foldlM (fun best y => return if (← s.compare y best) == beats then y else best) v

theorem succeeds_best {seen rest : List Row} {r : Row} (hr : r ∈ seen)
    (lead : ∀ q ∈ seen, q = r ∨ s.Ahead reversed r q)
    (ranked : (seen ++ rest).Pairwise fun p q => s.Ranked p.key q.key)
    (rising : (seen ++ rest).Pairwise fun p q => p.place < q.place)
    (plain : ∀ q ∈ seen ++ rest, q.key = q.item) :
    Succeeds (fun v => ∃ r ∈ seen ++ rest, v = r.item ∧
        ∀ q ∈ seen ++ rest, q = r ∨ s.Ahead reversed r q)
      (s.best (leading reversed) r.item (rest.map (·.item))) := by
  induction rest generalizing seen r with
  | nil => exact ⟨r, List.mem_append_left _ hr, rfl, by simpa using lead⟩
  | cons y rest ih =>
    have hy : s.Ranked r.key y.key :=
      (List.pairwise_append.mp ranked).2.2 r hr y List.mem_cons_self
    have later := (List.pairwise_append.mp rising).2.2 r hr y List.mem_cons_self
    obtain ⟨o, ho⟩ := hy.swap.order
    have ho' := compare_swap hy.right hy.left ho
    rw [List.append_cons] at ranked rising plain ⊢
    have step : s.best (leading reversed) r.item ((y :: rest).map (·.item)) =
        s.best (leading reversed) (if o == leading reversed then y.item else r.item)
          (rest.map (·.item)) := by
      rw [best, List.map_cons, List.foldlM_cons, ← plain y (by simp), ← plain r (by simp [hr]), ho]
      rfl
    rw [step]
    by_cases beaten : o = leading reversed
    · rw [if_pos (beq_iff_eq.mpr beaten)]
      have before := (ahead_iff hy.swap reversed).mpr ⟨o, ho, .inl beaten⟩
      apply ih (List.mem_append_right _ (List.mem_singleton_self y)) _ ranked rising plain
      intro q hq
      rcases List.mem_append.mp hq with hq | hq
      · rcases lead q hq with rfl | hq
        · exact .inr before
        · exact .inr (before.trans hq)
      · exact .inl (List.mem_singleton.mp hq)
    · rw [if_neg fun same => beaten (beq_iff_eq.mp same)]
      have before : s.Ahead reversed r y := by
        apply (ahead_iff hy reversed).mpr
        exact ⟨o.swap, ho', (swap_of_ne_leading beaten).imp_right fun eq => ⟨eq, later⟩⟩
      apply ih (List.mem_append_left _ hr) _ ranked rising plain
      intro q hq
      rcases List.mem_append.mp hq with hq | hq
      · exact lead q hq
      · exact List.mem_singleton.mp hq ▸ .inr before

/-- An item that no other one comes before, the first of its kind. -/
def Extreme (s : Store) (reversed : Bool) (items : List Value) (i : Nat) (v : Value) : Prop :=
  items[i]? = some v ∧ ∀ j w, items[j]? = some w → j ≠ i →
    ∃ o, s.compare v w = .ok o ∧ (o = leading reversed ∨ o = .eq ∧ i < j)

theorem mem_rows_iff :
    r ∈ rows keys items ↔ keys[r.place]? = some r.key ∧ items[r.place]? = some r.item := by
  obtain ⟨key, item, place⟩ := r
  rw [← List.getElem?_zip_eq_some (z := (key, item)), ← List.mk_mem_zipIdx_iff_getElem?, rows,
    List.mem_map]
  constructor
  · rintro ⟨p, h, e⟩
    cases e
    exact h
  · exact fun h => ⟨_, h, rfl⟩

/-- What `min` and `max` take their pick from. -/
inductive Supplies (s : Store) : List Value → List Value → Prop where
  | one {v : Value} {items : List Value} (h : s.items v = .ok items) : Supplies s [v] items
  | several (v w : Value) (vs : List Value) : Supplies s (v :: w :: vs) (v :: w :: vs)

theorem extreme_eq {args : List Value} {v : Value} (h : s.Supplies args (v :: items))
    (rule : String) (beats : Ordering) :
    s.extreme rule beats args = s.best beats v items := by
  cases h with
  | one h => simp only [extreme, h, best]; rfl
  | several => rfl

theorem rows_plain (hr : r ∈ rows items items) : r.key = r.item := by
  obtain ⟨hk, hi⟩ := mem_rows_iff.mp hr
  exact Option.some.inj (hk.symm.trans hi)

instance : Std.Symm fun (p q : Row) => s.Ranked p.key q.key := ⟨fun _ _ h => h.swap⟩

theorem ranked_rows (h : items.Pairwise s.Ranked) (hp : p ∈ rows items items)
    (hq : q ∈ rows items items) (apart : p ≠ q) : s.Ranked p.key q.key :=
  (rows_ranked rfl h).forall hp hq apart

theorem extreme_row {args : List Value} (ne : items ≠ []) (h : items.Pairwise s.Ranked)
    (supplied : s.Supplies args items) (rule : String) (reversed : Bool) :
    ∃ r ∈ rows items items, s.extreme rule (leading reversed) args = .ok r.item ∧
      ∀ q ∈ rows items items, q = r ∨ s.Precedes reversed r q := by
  have ranked := rows_ranked rfl h
  have rising := rows_rising items items
  have given : (rows items items).map (·.item) = items := rows_item rfl
  have plain : ∀ q ∈ rows items items, q.key = q.item := fun q => rows_plain
  cases hrows : rows items items with
  | nil => exact absurd (by rw [← given, hrows]; rfl) ne
  | cons r rest =>
    rw [hrows] at ranked rising plain given
    have lead : ∀ q ∈ [r], q = r ∨ s.Ahead reversed r q :=
      fun q hq => .inl (List.mem_singleton.mp hq)
    have found := succeeds_best (List.mem_singleton_self r) lead ranked rising plain
    rw [← given, List.map_cons] at supplied
    rw [extreme_eq supplied]
    obtain ⟨v, hv, q, hq, rfl, leads⟩ := found.exists_ok
    refine ⟨q, hq, hv, fun p hp => ?_⟩
    rcases leads p hp with rfl | before
    · exact .inl rfl
    · by_cases same : p = q
      · exact .inl same
      · have order := ranked.forall hq hp (Ne.symm same)
        exact .inr ((ahead_iff order reversed).mp before)

/-- A sort begins with the extreme item. -/
theorem sort_head {sorted : List Value} {r : Row} (h : items.Pairwise s.Ranked)
    (hr : r ∈ rows items items) (first : ∀ q ∈ rows items items, q = r ∨ s.Precedes reversed r q)
    (stable : s.StablySorts reversed items items sorted) : sorted.head? = some r.item := by
  obtain ⟨order, perm, ordered, rfl⟩ := stable
  cases order with
  | nil => exact absurd (perm.mem_iff.mpr hr) List.not_mem_nil
  | cons p rest =>
    rcases first p (perm.mem_iff.mp List.mem_cons_self) with rfl | before
    · rfl
    · by_cases same : r = p
      · exact same ▸ rfl
      · have later : r ∈ rest := (List.mem_cons.mp (perm.mem_iff.mpr hr)).resolve_left same
        have ranked := ranked_rows h hr (perm.mem_iff.mp List.mem_cons_self) same
        exact (before.asymm ranked ((List.pairwise_cons.mp ordered).1 r later)).elim

theorem extreme_of_row (hr : r ∈ rows items items)
    (first : ∀ q ∈ rows items items, q = r ∨ s.Precedes reversed r q) :
    s.Extreme reversed items r.place r.item := by
  refine ⟨(mem_rows_iff.mp hr).2, fun j w hj apart => ?_⟩
  rcases first ⟨w, w, j⟩ (mem_rows_iff.mpr ⟨hj, hj⟩) with rfl | ⟨o, ho, order⟩
  · exact absurd rfl apart
  · exact ⟨o, rows_plain hr ▸ ho, order⟩

end Store

end LoopScript
