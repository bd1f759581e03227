import LoopScript.Proofs.Machine.Begun
import LoopScript.Proofs.Machine.Evaluation

/-!
What the log keeps of the calls in progress: the last entry of each, and none of a call that has
ended. What no statement begins changes it only as calls are opened and closed.
-/

namespace LoopScript

variable {σ : Type}

namespace Machine

/-- The calls in progress are known by ascending numbers, and the log has entries of no other. -/
structure Tidy (m : Machine σ) : Prop where
  ids : (m.issued :: m.calls.map Activation.id).Pairwise (· > ·)
  nodup : m.log.tails.keys.Nodup
  keys : m.log.tails.keys ⊆ m.calls.map Activation.id

/-- What a machine still knows of the statements that its calls have begun, once no other has been
begun. -/
structure Remembers (m n : Machine σ) : Prop where
  next : n.log.next = m.log.next
  issued : m.issued ≤ n.issued
  calls : ∀ id ∈ n.calls.map Activation.id, id ∈ m.calls.map Activation.id ∨ m.issued ≤ id
  tails : ∀ id, n.log.tails.get? id = m.log.tails.get? id ∨
    n.log.tails.get? id = none ∧ id ∉ n.calls.map Activation.id

variable {m n o : Machine σ}

theorem Tidy.lt_issued (h : m.Tidy) {id : Nat} (hid : id ∈ m.calls.map Activation.id) :
    id < m.issued :=
  (List.pairwise_cons.mp h.ids).1 id hid

theorem Tidy.none_of_not_mem (h : m.Tidy) {id : Nat} (hid : id ∉ m.calls.map Activation.id) :
    m.log.tails.get? id = none :=
  Table.get?_eq_none_iff.mpr fun hk => hid (h.keys hk)

theorem Remembers.refl (m : Machine σ) : m.Remembers m :=
  ⟨rfl, Nat.le_refl _, fun _ => .inl, fun _ => .inl rfl⟩

theorem Remembers.trans (h : m.Tidy) (hn : m.Remembers n) (ho : n.Remembers o) : m.Remembers o where
  next := ho.next.trans hn.next
  issued := Nat.le_trans hn.issued ho.issued
  calls id hid := by
    rcases ho.calls id hid with hid | hid
    · exact hn.calls id hid
    · exact .inr (Nat.le_trans hn.issued hid)
  tails id := by
    rcases ho.tails id with eq | gone
    · rcases hn.tails id with eq' | ⟨none, closed⟩
      · exact .inl (eq.trans eq')
      · -- A call that has been closed is not opened again.
        by_cases hid : id ∈ m.calls.map Activation.id
        · refine .inr ⟨eq.trans none, fun hm => ?_⟩
          rcases ho.calls id hm with hm | hm
          · exact closed hm
          · have low := h.lt_issued hid
            have high := Nat.le_trans hn.issued hm
            omega
        · exact .inl ((eq.trans none).trans (h.none_of_not_mem hid).symm)
    · exact .inr gone

/-- From a tidy machine to another. -/
def Tidies (m n : Machine σ) : Prop :=
  m.Tidy → n.Tidy ∧ m.Remembers n

theorem Tidies.refl (m : Machine σ) : m.Tidies m :=
  fun h => ⟨h, .refl m⟩

theorem Tidies.trans (hn : m.Tidies n) (ho : n.Tidies o) : m.Tidies o := by
  intro h
  obtain ⟨tidy, remembers⟩ := hn h
  exact ⟨(ho tidy).1, remembers.trans h (ho tidy).2⟩

theorem Tidies.enter (m : Machine σ) {a : Activation} (ha : a.id = m.issued) :
    m.Tidies { m with calls := a :: m.calls, issued := m.issued + 1 } := by
  intro h
  have ids : ((m.issued + 1) :: a.id :: m.calls.map Activation.id).Pairwise (· > ·) := by
    rw [ha]
    exact descending_succ h.ids
  refine ⟨⟨ids, h.nodup, List.subset_cons_of_subset _ h.keys⟩, rfl, Nat.le_succ _, fun id hid => ?_,
    fun _ => .inl rfl⟩
  rcases List.mem_cons.mp hid with rfl | hid
  · exact .inr (Nat.le_of_eq ha.symm)
  · exact .inl hid

theorem Tidies.exit {a : Activation} {calls : List Activation} (hc : m.calls = a :: calls) :
    m.Tidies { m with calls := calls, log := m.log.forget a.id } := by
  intro h
  obtain ⟨ids, nodup, keys⟩ := h
  rw [hc, List.map_cons] at ids keys
  have erased : (m.log.forget a.id).tails.keys = m.log.tails.keys.erase a.id := Table.keys_erase _ _
  have closed : a.id ∉ calls.map Activation.id := fun hm =>
    Nat.lt_irrefl _ ((List.pairwise_cons.mp (List.pairwise_cons.mp ids).2).1 _ hm)
  refine ⟨⟨ids.sublist ((List.sublist_cons_self a.id _).cons_cons m.issued), ?_, ?_⟩, rfl,
    Nat.le_refl _, fun id hid => ?_, fun id => ?_⟩
  · rw [erased]
    exact nodup.erase _
  · intro id hid
    rw [erased, nodup.mem_erase_iff] at hid
    exact (List.mem_cons.mp (keys hid.2)).resolve_left hid.1
  · rw [hc]
    exact .inl (List.mem_cons_of_mem _ hid)
  · by_cases hid : a.id = id
    · subst hid
      refine .inr ⟨Table.get?_eq_none_iff.mpr ?_, closed⟩
      rw [erased]
      exact nodup.not_mem_erase
    · exact .inl (Table.get?_erase_of_ne _ hid)

theorem Tidies.of_eq (hc : n.calls = m.calls) (hl : n.log = m.log) (hi : n.issued = m.issued) :
    m.Tidies n := by
  intro h
  refine ⟨⟨?_, ?_, ?_⟩, congrArg StepLog.next hl, Nat.le_of_eq hi.symm, fun id hid => .inl ?_,
    fun id => .inl ?_⟩
  · rw [hc, hi]; exact h.ids
  · rw [hl]; exact h.nodup
  · rw [hl, hc]; exact h.keys
  · rwa [hc] at hid
  · rw [hl]

end Machine

namespace Act

variable {setup : Setup σ}

theorem closed_tidies : setup.Closed fun _ => Keeps Machine.Tidies where
  pure _ m := .refl m
  throw _ m := .refl m
  bind hx hf m := by
    refine ensures_bind ((hx m).mono (fun a n hn => ?_) fun _ _ h => h)
    exact (hf a n).mono (fun _ _ h => hn.trans h) fun _ _ h => hn.trans h
  onWorld _ _ _ := .of_eq rfl rfl rfl
  store m := .refl m
  current m := .refl m
  forced m := .refl m

theorem closedCalls_tidies : setup.ClosedCalls fun _ => Keeps Machine.Tidies where
  toClosed := closed_tidies
  enter name scope loc m := by
    apply ensures_get
    split
    · have closed : setup.Closed fun _ => Keeps Machine.Tidies := closed_tidies
      exact closed_fail closed loc _ m
    · exact .enter m rfl
  exit m := by
    apply ensures_get
    cases h : m.calls with
    | nil => exact .refl m
    | cons a calls => exact .exit h

end Act

/-- The calls in progress before and after a step: some have been opened, or the innermost has been
closed. -/
def Shifts (calls calls' : List Activation) : Prop :=
  calls <:+ calls' ∨ ∃ a, calls = a :: calls'

theorem Shifts.of_eq {calls calls' : List Activation} (h : calls' = calls) : Shifts calls calls' :=
  .inl (h ▸ List.suffix_rfl)

theorem Stacked.shifts {a b : Awaits} {k : Context a} {l : Context b} {calls calls' : List Activation}
    (h : Stacked k calls l calls') : Shifts calls calls' := by
  obtain ⟨opened, -, rfl⟩ := h
  exact .inl (List.suffix_append opened calls)

theorem Next.Stands.shifts {a : Awaits} {k : Context a} {v : Next σ} {calls calls' : List Activation}
    (h : v.Stands k calls calls') : Shifts calls calls' := by
  cases v with
  | go c => exact Stacked.shifts h
  | pause w r => exact Stacked.shifts h
  | finished f => exact h.elim

namespace Act

variable {setup : Setup σ}

theorem react_body_gives {a b : Awaits} (h : Hole a b) (hb : h.isBody = true) (x : a.Input)
    (k : Context b) : Yields (react setup h x k) fun r => ∃ y, r = .give y := by
  cases h with
  | body name loc | lambdaBody loc =>
    iterate 2 refine yields_bind fun _ => ?_
    exact yields_pure ⟨_, rfl⟩
  | _ => cases hb

theorem not_givesTo {a b : Awaits} {x : a.Input} {k : Context a} {l : Context b}
    (h : l.depth < k.depth) : ¬ (Control.move (.give x k)).GivesTo l := by
  rintro ⟨y, hy⟩
  have same : (⟨a, k⟩ : (a : Awaits) × Context a) = ⟨b, l⟩ := congrArg Control.context hy
  have depths : k.depth = l.depth := congrArg (fun s => s.2.depth) same
  omega

theorem shifts_body {a b : Awaits} (h : Hole a b) (hb : h.isBody = true) (x : a.Input)
    (k : Context b) {base : List Activation} {m : Machine σ}
    (hs : Stacked .program base (.fill h k) m.calls) :
    Ensures (giveTo setup x (.fill h k)) m (fun _ n => Shifts m.calls n.calls)
      (fun _ n => Shifts m.calls n.calls) := by
  obtain ⟨site, hsite⟩ := sites_of_isBody h hb
  obtain ⟨act, calls, hm⟩ : ∃ act calls, m.calls = act :: calls := by
    apply List.exists_cons_of_ne_nil
    intro none
    have sites := hs.map_site
    rw [none, Context.sites, hsite] at sites
    cases sites
  have closes : Ensures (react setup h x k) m _ _ := react_body h hb x k hm
  have gives : Yields (react setup h x k) _ := react_body_gives h hb x k
  refine ensures_bind ?_
  unfold Ensures at closes ⊢
  split
  · next r n hr =>
    simp only [hr] at closes
    obtain ⟨y, rfl⟩ := gives _ _ _ hr
    exact .inr ⟨act, hm.trans (congrArg _ closes.symm)⟩
  · next f n hf =>
    simp only [hf] at closes
    split at closes
    · exact .inr ⟨act, hm.trans (congrArg _ closes.symm)⟩
    · exact .of_eq closes

theorem shifts_giveTo {a : Awaits} (x : a.Input) (k : Context a) {base : List Activation}
    {m : Machine σ} (hs : Stacked .program base k m.calls) :
    Ensures (giveTo setup x k) m (fun _ n => Shifts m.calls n.calls)
      (fun _ n => Shifts m.calls n.calls) := by
  have inside {b : Awaits} {l : Context b} (hl : l.Over k []) (hd : l.depth < k.depth) :
      Ensures (giveTo setup x k) m (fun _ n => Shifts m.calls n.calls)
        (fun _ n => Shifts m.calls n.calls) :=
    (ensures_giveTo x k (.of_over hl m.calls) (not_givesTo hd)).mono (fun _ _ h => h.shifts)
      fun _ _ h => h.shifts
  cases k with
  | program => exact .of_eq rfl
  | fill h k =>
    by_cases hb : h.isBody = true
    · exact shifts_body h hb x k hs
    · rw [Bool.not_eq_true] at hb
      have around := Context.Over.fill h (Context.Over.refl (k := k))
      rw [sites_of_not_isBody h hb] at around
      exact inside around (Nat.lt_succ_self _)
  | argument p k => exact inside (.argument p .refl) (Nat.lt_succ_self _)
  | sortKey s k => exact inside (.sortKey s .refl) (Nat.lt_succ_self _)
  | mapItem s k => exact inside (.mapItem s .refl) (Nat.lt_succ_self _)

theorem shifts_begin (t : Task) (m : Machine σ) :
    Ensures (begin setup t) m (fun _ n => Shifts m.calls n.calls)
      (fun _ n => Shifts m.calls n.calls) :=
  (ensures_begin t (.refl _ m.calls)).mono (fun _ _ h => h.shifts) fun _ _ h => h.shifts

theorem shifts_step (c : Control) {base : List Activation} {m : Machine σ}
    (hs : Stacked .program base c.context.2 m.calls) :
    Ensures (c.step setup) m (fun _ n => Shifts m.calls n.calls)
      (fun _ n => Shifts m.calls n.calls) := by
  cases c with
  | task t =>
    rw [Control.step, ← bind_pure_comp]
    exact ensures_bind (shifts_begin t m)
  | move v =>
    cases v with
    | give x k => exact shifts_giveTo x k hs
    | call callee c k =>
      have called : ¬ (Control.move (.call callee c k)).GivesTo k := by rintro ⟨_, ⟨⟩⟩
      exact (ensures_step (.move (.call callee c k)) (.refl k m.calls) called).mono
        (fun _ _ h => h.shifts) fun _ _ h => h.shifts

end Act

end LoopScript
