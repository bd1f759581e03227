import LoopScript.Proofs.Value.Slots

/-!
Items as a program reads and sets them.
-/

namespace LoopScript

variable {σ : Type}

def Machine.stored (m : Machine σ) (s : Store) : Machine σ :=
  { m with world := { m.world with store := s } }

theorem object?_alloc_self (s : Store) (o : Obj) :
    (s.alloc o).2.object? (.ref s.objects.size) = some o := by
  rw [Store.object?, Store.read_alloc, if_pos rfl]

namespace Act

theorem reading_eq {α : Type} (loc : Location) (f : Store → Except Fault α) (m : Machine σ) :
    reading loc f m =
      match f m.world.store with
      | .ok a => .ok a m
      | .error e => .error (e.attach (some loc)) m := by
  change placed loc (f m.world.store) m = _
  cases f m.world.store <;> rfl

theorem reading_eq_ok_iff {α : Type} {loc : Location} {f : Store → Except Fault α} {m n : Machine σ}
    {a : α} : reading loc f m = .ok a n ↔ f m.world.store = .ok a ∧ n = m := by
  rw [reading_eq]
  cases f m.world.store <;> simp [eq_comm]

theorem bind_eq_ok_iff {α β : Type} {x : Act σ α} {f : α → Act σ β} {m n : Machine σ} {b : β} :
    (x >>= f) m = .ok b n ↔ ∃ a m', x m = .ok a m' ∧ f a m' = .ok b n := by
  simp only [bind, EStateM.bind]
  cases x m <;> simp

theorem making_eq (loc : Location) (f : Store → Except Fault Made) (m : Machine σ) :
    making loc f m =
      match f m.world.store with
      | .ok (.value v) => .ok v m
      | .ok (.object o) =>
        .ok (.ref m.world.store.objects.size) (m.stored (m.world.store.alloc o).2)
      | .error e => .error (e.attach (some loc)) m := by
  simp only [making, bind, EStateM.bind, reading_eq]
  cases f m.world.store with
  | error e => rfl
  | ok made => cases made <;> rfl

variable (setup : Setup σ) (loc : Location) (base index v : Value)

theorem react_index (k : Context .value) (m : Machine σ) :
    react setup (.index loc base) index k m =
      match m.world.store.getIndex base index with
      | .ok x => .ok (.give x) m
      | .error f => .error (f.attach (some loc)) m := by
  have here : react setup (.index loc base) index k =
      (reading loc (·.getIndex base index) >>= fun x => pure (.give (b := .value) x)) := rfl
  rw [here]
  simp only [bind, EStateM.bind, reading_eq]
  cases m.world.store.getIndex base index <;> rfl

theorem react_assignItem (k : Context .flow) (m : Machine σ) :
    react setup (.assignItem loc base index none) v k m =
      match m.world.store.setIndex base index v with
      | .ok (a, o) => .ok (.give .normal) (m.stored (m.world.store.write a o))
      | .error f => .error (f.attach (some loc)) m := by
  have here : react setup (.assignItem loc base index none) v k m =
      (placed loc (m.world.store.setIndex base index v) >>= fun found =>
        modifyStore (·.write found.1 found.2) >>= fun _ => pure (.give (b := .flow) .normal)) m := rfl
  rw [here]
  cases m.world.store.setIndex base index v <;> rfl

end Act

theorem Store.setIndex_itemSet {s : Store} {a : Addr} {o : Obj} {base index v : Value}
    (hn : index.isNaN = false) (h : s.setIndex base index v = .ok (a, o)) :
    s.ItemSet base index v (s.write a o) := by
  cases base with
  | atom c => cases h
  | ref b =>
    cases hb : s.read b with
    | list xs =>
      obtain ⟨rfl, p, hp, rfl⟩ := (setIndex_list_eq_ok_iff hb).mp h
      exact itemSet_list hb hp
    | dict es =>
      obtain ⟨rfl, hk, rfl⟩ := (setIndex_dict_eq_ok_iff hb).mp h
      exact itemSet_dict hb hk hn
    | _ =>
      simp only [setIndex, hb] at h
      cases h

/-- Setting an item and reading it are a lens. An item that is set is read by every index that means it,
all others stay as they were, and what is refused changes nothing. Of a list, the same indexes are taken
for both: the whole numbers within its bounds, of which two mean the same item if one is counted from
the start and the other from the end. -/
theorem items_set_and_read (setup : Setup σ) (loc : Location) {base index : Value} (v : Value)
    (k : Context .flow) (l : Context .value) (m : Machine σ) (hn : index.isNaN = false) :
    ((∃ t, Act.react setup (.assignItem loc base index none) v k m =
        .ok (.give .normal) (m.stored t) ∧ m.world.store.ItemSet base index v t) ∨
      ∃ f, Act.react setup (.assignItem loc base index none) v k m = .error f m) ∧
    ∀ xs, m.world.store.object? base = some (.list xs) →
      ((∃ n, Act.react setup (.assignItem loc base index none) v k m = .ok (.give .normal) n) ↔
        index.InRange xs.length) ∧
      ((∃ x, Act.react setup (.index loc base) index l m = .ok (.give x) m) ↔
        index.InRange xs.length) ∧
      (∀ i : Int, index = .int i → xs.length < 2 ^ 53 →
        (index.InRange xs.length ↔ -xs.length ≤ i ∧ i < xs.length)) ∧
      ∀ (p : Nat) (i j : Value), p < xs.length → i.number? = some (p : ℚ) →
        j.number? = some ((p : ℚ) - xs.length) → m.world.store.SameItem base i j := by
  rw [Act.react_assignItem, Act.react_index]
  refine ⟨?_, fun xs hx => ⟨?_, ?_, ?_, ?_⟩⟩
  · cases h : m.world.store.setIndex base index v with
    | error f => exact .inr ⟨_, rfl⟩
    | ok r => exact .inl ⟨_, rfl, Store.setIndex_itemSet hn h⟩
  · rw [← Store.settable_list_iff (v := v) hx]
    cases m.world.store.setIndex base index v <;> simp
  · rw [← Store.readable_list_iff hx]
    cases m.world.store.getIndex base index <;> simp
  · rintro i rfl few
    exact inRange_int_iff few
  · intro p i j hp hi hj
    simp only [Store.SameItem, hx]
    exact ⟨p, ⟨hp, .inl hi⟩, ⟨hp, .inr hj⟩⟩

def shelfPlace : Location := ⟨"shelf", 1, 1, ""⟩

def shelfSetup : Setup Unit := ⟨.empty, fun _ u => u, 100, false⟩

/-- A machine on which there is a list of three letters. -/
def shelf : Machine Unit :=
  { world := ⟨⟨#[.list [.str "a", .str "b", .str "c"]], #[⟨none, [("shelf", .ref 0)]⟩]⟩, ()⟩
    globals := 0, forced := [], current := none, log := .empty, calls := [], issued := 0 }

/-- The last item, counted from the end, is read from the start. -/
theorem items_set_and_read_last : (Value.num (-1.0)).isNaN = false ∧
    ∃ t, Act.react shelfSetup (.assignItem shelfPlace (.ref 0) (.num (-1.0)) none) (.str "z") .program
        shelf = .ok (.give .normal) (shelf.stored t) ∧
      t.getIndex (.ref 0) (.num 2.0) = .ok (.str "z") ∧
      t.getIndex (.ref 0) (.num 1.0) = .ok (.str "b") := by
  have hn : (Value.num (-1.0)).isNaN = false := by decide +kernel
  have last : (Value.num (-1.0)).Means 3 2 := ⟨by decide, .inr (by decide +kernel)⟩
  have third : (Value.num 2.0).Means 3 2 := ⟨by decide, .inl (by decide +kernel)⟩
  have second : (Value.num 1.0).Means 3 1 := ⟨by decide, .inl (by decide +kernel)⟩
  have apart : ¬ shelf.world.store.SameItem (.ref 0) (.num (-1.0)) (.num 1.0) := by
    rintro ⟨p, hp, hq⟩
    cases (means_place last hp).trans (means_place hq second)
  have lens := @items_set_and_read Unit shelfSetup shelfPlace (.ref 0) (.num (-1.0)) (.str "z")
    .program (.fill .discard .program) shelf hn
  obtain ⟨set, list⟩ := lens
  obtain ⟨taken, -⟩ := list _ rfl
  obtain ⟨t, done, item⟩ | ⟨f, failed⟩ := set
  · refine ⟨hn, t, done, item.same _ ⟨2, last, third⟩, (item.others _ apart).trans ?_⟩
    have items : shelf.world.store.object? (.ref 0) = some (.list [.str "a", .str "b", .str "c"]) := rfl
    exact (Store.getIndex_list_eq_ok_iff items).mpr ⟨1, second, rfl⟩
  · obtain ⟨n, done⟩ := taken.mpr (exists_means_iff.mp ⟨2, last⟩)
    cases failed.symm.trans done

end LoopScript
