import LoopScript.Proofs.Value.Native
import LoopScript.Proofs.Value.Ordering

/-!
Keys of dictionaries. Sameness of keys is symmetric and transitive, so that a table in which no two keys
are the same answers a question for a key with the one entry that there is for it.
-/

namespace LoopScript

variable {κ ν : Type}

namespace Atom

variable {a b c : Atom}

theorem same_iff (a b : Atom) : a.same b = true ↔
    (∃ x y, a.extended? = some x ∧ b.extended? = some y ∧ x.same y = true) ∨
      (a.extended? = Option.none ∧ a = b) := by
  cases a <;> cases b <;> simp [same, extended?]

theorem same_symm (h : a.same b = true) : b.same a = true := by
  obtain ⟨x, y, hx, hy, h⟩ | ⟨_, rfl⟩ := (same_iff a b).mp h
  · obtain ⟨nx, ny, h⟩ := (x.same_iff y).mp h
    exact (same_iff b a).mpr (.inl ⟨y, x, hy, hx, (y.same_iff x).mpr ⟨ny, nx, h.symm⟩⟩)
  · exact h

theorem same_trans (h : a.same b = true) (h' : b.same c = true) : a.same c = true := by
  obtain ⟨x, y, hx, hy, h⟩ | ⟨_, rfl⟩ := (same_iff a b).mp h
  · obtain ⟨y', z, hy', hz, h'⟩ | ⟨_, rfl⟩ := (same_iff b c).mp h'
    · cases hy.symm.trans hy'
      obtain ⟨nx, -, h⟩ := (x.same_iff y).mp h
      obtain ⟨-, nz, h'⟩ := (y.same_iff z).mp h'
      exact (same_iff a c).mpr (.inl ⟨x, z, hx, hz, (x.same_iff z).mpr ⟨nx, nz, h.trans h'⟩⟩)
    · exact (same_iff a b).mpr (.inl ⟨x, y, hx, hy, h⟩)
  · exact h'

theorem same_refl (ha : a.isNaN = false) : a.same a = true := by
  cases h : a.extended? with
  | none => exact (same_iff a a).mpr (.inr ⟨h, rfl⟩)
  | some x =>
    have line := on_line ha h
    exact (same_iff a a).mpr (.inl ⟨x, x, h, h, (x.same_iff x).mpr ⟨line, line, rfl⟩⟩)

theorem same_bool {x y : Bool} (h : (x == y) = true) : (bool x).same (bool y) = true := by
  obtain rfl := eq_of_beq h
  exact same_refl rfl

theorem eq_iff_same {o : Ordering} (ha : a.isNaN = false) (hb : b.isNaN = false)
    (h : a.compare? b = some o) : o = .eq ↔ a.same b = true := by
  rw [same_iff]
  cases (compare?_eq_some_iff ha hb).mp h with
  | @numbers _ _ x y hx hy nx ny =>
    rw [Std.LawfulEqCmp.compare_eq_iff_eq]
    simp only [hx, hy, Option.some.injEq, reduceCtorEq, false_and, or_false, Extended.same_iff]
    constructor
    · intro same
      exact ⟨x, y, rfl, rfl, nx, ny, same⟩
    · rintro ⟨_, _, rfl, rfl, -, -, same⟩
      exact same
  | strings s t =>
    rw [Std.LawfulEqCmp.compare_eq_iff_eq]
    rw [List.map_inj_right fun _ _ => Char.ext, String.toList_inj]
    simp [extended?]

end Atom

instance : PartialEquivBEq Value where
  symm {v w} h := by
    match v, w with
    | .atom a, .atom b => exact Atom.same_symm h
    | .ref a, .ref b =>
      obtain rfl : a = b := eq_of_beq h
      exact h
    | .atom a, .ref b | .ref a, .atom b => exact h
  trans {v w u} h h' := by
    match v, w, u with
    | .atom a, .atom b, .atom c => exact Atom.same_trans h h'
    | .ref a, .ref b, .ref c =>
      obtain rfl : a = b := eq_of_beq h
      exact h'
    | .atom a, .ref b, _ | .ref a, .atom b, _ => cases h
    | .atom a, .atom b, .ref c | .ref a, .ref b, .atom c => cases h'

theorem Value.beq_self {v : Value} (hv : v.isNaN = false) : (v == v) = true := by
  cases v with
  | atom a => exact Atom.same_refl hv
  | ref a => exact beq_self_eq_true a

namespace Table

variable [BEq κ]

/-- No two keys are the same. -/
def Distinct (t : Table κ ν) : Prop :=
  t.Pairwise fun e f => (e.1 == f.1) = false

variable {t : Table κ ν} {key : κ} {value : ν}

theorem exists_of_get? (h : t.get? key = some value) :
    ∃ e ∈ t, (e.1 == key) = true ∧ e.2 = value := by
  induction t with
  | nil => cases h
  | cons e t ih =>
    simp only [get?] at h
    split at h
    · next same => exact ⟨e, List.mem_cons_self, same, Option.some.inj h⟩
    · obtain ⟨f, hf, found⟩ := ih h
      exact ⟨f, List.mem_cons_of_mem _ hf, found⟩

theorem has_iff_exists : t.has key = true ↔ ∃ e ∈ t, (e.1 == key) = true := by
  induction t with
  | nil => simp [has, get?]
  | cons e t ih =>
    rw [has, get?, List.exists_mem_cons_iff, ← ih, has]
    by_cases same : (e.1 == key) = true
    · simp [same]
    · simp [same]

theorem distinct_put (h : t.Distinct) (key : κ) (value : ν) : (t.put key value).Distinct := by
  induction t with
  | nil => exact List.pairwise_singleton _ _
  | cons e t ih =>
    obtain ⟨first, rest⟩ := List.pairwise_cons.mp h
    simp only [put]
    split
    · exact List.pairwise_cons.mpr ⟨first, rest⟩
    · next other =>
      apply List.pairwise_cons.mpr
      refine ⟨fun f hf => ?_, ih rest⟩
      have known : ∀ f ∈ t, (e.1 == f.1) = false ∧ True := fun f hf => ⟨first f hf, trivial⟩
      exact (forall_put (P := fun k => (e.1 == k) = false) (Q := fun _ => True) known
        (Bool.eq_false_iff.mpr other) trivial f hf).1

variable [PartialEquivBEq κ]

theorem get?_of_distinct (h : t.Distinct) {e : κ × ν} (he : e ∈ t) (same : (e.1 == key) = true) :
    t.get? key = some e.2 := by
  induction t with
  | nil => cases he
  | cons f t ih =>
    obtain ⟨first, rest⟩ := List.pairwise_cons.mp h
    rcases List.mem_cons.mp he with rfl | he
    · simp [get?, same]
    · have other : ¬ (f.1 == key) = true := by
        intro hf
        have both := BEq.trans hf (BEq.symm same)
        simp [first e he] at both
      simp only [get?, if_neg other]
      exact ih rest he

end Table

namespace Store

variable {s : Store} {v w : Value} {es : Table Value Value} {key x : Value}

/-- The keys of a dictionary: no containers, and no two of them the same. -/
structure Keyed (s : Store) (es : Table Value Value) : Prop where
  hashable : ∀ e ∈ es, s.requireKey e.1 = .ok ()
  distinct : es.Distinct

theorem keyed_nil (s : Store) : s.Keyed [] where
  hashable := nofun
  distinct := List.Pairwise.nil

theorem Keyed.put (h : s.Keyed es) (hkey : s.requireKey key = .ok ()) (x : Value) :
    s.Keyed (es.put key x) where
  hashable e he := by
    have known : ∀ e ∈ es, s.requireKey e.1 = .ok () ∧ True := fun e he => ⟨h.hashable e he, trivial⟩
    exact (Table.forall_put (P := fun k => s.requireKey k = .ok ()) (Q := fun _ => True) known hkey
      trivial e he).1
  distinct := Table.distinct_put h.distinct key x

/-- Values of which one is no container are equal if they are the same key. -/
theorem equal_of_hashable (h : s.requireKey v = .ok () ∨ s.requireKey w = .ok ()) :
    s.equal v w = .ok (v == w) := by
  match v, w with
  | .atom a, _ => rfl
  | .ref a, .atom b => rfl
  | .ref a, .ref b =>
    simp only [equal, pairLimit, equalWithin]
    split
    · next same => exact congrArg Except.ok same.symm
    · next other =>
      have apart : (Value.ref a == Value.ref b) = false := Bool.eq_false_iff.mpr other
      rw [apart]
      simp only [requireKey, object?] at h
      split
      · next ha hb => simp [ha, hb] at h
      · next ha hb => simp [ha, hb] at h
      · rfl

end Store

end LoopScript
