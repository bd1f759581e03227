import LoopScript.Proofs.Relocation.Changes
import Mathlib.Order.CompletePartialOrder

/-!
Regions of a store that are apart: a change in the one leaves the other as it is.
-/

namespace LoopScript

namespace Link

variable (L : Link)

/-- What is linked of the first store, and the globals that code may use. -/
def source : Region := { L.domain with names := L.usable L.root }

def target : Region := { L.range with names := L.usable L.root }

/-- What is linked at all, for a link of a store with itself. -/
def region : Region where
  objects := L.domain.objects ∪ L.range.objects
  scopes := L.domain.scopes ∪ L.range.scopes
  root := L.root
  names := L.assignable L.root

end Link

structure Region.Inside (R : Region) (s : Store) : Prop where
  objects : ∀ a ∈ R.objects, a < s.objects.size
  scopes : ∀ i ∈ R.scopes, i < s.scopes.size

/-- A region that has grown by new things only. -/
structure Region.Grows (R Q : Region) (s : Store) : Prop where
  objects : ∀ a ∈ Q.objects, a ∈ R.objects ∨ s.objects.size ≤ a
  scopes : ∀ i ∈ Q.scopes, i ∈ R.scopes ∨ s.scopes.size ≤ i

/-- Two regions share nothing but built-in functions and the scope of the globals. -/
structure Store.Apart (s : Store) (R Q : Region) : Prop where
  objects : ∀ a ∈ R.objects, a ∈ Q.objects → ∃ name, s.objects[a]? = some (.builtin name)
  scopes : ∀ i ∈ R.scopes, i ∈ Q.scopes → i = R.root

/-- A store in which all that a region holds is as it was. -/
structure Store.Agrees (R : Region) (s s' : Store) : Prop where
  object : ∀ {a o}, a ∈ R.objects → s.objects[a]? = some o → s'.objects[a]? = some o
  scope : ∀ {i p}, i ∈ R.scopes → i ≠ R.root → s.scopes[i]? = some p → s'.scopes[i]? = some p
  root : ∀ {p}, s.scopes[R.root]? = some p → ∃ p', s'.scopes[R.root]? = some p' ∧
    p'.parent = p.parent ∧ ∀ x ∈ R.names, p'.bindings.get? x = p.bindings.get? x

variable {s s' t t' : Store} {R R' Q Q' : Region}

theorem Store.Agrees.refl (R : Region) (s : Store) : s.Agrees R s :=
  ⟨fun _ h => h, fun _ _ h => h, fun {p} h => ⟨p, h, rfl, fun _ _ => rfl⟩⟩

theorem Store.Keeps.agrees (h : s.Keeps Q s') (apart : s.Apart R Q) (root : Q.root = R.root)
    (names : Disjoint Q.names R.names) : s.Agrees R s' where
  object {a o} ha ho := by
    refine h.object ho fun hq => ?_
    obtain ⟨name, hb⟩ := apart.objects a ha hq
    exact ⟨name, Option.some.inj (ho.symm.trans hb)⟩
  scope {i p} hi hr hp := by
    refine h.scope hp (fun hq => ?_) (root ▸ hr)
    exact hr (apart.scopes i hi hq)
  root {p} hp := by
    obtain ⟨p', hp', parent, same⟩ := h.root (root ▸ hp)
    refine ⟨p', root ▸ hp', parent, fun x hx => same x fun hq => ?_⟩
    exact Set.disjoint_left.mp names hq hx

theorem Store.Keeps.mono (h : s.Keeps R s') (objects : R.objects ⊆ Q.objects)
    (scopes : R.scopes ⊆ Q.scopes) (root : R.root = Q.root) (names : R.names = Q.names) :
    s.Keeps Q s' where
  objects_size := h.objects_size
  scopes_size := h.scopes_size
  object ho hb := h.object ho fun hr => hb (objects hr)
  scope hp hi hr := h.scope hp (fun hi' => hi (scopes hi')) (root ▸ hr)
  root hp := by
    rw [← root] at hp ⊢
    rw [← names]
    exact h.root hp

section Apart

theorem Store.Apart.symm (h : s.Apart R Q) (root : R.root = Q.root) : s.Apart Q R :=
  ⟨fun a hq hr => h.objects a hr hq, fun i hq hr => root ▸ h.scopes i hr hq⟩

theorem Store.Apart.subset (h : s.Apart R Q) (objects : R'.objects ⊆ R.objects)
    (scopes : R'.scopes ⊆ R.scopes) (root : R'.root = R.root) : s.Apart R' Q :=
  ⟨fun a ha => h.objects a (objects ha), fun i hi hq => root ▸ h.scopes i (scopes hi) hq⟩

theorem Store.Apart.keep (h : s.Apart R Q) {P : Region} (kept : s.Keeps P s') : s'.Apart R Q where
  objects a hr hq := by
    obtain ⟨name, hb⟩ := h.objects a hr hq
    exact ⟨name, kept.object hb fun _ => ⟨name, rfl⟩⟩
  scopes := h.scopes

theorem Store.Apart.grow (h : s.Apart R Q) (inside : R.Inside s) (grows : Q.Grows Q' s) :
    s.Apart R Q' where
  objects a hr hq := by
    rcases grows.objects a hq with hq | hq
    · exact h.objects a hr hq
    · exact absurd (inside.objects a hr) (Nat.not_lt.mpr hq)
  scopes i hr hq := by
    rcases grows.scopes i hq with hq | hq
    · exact h.scopes i hr hq
    · exact absurd (inside.scopes i hr) (Nat.not_lt.mpr hq)

theorem Region.Grows.refl (R : Region) (s : Store) : R.Grows R s :=
  ⟨fun _ => .inl, fun _ => .inl⟩

theorem Region.Inside.keep (h : R.Inside s) (kept : s.Keeps Q s') : R.Inside s' :=
  ⟨fun a ha => (h.objects a ha).trans_le kept.objects_size,
    fun i hi => (h.scopes i hi).trans_le kept.scopes_size⟩

end Apart

section Linked

variable {L L' : Link}

theorem Store.Moved.agree (hs : s.Moved L t) (left : s.Agrees L.source s')
    (right : t.Agrees L.target t') : s'.Moved L t' where
  object {a b} h := by
    obtain ⟨o, o', ho, ho', moved⟩ := hs.object h
    exact ⟨o, o', left.object ⟨b, h⟩ ho, right.object ⟨a, h⟩ ho', moved⟩
  scope {i j} h hi := by
    obtain ⟨p, q, hp, hq, moved⟩ := hs.scope h hi
    have hj : j ≠ L.root := fun e => hi ((L.root_iff h).mpr e)
    exact ⟨p, q, left.scope ⟨j, h⟩ hi hp, right.scope ⟨i, h⟩ hj hq, moved⟩
  root := by
    obtain ⟨p, q, hp, hq, pp, qp, globals⟩ := hs.root
    obtain ⟨p', hp', parent, same⟩ := left.root hp
    obtain ⟨q', hq', parent', same'⟩ := right.root hq
    refine ⟨p', q', hp', hq', parent.trans pp, parent'.trans qp, fun x hx => ?_⟩
    rw [same x hx, same' x hx]
    exact globals x hx

theorem Store.Moved.inside_left (hs : s.Moved L t) : L.source.Inside s := by
  refine ⟨?_, ?_⟩
  · rintro a ⟨b, h⟩
    exact (hs.object_lt h).1
  · rintro i ⟨j, h⟩
    exact (hs.scope_lt h).1

theorem Store.Moved.inside_right (hs : s.Moved L t) : L.target.Inside t := by
  refine ⟨?_, ?_⟩
  · rintro b ⟨a, h⟩
    exact (hs.object_lt h).2
  · rintro j ⟨i, h⟩
    exact (hs.scope_lt h).2

theorem Store.Moved.inside (hs : s.Moved L s) : L.region.Inside s :=
  ⟨fun a ha => ha.elim (hs.inside_left.objects a) (hs.inside_right.objects a),
    fun i hi => hi.elim (hs.inside_left.scopes i) (hs.inside_right.scopes i)⟩

theorem Link.Evolves.keeps_region (h : L.Evolves L' s s' s s') : s.Keeps L.region s' :=
  h.left.mono Set.subset_union_left Set.subset_union_left rfl rfl

theorem Link.Evolves.region_grows (h : L.Evolves L' s s' s s') : L.region.Grows L'.region s where
  objects := by
    rintro a (⟨b, hab⟩ | ⟨b, hba⟩)
    · exact (h.objects hab).imp (fun hab => .inl ⟨b, hab⟩) And.left
    · exact (h.objects hba).imp (fun hba => .inr ⟨b, hba⟩) And.right
  scopes := by
    rintro i (⟨j, hij⟩ | ⟨j, hji⟩)
    · exact (h.scopes hij).imp (fun hij => .inl ⟨j, hij⟩) And.left
    · exact (h.scopes hji).imp (fun hji => .inr ⟨j, hji⟩) And.right

theorem Link.Evolves.target_grows (h : L.Evolves L' s s' t t') : L.target.Grows L'.target t where
  objects := by
    rintro b ⟨a, hab⟩
    exact (h.objects hab).imp (fun hab => ⟨a, hab⟩) And.right
  scopes := by
    rintro j ⟨i, hij⟩
    exact (h.scopes hij).imp (fun hij => ⟨i, hij⟩) And.right

/-- Links that say the same of the scope of the globals. -/
structure Link.Alike (L L' : Link) : Prop where
  root : L'.root = L.root
  usable : L'.usable L'.root = L.usable L.root
  assignable : L'.assignable L'.root = L.assignable L.root

theorem Link.Evolves.alike (h : L.Evolves L' s s' t t') : L.Alike L' where
  root := h.le.root
  usable := by rw [h.le.root, h.le.usable L.root_linked]
  assignable := by rw [h.le.root, h.le.assignable L.root_linked]

theorem Link.Evolves.keeps_after (h : L.Evolves L' s s' s s') {s'' : Store}
    (g : s'.Keeps L'.region s'') : s.Keeps L.region s'' :=
  h.keeps_region.trans g h.le.root h.alike.assignable h.region_grows.objects
    h.region_grows.scopes

end Linked

end LoopScript
