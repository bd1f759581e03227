import LoopScript.Proofs.Machine.Fits
import LoopScript.Proofs.Machine.Log
import LoopScript.Proofs.Table

/-!
Machines whose log tells what each call in progress has begun.
-/

namespace LoopScript

theorem StepLog.record_tails (keep : Bool) {e : LogEntry} {id : Nat} (h : e.activation = some id)
    (log : StepLog) : (log.record keep e).tails = log.tails.put id e := by
  obtain ⟨history, next, last, tails⟩ := log
  simp only [record, h]

theorem descending_succ {n : Nat} {ids : List Nat} (h : (n :: ids).Pairwise (· > ·)) :
    ((n + 1) :: n :: ids).Pairwise (· > ·) := by
  refine List.pairwise_cons.mpr ⟨fun id hid => ?_, h⟩
  rcases List.mem_cons.mp hid with rfl | hid
  · exact Nat.lt_succ_self _
  · exact Nat.lt_succ_of_lt ((List.pairwise_cons.mp h).1 id hid)

/-- What a log tells of a call and the statements that it has begun, the last one first. -/
structure StepLog.Tells (B : Stmt → LogEntry → Prop) (log : StepLog) (a : Activation)
    (ss : List Stmt) : Prop where
  begun : ∀ s ∈ ss, ∃ e, e.activation = some a.id ∧ B s e
  tail : ∀ e, log.tails.get? a.id = some e → e.activation = some a.id ∧ ∃ s ∈ ss.head?, B s e

variable {σ : Type}

/-- A machine whose store is native, and whose log tells the statements that its calls in progress
have begun. -/
structure Machine.Accords (N : Prop) (B : Stmt → LogEntry → Prop) (keep : Bool) (F : Begun)
    (m : Machine σ) : Prop where
  native : m.world.store.Native N
  length : m.calls.length = F.length
  tells : ∀ e ∈ m.calls.zip F, m.log.Tells B e.1 e.2
  ids : (m.issued :: m.calls.map Activation.id).Pairwise (· > ·)
  unused : ∀ id, m.issued ≤ id → m.log.tails.get? id = none
  last : ∀ e id, m.log.last = some e → e.activation = some id →
    id < m.issued ∧ (id ∈ m.calls.map Activation.id → m.log.tails.get? id = some e)
  /-- Calls that were opened later have not begun anything. -/
  later : ∀ e id, m.log.last = some e → e.activation = some id →
    ∀ c ∈ m.calls.zip F, id < c.1.id → c.2 = []
  current : keep = false → m.current = m.log.last.map (·.location)

namespace Machine.Accords

variable {N : Prop} {B : Stmt → LogEntry → Prop} {keep : Bool} {F : Begun} {m : Machine σ}

theorem world (h : m.Accords N B keep F) {w : World σ} (hw : w.store.Native N) :
    Machine.Accords N B keep F { m with world := w } :=
  { h with native := hw }

theorem forced (h : m.Accords N B keep F) (names : List String) :
    Machine.Accords N B keep F { m with forced := names } :=
  { h with }

theorem place (h : m.Accords N B true F) (loc : Option Location) :
    Machine.Accords N B true F { m with current := loc } :=
  { h with current := nofun }

theorem enter (h : m.Accords N B keep F) {a : Activation} (ha : a.id = m.issued) :
    Machine.Accords N B keep ([] :: F) { m with calls := a :: m.calls, issued := m.issued + 1 } where
  native := h.native
  length := congrArg Nat.succ h.length
  tells := by
    rw [List.zip_cons_cons, List.forall_mem_cons]
    refine ⟨⟨fun s hs => absurd hs List.not_mem_nil, fun e he => ?_⟩, h.tells⟩
    rw [ha, h.unused _ (Nat.le_refl _)] at he
    cases he
  ids := by
    rw [List.map_cons, ha]
    exact descending_succ h.ids
  unused id hid := h.unused id (Nat.le_of_succ_le hid)
  last e id he hid := by
    obtain ⟨hlt, ht⟩ := h.last e id he hid
    refine ⟨Nat.lt_succ_of_lt hlt, fun hm => ?_⟩
    rw [List.map_cons, ha] at hm
    rcases List.mem_cons.mp hm with rfl | hm
    · exact absurd hlt (Nat.lt_irrefl _)
    · exact ht hm
  later e id he hid := List.forall_mem_cons.mpr ⟨fun _ => rfl, h.later e id he hid⟩
  current := h.current

theorem below (h : m.Accords N B keep F) {a : Activation} {calls : List Activation}
    (hc : m.calls = a :: calls) :
    a.id < m.issued ∧ ∀ id ∈ calls.map Activation.id, id < a.id := by
  have ids := h.ids
  rw [hc, List.map_cons, List.pairwise_cons] at ids
  exact ⟨ids.1 a.id List.mem_cons_self, (List.pairwise_cons.mp ids.2).1⟩

theorem exit {a : Activation} {calls : List Activation} (h : m.Accords N B keep F)
    (hc : m.calls = a :: calls) :
    Machine.Accords N B keep F.tail { m with calls := calls, log := m.log.forget a.id } := by
  obtain ⟨high, below⟩ := h.below hc
  have other {id : Nat} (h : a.id ≠ id) :
      (m.log.forget a.id).tails.get? id = m.log.tails.get? id := Table.get?_erase_of_ne _ h
  obtain ⟨native, length, tells, ids, unused, last, later, current⟩ := h
  rw [hc] at length tells ids last later
  cases F with
  | nil => cases length
  | cons ss F =>
    constructor
    case native => exact native
    case length => exact Nat.succ.inj length
    case tells =>
      intro e he
      have hne : a.id ≠ e.1.id :=
        Nat.ne_of_gt (below _ (List.mem_map_of_mem (List.of_mem_zip he).1))
      obtain ⟨begun, tail⟩ := tells e (List.mem_cons_of_mem _ he)
      exact ⟨begun, fun entry hentry => tail entry (other hne ▸ hentry)⟩
    case ids => exact ids.sublist ((List.sublist_cons_self a.id _).cons_cons m.issued)
    case unused =>
      intro id hid
      exact (other (Nat.ne_of_lt (Nat.lt_of_lt_of_le high hid))).trans (unused id hid)
    case last =>
      intro e id he hid
      obtain ⟨hlt, ht⟩ := last e id he hid
      refine ⟨hlt, fun hm => ?_⟩
      exact (other (Nat.ne_of_gt (below id hm))).trans (ht (List.mem_cons_of_mem _ hm))
    case later => exact fun e id he hid c hc => later e id he hid c (List.mem_cons_of_mem _ hc)
    case current => exact current

theorem exists_calls (h : m.Accords N B keep F) (hF : F ≠ []) : ∃ a calls, m.calls = a :: calls := by
  apply List.exists_cons_of_length_pos
  rw [h.length]
  exact List.length_pos_iff.mpr hF

theorem record (h : m.Accords N B keep F) (hF : F ≠ []) {s : Stmt}
    {b : Option (List (String × String))} (hB : B s (m.entry s.rule s.location b)) :
    Machine.Accords N B keep (F.begin s)
      (Machine.record keep { m with current := some s.location } (m.entry s.rule s.location b)) := by
  obtain ⟨a, calls, hc⟩ := h.exists_calls hF
  obtain ⟨ss, F, rfl⟩ := List.exists_cons_of_ne_nil hF
  obtain ⟨high, below⟩ := h.below hc
  have active : (m.entry s.rule s.location b).activation = some a.id := by
    simp only [Machine.entry, hc, List.head?_cons, Option.map_some]
  have place : (m.entry s.rule s.location b).location = s.location := rfl
  generalize m.entry s.rule s.location b = e at hB active place ⊢
  have self : (m.log.record keep e).tails.get? a.id = some e := by
    rw [StepLog.record_tails keep active]
    exact Table.get?_put_self _ _ _
  have other {id : Nat} (h : a.id ≠ id) :
      (m.log.record keep e).tails.get? id = m.log.tails.get? id := by
    rw [StepLog.record_tails keep active]
    exact Table.get?_put_of_ne _ e h
  have latest : (m.log.record keep e).last = some e := rfl
  constructor
  case native => exact h.native
  case length => exact h.length
  case ids => exact h.ids
  case tells =>
    have tells := h.tells
    change ∀ d ∈ m.calls.zip ((s :: ss) :: F), (m.log.record keep e).Tells B d.1 d.2
    rw [hc, List.zip_cons_cons, List.forall_mem_cons] at tells ⊢
    obtain ⟨own, others⟩ := tells
    refine ⟨⟨?_, fun d hd => ?_⟩, fun d hd => ?_⟩
    · exact List.forall_mem_cons.mpr ⟨⟨e, active, hB⟩, own.begun⟩
    · rw [self] at hd
      cases hd
      exact ⟨active, s, rfl, hB⟩
    · have hne : a.id ≠ d.1.id :=
        Nat.ne_of_gt (below _ (List.mem_map_of_mem (List.of_mem_zip hd).1))
      exact ⟨(others d hd).begun, fun entry hentry => (others d hd).tail entry (other hne ▸ hentry)⟩
  case unused =>
    intro id hid
    exact (other (Nat.ne_of_lt (Nat.lt_of_lt_of_le high hid))).trans (h.unused id hid)
  case last =>
    intro d id hd hid
    cases latest.symm.trans hd
    cases active.symm.trans hid
    exact ⟨high, fun _ => self⟩
  case later =>
    -- The last entry is now that of the innermost call, and no call in progress is later.
    intro d id hd hid
    cases latest.symm.trans hd
    cases active.symm.trans hid
    change ∀ c ∈ m.calls.zip ((s :: ss) :: F), a.id < c.1.id → c.2 = []
    rw [hc, List.zip_cons_cons, List.forall_mem_cons]
    refine ⟨fun hlt => absurd hlt (Nat.lt_irrefl _), fun c hm hlt => ?_⟩
    have lower := below c.1.id (List.mem_map_of_mem (List.of_mem_zip hm).1)
    exact absurd hlt (Nat.lt_asymm lower)
  case current => exact fun _ => congrArg some place.symm

end Machine.Accords

end LoopScript
