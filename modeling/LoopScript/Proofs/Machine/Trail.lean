import LoopScript.Proofs.Machine.Tails

/-!
The statements that a machine has started, read off the controls that it has carried out: which one
each call in progress has started last, and that the log keeps just these.
-/

namespace LoopScript

variable {σ : Type}

namespace Control

/-- How many calls are in progress besides the module. -/
def depth (c : Control) : Nat :=
  c.context.2.sites.length

/-- The statement that a control starts. -/
def statement? : Control → Option Stmt
  | .task (.exec s _ _) => some s
  | _ => none

end Control

/-- The controls that a machine has carried out, the last one first. -/
abbrev Trail := List Control

namespace Trail

def started (t : Trail) : Nat :=
  t.countP (·.statement?.isSome)

/-- The last statement that the call at some depth has started, and how many were started before it.
Where the trail was less deep the call was not yet opened. -/
def lastStart (depth : Nat) : Trail → Option (Nat × Stmt)
  | [] => none
  | c :: t =>
    if c.depth < depth then none
    else match c.statement? with
      | some s => if c.depth = depth then some (started t, s) else lastStart depth t
      | none => lastStart depth t

variable {c : Control} {t : Trail} {d e : Nat} {s : Stmt}

theorem lastStart_of_lt (h : c.depth < d) : lastStart d (c :: t) = none :=
  if_pos h

theorem lastStart_of_none (h : d ≤ c.depth) (hc : c.statement? = none) :
    lastStart d (c :: t) = lastStart d t := by
  rw [lastStart, if_neg (Nat.not_lt.mpr h), hc]

theorem lastStart_of_gt (h : d < c.depth) : lastStart d (c :: t) = lastStart d t := by
  rw [lastStart, if_neg (Nat.lt_asymm h)]
  cases c.statement? with
  | none => rfl
  | some s => exact if_neg (Nat.ne_of_gt h)

theorem lastStart_self (hc : c.statement? = some s) :
    lastStart c.depth (c :: t) = some (started t, s) := by
  simp only [lastStart, hc, Nat.lt_irrefl, if_false, if_true]

theorem started_of_none (hc : c.statement? = none) : started (c :: t) = started t :=
  List.countP_cons_of_neg (by simp [hc])

theorem started_of_some (hc : c.statement? = some s) : started (c :: t) = started t + 1 :=
  List.countP_cons_of_pos (by simp [hc])

theorem started_le (c : Control) (t : Trail) : started t ≤ started (c :: t) :=
  (List.sublist_cons_self c t).countP_le

theorem lastStart_lt {n : Nat} (h : lastStart d t = some (n, s)) : n < started t := by
  fun_induction lastStart d t with
  | case1 | case2 => cases h
  | case3 c t _ s' hc hd =>
    cases h
    rw [started_of_some hc]
    exact Nat.lt_succ_self _
  | case4 c t _ _ _ _ ih | case5 c t _ _ ih => exact Nat.lt_of_lt_of_le (ih h) (started_le c t)

/-- What a call has started before it was left for another one comes before what the other has
started. -/
theorem lastStart_increasing {n k : Nat} {s' : Stmt} (hde : d < e) (h : lastStart d t = some (n, s))
    (h' : lastStart e t = some (k, s')) : n < k := by
  induction t with
  | nil => cases h
  | cons c t ih =>
    rcases Nat.lt_trichotomy c.depth e with hlt | heq | hgt
    · rw [lastStart_of_lt hlt] at h'
      cases h'
    · rw [lastStart_of_gt (heq ▸ hde)] at h
      cases hc : c.statement? with
      | some r =>
        rw [← heq, lastStart_self hc] at h'
        cases h'
        exact lastStart_lt h
      | none =>
        rw [lastStart_of_none (Nat.le_of_eq heq.symm) hc] at h'
        exact ih h h'
    · rw [lastStart_of_gt (Nat.lt_trans hde hgt)] at h
      rw [lastStart_of_gt hgt] at h'
      exact ih h h'

end Trail

open Trail (started lastStart)

/-- The entry for a statement that a call has started, if no bindings are kept. -/
def LogEntry.ofStart (id : Nat) (start : Nat × Stmt) : LogEntry :=
  ⟨start.1, some id, start.2.location, start.2.rule, none⟩

/-- A machine whose log keeps of each call in progress the last statement that it has started. -/
structure Machine.Recalls (t : Trail) (m : Machine σ) : Prop where
  tidy : m.Tidy
  next : m.log.next = started t
  tails : ∀ a calls, (a :: calls) <:+ m.calls →
    m.log.tails.get? a.id = (lastStart calls.length t).map (LogEntry.ofStart a.id)

namespace Machine.Recalls

variable {t : Trail} {m n : Machine σ} {c : Control}

theorem keeps (h : m.Recalls t) (ht : m.Tidies n) (hc : n.calls = m.calls) : n.Recalls t := by
  obtain ⟨tidy, remembers⟩ := ht h.tidy
  refine ⟨tidy, remembers.next.trans h.next, fun a calls hs => ?_⟩
  have inside : a.id ∈ n.calls.map Activation.id :=
    List.mem_map_of_mem (hs.subset List.mem_cons_self)
  rcases remembers.tails a.id with eq | gone
  · exact eq.trans (h.tails a calls (hc ▸ hs))
  · exact absurd inside gone.2

theorem shift (h : m.Recalls t) (hc : c.statement? = none) (hd : m.calls.length = c.depth + 1)
    (ht : m.Tidies n) (hs : Shifts m.calls n.calls) : n.Recalls (c :: t) := by
  obtain ⟨tidy, remembers⟩ := ht h.tidy
  refine ⟨tidy, ?_, fun a calls ha => ?_⟩
  · rw [Trail.started_of_none hc]
    exact remembers.next.trans h.next
  have inside : a.id ∈ n.calls.map Activation.id :=
    List.mem_map_of_mem (ha.subset List.mem_cons_self)
  have kept : n.log.tails.get? a.id = m.log.tails.get? a.id :=
    (remembers.tails a.id).resolve_right fun gone => gone.2 inside
  have old (hm : (a :: calls) <:+ m.calls) :
      n.log.tails.get? a.id = (lastStart calls.length (c :: t)).map (LogEntry.ofStart a.id) := by
    have shallow : calls.length ≤ c.depth := by
      have bound := hm.length_le
      rw [hd] at bound
      exact Nat.le_of_succ_le_succ bound
    rw [kept, h.tails a calls hm, Trail.lastStart_of_none shallow hc]
  rcases hs with opened | ⟨b, closed⟩
  · rcases List.suffix_or_suffix_of_suffix ha opened with hm | hm
    · exact old hm
    · rcases List.suffix_cons_iff.mp hm with hm | hm
      · exact old (hm ▸ List.suffix_rfl)
      · -- A call that has just been opened has started nothing.
        have later : a.id ∉ m.calls.map Activation.id := fun hid => by
          have ids := (List.pairwise_cons.mp tidy.ids).2.sublist (ha.sublist.map Activation.id)
          exact Nat.lt_irrefl _ ((List.pairwise_cons.mp ids).1 _ ((hm.map Activation.id).subset hid))
        have deep : c.depth < calls.length := by
          have bound := hm.length_le
          rwa [hd] at bound
        rw [kept, h.tidy.none_of_not_mem later, Trail.lastStart_of_lt deep]
        rfl
  · exact old (closed ▸ ha.trans (List.suffix_cons b n.calls))

theorem record (h : m.Recalls t) {s : Stmt} (hc : c.statement? = some s)
    (hd : m.calls.length = c.depth + 1) (loc : Option Location) :
    (Machine.record false { m with current := loc } (m.entry s.rule s.location none)).Recalls
      (c :: t) := by
  obtain ⟨a, calls, hm⟩ := List.exists_cons_of_length_eq_add_one hd
  have depth : calls.length = c.depth := by simpa [hm] using hd
  have entry : m.entry s.rule s.location none = LogEntry.ofStart a.id (started t, s) := by
    simp only [Machine.entry, hm, h.next, List.head?_cons, Option.map_some, LogEntry.ofStart]
  have tails : (m.log.record false (LogEntry.ofStart a.id (started t, s))).tails =
      m.log.tails.put a.id (LogEntry.ofStart a.id (started t, s)) :=
    StepLog.record_tails _ rfl _
  have mem : a.id ∈ m.calls.map Activation.id := by
    rw [hm]
    exact List.mem_cons_self
  rw [entry]
  constructor
  case tidy =>
    refine ⟨h.tidy.ids, ?_, fun id hid => ?_⟩
    · simp only [Machine.record, tails]
      exact Table.nodup_keys_put h.tidy.nodup _ _
    · simp only [Machine.record, tails, Table.mem_keys_put] at hid
      rcases hid with rfl | hid
      · exact mem
      · exact h.tidy.keys hid
  case next =>
    rw [Trail.started_of_some hc, ← h.next]
    rfl
  case tails =>
    intro b rest hb
    simp only [Machine.record, tails]
    rcases List.suffix_cons_iff.mp (hm ▸ hb : (b :: rest) <:+ a :: calls) with hb | hb
    · cases hb
      rw [Table.get?_put_self, depth, Trail.lastStart_self hc]
      rfl
    · have ids := h.tidy.ids
      rw [hm] at ids
      have lower : b.id < a.id :=
        (List.pairwise_cons.mp (List.pairwise_cons.mp ids).2).1 b.id
          (List.mem_map_of_mem (hb.subset List.mem_cons_self))
      have shallow : rest.length < c.depth := depth ▸ hb.length_le
      rw [Table.get?_put_of_ne _ _ (Nat.ne_of_gt lower), Trail.lastStart_of_gt shallow]
      exact h.tails b rest (hm ▸ hb.trans (List.suffix_cons a calls))

end Machine.Recalls

namespace Act

variable {setup : Setup σ} (hs : setup.services = .empty) (hv : setup.verbose = false)

include hs hv

theorem recalls_begin (task : Task) {t : Trail} {m : Machine σ} (h : m.Recalls t)
    (hd : m.calls.length = (Control.task task).depth + 1) :
    Ensures (begin setup task) m (fun _ n => n.Recalls (.task task :: t))
      (fun _ n => n.Recalls (.task task :: t)) := by
  have quiet := (respects_calls setup).closed
  have tidies : setup.Closed fun _ => Keeps Machine.Tidies := closed_tidies
  cases task with
  | exec s scope k =>
    have begun := begin_exec hs s scope k m
    simp only [hv, Bool.false_eq_true, if_false] at begun
    have recorded := h.record (c := .task (.exec s scope k)) rfl hd (some s.location)
    have calls := closed_beginStatement quiet (fun _ _ => rfl) s scope k
    have tidy := closed_beginStatement tidies (fun _ _ => .of_eq rfl rfl rfl) s scope k
    rw [Ensures, begun]
    exact ((tidy _).and (calls _)).mono (fun _ n hn => recorded.keeps hn.1 hn.2)
      fun _ n hn => recorded.keeps hn.1 hn.2
  | eval e scope k =>
    have calls := closed_beginExpression quiet e scope k
    have tidy := closed_beginExpression tidies e scope k
    exact ((tidy m).and (calls m)).mono (fun _ n hn => h.shift rfl hd hn.1 (.of_eq hn.2))
      fun _ n hn => h.shift rfl hd hn.1 (.of_eq hn.2)

theorem recalls_step (c : Control) {t : Trail} {m : Machine σ} (h : m.Recalls t) {a : Activation}
    (hc : Stacked .program [a] c.context.2 m.calls) :
    Ensures (c.step setup) m (fun _ n => n.Recalls (c :: t)) (fun _ n => n.Recalls (c :: t)) := by
  have hd : m.calls.length = c.depth + 1 := hc.length_eq
  cases c with
  | task task =>
    rw [Control.step, ← bind_pure_comp]
    exact ensures_bind (recalls_begin hs hv task h hd)
  | move v =>
    have tidy : Keeps Machine.Tidies (advance setup v) := closed_advance closedCalls_tidies v
    exact ((tidy m).and (shifts_step (.move v) hc)).mono (fun _ n hn => h.shift rfl hd hn.1 hn.2)
      fun _ n hn => h.shift rfl hd hn.1 hn.2

end Act

end LoopScript
