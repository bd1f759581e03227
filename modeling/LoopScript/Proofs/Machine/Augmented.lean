import LoopScript.Proofs.Machine.Looks
import LoopScript.Proofs.Machine.Twins

/-!
Augmented assignments. To combine what a target holds with a value is to assign to it what the operator
makes of the two.
-/

namespace LoopScript

variable {σ : Type}

/-- The same fault, but for the place that it is told of. -/
inductive Fault.Same : Fault → Fault → Prop where
  | refl (f : Fault) : Same f f
  | error {e e' : RuntimeError} (hc : e'.cause = e.cause) (hs : e'.step = e.step) :
      Same (.error e) (.error e')

theorem Fault.same_attach (f : Fault) (l l' : Location) :
    (f.attach (some l)).Same (f.attach (some l')) := by
  cases f with
  | endless | foreign => exact .refl _
  | error e =>
    obtain ⟨cause, location, step⟩ := e
    cases location with
    | none => exact .error rfl rfl
    | some _ => exact .refl _

/-- Two ways to come to the same: the same control on the same machine, or faults that tell the same, on
machines that differ at most by methods behind the store from which both set out. -/
inductive Point.Agrees (s : Store) : Point σ → Point σ → Prop where
  | on (c : Control) (n : Machine σ) : Agrees s (.on c n) (.on c n)
  | failed {f f' : Fault} (n : Machine σ) (same : f.Same f') : Agrees s (.failed f n) (.failed f' n)
  | spare {f f' : Fault} {n n' : Machine σ} (same : f.Same f') (behind : s.Spare n.world.store)
      (more : n.Spare n') : Agrees s (.failed f n) (.failed f' n')

/-- Two controls come to the same, whatever the host does at the waits. -/
def Setup.Matches (setup : Setup σ) (s : Store) {a : Awaits} (k : Context a) (c c' : Control)
    (m : Machine σ) : Prop :=
  ∀ stops : List (Stop σ), (∀ stop ∈ stops, stop.wait ≠ none) →
    (∀ p : Point σ, p.Ends k → setup.Leads k c m stops p →
      ∃ p', setup.Leads k c' m stops p' ∧ p.Agrees s p') ∧
    ∀ p' : Point σ, p'.Ends k → setup.Leads k c' m stops p' →
      ∃ p, setup.Leads k c m stops p ∧ p.Agrees s p'

/-- Two actions come to controls that match, on the same machine, or to faults that tell the same. -/
def Setup.Agree (setup : Setup σ) (s : Store) {a : Awaits} (k : Context a) (x y : Act σ Control)
    (m : Machine σ) : Prop :=
  (∀ d n, x m = .ok d n → ∃ d', y m = .ok d' n ∧ setup.Matches s k d d' n) ∧
    ∀ f n, x m = .error f n →
      ∃ f' n', y m = .error f' n' ∧ (Point.failed f n).Agrees s (.failed f' n')

section Matching

variable {setup : Setup σ} {s : Store} {a : Awaits} {k : Context a} {c c' : Control} {m : Machine σ}
  {x y : Act σ Control} {p p' : Point σ} {α : Type}

theorem Point.Agrees.ends (h : p.Agrees s p') : p.Ends k ↔ p'.Ends k := by
  cases h <;> exact Iff.rfl

theorem agree_pure (h : setup.Matches s k c c' m) : setup.Agree s k (pure c) (pure c') m := by
  refine ⟨fun d n given => ?_, fun f n given => nomatch given⟩
  obtain ⟨rfl, rfl⟩ := EStateM.Result.ok.inj given
  exact ⟨c', rfl, h⟩

theorem agree_then {z : Act σ α} {u v : α → Act σ Control}
    (h : ∀ b n, z m = .ok b n → setup.Agree s k (u b) (v b) n) :
    setup.Agree s k (z >>= u) (z >>= v) m := by
  simp only [Setup.Agree, bind, EStateM.bind]
  cases hz : z m with
  | ok b n => exact h b n hz
  | error f n =>
    refine ⟨nofun, ?_⟩
    rintro _ _ ⟨⟩
    exact ⟨f, n, rfl, .failed n (.refl f)⟩

/-- What two actions give at different places. -/
theorem agree_placed {z z' : Act σ α} {u v : α → Act σ Control}
    (ok : ∀ b n, z m = .ok b n → z' m = .ok b n ∧ setup.Agree s k (u b) (v b) n)
    (error : ∀ f n, z m = .error f n →
      ∃ f' n', z' m = .error f' n' ∧ (Point.failed f n).Agrees s (.failed f' n')) :
    setup.Agree s k (z >>= u) (z' >>= v) m := by
  simp only [Setup.Agree, bind, EStateM.bind]
  cases hz : z m with
  | ok b n =>
    obtain ⟨hz', agree⟩ := ok b n hz
    rw [hz']
    exact agree
  | error f n =>
    obtain ⟨f', n', hz', agrees⟩ := error f n hz
    rw [hz']
    refine ⟨nofun, ?_⟩
    rintro _ _ ⟨⟩
    exact ⟨f', n', rfl, agrees⟩

theorem matches_of_performs (hc : setup.Performs k c m x) (hc' : setup.Performs k c' m y)
    (h : setup.Agree s k x y m) : setup.Matches s k c c' m := by
  intro stops waits
  cases hx : x m with
  | ok d n =>
    obtain ⟨d', hy, matched⟩ := h.1 d n hx
    obtain ⟨there, back⟩ := matched stops waits
    refine ⟨fun p hp leads => ?_, fun p' hp leads => ?_⟩
    · have after := (hc stops p waits hp).mp leads
      rw [hx] at after
      obtain ⟨p', leads', agrees⟩ := there p hp after
      refine ⟨p', (hc' stops p' waits (agrees.ends.mp hp)).mpr ?_, agrees⟩
      rwa [hy]
    · have after := (hc' stops p' waits hp).mp leads
      rw [hy] at after
      obtain ⟨p, leads', agrees⟩ := back p' hp after
      refine ⟨p, (hc stops p waits (agrees.ends.mpr hp)).mpr ?_, agrees⟩
      rwa [hx]
  | error f n =>
    obtain ⟨f', n', hy, agrees⟩ := h.2 f n hx
    refine ⟨fun p hp leads => ?_, fun p' hp leads => ?_⟩
    · have after := (hc stops p waits hp).mp leads
      rw [hx] at after
      obtain ⟨rfl, rfl⟩ := after
      refine ⟨.failed f' n', (hc' [] (.failed f' n') waits trivial).mpr ?_, agrees⟩
      rw [hy]
      exact ⟨rfl, rfl⟩
    · have after := (hc' stops p' waits hp).mp leads
      rw [hy] at after
      obtain ⟨rfl, rfl⟩ := after
      refine ⟨.failed f n, (hc [] (.failed f n) waits trivial).mpr ?_, agrees⟩
      rw [hx]
      exact ⟨rfl, rfl⟩

/-- An expression that is evaluated inside two contexts. -/
theorem matches_evaluated {l l' : Context .value} (e : Expr) (scope : ScopeId)
    (hl : k.depth < l.depth) (hl' : k.depth < l'.depth)
    (h : ∀ (x : Value) n, setup.Matches s k (.move (.give x l)) (.move (.give x l')) n) :
    setup.Matches s k (.task (.eval e scope l)) (.task (.eval e scope l')) m := by
  intro stops waits
  refine ⟨fun p hp leads => ?_, fun p' hp leads => ?_⟩
  · obtain ⟨f, n, rfl, inside⟩ | ⟨x, n, first, later, rfl, given, after⟩ :=
      (leads_within_iff hl rfl hp).mp leads
    · exact ⟨_, (leads_within_iff hl' rfl hp).mpr (.inl ⟨f, n, rfl, refused_twin e scope inside⟩),
        .failed n (.refl f)⟩
    · rw [List.forall_mem_append] at waits
      obtain ⟨p', after', agrees⟩ := (h x n later waits.2).1 p hp after
      exact ⟨p', (leads_within_iff hl' rfl (agrees.ends.mp hp)).mpr
        (.inr ⟨x, n, first, later, rfl, evaluated_twin e scope given, after'⟩), agrees⟩
  · obtain ⟨f, n, rfl, inside⟩ | ⟨x, n, first, later, rfl, given, after⟩ :=
      (leads_within_iff hl' rfl hp).mp leads
    · exact ⟨_, (leads_within_iff hl rfl hp).mpr (.inl ⟨f, n, rfl, refused_twin e scope inside⟩),
        .failed n (.refl f)⟩
    · rw [List.forall_mem_append] at waits
      obtain ⟨p, after', agrees⟩ := (h x n later waits.2).2 p' hp after
      exact ⟨p, (leads_within_iff hl rfl (agrees.ends.mpr hp)).mpr
        (.inr ⟨x, n, first, later, rfl, evaluated_twin e scope given, after'⟩), agrees⟩

end Matching

/-- The operators that an augmented assignment may have. -/
def arithmetic : List BinaryOp := [.add, .sub, .mul, .div]

section Assignment

variable {setup : Setup σ} {s : Store} {k : Context .flow} {op : AssignOp} {b : BinaryOp} {e t : Expr}
  {loc place : Location} {scope : ScopeId} {m n : Machine σ} {x old : Value}

theorem react_left (hb : b ∈ arithmetic) (l : Context .value) :
    Act.react setup (.left place b e scope) x l m =
      .ok (.start (.eval e scope (.fill (.right place b x) l))) m := by
  simp only [arithmetic, List.mem_cons, List.not_mem_nil, or_false] at hb
  rcases hb with rfl | rfl | rfl | rfl <;> rfl

/-- The left side of a binary operation comes first. -/
theorem performs_binary (ht : t.Simple) (hb : b ∈ arithmetic) {l : Context .value}
    (hl : k.depth ≤ l.depth) :
    setup.Performs k (.task (.eval (.binary place b t e) scope l)) m
      (Act.look scope t >>= fun old =>
        pure (.task (.eval e scope (.fill (.right place b old) l)))) := by
  have inner : k.depth ≤ (Context.fill (.left place b e scope) l).depth := Nat.le_succ_of_le hl
  refine performs_then (performs_task k _ m) (performs_bind (performs_look ht inner m) fun v n _ => ?_)
  exact performs_reaction hl (react_left hb l) rfl

theorem making_placed (loc place : Location) (f : Store → Except Fault Made) (m : Machine σ) :
    (∀ v n, Act.making loc f m = .ok v n → Act.making place f m = .ok v n) ∧
      ∀ g n, Act.making loc f m = .error g n →
        ∃ g', Act.making place f m = .error g' n ∧ g.Same g' := by
  rw [Act.making_eq, Act.making_eq]
  split
  · exact ⟨fun v n given => given, fun g n failed => nomatch failed⟩
  · exact ⟨fun v n given => given, fun g n failed => nomatch failed⟩
  · next e _ =>
    refine ⟨fun v n given => (nomatch given), fun g n failed => ?_⟩
    obtain ⟨rfl, rfl⟩ := EStateM.Result.error.inj failed
    exact ⟨_, rfl, e.same_attach loc place⟩

theorem matches_refl (s : Store) (k : Context .flow) (c : Control) (n : Machine σ) :
    setup.Matches s k c c n := by
  have agrees (p : Point σ) : p.Agrees s p := by
    cases p with
    | on c n => exact .on c n
    | failed f n => exact .failed n (.refl f)
  exact fun stops _ => ⟨fun p _ h => ⟨p, h, agrees p⟩, fun p _ h => ⟨p, h, agrees p⟩⟩

/-- The value of the right side is joined with the old one, and then it is put into the target. -/
theorem matches_joined {H : Old → Hole .value .flow} {finish : Value → Act σ Unit}
    (hH : ∀ old v, Act.react setup (H old) v k =
      (Act.combine loc old v >>= fun w => finish w >>= fun _ => pure (.give Flow.normal))) :
    setup.Matches s k (.move (.give x (.fill (H (some (b, old))) k)))
      (.move (.give x (.fill (.right place b old) (.fill (H none) k)))) n := by
  have joined : setup.Performs k (.move (.give x (.fill (H (some (b, old))) k))) n
      ((Act.making loc (·.binary b old x) >>= finish) >>= fun _ =>
        pure (.move (.give (a := .flow) .normal k))) := by
    refine performs_react (r := fun _ => .give Flow.normal) (Nat.le_refl k.depth) ?_ fun _ => rfl
    rw [hH, bind_assoc]
    rfl
  have right : setup.Performs k (.move (.give x (.fill (.right place b old) (.fill (H none) k)))) n
      (Act.making place (·.binary b old x) >>= fun v =>
        pure (.move (.give v (.fill (H none) k)))) :=
    performs_react (r := .give) (Nat.le_succ k.depth) rfl fun _ => rfl
  have assigned (v : Value) (n : Machine σ) : setup.Performs k
      (.move (.give v (.fill (H none) k))) n
      (finish v >>= fun _ => pure (.move (.give (a := .flow) .normal k))) :=
    performs_react (r := fun _ => .give Flow.normal) (Nat.le_refl k.depth)
      (by rw [hH]; rfl) fun _ => rfl
  refine matches_of_performs joined (performs_bind right fun v n _ => assigned v n) ?_
  rw [bind_assoc]
  refine agree_placed (fun v q made => ⟨(making_placed loc place _ n).1 v q made, ?_⟩) fun f q failed => ?_
  · exact agree_then fun _ q _ => agree_pure (matches_refl s k _ q)
  · obtain ⟨f', failed', same⟩ := (making_placed loc place _ n).2 f q failed
    exact ⟨f', q, failed', .failed q same⟩

theorem matches_right {H : Old → Hole .value .flow} {finish : Value → Act σ Unit}
    (hH : ∀ old v, Act.react setup (H old) v k =
      (Act.combine loc old v >>= fun w => finish w >>= fun _ => pure (.give Flow.normal))) :
    setup.Matches s k (.task (.eval e scope (.fill (H (some (b, old))) k)))
      (.task (.eval e scope (.fill (.right place b old) (.fill (H none) k)))) n :=
  matches_evaluated e scope (Nat.lt_succ_self _) (Nat.lt_succ_of_lt (Nat.lt_succ_self _))
    fun _ _ => matches_joined hH

/-- What is noted of an assignment when it begins. -/
def Act.note (setup : Setup σ) (loc : Location) : Act σ Unit := do
  modify fun m => { m with current := some loc }
  logStep setup "Assignment" loc

theorem begin_assign (hs : setup.services = .empty) (target : Target) (op : AssignOp) (e : Expr) :
    Act.begin setup (.exec (.assign loc target op e) scope k) =
      (Act.note setup loc >>= fun _ => Act.beginStatement (.assign loc target op e) scope k) := by
  obtain ⟨services, print, budget, verbose⟩ := setup
  subst hs
  rfl

theorem snapshot_still {bindings : Option (List (String × String))}
    (h : Act.snapshot loc m = .ok bindings n) : n = m := by
  obtain ⟨world, globals, forced, current, log, calls, issued⟩ := m
  cases calls with
  | nil =>
    cases h
    rfl
  | cons a calls =>
    have reads : (Act.reading loc (·.snapshot a.scope) >>= fun shown => pure (some shown))
      ⟨world, globals, forced, current, log, a :: calls, issued⟩ = .ok bindings n := h
    obtain ⟨shown, n', read, given⟩ := Act.bind_eq_ok_iff.mp reads
    cases given
    exact (Act.reading_eq_ok_iff.mp read).2

theorem note_world (hs : setup.services = .empty) (h : Act.note setup loc m = .ok () n) :
    n.world = m.world := by
  obtain ⟨services, print, budget, verbose⟩ := setup
  subst hs
  obtain ⟨_, m₁, placed, h⟩ := Act.bind_eq_ok_iff.mp h
  cases placed
  cases verbose with
  | false =>
    cases h
    rfl
  | true =>
    obtain ⟨bindings, m₂, shown, h⟩ := Act.bind_eq_ok_iff.mp h
    cases snapshot_still shown
    cases h
    rfl

theorem oldValue_eq (hop : op.combine? = some b) (read : Act σ Value) :
    Act.oldValue op read = (read >>= fun old => pure (some (b, old))) := by
  simp only [Act.oldValue, hop]

theorem matches_name (hs : setup.services = .empty) (hop : op.combine? = some b) (hb : b ∈ arithmetic)
    (there : Location) (id : String) :
    setup.Matches m.world.store k (.task (.exec (.assign loc (.name there id) op e) scope k))
      (.task (.exec (.assign loc (.name there id) .set (.binary place b (.name there id) e)) scope k))
      m := by
  have augmented : setup.Performs k (.task (.exec (.assign loc (.name there id) op e) scope k)) m
      (Act.note setup loc >>= fun _ => Act.look scope (.name there id) >>= fun old =>
        pure (.task (.eval e scope (.fill (.assignName loc id (some (b, old)) scope) k)))) := by
    refine (performs_task k _ m).congr ?_
    rw [begin_assign hs]
    simp only [Act.beginStatement, oldValue_eq hop, bind_assoc, pure_bind]
    rfl
  have expanded : setup.Performs k _ m _ := performs_task k
    (.exec (.assign loc (.name there id) .set (.binary place b (.name there id) e)) scope k) m
  rw [begin_assign hs] at expanded
  refine matches_of_performs augmented (performs_bind expanded fun _ n _ =>
    performs_binary (.name there id) hb (Nat.le_succ _)) ?_
  refine agree_then fun _ n _ => agree_then fun old n _ => agree_pure ?_
  have puts (old : Old) (w : Value) : Act.react setup (.assignName loc id old scope) w k =
      (Act.combine loc old w >>= fun w => Act.assign scope id w >>= fun _ => pure (.give .normal)) := rfl
  exact matches_right puts

theorem settled (v : Value) (whole : m.world.store.Whole) {a : Addr} (looked : m.Looked v n)
    (h : n.world.store.settable v = .ok a) : n = m := by
  obtain rfl | ⟨rfl, r, f, rfl⟩ := looked
  · rfl
  · exact absurd h (settable_method (Machine.spare_refl _).object?_fresh)

theorem performs_member (hs : setup.services = .empty) (ht : t.Simple) (there : Location)
    (name : String) (op : AssignOp) (e : Expr) (m : Machine σ) :
    setup.Performs k (.task (.exec (.assign loc (.member there t name) op e) scope k)) m
      ((do
        Act.note setup loc
        let v ← Act.look scope t
        let a ← Act.reading loc (·.settable v)
        let old ← Act.oldValue op (Act.making loc (·.getMember v name))
        return (a, old)) >>= fun q =>
          pure (.task (.eval e scope (.fill (.assignMember loc q.1 name q.2) k)))) := by
  have begun : setup.Performs k _ m _ := performs_task k
    (.exec (.assign loc (.member there t name) op e) scope k) m
  rw [begin_assign hs] at begun
  have inner : k.depth ≤ (Context.fill (.memberBase loc name op e scope) k).depth := Nat.le_succ _
  simp only [bind_assoc]
  refine performs_bind begun fun _ n _ => performs_bind (performs_look ht inner n) fun v n _ => ?_
  have given : setup.Performs k (.move (.give v (.fill (.memberBase loc name op e scope) k))) n _ :=
    performs_react (z := do
      let a ← Act.reading loc (·.settable v)
      let old ← Act.oldValue op (Act.making loc (·.getMember v name))
      return (a, old))
    (r := fun q => .start (.eval e scope (.fill (.assignMember loc q.1 name q.2) k))) (Nat.le_refl _)
    (by simp only [bind_assoc, pure_bind]; rfl) fun _ => rfl
  simpa only [bind_assoc, pure_bind] using given

theorem matches_member (hs : setup.services = .empty) (hop : op.combine? = some b) (hb : b ∈ arithmetic)
    (there : Location) (ht : t.Simple) (name : String) (whole : m.world.store.Whole) :
    setup.Matches m.world.store k (.task (.exec (.assign loc (.member there t name) op e) scope k))
      (.task (.exec (.assign loc (.member there t name) .set
        (.binary place b (.member there t name) e)) scope k)) m := by
  refine matches_of_performs (performs_member hs ht there name op e m)
    (performs_bind (performs_member hs ht there name .set _ m) fun q n _ =>
      performs_binary (.member there ht name) hb (Nat.le_succ _)) ?_
  simp only [oldValue_eq hop, bind_assoc, pure_bind]
  refine agree_then fun _ m₁ noted => agree_then fun v m₂ looked => agree_then fun a m₃ set => ?_
  obtain ⟨set, rfl⟩ := Act.reading_eq_ok_iff.mp set
  rw [← note_world hs noted] at whole ⊢
  obtain rfl := settled v whole (look_cases ht scope whole looked) set
  change setup.Agree _ k _ (Act.look scope (.member there t name) >>= _) _
  have again : Act.look scope (.member there t name) m₃ =
      Act.making there (·.getMember v name) m₃ := Act.bind_of_ok looked _
  obtain ⟨same, refused⟩ := making_placed loc there (·.getMember v name) m₃
  have puts (old : Old) (w : Value) : Act.react setup (.assignMember loc a name old) w k =
      (Act.combine loc old w >>= fun w => Act.modifyStore (·.setField a name w) >>= fun _ =>
        pure (.give .normal)) := rfl
  refine agree_placed (fun old n made => ⟨again.trans (same old n made), agree_pure ?_⟩)
    fun f n failed => ?_
  · exact matches_right puts
  · obtain ⟨f', failed', alike⟩ := refused f n failed
    exact ⟨f', n, again.trans failed', .failed n alike⟩

theorem performs_item (hs : setup.services = .empty) {i : Expr} (ht : t.Simple) (hi : i.Simple)
    (there : Location) (op : AssignOp) (e : Expr) (m : Machine σ) :
    setup.Performs k (.task (.exec (.assign loc (.index there t i) op e) scope k)) m
      ((do
        Act.note setup loc
        let v ← Act.look scope t
        let j ← Act.look scope i
        let old ← Act.oldValue op (Act.reading loc (·.getIndex v j))
        return (v, j, old)) >>= fun q =>
          pure (.task (.eval e scope (.fill (.assignItem loc q.1 q.2.1 q.2.2) k)))) := by
  have begun : setup.Performs k _ m _ := performs_task k
    (.exec (.assign loc (.index there t i) op e) scope k) m
  rw [begin_assign hs] at begun
  have base : k.depth ≤ (Context.fill (.itemBase loc i op e scope) k).depth := Nat.le_succ _
  simp only [bind_assoc, pure_bind]
  refine performs_bind begun fun _ n _ => performs_bind (performs_look ht base n) fun v n _ => ?_
  have index : k.depth ≤ (Context.fill (.itemIndex loc v op e scope) k).depth := Nat.le_succ _
  refine performs_then (performs_reaction (Nat.le_refl _) rfl rfl) ?_
  refine performs_bind (performs_look hi index n) fun j n _ => ?_
  exact performs_react (r := fun old => .start (.eval e scope (.fill (.assignItem loc v j old) k)))
    (Nat.le_refl _) rfl fun _ => rfl

theorem matches_item (hs : setup.services = .empty) (hop : op.combine? = some b) (hb : b ∈ arithmetic)
    (there : Location) {i : Expr} (ht : t.Simple) (hi : i.Simple) (whole : m.world.store.Whole) :
    setup.Matches m.world.store k (.task (.exec (.assign loc (.index there t i) op e) scope k))
      (.task (.exec (.assign loc (.index there t i) .set
        (.binary place b (.index there t i) e)) scope k)) m := by
  refine matches_of_performs (performs_item hs ht hi there op e m)
    (performs_bind (performs_item hs ht hi there .set _ m) fun q n _ =>
      performs_binary (.index there ht hi) hb (Nat.le_succ _)) ?_
  simp only [oldValue_eq hop, bind_assoc, pure_bind]
  refine agree_then fun _ m₁ noted => agree_then fun v m₂ hv => agree_then fun j m₃ hj => ?_
  rw [← note_world hs noted] at whole ⊢
  change setup.Agree _ k _ (Act.look scope (.index there t i) >>= _) _
  obtain ⟨found, missed⟩ := item_again ht hi scope there whole hv hj
  have puts (old : Old) (w : Value) : Act.react setup (.assignItem loc v j old) w k =
      (Act.combine loc old w >>= fun w => (do
        let found ← Act.reading loc (·.setIndex v j w)
        Act.modifyStore (·.write found.1 found.2)) >>= fun _ => pure (.give Flow.normal)) := by
    simp only [Act.react, bind_assoc]
  refine agree_placed (fun old n read => ?_) fun f n failed => ?_
  · obtain ⟨item, rfl⟩ := Act.reading_eq_ok_iff.mp read
    exact ⟨found old item, agree_pure (matches_right puts)⟩
  · rw [Act.reading_eq] at failed
    cases item : m₃.world.store.getIndex v j with
    | ok old =>
      rw [item] at failed
      cases failed
    | error f' =>
      rw [item] at failed
      cases failed
      obtain ⟨q, again, more⟩ := missed f' item
      have looked := ((look_spare ht scope).ok hv).trans ((look_spare hi scope).ok hj)
      obtain ⟨store, rfl, behind⟩ := looked
      exact ⟨_, q, again, .spare (f'.same_attach loc there) behind more⟩

end Assignment

/-- An augmented assignment does what its expansion does, on any machine on which nothing refers to what
was never made. While the right side is evaluated, the host may do whatever it does at waits, and only
then. Where nothing fails, both come to the same machine. Otherwise both fail with the same message
and by the same rule, and at most there remain some methods more that were bound to look up the target
once more. -/
theorem augmented_expands (setup : Setup σ) (hs : setup.services = .empty) {op : AssignOp}
    {b : BinaryOp} (hop : op.combine? = some b) (hb : b ∈ arithmetic) {t : Target}
    (ht : t.toExpr.Simple) (e : Expr) (loc place : Location) (scope : ScopeId) (k : Context .flow)
    {m : Machine σ} (whole : m.world.store.Whole) :
    setup.Matches m.world.store k (.task (.exec (.assign loc t op e) scope k))
      (.task (.exec (.assign loc t .set (.binary place b t.toExpr e)) scope k)) m := by
  cases t with
  | name there id => exact matches_name hs hop hb there id
  | member there base name =>
    cases ht with
    | member _ hbase => exact matches_member hs hop hb there hbase name whole
  | index there base i =>
    cases ht with
    | index _ hbase hi => exact matches_item hs hop hb there hbase hi whole

theorem shelf_whole : shelf.world.store.Whole where
  objects := by simp [shelf, Obj.Within, Value.Within]
  scopes := by simp [shelf, Scope.Within, Value.Within]

/-- A list that is put behind itself. -/
theorem augmented_expands_list : shelf.world.store.Whole ∧ ∃ n : Machine Unit,
    shelfSetup.Leads .program (.task (.exec (.assign shelfPlace (.name shelfPlace "shelf") .add
      (.name shelfPlace "shelf")) 0 .program)) shelf []
      (.on (.move (.give Flow.normal .program)) n) ∧
    shelfSetup.Leads .program (.task (.exec (.assign shelfPlace (.name shelfPlace "shelf") .set
      (.binary shelfPlace .add (.name shelfPlace "shelf") (.name shelfPlace "shelf"))) 0 .program))
      shelf [] (.on (.move (.give Flow.normal .program)) n) := by
  let noted : Machine Unit := { shelf with
    current := some shelfPlace
    log := shelf.log.record false ⟨0, none, shelfPlace, "Assignment", none⟩ }
  have named : noted.world.store.lookup 0 "shelf" = .ok (.ref 0) := by
    simp [noted, Store.lookup, Store.lookup?, Store.owner?, Store.scope, shelf, Table.has, Table.get?]
  have begun : Act.begin shelfSetup (.exec (.assign shelfPlace (.name shelfPlace "shelf") .add
      (.name shelfPlace "shelf")) 0 .program) shelf =
      .ok (.task (.eval (.name shelfPlace "shelf") 0
        (.fill (.assignName shelfPlace "shelf" (some (.add, .ref 0)) 0) .program))) noted := by
    have old : Act.oldValue .add (Act.reading shelfPlace (·.lookup 0 "shelf")) noted =
        .ok (some (.add, .ref 0)) noted := Act.bind_of_ok (Act.reading_ok shelfPlace named) _
    exact Act.bind_of_ok old _
  have run : ∃ n, shelfSetup.Leads .program (.task (.exec (.assign shelfPlace
      (.name shelfPlace "shelf") .add (.name shelfPlace "shelf")) 0 .program)) shelf []
      (.on (.move (.give Flow.normal .program)) n) := by
    have unfinished : ¬ (Control.move (.give (a := .value) (.ref 0)
        (.fill (.assignName shelfPlace "shelf" (some (.add, .ref 0)) 0) .program))).GivesTo
        Context.program :=
      not_givesTo_of_depth Nat.zero_lt_one
    have joined : shelfSetup.Leads Context.program _ noted [] _ :=
      leads_go unfinished rfl (.here _ _)
    exact ⟨_, leads_task begun (leads_task (Act.begin_name shelfPlace named) joined)⟩
  obtain ⟨n, leads⟩ := run
  have added : AssignOp.combine? .add = some .add := rfl
  obtain ⟨there, -⟩ := augmented_expands shelfSetup rfl added (by decide)
    (t := .name shelfPlace "shelf") (.name shelfPlace "shelf") (.name shelfPlace "shelf") shelfPlace
    shelfPlace 0 .program shelf_whole [] (by simp)
  obtain ⟨p, leads', agrees⟩ := there (.on (.move (.give Flow.normal .program)) n) ⟨_, rfl⟩ leads
  cases agrees with
  | on => exact ⟨shelf_whole, n, leads, leads'⟩

end LoopScript
