import LoopScript.Proofs.Execution.Trace
import LoopScript.Proofs.Relocation.Calls
import LoopScript.Proofs.Relocation.Regions

/-!
Runs on a machine that others use as well. A run changes nothing but what its own links reach, and it
goes the way that it goes on a machine of its own, unless the calls in progress keep it from that.
-/

namespace LoopScript

variable {σ : Type} {setup : Setup σ} {L : Link}

theorem Act.parallel_control (hs : setup.services = .empty) {r r' : Resumption} (hr : r.Moved L r') :
    setup.Parallel Control.Moved L (r.control setup) (r'.control setup) := by
  cases hr with
  | task ht => exact parallel_begin hs ht
  | waited name loc hk =>
    exact parallel_seq (parallel_emit (setup.hooks_of_empty hs) _ _) fun _ hL _ _ =>
      parallel_pure (.move (.give (a := .value) (.atom _) (hk.mono hL)))

section Start

def Program.start (p : Program) (globals : ScopeId) : Control :=
  match p.statements with
  | [] => .move (.give (a := .flow) .normal .program)
  | s :: ss => .task (.exec s globals (.fill (.rest ss globals) .program))

def Machine.opened (m : Machine σ) : Machine σ :=
  { m with calls := [⟨"<module>", m.globals, m.issued, none⟩], issued := m.issued + 1 }

theorem proceed_eq (hh : setup.services.hooks = []) (count : Nat) (m : Machine σ) (p : Program) :
    Execution.proceed setup count m (.inl p) =
      run setup count (p.start m.globals) m.opened := by
  simp only [Execution.proceed, openModule_silent hh, Program.start]
  cases p.statements with
  | nil =>
    rw [run]
    rfl
  | cons s ss => rfl

theorem continueWith_block (p : Program) (globals : ScopeId) :
    Act.continueWith (σ := σ) .program (Act.block p.statements globals .program) =
      .go (p.start globals) := by
  unfold Program.start
  cases p.statements <;> rfl

theorem Machine.Moved.opened {m n : Machine σ} (h : m.Moved L n) : m.opened.Moved L n.opened :=
  ⟨h.store, h.left, h.right⟩

theorem start_moved {p : Program} (hp : p.Within (L.usable L.root) (L.assignable L.root)) :
    (p.start L.root).Moved L (p.start L.root) := by
  unfold Program.Within at hp
  unfold Program.start
  cases hst : p.statements with
  | nil => exact .move (.give (a := .flow) .normal .program)
  | cons s ss =>
    rw [hst] at hp
    obtain ⟨hs, hss⟩ := List.forall_mem_cons.mp hp
    exact .task (.exec L.root_linked hs (.fill (.rest L.root_linked hss) .program))

end Start

section Alone

variable {α : Type} {P : Link → α → α → Prop} {m n : Machine σ}

theorem outcomes_ok {a : α} (h : setup.Outcomes P L m m (.ok a n) (.ok a n)) :
    ∃ L', L.Evolves L' m.world.store n.world.store m.world.store n.world.store ∧
      n.Moved L' n ∧ P L' a a := by
  cases h with
  | ok lines evolves moved left right h => exact ⟨_, evolves, moved, h⟩

theorem outcomes_error {f : Fault}
    (h : setup.Outcomes P L m m (EStateM.Result.error (α := α) f n)
      (EStateM.Result.error (α := α) f n)) :
    n.Remains L.region m.world.store := by
  cases h with
  | error h =>
    rcases h with h | h
    · exact ⟨h.keeps.mono Set.subset_union_left Set.subset_union_left rfl rfl, h.forced⟩
    · exact ⟨h.keeps.mono Set.subset_union_right Set.subset_union_right rfl rfl, h.forced⟩

/-- A machine that has come to a control, and has linked what it has made on its way. -/
def Roams (L : Link) (s : Store) (c : Control) (m : Machine σ) : Prop :=
  ∃ L', L.Evolves L' s m.world.store s m.world.store ∧ m.Moved L' m ∧ c.Moved L' c

/-- A machine that has halted, and has changed nothing but what was linked. If it has paused, it goes
on with what is linked. -/
structure Halted.Roams (L : Link) (s : Store) (h : Halted σ) : Prop where
  remains : h.machine.Remains L.region s
  pause : ∀ w r, h.halt = .pause w r → ∃ L', L.Evolves L' s h.machine.world.store s
    h.machine.world.store ∧ h.machine.Moved L' h.machine ∧ r.Moved L' r

variable (hs : setup.services = .empty) {s : Store}

include hs

theorem roams_step {c : Control} (h : Roams L s c m) {v : Next σ}
    (e : c.step setup m = .ok v n) : ∃ L', L.Evolves L' s n.world.store s n.world.store ∧
      n.Moved L' n ∧ v.Moved L' v := by
  obtain ⟨L', evolves, hm, hc⟩ := h
  have outcomes := Act.parallel_step hs hc m m hm
  rw [e] at outcomes
  obtain ⟨L'', evolves', hn, hv⟩ := outcomes_ok outcomes
  exact ⟨L'', evolves.trans evolves', hn, hv⟩

theorem run_roams (count : Nat) {c : Control} (h : Roams L s c m) :
    (run setup count c m).Roams L s := by
  -- the controls on the way are linked with themselves, and so is the one that is left at a pause
  have halts : (run setup count c m).From setup (Roams L s) := by
    refine run_from (fun c m c' n hc e => ?_) count c m h
    obtain ⟨L', evolves, hn, hv⟩ := roams_step hs hc e
    cases hv with
    | go hc' => exact ⟨L', evolves, hn, hc'⟩
  generalize run setup count c m = h at halts
  obtain ⟨halt, count, n⟩ := h
  cases halt with
  | pause w r =>
    have paused {L' : Link} (evolves : L.Evolves L' s n.world.store s n.world.store)
        (hn : n.Moved L' n) (hr : r.Moved L' r) : Halted.Roams L s ⟨.pause w r, count, n⟩ := by
      refine ⟨⟨evolves.keeps_region, hn.left⟩, ?_⟩
      rintro w r ⟨⟩
      exact ⟨L', evolves, hn, hr⟩
    cases w with
    | none =>
      obtain ⟨t, rfl, L', evolves, hn, hc⟩ := halts
      cases hc with
      | task ht => exact paused evolves hn (.task ht)
    | some w =>
      obtain ⟨c, m, hc, e⟩ := halts
      obtain ⟨L', evolves, hn, hv⟩ := roams_step hs hc e
      cases hv with
      | pause w hr => exact paused evolves hn hr
  | finished f =>
    obtain ⟨c, m, hc, e⟩ := halts
    obtain ⟨L', evolves, hn, -⟩ := roams_step hs hc e
    exact ⟨⟨evolves.keeps_region, hn.left⟩, nofun⟩
  | failed f =>
    obtain ⟨c, m, ⟨L', evolves, hm, hc⟩, e⟩ := halts
    have outcomes := Act.parallel_step hs hc m m hm
    rw [e] at outcomes
    have remains := outcomes_error outcomes
    exact ⟨⟨evolves.keeps_after remains.keeps, remains.forced⟩, nofun⟩

theorem resumeFrom_roams (count : Nat) {r : Resumption} (hm : m.Moved L m) (hr : r.Moved L r) :
    (resumeFrom setup count r m).Roams L m.world.store := by
  have outcomes := Act.parallel_control hs hr m m hm
  rw [resumeFrom_eq]
  generalize r.control setup m = v at outcomes ⊢
  cases v with
  | ok c n =>
    obtain ⟨L', evolves, hn, hc⟩ := outcomes_ok outcomes
    exact run_roams hs count ⟨L', evolves, hn, hc⟩
  | error f n => exact ⟨outcomes_error outcomes, nofun⟩

theorem proceed_roams (count : Nat) {p : Program} (hm : m.Moved L m) (hg : m.globals = L.root)
    (hp : p.Within (L.usable L.root) (L.assignable L.root)) :
    (Execution.proceed setup count m (.inl p)).Roams L m.world.store := by
  rw [proceed_eq (setup.hooks_of_empty hs), hg]
  exact run_roams hs count ⟨L, .refl _ _ _, hm.opened, start_moved hp⟩

end Alone

section Beside

variable {final m n : Machine σ} {len : Nat}

/-- A run of a given length that comes to its end. The host does nothing while the program waits. -/
inductive Setup.Completes (setup : Setup σ) (final : Machine σ) : Nat → Control → Machine σ → Prop where
  | finished {c : Control} {m : Machine σ} (h : c.step setup m = .ok (.finished .normal) final) :
      Completes setup final 1 c m
  | step {len : Nat} {c c' : Control} {m m' : Machine σ} (h : c.step setup m = .ok (.go c') m')
      (next : Completes setup final len c' m') : Completes setup final (len + 1) c m
  | wait {len : Nat} {c c' : Control} {m n n' : Machine σ} {w : Wait σ} {r : Resumption}
      (h : c.step setup m = .ok (.pause w r) n) (hr : r.control setup n = .ok c' n')
      (next : Completes setup final len c' n') : Completes setup final (len + 1) c m

/-- A run that goes on from where it was suspended, and comes to its end. -/
def Setup.Resumes (setup : Setup σ) (final : Machine σ) (len : Nat) (r : Resumption) (m : Machine σ) :
    Prop :=
  ∃ c n, r.control setup m = .ok c n ∧ setup.Completes final len c n

inductive Setup.Continues (setup : Setup σ) (final : Machine σ) (len : Nat) :
    Next σ → Machine σ → Prop where
  | go {len' : Nat} {c : Control} {n : Machine σ} (h : setup.Completes final len' c n)
      (hlen : len' < len) : Continues setup final len (.go c) n
  | pause {len' : Nat} {w : Wait σ} {r : Resumption} {n : Machine σ}
      (h : setup.Resumes final len' r n) (hlen : len' < len) : Continues setup final len (.pause w r) n
  | finished : Continues setup final len (.finished .normal) final

theorem Setup.Continues.mono {len' : Nat} {v : Next σ} (h : setup.Continues final len v m)
    (hlen : len ≤ len') : setup.Continues final len' v m := by
  cases h with
  | go h less => exact .go h (less.trans_le hlen)
  | pause h less => exact .pause h (less.trans_le hlen)
  | finished => exact .finished

theorem Setup.Completes.next {c : Control} (h : setup.Completes final len c m) :
    ∃ v n, c.step setup m = .ok v n ∧ setup.Continues final len v n := by
  cases h with
  | finished h => exact ⟨_, _, h, .finished⟩
  | step h next => exact ⟨_, _, h, .go next (Nat.lt_succ_self _)⟩
  | wait h hr next => exact ⟨_, _, h, .pause ⟨_, _, hr, next⟩ (Nat.lt_succ_self _)⟩

theorem Setup.Completes.task {t : Task} (h : setup.Completes final len (.task t) m) :
    ∃ c n, (Resumption.task t).control setup m = .ok c n ∧
      ∃ len', setup.Completes final len' c n ∧ len' < len := by
  obtain ⟨v, n, e, continues⟩ := h.next
  rw [step_task] at e
  split at e
  · next begun =>
    cases e
    cases continues with
    | go completes hlen => exact ⟨_, _, begun, _, completes, hlen⟩
  · cases e

/-- Two machines that come from others on which nothing was different but the places of things, and
have printed the same lines since. -/
structure Setup.Reaches (setup : Setup σ) (L L' : Link) (m n m' n' : Machine σ) (lines : List String) :
    Prop where
  evolves : L.Evolves L' m.world.store m'.world.store n.world.store n'.world.store
  moved : m'.Moved L' n'
  left : m'.world.host = setup.printed lines m.world.host
  right : n'.world.host = setup.printed lines n.world.host

/-- How a machine halts beside another one on which the same run comes to its end. -/
inductive Setup.Follows (setup : Setup σ) (final : Machine σ) (len : Nat) (L : Link) (m n : Machine σ) :
    Halted σ → Prop where
  | pause {w : Option (Wait σ)} {r r' : Resumption} {count len' : Nat} {m' n' : Machine σ} {L' : Link}
      {lines : List String} (h : setup.Reaches L L' m n m' n' lines) (hr : r.Moved L' r')
      (resumes : setup.Resumes final len' r m') (hlen : len' < len) :
      Follows setup final len L m n ⟨.pause w r', count, n'⟩
  | finished {count : Nat} {n' : Machine σ} {L' : Link} {lines : List String}
      (h : setup.Reaches L L' m n final n' lines) :
      Follows setup final len L m n ⟨.finished .normal, count, n'⟩
  | failed {f : Fault} {count : Nat} {n' : Machine σ} (h : setup.Jammed n'.calls f) :
      Follows setup final len L m n ⟨.failed f, count, n'⟩

theorem Setup.Reaches.trans {L' L'' : Link} {m' n' m'' n'' : Machine σ} {lines lines' : List String}
    (h : setup.Reaches L L' m n m' n' lines) (h' : setup.Reaches L' L'' m' n' m'' n'' lines') :
    setup.Reaches L L'' m n m'' n'' (lines ++ lines') where
  evolves := h.evolves.trans h'.evolves
  moved := h'.moved
  left := by simp only [h'.left, h.left, Setup.printed, List.foldl_append]
  right := by simp only [h'.right, h.right, Setup.printed, List.foldl_append]

def Setup.Along (setup : Setup σ) (final : Machine σ) (len : Nat) (L : Link) (m n : Machine σ)
    (c : Control) (n' : Machine σ) : Prop :=
  ∃ L' lines len' c' m', setup.Reaches L L' m n m' n' lines ∧ c'.Moved L' c ∧
    setup.Completes final len' c' m' ∧ len' ≤ len

inductive Setup.Beside {α β : Type} (setup : Setup σ) (R : Link → α → β → Prop) (L : Link)
    (m n : Machine σ) (a : α) (m' : Machine σ) : EStateM.Result Fault (Machine σ) β → Prop where
  | ok {b : β} {n' : Machine σ} {L' : Link} {lines : List String}
      (h : setup.Reaches L L' m n m' n' lines) (hR : R L' a b) : Beside setup R L m n a m' (.ok b n')
  | jammed {f : Fault} {n' : Machine σ} (h : setup.Jammed n'.calls f) :
      Beside setup R L m n a m' (.error f n')

theorem outcomes_beside {α β : Type} {R : Link → α → β → Prop} {a : α} {m' : Machine σ}
    {r : EStateM.Result Fault (Machine σ) β} (h : setup.Outcomes R L m n (.ok a m') r) :
    setup.Beside R L m n a m' r := by
  cases h with
  | ok lines evolves moved left right h => exact .ok ⟨evolves, moved, left, right⟩ h
  | right h hg => exact .jammed hg

variable (hs : setup.services = .empty)

include hs

theorem along_step {d : Control} {n' : Machine σ} (h : setup.Along final len L m n d n') :
    ∃ L' lines v m' m'', setup.Reaches L L' m n m' n' lines ∧ setup.Continues final len v m'' ∧
      setup.Beside (fun L => Next.Moved L) L' m' n' v m'' (d.step setup n') := by
  obtain ⟨L', lines, len', c, m', reaches, hc, completes, hlen⟩ := h
  obtain ⟨v, m'', e, continues⟩ := completes.next
  have outcomes := Act.parallel_step hs hc m' n' reaches.moved
  rw [e] at outcomes
  exact ⟨L', lines, v, m', m'', reaches, continues.mono hlen, outcomes_beside outcomes⟩

theorem along_ok {d : Control} {n' n'' : Machine σ} {v : Next σ}
    (h : setup.Along final len L m n d n') (e : d.step setup n' = .ok v n'') :
    ∃ L' lines v' m', setup.Reaches L L' m n m' n'' lines ∧ setup.Continues final len v' m' ∧
      v'.Moved L' v := by
  obtain ⟨L', lines, v', m', m'', reaches, continues, beside⟩ := along_step hs h
  rw [e] at beside
  cases beside with
  | ok reaches' hv => exact ⟨_, _, _, _, reaches.trans reaches', continues, hv⟩

theorem along_error {d : Control} {n' n'' : Machine σ} {f : Fault}
    (h : setup.Along final len L m n d n') (e : d.step setup n' = .error f n'') :
    setup.Jammed n''.calls f := by
  obtain ⟨L', lines, v', m', m'', reaches, continues, beside⟩ := along_step hs h
  rw [e] at beside
  cases beside with
  | jammed h => exact h

theorem run_follows (count : Nat) {d : Control} {n' : Machine σ}
    (h : setup.Along final len L m n d n') :
    setup.Follows final len L m n (run setup count d n') := by
  -- every control that the second machine comes to has one of the first run beside it
  have halts : (run setup count d n').From setup (setup.Along final len L m n) := by
    refine run_from (fun d n₁ d' n₂ h e => ?_) count d n' h
    obtain ⟨L', lines, v, m', reaches, continues, hv⟩ := along_ok hs h e
    cases hv with
    | go hc =>
      cases continues with
      | go completes hlen => exact ⟨_, _, _, _, _, reaches, hc, completes, hlen.le⟩
  generalize run setup count d n' = h at halts
  obtain ⟨halt, count, n'⟩ := h
  cases halt with
  | pause w r =>
    cases w with
    | none =>
      obtain ⟨t, rfl, L', lines, len', c, m', reaches, hc, completes, hlen⟩ := halts
      cases hc with
      | task ht =>
        obtain ⟨c', m'', e, len'', completes', hlen'⟩ := completes.task
        exact .pause reaches (.task ht) ⟨c', m'', e, completes'⟩ (hlen'.trans_le hlen)
    | some w =>
      obtain ⟨d, n₁, h, e⟩ := halts
      obtain ⟨L', lines, v, m', reaches, continues, hv⟩ := along_ok hs h e
      cases hv with
      | pause w hr =>
        cases continues with
        | pause resumes hlen => exact .pause reaches hr resumes hlen
  | finished f =>
    obtain ⟨d, n₁, h, e⟩ := halts
    obtain ⟨L', lines, v, m', reaches, continues, hv⟩ := along_ok hs h e
    cases hv with
    | finished hf =>
      cases continues with
      | finished =>
        cases hf with
        | normal => exact .finished reaches
  | failed f =>
    obtain ⟨d, n₁, h, e⟩ := halts
    exact .failed (along_error hs h e)

theorem resumeFrom_follows (count : Nat) {r r' : Resumption} (hm : m.Moved L n) (hr : r.Moved L r')
    (resumes : setup.Resumes final len r m) :
    setup.Follows final len L m n (resumeFrom setup count r' n) := by
  obtain ⟨c, m', e, completes⟩ := resumes
  have outcomes := Act.parallel_control hs hr m n hm
  rw [e] at outcomes
  have beside := outcomes_beside outcomes
  rw [resumeFrom_eq]
  generalize r'.control setup n = v at beside ⊢
  cases beside with
  | ok reaches hc => exact run_follows hs count ⟨_, _, _, _, _, reaches, hc, completes, le_rfl⟩
  | jammed h => exact .failed h

theorem proceed_follows (count : Nat) {p : Program} (hm : m.Moved L n) (hg : n.globals = L.root)
    (hp : p.Within (L.usable L.root) (L.assignable L.root))
    (completes : setup.Completes final len (p.start L.root) m.opened) :
    setup.Follows final len L m n (Execution.proceed setup count n (.inl p)) := by
  rw [proceed_eq (setup.hooks_of_empty hs), hg]
  have reaches : setup.Reaches L L m n m.opened n.opened [] := ⟨.refl _ _ _, hm.opened, rfl, rfl⟩
  exact run_follows hs count ⟨L, [], len, _, m.opened, reaches, start_moved hp, completes, le_rfl⟩

end Beside

end LoopScript
