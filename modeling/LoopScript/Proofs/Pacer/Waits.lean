import LoopScript.Proofs.Pacer.Bookkeeping

/-!
How long a pacer waits, with times that are rational numbers: a wait for some time ends with the first
tick by which the time is over, and a condition is asked once a tick until it holds. Nothing that
others do to the execution or the world between two ticks makes a difference.
-/

namespace LoopScript

variable {σ : Type}

namespace Pacer

theorem floor_rat : ¬ (epsilon : ℚ) < 0.0 := by norm_num [epsilon]

theorem epsilon_pos : (0 : ℚ) < epsilon := by norm_num [epsilon]

theorem create_rat {tick : ℚ} {sleep : Option (ℚ → σ → σ)} {p : Pacer σ ℚ}
    (h : create tick sleep = .ok p) : 0 < tick ∧ p.tick = tick ∧ p.elapsed = 0 := by
  unfold create at h
  split at h
  · cases h
  · next ht =>
    cases h
    norm_num at ht
    exact ⟨ht, rfl, by norm_num⟩

section Deeds

variable {κ : Type} [OfScientific κ] [LT κ] [DecidableLT κ] [Add κ] [Sub κ]
  {ofSeconds : Float → κ} {p : Pacer σ κ} {s : Subject σ} {t : Turn σ κ}

theorem Goes.of_counting (h : Goes p ofSeconds s t) (hp : p.ticked.counting = true) :
    t.deeds = [] ∧ t.pacer = p.ticked := by
  cases h with
  | counts => exact ⟨rfl, rfl⟩
  | asks c hc => simp [hp] at hc
  | fails free | answers free =>
    cases free with
    | idle hc | holds _ hc => simp [hp] at hc

theorem Goes.of_idle (h : Goes p ofSeconds s t) (hp : p.ticked.counting = false)
    (hc : p.condition = none) : t.deeds = [.resume] := by
  cases h with
  | counts ht => simp [hp] at ht
  | asks c _ ha => simp [hc] at ha
  | fails free | answers free =>
    cases free with
    | idle => rfl
    | holds c _ ha => simp [hc] at ha

theorem Goes.of_condition (h : Goes p ofSeconds s t) {a : Condition σ}
    (hp : p.ticked.counting = false) (hc : p.condition = some a) :
    if (a (p.slept s).world).1 then t.deeds = [.poll a true, .resume]
    else t.deeds = [.poll a false] ∧ t.pacer = p.ticked := by
  cases h with
  | counts ht => simp [hp] at ht
  | asks c _ ha no =>
    obtain rfl : a = c := by simpa [hc] using ha
    simp [no]
  | fails free | answers free =>
    cases free with
    | idle _ ha => simp [hc] at ha
    | holds c _ ha yes =>
      obtain rfl : a = c := by simpa [hc] using ha
      simp [yes]

theorem Goes.keeps (h : Goes p ofSeconds s t) :
    t.pacer.tick = p.tick ∧ t.pacer.ticks = p.ticks + 1 ∧
      t.pacer.elapsed = p.elapsed + p.tick := by
  refine ⟨?_, h.counts_of.1, ?_⟩
  all_goals
    cases h with
    | counts | asks => simp
    | fails free => simp [free.kept]
    | answers free => simp [note_kept, free.kept]

end Deeds

end Pacer

namespace Course

variable {c : Course σ ℚ}

theorem elapsed_eq (n : Nat) : (c.pacerAt n).tick = c.pacer.tick ∧
    (c.pacerAt n).elapsed = c.pacer.elapsed + n * c.pacer.tick := by
  induction n with
  | zero => simp [pacerAt, after]
  | succ n ih =>
    obtain ⟨tick, -, elapsed⟩ := (c.turnAt_goes n).keeps
    rw [pacerAt_succ, tick, elapsed, ih.1, ih.2]
    refine ⟨rfl, ?_⟩
    push_cast
    ring

section Seconds

variable {n : Nat} {x : Float} (resumed : (c.turnAt n).resumes = true)
  (answer : (c.turnAt n).answer = .ok (.paused (.seconds x)))

include resumed answer

theorem left_after (htick : 0 < c.pacer.tick) (j : Nat)
    (h : ∀ i : ℕ, 1 ≤ i → i ≤ j → Pacer.epsilon < c.ofSeconds x - i * c.pacer.tick) :
    (c.pacerAt (n + 1 + j)).condition = none ∧
      (c.pacerAt (n + 1 + j)).left = max 0 (c.ofSeconds x) - j * c.pacer.tick := by
  induction j with
  | zero =>
    obtain ⟨q, -, hq, hn⟩ := (c.turnAt_goes n).answered resumed answer
    have none := (Pacer.waiting_eq_false.mp hq).2
    rw [Nat.add_zero, pacerAt_succ, hn]
    refine ⟨none, ?_⟩
    simp only [Pacer.note, Pacer.beginWait]
    split
    · next hx =>
      norm_num at hx
      simp [max_eq_right hx.le]
    · next hx =>
      norm_num at hx
      norm_num [max_eq_left hx]
  | succ j ih =>
    obtain ⟨hc, hl⟩ := ih fun i h₁ hj => h i h₁ (Nat.le_succ_of_le hj)
    have more := h (j + 1) (by omega) le_rfl
    push_cast at more
    have positive := Pacer.epsilon_pos
    have spent : 0 ≤ (j : ℚ) * c.pacer.tick := by positivity
    have hx : max 0 (c.ofSeconds x) = c.ofSeconds x := max_eq_right (by linarith)
    rw [hx] at hl ⊢
    -- the tick is counted down, since time is left even after it
    have counts : (c.pacerAt (n + 1 + j)).ticked.counting = true := by
      refine (Pacer.ticked_counting_iff Pacer.floor_rat).mpr ⟨Pacer.counting_iff.mpr ?_, ?_⟩
      · rw [hl]
        linarith
      · rw [hl, (elapsed_eq _).1]
        linarith
    obtain ⟨-, pacer⟩ := (c.turnAt_goes (n + 1 + j)).of_counting counts
    rw [← Nat.add_assoc, pacerAt_succ, pacer, Pacer.ticked_condition,
      Pacer.ticked_left_of_counting Pacer.floor_rat counts, hl, (elapsed_eq _).1]
    refine ⟨hc, ?_⟩
    push_cast
    ring

/-- The next tick to resume the execution is the first by which no more is left than is worth waiting
for. -/
theorem seconds_spent (htick : 0 < c.pacer.tick) :
    ∃ k : ℕ, IsLeast {k : ℕ | 1 ≤ k ∧ c.ofSeconds x - k * c.pacer.tick ≤ Pacer.epsilon} k ∧
      (∀ j, 1 ≤ j → j < k → (c.turnAt (n + j)).deeds = []) ∧
      (c.turnAt (n + k)).deeds = [.resume] := by
  have ends : ∃ k : ℕ, 1 ≤ k ∧ c.ofSeconds x - k * c.pacer.tick ≤ Pacer.epsilon := by
    obtain ⟨k, hk⟩ := Archimedean.arch (c.ofSeconds x) htick
    refine ⟨k + 1, by omega, ?_⟩
    have := Pacer.epsilon_pos
    rw [nsmul_eq_mul] at hk
    push_cast
    linarith
  classical
  obtain ⟨hk, spent⟩ := Nat.find_spec ends
  have least : ∀ j : ℕ, 1 ≤ j → j < Nat.find ends →
      Pacer.epsilon < c.ofSeconds x - j * c.pacer.tick := by
    intro j hj hlt
    by_contra h
    exact Nat.find_min ends hlt ⟨hj, not_lt.mp h⟩
  generalize Nat.find ends = k at hk spent least
  have before (j : Nat) (hj : j < k) := left_after resumed answer htick j fun i h₁ hi =>
    least i h₁ (by omega)
  refine ⟨k, ⟨⟨hk, spent⟩, fun j hj => ?_⟩, fun j h₁ hj => ?_, ?_⟩
  · by_contra h
    exact absurd hj.2 (not_le.mpr (least j hj.1 (not_le.mp h)))
  · obtain ⟨j, rfl⟩ := Nat.exists_eq_add_of_le' h₁
    obtain ⟨-, hl⟩ := before j (by omega)
    have more := least (j + 1) h₁ hj
    push_cast at more
    rw [show n + (j + 1) = n + 1 + j by omega]
    refine ((c.turnAt_goes (n + 1 + j)).of_counting ?_).1
    have wide := le_max_right 0 (c.ofSeconds x)
    refine (Pacer.ticked_counting_iff Pacer.floor_rat).mpr ⟨Pacer.counting_iff.mpr ?_, ?_⟩
    · rw [hl]
      linarith
    · rw [hl, (elapsed_eq _).1]
      linarith
  · obtain ⟨j, rfl⟩ := Nat.exists_eq_add_of_le' hk
    obtain ⟨hc, hl⟩ := before j (by omega)
    push_cast at spent
    rw [show n + (j + 1) = n + 1 + j by omega]
    refine (c.turnAt_goes (n + 1 + j)).of_idle ?_ hc
    by_contra counts
    rw [Bool.not_eq_false] at counts
    obtain ⟨some_, left⟩ := (Pacer.ticked_counting_iff Pacer.floor_rat).mp counts
    rw [hl, (elapsed_eq _).1] at left
    have positive := Pacer.epsilon_pos
    have past : 0 ≤ (j : ℚ) * c.pacer.tick := by positivity
    rcases le_total (c.ofSeconds x) 0 with hx | hx
    · rw [max_eq_left hx] at left
      linarith
    · rw [max_eq_right hx] at left
      linarith

end Seconds

section Condition

variable {κ : Type} [OfScientific κ] [LT κ] [DecidableLT κ] [Add κ] [Sub κ] {c : Course σ κ}

def worldAt (c : Course σ κ) (n : Nat) : World σ := ((c.pacerAt n).slept (c.subjectAt n)).world

/-- A condition is asked once a tick up to the tick in which it holds, which resumes the
execution. -/
theorem condition_asked {n : Nat} {a : Condition σ} (resumed : (c.turnAt n).resumes = true)
    (answer : (c.turnAt n).answer = .ok (.paused (.condition a))) (k : Nat) (hk : 1 ≤ k)
    (hold : ∀ j, 1 ≤ j → j < k → (a (c.worldAt (n + j))).1 = false) :
    (c.turnAt (n + k)).deeds =
      if (a (c.worldAt (n + k))).1 then [.poll a true, .resume] else [.poll a false] := by
  have stands (k : Nat) (hold : ∀ j, 1 ≤ j → j ≤ k → (a (c.worldAt (n + j))).1 = false) :
      (c.pacerAt (n + 1 + k)).condition = some a ∧ (c.pacerAt (n + 1 + k)).counting = false := by
    induction k with
    | zero =>
      obtain ⟨q, -, hq, hn⟩ := (c.turnAt_goes n).answered resumed answer
      rw [Nat.add_zero, pacerAt_succ, hn]
      exact ⟨rfl, (Pacer.waiting_eq_false.mp hq).1⟩
    | succ k ih =>
      obtain ⟨hc, idle⟩ := ih fun j h₁ hj => hold j h₁ (Nat.le_succ_of_le hj)
      have still := Pacer.ticked_idle idle
      have asked := (c.turnAt_goes (n + 1 + k)).of_condition still hc
      have no := hold (k + 1) (by omega) le_rfl
      rw [show n + (k + 1) = n + 1 + k by omega] at no
      rw [if_neg (by simpa [worldAt] using no)] at asked
      rw [← Nat.add_assoc, pacerAt_succ, asked.2]
      exact ⟨Pacer.ticked_condition.trans hc, still⟩
  obtain ⟨k, rfl⟩ := Nat.exists_eq_add_of_le' hk
  obtain ⟨hc, idle⟩ := stands k fun j h₁ hj => hold j h₁ (by omega)
  have asked := (c.turnAt_goes (n + 1 + k)).of_condition (Pacer.ticked_idle idle) hc
  rw [show n + (k + 1) = n + 1 + k by omega]
  change if (a (c.worldAt (n + 1 + k))).1 then _ else _ at asked
  split at asked
  · next yes => rw [if_pos yes, asked]
  · next no => rw [if_neg no, asked.1]

theorem asked_of_poll (floor : ¬ (Pacer.epsilon : κ) < 0.0) (hp : c.pacer.waiting = false)
    {n : Nat} {a : Condition σ} {holds : Bool}
    (h : .poll a holds ∈ (c.turnAt n).deeds) :
    ∃ k < n, (c.turnAt k).resumes = true ∧
      (c.turnAt k).answer = .ok (.paused (.condition a)) ∧
      ∀ j, k < j → j < n → (c.turnAt j).resumes = false := by
  have pending : (c.pacerAt n).condition = some a := by
    have goes := c.turnAt_goes n
    generalize c.turnAt n = t at goes h
    cases goes with
    | counts => cases h
    | asks b _ hc =>
      obtain ⟨rfl, -⟩ : a = b ∧ holds = false := by simpa using h
      exact hc
    | fails free | answers free =>
      cases free with
      | idle => simp at h
      | holds b _ hc =>
        obtain ⟨rfl, -⟩ : a = b ∧ holds = true := by simpa using h
        exact hc
  obtain ⟨k, w, hk, resumed, answer, between, -, awaits⟩ :=
    pends_of_waiting floor hp n (by simp [Pacer.waiting, pending])
  cases w with
  | seconds x => exact absurd awaits.1 (by simp [pending])
  | condition b =>
    obtain rfl : a = b := by simpa [pending] using awaits.1
    exact ⟨k, hk, resumed, answer, between⟩

end Condition

end Course

/-- A pacer whose ticks last a rational time honours every wait. After a pause for some time, the next
tick that resumes the execution is the `k`-th, with the least `k` for which no more than `epsilon` of
the time is left after `k` ticks, and the ticks before it do nothing. After a pause for a condition,
each tick asks it once up to the first in which it holds, which resumes the execution; and no tick asks
any other condition than that of the pause before it. The time told is always that of all ticks. -/
theorem waits_honoured (ofSeconds : Float → ℚ) (meddle : Nat → Subject σ → Subject σ) {tick : ℚ}
    {sleep : Option (ℚ → σ → σ)} {p : Pacer σ ℚ} (hp : Pacer.create tick sleep = .ok p)
    (s : Subject σ) :
    let c : Course σ ℚ := ⟨ofSeconds, meddle, p, s⟩
    ∀ n, (∀ x, (c.turnAt n).resumes = true → (c.turnAt n).answer = .ok (.paused (.seconds x)) →
        ∃ k : ℕ, IsLeast {k : ℕ | 1 ≤ k ∧ ofSeconds x - k * tick ≤ Pacer.epsilon} k ∧
          (∀ j, 1 ≤ j → j < k → (c.turnAt (n + j)).deeds = []) ∧
          (c.turnAt (n + k)).deeds = [.resume]) ∧
      (∀ a, (c.turnAt n).resumes = true → (c.turnAt n).answer = .ok (.paused (.condition a)) →
        ∀ k, 1 ≤ k → (∀ j, 1 ≤ j → j < k → (a (c.worldAt (n + j))).1 = false) →
          (c.turnAt (n + k)).deeds =
            if (a (c.worldAt (n + k))).1 then [.poll a true, .resume] else [.poll a false]) ∧
      (∀ a holds, .poll a holds ∈ (c.turnAt n).deeds → ∃ k < n, (c.turnAt k).resumes = true ∧
        (c.turnAt k).answer = .ok (.paused (.condition a)) ∧
        ∀ j, k < j → j < n → (c.turnAt j).resumes = false) ∧
      (c.pacerAt n).elapsed = (c.pacerAt n).ticks * tick := by
  intro c n
  obtain ⟨positive, rfl, zero⟩ := Pacer.create_rat hp
  have idle : c.pacer.waiting = false := Pacer.create_waiting Pacer.floor_rat hp
  refine ⟨fun x resumed answer => Course.seconds_spent resumed answer positive,
    fun a resumed answer => Course.condition_asked resumed answer,
    fun a holds h => Course.asked_of_poll Pacer.floor_rat idle h, ?_⟩
  have ticks : (c.pacerAt n).ticks = n := by
    rw [Course.ticks_eq, show c.pacer.ticks = 0 from (Pacer.create_counts hp).1, Nat.zero_add]
  rw [(Course.elapsed_eq (c := c) n).2, ticks, show c.pacer.elapsed = 0 from zero, zero_add]

/-- A host with a function that asks to wait for some time. -/
def dozing : Services Unit :=
  { Services.empty with builtins :=
      [("doze", ⟨"doze", 0, some 0, true, "", [], .host fun _ w => (.wait (.seconds 0), w)⟩)] }

def dozer : Program :=
  let here : Location := ⟨"dozer", 1, 1, "doze()"⟩
  ⟨here, [.expr here (.call here (.name here "doze") [] [])]⟩

/-- Time runs out after four ticks of a quarter, also for an execution that is given up meanwhile. -/
theorem waits_honoured_dozing : ∃ p : Pacer Unit ℚ, Pacer.create (1 / 4) none = .ok p ∧
    let i : Interpreter Unit :=
      ⟨⟨dozing, fun _ w => w, 100, false⟩, Interpreter.opening dozing ⟨.empty, ()⟩, 0⟩
    let c : Course Unit ℚ :=
      ⟨fun _ => 1, fun n s => if n = 0 then s else s.cancel.2, p, ⟨.fresh dozer, i⟩⟩
    (c.turnAt 0).resumes = true ∧ (c.turnAt 0).answer = .ok (.paused (.seconds 0)) ∧
      (c.turnAt 3).deeds = [] ∧ (c.turnAt 4).deeds = [.resume] := by
  obtain ⟨p, hp, awake⟩ : ∃ p : Pacer Unit ℚ, Pacer.create (1 / 4) none = .ok p ∧ p.sleep = none :=
    ⟨_, by norm_num [Pacer.create]; rfl, rfl⟩
  refine ⟨p, hp, ?_⟩
  intro i c
  have paused : (Subject.mk (.fresh dozer) i).resume.1 = .ok (.paused (.seconds 0)) := by cbv
  obtain ⟨resumed, answer, -⟩ := Course.turnAt_free (c := c) (n := 0)
    (Pacer.create_waiting Pacer.floor_rat hp)
  have asleep : (c.pacerAt 0).slept (c.subjectAt 0) = ⟨.fresh dozer, i⟩ := by
    change p.slept _ = _
    simp only [Pacer.slept, Pacer.beginTick, awake]
    rfl
  rw [asleep, paused] at answer
  obtain ⟨seconds, -⟩ := waits_honoured (fun _ => 1) c.meddle hp ⟨.fresh dozer, i⟩ 0
  obtain ⟨k, least, before, ends⟩ := seconds 0 resumed answer
  have four : IsLeast {k : ℕ | 1 ≤ k ∧ (1 : ℚ) - k * (1 / 4) ≤ Pacer.epsilon} 4 := by
    refine ⟨⟨by omega, by norm_num [Pacer.epsilon]⟩, fun j hj => ?_⟩
    by_contra h
    have few : (j : ℚ) ≤ 3 := by exact_mod_cast (by omega : j ≤ 3)
    have left : (1 : ℚ) - j * (1 / 4) ≤ 1e-9 := hj.2
    norm_num at left
    linarith
  obtain rfl : k = 4 := least.unique four
  exact ⟨resumed, answer, before 3 (by omega) (by omega), ends⟩

end LoopScript
