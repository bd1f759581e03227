import LoopScript.Proofs.Pacer.Turns
import LoopScript.Proofs.Execution.Finality

/-!
The books that a pacer keeps: how its ticks are spent, which wait is pending and where it came from,
and what it answers once the execution has ended.
-/

namespace LoopScript

variable {σ κ : Type}

namespace Subject

def onWorld (f : World σ → World σ) (s : Subject σ) : Subject σ := s.setWorld (f s.world)

theorem resume_ended {s : Subject σ} {status : Status σ} (h : s.execution = .ended status) :
    s.resume = (.ok status, s) := by
  obtain ⟨x, i⟩ := s
  cases h
  rfl

theorem ended_of_resume {s t : Subject σ} {status : Status σ} (h : s.resume = (.ok status, t))
    (hs : status.terminal = true) : t.execution = .ended status := by
  simp only [Subject.resume, Prod.mk.injEq] at h
  obtain ⟨answer, rfl⟩ := h
  exact (Execution.request_ended (r := .resume) (Prod.ext answer rfl) hs).1

end Subject

namespace Pacer

variable [OfScientific κ] [LT κ] [DecidableLT κ]

/-- A wait is pending, and so many ticks have gone to it already. -/
def Awaits [Sub κ] (ofSeconds : Float → κ) (p : Pacer σ κ) (w : Wait σ) (spent : Nat) : Prop :=
  match w with
  | .seconds x => p.condition = none ∧ p.counting = true ∧
      p.left = (· - p.tick)^[spent] (ofSeconds x)
  | .condition c => p.condition = some c ∧ p.counting = false

theorem Awaits.alone [Sub κ] {ofSeconds : Float → κ} {p : Pacer σ κ} {w : Wait σ} {spent : Nat}
    (h : p.Awaits ofSeconds w spent) : ¬ (p.counting = true ∧ p.condition.isSome = true) := by
  cases w with
  | seconds x => simp [h.1]
  | condition c => simp [h.2]

/-- What is pending after an answer is the wait of this very answer. -/
theorem note_awaits [Sub κ] {ofSeconds : Float → κ} {q : Pacer σ κ} {status : Status σ}
    (floor : ¬ (epsilon : κ) < 0.0) (hq : q.waiting = false)
    (hw : (q.note ofSeconds status).waiting = true) :
    ∃ w, status = .paused w ∧ (q.note ofSeconds status).Awaits ofSeconds w 0 := by
  by_cases hs : ∀ w, status ≠ .paused w
  · rw [note_waiting hq hs] at hw
    cases hw
  · push Not at hs
    obtain ⟨w, rfl⟩ := hs
    obtain ⟨idle, none⟩ := waiting_eq_false.mp hq
    refine ⟨w, rfl, ?_⟩
    cases w with
    | condition c => exact ⟨rfl, idle⟩
    | seconds x =>
      have counts : (q.note ofSeconds (.paused (.seconds x))).counting = true := by
        simpa [Pacer.waiting, note, beginWait, none] using hw
      refine ⟨none, counts, ?_⟩
      have hl := counting_iff.mp counts
      simp only [note, beginWait] at hl ⊢
      split at hl
      · next h => simp [h]
      · exact absurd hl floor

theorem create_waiting [LE κ] [DecidableLE κ] {tick : κ} {sleep : Option (κ → σ → σ)}
    {p : Pacer σ κ} (floor : ¬ (epsilon : κ) < 0.0) (h : create tick sleep = .ok p) :
    p.waiting = false := by
  unfold create at h
  split at h
  · cases h
  · cases h
    simp [Pacer.waiting, counting, floor]

section Single

variable [Add κ] [Sub κ] {ofSeconds : Float → κ} {p q : Pacer σ κ} {s s₁ : Subject σ}
  {deeds : List (Deed σ)}

theorem waiting_of_counts (floor : ¬ (epsilon : κ) < 0.0) (hp : p.ticked.counting = true) :
    p.waiting = true := by
  simp [Pacer.waiting, ((ticked_counting_iff floor).mp hp).1]

theorem Frees.holdsBack (floor : ¬ (epsilon : κ) < 0.0) (free : p.Frees s deeds q s₁) :
    p.holdsBack s = false := by
  have passed (hp : p.ticked.counting = false) :
      (p.counting && decide (epsilon < p.left - p.tick)) = false := by
    have := (ticked_counting_iff (p := p) floor).not.mp (by simp [hp])
    simpa using this
  cases free with
  | idle hp hc => simp [Pacer.holdsBack, passed hp, hc]
  | holds c hp hc yes => simp [Pacer.holdsBack, passed hp, hc, yes]

/-- A tick resumes the execution exactly if no wait holds it back, and then once. -/
theorem turn_resumes (floor : ¬ (epsilon : κ) < 0.0) (p : Pacer σ κ) (s : Subject σ) :
    (p.turn ofSeconds s).deeds.countP Deed.isResume = if p.holdsBack s then 0 else 1 := by
  have goes : Goes p ofSeconds s _ := turn_goes p s
  generalize p.turn ofSeconds s = t at goes ⊢
  cases goes with
  | counts hp =>
    obtain ⟨hc, hl⟩ := (ticked_counting_iff floor).mp hp
    simp [Pacer.holdsBack, hc, hl]
  | asks c hp hc no =>
    have held : p.holdsBack s = true := by simp [Pacer.holdsBack, hc, no]
    simp [held, Deed.isResume]
  | fails free | answers free => simp [free.holdsBack floor, free.countP]

theorem Goes.counts_of {t : Turn σ κ} (h : Goes p ofSeconds s t) :
    t.pacer.ticks = p.ticks + 1 ∧
      t.pacer.budgetPauses = p.budgetPauses + (if t.answers Status.isRunning then 1 else 0) ∧
      t.pacer.waits = p.waits + if t.answers Status.isPaused then 1 else 0 := by
  cases h with
  | counts hp => simp [Turn.answers, Turn.resumes]
  | asks c hp hc no => simp [Turn.answers, Turn.resumes, Deed.isResume]
  | fails free =>
    obtain ⟨-, ticks, -, budget, waits⟩ := free.kept
    simp [Turn.answers, ticks, budget, waits]
  | @answers deeds q s₁ s₂ status free hr =>
    obtain ⟨-, ticks, -, budget, waits⟩ := free.kept
    refine ⟨(note_kept ofSeconds q status).2.1.trans ticks, ?_⟩
    simp only [Turn.answers, Turn.resumes, free.resumes, ← budget, ← waits]
    cases status with
    | paused w => cases w <;> exact ⟨rfl, rfl⟩
    | running | completed | failed | cancelled => exact ⟨rfl, rfl⟩

end Single

end Pacer

/-- Every tick is of one kind: a pause for the budget, a wait, an end, or a tick that goes to a
wait. -/
theorem Turn.kinds {t : Turn σ κ} {status : Status σ} (h : t.answer = .ok status) :
    (if t.answers Status.isRunning then 1 else 0) + (if t.answers Status.isPaused then 1 else 0) +
      (if t.answers Status.terminal then 1 else 0) + (if !t.resumes then 1 else 0) = 1 := by
  simp only [Turn.answers, h]
  cases t.resumes with
  | false => rfl
  | true => cases status <;> rfl

namespace Course

variable [OfScientific κ] [LT κ] [DecidableLT κ] [Add κ] [Sub κ] {c : Course σ κ}

/-- The wait that is pending after so many ticks is that of the last answer of the execution. -/
def Pends (c : Course σ κ) (n : Nat) : Prop :=
  ∃ k w, k < n ∧ (c.turnAt k).resumes = true ∧ (c.turnAt k).answer = .ok (.paused w) ∧
    (∀ j, k < j → j < n → (c.turnAt j).resumes = false) ∧
    (c.pacerAt n).last = some (.paused w) ∧ (c.pacerAt n).Awaits c.ofSeconds w (n - (k + 1))

theorem Pends.next {n : Nat} (h : c.Pends n) (idle : (c.turnAt n).resumes = false)
    (last : (c.pacerAt (n + 1)).last = (c.pacerAt n).last)
    (awaits : ∀ w spent, (c.pacerAt n).Awaits c.ofSeconds w spent →
      (c.pacerAt (n + 1)).Awaits c.ofSeconds w (spent + 1)) : c.Pends (n + 1) := by
  obtain ⟨k, w, hk, resumed, answer, between, hl, ha⟩ := h
  refine ⟨k, w, Nat.lt_succ_of_lt hk, resumed, answer, fun j hj hn => ?_, last.trans hl, ?_⟩
  · rcases Nat.lt_succ_iff_lt_or_eq.mp hn with hn | rfl
    · exact between j hj hn
    · exact idle
  · rw [show n + 1 - (k + 1) = n - (k + 1) + 1 by omega]
    exact awaits w _ ha

section Pending

variable (floor : ¬ (Pacer.epsilon : κ) < 0.0) (hp : c.pacer.waiting = false)

include floor hp

theorem pends_of_waiting (n : Nat) (h : (c.pacerAt n).waiting = true) : c.Pends n := by
  -- a tick that goes to a wait leaves the wait pending, and any other tick begins a new one if at all
  induction n with
  | zero => exact absurd h (by simp [pacerAt, after, hp])
  | succ n ih =>
    have goes := c.turnAt_goes n
    have next := Pends.next (c := c) (n := n)
    rw [pacerAt_succ] at h next
    generalize ht : c.turnAt n = t at goes h next
    cases goes with
    | counts hc =>
      refine next (ih (Pacer.waiting_of_counts floor hc)) rfl Pacer.ticked_last fun w spent ha => ?_
      cases w with
      | seconds x =>
        refine ⟨Pacer.ticked_condition.trans ha.1, hc, ?_⟩
        rw [Pacer.ticked_left_of_counting floor hc, Function.iterate_succ_apply', ha.2.2,
          Pacer.ticked_tick]
      | condition a =>
        have counted := ((Pacer.ticked_counting_iff floor).mp hc).1
        exact absurd counted (by simp [ha.2])
    | asks a hp hc no =>
      refine next (ih (by simp [Pacer.waiting, hc])) rfl Pacer.ticked_last fun w spent ha => ?_
      cases w with
      | seconds x => exact absurd ha.1 (by simp [hc])
      | condition a => exact ⟨Pacer.ticked_condition.trans ha.1, hp⟩
    | fails free => exact absurd h (by simp [free.waiting])
    | @answers deeds q s₁ s₂ status free hr =>
      obtain ⟨w, rfl, ha⟩ := Pacer.note_awaits floor free.waiting h
      refine ⟨n, w, Nat.lt_succ_self n, ?_, ?_, fun j hj hn => by omega, ?_, ?_⟩
      · rw [ht]
        exact free.resumes
      · rw [ht]
      · rw [pacerAt_succ, ht]
        exact (Pacer.note_kept c.ofSeconds q _).2.2.2
      · rw [pacerAt_succ, ht, Nat.sub_self]
        exact ha

/-- A tick that goes to a wait repeats the status that came with it, so there is one. -/
theorem answer_of_idle {n : Nat} (h : (c.turnAt n).resumes = false) :
    ∃ w, (c.pacerAt n).last = some (.paused w) ∧ (c.turnAt n).answer = .ok (.paused w) := by
  have pending (hw : (c.pacerAt n).waiting = true) :
      ∃ w, (c.pacerAt n).last = some (.paused w) ∧
        (c.pacerAt n).ticked.repeated = .ok (.paused w) := by
    obtain ⟨k, w, -, -, -, -, hl, -⟩ := pends_of_waiting floor hp n hw
    exact ⟨w, hl, by simp [Pacer.repeated, hl]⟩
  have goes := c.turnAt_goes n
  generalize c.turnAt n = t at goes h ⊢
  cases goes with
  | counts hc => exact pending (Pacer.waiting_of_counts floor hc)
  | asks a hp hc no => exact pending (by simp [Pacer.waiting, hc])
  | fails free | answers free => exact absurd free.resumes (Bool.eq_false_iff.mp h)

end Pending

theorem turnAt_free {n : Nat} (hw : (c.pacerAt n).waiting = false) :
    (c.turnAt n).resumes = true ∧
      (c.turnAt n).answer = ((c.pacerAt n).slept (c.subjectAt n)).resume.1 ∧
      (c.turnAt n).subject = ((c.pacerAt n).slept (c.subjectAt n)).resume.2 := by
  have goes := c.turnAt_goes n
  obtain ⟨idle, none⟩ := Pacer.waiting_eq_false.mp hw
  generalize c.turnAt n = t at goes ⊢
  cases goes with
  | counts hc => exact absurd (Pacer.counting_of_ticked hc) (by simp [idle])
  | asks a hp hc => exact absurd hc (by simp [none])
  | fails free hr | answers free hr =>
    cases free with
    | idle => exact ⟨rfl, by rw [hr], by rw [hr]⟩
    | holds a hp hc => exact absurd hc (by simp [none])

theorem turnAt_ended {n : Nat} {status : Status σ} (hs : status.terminal = true)
    (hw : (c.pacerAt n).waiting = false) (hx : (c.subjectAt n).execution = .ended status) :
    (c.turnAt n).deeds = [.resume] ∧ (c.turnAt n).answer = .ok status ∧
      (c.pacerAt (n + 1)).waiting = false ∧ (c.turnAt n).subject.execution = .ended status := by
  have goes := c.turnAt_goes n
  obtain ⟨idle, none⟩ := Pacer.waiting_eq_false.mp hw
  rw [pacerAt_succ]
  generalize c.turnAt n = t at goes ⊢
  cases goes with
  | counts hc => exact absurd (Pacer.counting_of_ticked hc) (by simp [idle])
  | asks a hp hc => exact absurd hc (by simp [none])
  | fails free hr =>
    rw [Subject.resume_ended (free.execution.trans hx)] at hr
    cases hr
  | @answers deeds q s₁ s₂ st free hr =>
    rw [Subject.resume_ended (free.execution.trans hx)] at hr
    cases hr
    refine ⟨?_, rfl, Pacer.note_waiting free.waiting fun w e => ?_, free.execution.trans hx⟩
    · cases free with
      | idle => rfl
      | holds a hp hc => exact absurd hc (by simp [none])
    · rw [e] at hs
      cases hs

theorem turnAt_stays {n : Nat} {status : Status σ} (hs : status.terminal = true)
    (keeps : ∀ m s, n < m → s.execution = .ended status →
      (c.meddle m s).execution = .ended status)
    (hw : (c.pacerAt n).waiting = false) (hx : (c.subjectAt n).execution = .ended status)
    (m : Nat) : (c.turnAt (n + m)).deeds = [.resume] ∧ (c.turnAt (n + m)).answer = .ok status := by
  have all : (c.pacerAt (n + m)).waiting = false ∧
      (c.subjectAt (n + m)).execution = .ended status := by
    induction m with
    | zero => exact ⟨hw, hx⟩
    | succ m ih =>
      obtain ⟨-, -, waits, ended⟩ := turnAt_ended hs ih.1 ih.2
      exact ⟨waits, keeps _ _ (by omega) ended⟩
  obtain ⟨deeds, answer, -⟩ := turnAt_ended hs all.1 all.2
  exact ⟨deeds, answer⟩

theorem ticks_eq (n : Nat) : (c.pacerAt n).ticks = c.pacer.ticks + n := by
  induction n with
  | zero => rfl
  | succ n ih => rw [pacerAt_succ, (c.turnAt_goes n).counts_of.1, ih, Nat.add_assoc]

theorem ended_of_answer {n : Nat} {status : Status σ} (hs : status.terminal = true)
    (resumed : (c.turnAt n).resumes = true) (answer : (c.turnAt n).answer = .ok status) :
    (c.pacerAt (n + 1)).waiting = false ∧ (c.turnAt n).subject.execution = .ended status := by
  have goes := c.turnAt_goes n
  rw [pacerAt_succ]
  generalize c.turnAt n = t at goes resumed answer ⊢
  cases goes with
  | counts | asks => cases resumed
  | fails => cases answer
  | @answers deeds q s₁ s₂ st free hr =>
    cases answer
    refine ⟨Pacer.note_waiting free.waiting fun w e => ?_, Subject.ended_of_resume hr hs⟩
    rw [e] at hs
    cases hs

end Course

namespace Pacer

section Driven

variable [OfScientific κ] [LT κ] [DecidableLT κ] [Add κ] [Sub κ] {ofSeconds : Float → κ}
  {p q : Pacer σ κ} {s s₁ : Subject σ} {deeds : List (Deed σ)}

omit [OfScientific κ] [LT κ] [DecidableLT κ] [Sub κ] in
theorem slept_undisturbed (p : Pacer σ κ) (hs : s.Undisturbed) : (p.slept s).Undisturbed := by
  simp only [slept, beginTick]
  split
  · exact hs
  · exact hs.world _

theorem Frees.undisturbed (free : p.Frees s deeds q s₁) (hs : s.Undisturbed) : s₁.Undisturbed := by
  cases free with
  | idle => exact slept_undisturbed p hs
  | holds => exact (slept_undisturbed p hs).world _

theorem Goes.undisturbed {t : Turn σ κ} (h : Goes p ofSeconds s t) (hs : s.Undisturbed) :
    t.subject.Undisturbed := by
  cases h with
  | counts => exact slept_undisturbed p hs
  | asks => exact (slept_undisturbed p hs).world _
  | fails free hr | answers free hr =>
    have resumed := (free.undisturbed hs).resume
    rwa [hr] at resumed

end Driven

end Pacer

namespace Course

section Driven

variable [OfScientific κ] [LT κ] [DecidableLT κ] [Add κ] [Sub κ] {c : Course σ κ}
  {host : Nat → World σ → World σ} (hm : c.meddle = fun n => Subject.onWorld (host n))
  (hs : c.subject.Undisturbed)

include hm hs

theorem subjectAt_undisturbed (n : Nat) : (c.subjectAt n).Undisturbed := by
  induction n with
  | zero =>
    rw [subjectAt, hm]
    exact hs.world _
  | succ n ih =>
    rw [subjectAt_succ, hm]
    exact ((c.turnAt_goes n).undisturbed ih).world _

theorem answer_of_driven (floor : ¬ (Pacer.epsilon : κ) < 0.0) (hp : c.pacer.waiting = false)
    (n : Nat) : ∃ status, (c.turnAt n).answer = .ok status := by
  cases resumed : (c.turnAt n).resumes with
  | false =>
    obtain ⟨w, -, answer⟩ := answer_of_idle floor hp resumed
    exact ⟨_, answer⟩
  | true =>
    have goes := c.turnAt_goes n
    generalize c.turnAt n = t at goes resumed ⊢
    cases goes with
    | counts | asks => cases resumed
    | answers => exact ⟨_, rfl⟩
    | fails free hr =>
      obtain ⟨status, e⟩ := (free.undisturbed (subjectAt_undisturbed hm hs n)).answers
      rw [e] at hr
      cases hr

theorem tallies (floor : ¬ (Pacer.epsilon : κ) < 0.0) (hp : c.pacer.waiting = false) (n : Nat) :
    (c.pacerAt n).budgetPauses = c.pacer.budgetPauses + c.tally n (·.answers Status.isRunning) ∧
      (c.pacerAt n).waits = c.pacer.waits + c.tally n (·.answers Status.isPaused) ∧
      c.tally n (·.answers Status.isRunning) + c.tally n (·.answers Status.isPaused) +
        c.tally n (·.answers Status.terminal) + c.tally n (!·.resumes) = n := by
  induction n with
  | zero => exact ⟨rfl, rfl, rfl⟩
  | succ n ih =>
    obtain ⟨-, budget, waits⟩ := (c.turnAt_goes n).counts_of
    obtain ⟨status, answer⟩ := answer_of_driven hm hs floor hp n
    have kinds := Turn.kinds answer
    rw [pacerAt_succ]
    simp only [tally_succ]
    refine ⟨by omega, by omega, by omega⟩

end Driven

end Course

/-- The books of a pacer that alone drives an execution which has its interpreter to itself, while the
host may change the world before each tick. Each tick resumes the execution once, unless a wait holds
it back. The ticks are the pauses for the budget, the waits, the answers that the execution has ended
and the ticks that went to a wait. No more than one wait is ever pending, and it is the one with which
the execution answered last, so that every tick has an answer. An answer that the execution has ended
is given again by every later tick. -/
theorem books_kept [OfScientific κ] [LE κ] [DecidableLE κ] [LT κ] [DecidableLT κ] [Add κ] [Sub κ]
    (floor : ¬ (Pacer.epsilon : κ) < 0.0) (ofSeconds : Float → κ) {tick : κ}
    {sleep : Option (κ → σ → σ)} {p : Pacer σ κ} (hp : Pacer.create tick sleep = .ok p)
    {s : Subject σ} (hs : s.Undisturbed) (host : Nat → World σ → World σ) :
    let c : Course σ κ := ⟨ofSeconds, fun n => Subject.onWorld (host n), p, s⟩
    ∀ n, ((c.turnAt n).deeds.countP Deed.isResume =
        if (c.pacerAt n).holdsBack (c.subjectAt n) then 0 else 1) ∧
      ((c.pacerAt n).ticks = n ∧
        (c.pacerAt n).budgetPauses = c.tally n (·.answers Status.isRunning) ∧
        (c.pacerAt n).waits = c.tally n (·.answers Status.isPaused) ∧
        (c.pacerAt n).ticks = (c.pacerAt n).budgetPauses + (c.pacerAt n).waits +
          c.tally n (·.answers Status.terminal) + c.tally n (!·.resumes)) ∧
      ¬ ((c.pacerAt n).counting = true ∧ (c.pacerAt n).condition.isSome = true) ∧
      ((c.pacerAt n).waiting = true → c.Pends n) ∧
      (∃ status, (c.turnAt n).answer = .ok status) ∧
      ∀ status, (c.turnAt n).answer = .ok status → status.terminal = true →
        ∀ m, n ≤ m → (c.turnAt m).answer = .ok status := by
  intro c n
  have idle : c.pacer.waiting = false := Pacer.create_waiting floor hp
  have zero : c.pacer.ticks = 0 ∧ c.pacer.budgetPauses = 0 ∧ c.pacer.waits = 0 :=
    Pacer.create_counts hp
  have ticks : (c.pacerAt n).ticks = c.pacer.ticks + n := Course.ticks_eq n
  obtain ⟨budget, waits, all⟩ := Course.tallies (c := c) rfl hs floor idle n
  refine ⟨Pacer.turn_resumes floor _ _, ⟨by omega, by omega, by omega, by omega⟩, ?_,
    Course.pends_of_waiting floor idle n, Course.answer_of_driven rfl hs floor idle n, ?_⟩
  · rintro ⟨counts, asks⟩
    obtain ⟨k, w, -, -, -, -, -, awaits⟩ :=
      Course.pends_of_waiting floor idle n (by simp [Pacer.waiting, counts])
    exact awaits.alone ⟨counts, asks⟩
  · intro status answer hterm m hm
    have resumed : (c.turnAt n).resumes = true := by
      by_contra h
      obtain ⟨w, -, paused⟩ := Course.answer_of_idle floor idle (Bool.eq_false_iff.mpr h)
      rw [answer] at paused
      cases paused
      cases hterm
    obtain ⟨still, ended⟩ := Course.ended_of_answer hterm resumed answer
    rcases Nat.eq_or_lt_of_le hm with rfl | hm
    · exact answer
    · obtain ⟨d, rfl⟩ := Nat.exists_eq_add_of_le (Nat.succ_le_of_lt hm)
      exact (Course.turnAt_stays hterm (fun _ _ _ h => h) still ended d).2

theorem books_kept_napping : ∃ p : Pacer Unit ℚ, Pacer.create 1 none = .ok p ∧
    ¬ (Pacer.epsilon : ℚ) < 0.0 ∧ (Subject.mk (.fresh napper) hurried).Undisturbed ∧
    ∀ n, let c : Course Unit ℚ := ⟨fun _ => 2, fun _ => Subject.onWorld id, p, ⟨.fresh napper, hurried⟩⟩
      (c.pacerAt n).ticks = (c.pacerAt n).budgetPauses + (c.pacerAt n).waits +
        c.tally n (·.answers Status.terminal) + c.tally n (!·.resumes) ∧
      ((c.pacerAt n).waiting = true → c.Pends n) := by
  have floor : ¬ (Pacer.epsilon : ℚ) < 0.0 := by norm_num [Pacer.epsilon]
  have fresh : (Subject.mk (.fresh napper) hurried).Undisturbed := .fresh napper hurried
  obtain ⟨p, hp⟩ : ∃ p : Pacer Unit ℚ, Pacer.create 1 none = .ok p := ⟨_, by norm_num [Pacer.create]; rfl⟩
  refine ⟨p, hp, floor, fresh, fun n => ?_⟩
  obtain ⟨-, ⟨-, -, -, books⟩, -, pends, -⟩ := books_kept floor (fun _ => 2) hp fresh (fun _ => id) n
  exact ⟨books, pends⟩

end LoopScript
