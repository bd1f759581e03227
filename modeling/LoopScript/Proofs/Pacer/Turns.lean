import LoopScript.Proofs.Pacer.Undisturbed
import Mathlib

/-!
What a single tick of a pacer does, in the ways in which it can end, and the course of a pacer tick
after tick.
-/

namespace LoopScript

variable {σ κ : Type}

def Status.isRunning : Status σ → Bool
  | .running => true
  | _ => false

def Status.isPaused : Status σ → Bool
  | .paused _ => true
  | _ => false

def Deed.isResume : Deed σ → Bool
  | .resume => true
  | .poll .. => false

namespace Turn

def resumes (t : Turn σ κ) : Bool := t.deeds.any Deed.isResume

/-- The execution was resumed, and its answer passes a test. -/
def answers (t : Turn σ κ) (test : Status σ → Bool) : Bool :=
  t.resumes && match t.answer with
    | .ok status => test status
    | .error _ => false

end Turn

namespace Pacer

variable [OfScientific κ] [LT κ] [DecidableLT κ]

theorem counting_iff {p : Pacer σ κ} : p.counting = true ↔ epsilon < p.left := by simp [counting]

theorem waiting_eq_false {p : Pacer σ κ} :
    p.waiting = false ↔ p.counting = false ∧ p.condition = none := by
  simp [Pacer.waiting]

theorem note_kept (ofSeconds : Float → κ) (p : Pacer σ κ) (status : Status σ) :
    (p.note ofSeconds status).tick = p.tick ∧ (p.note ofSeconds status).ticks = p.ticks ∧
      (p.note ofSeconds status).elapsed = p.elapsed ∧
      (p.note ofSeconds status).last = some status := by
  cases status with
  | paused w => cases w <;> exact ⟨rfl, rfl, rfl, rfl⟩
  | running | completed | failed | cancelled => exact ⟨rfl, rfl, rfl, rfl⟩

theorem note_waiting {ofSeconds : Float → κ} {p : Pacer σ κ} {status : Status σ}
    (hp : p.waiting = false) (hs : ∀ w, status ≠ .paused w) :
    (p.note ofSeconds status).waiting = false := by
  cases status with
  | paused w => exact absurd rfl (hs w)
  | running | completed | failed | cancelled => exact hp

omit [LT κ] [DecidableLT κ] in
theorem create_counts [LE κ] [DecidableLE κ] {tick : κ} {sleep : Option (κ → σ → σ)}
    {p : Pacer σ κ} (h : create tick sleep = .ok p) :
    p.ticks = 0 ∧ p.budgetPauses = 0 ∧ p.waits = 0 := by
  unfold create at h
  split at h
  · cases h
  · cases h
    exact ⟨rfl, rfl, rfl⟩

variable [Add κ] [Sub κ]

/-- A pacer whose tick is counted, but has done nothing for the program yet. -/
def ticked (p : Pacer σ κ) : Pacer σ κ :=
  { p with ticks := p.ticks + 1, elapsed := p.elapsed + p.tick }.countDown

def slept (p : Pacer σ κ) (s : Subject σ) : Subject σ := (p.beginTick s).2

/-- Whether a tick goes to a wait: it leaves time to wait for, or finds that the condition does not
hold. -/
def holdsBack (p : Pacer σ κ) (s : Subject σ) : Bool :=
  p.counting && decide (epsilon < p.left - p.tick) ||
    p.condition.any fun c => !(c (p.slept s).world).1

section Ticked

variable {p : Pacer σ κ}

@[simp] theorem ticked_tick : p.ticked.tick = p.tick := by simp only [ticked, countDown]; split <;> rfl

@[simp] theorem ticked_ticks : p.ticked.ticks = p.ticks + 1 := by
  simp only [ticked, countDown]; split <;> rfl

@[simp] theorem ticked_elapsed : p.ticked.elapsed = p.elapsed + p.tick := by
  simp only [ticked, countDown]; split <;> rfl

@[simp] theorem ticked_condition : p.ticked.condition = p.condition := by
  simp only [ticked, countDown]; split <;> rfl

@[simp] theorem ticked_last : p.ticked.last = p.last := by
  simp only [ticked, countDown]; split <;> rfl

@[simp] theorem ticked_budgetPauses : p.ticked.budgetPauses = p.budgetPauses := by
  simp only [ticked, countDown]; split <;> rfl

@[simp] theorem ticked_waits : p.ticked.waits = p.waits := by
  simp only [ticked, countDown]; split <;> rfl

theorem counting_of_ticked (h : p.ticked.counting = true) : p.counting = true := by
  by_contra hp
  have hl : ¬ epsilon < p.left := fun h => hp (counting_iff.mpr h)
  simp [ticked, countDown, counting, hl] at h

theorem ticked_idle (h : p.counting = false) : p.ticked.counting = false := by
  by_contra hc
  rw [Bool.not_eq_false] at hc
  simp [counting_of_ticked hc] at h

variable (floor : ¬ (epsilon : κ) < 0.0)

include floor

theorem ticked_counting_iff :
    p.ticked.counting = true ↔ p.counting = true ∧ epsilon < p.left - p.tick := by
  by_cases h : epsilon < p.left
  · by_cases hl : epsilon < p.left - p.tick <;>
      simp [ticked, countDown, counting, h, hl, floor]
  · simp [ticked, countDown, counting, h]

theorem ticked_left_of_counting (h : p.ticked.counting = true) :
    p.ticked.left = p.left - p.tick := by
  obtain ⟨hc, hl⟩ := (ticked_counting_iff floor).mp h
  have hc' := counting_iff.mp hc
  simp [ticked, countDown, counting, hc', hl]

end Ticked

/-- How a tick comes to resume the execution: with what it has done, the pacer and the subject. -/
inductive Frees (p : Pacer σ κ) (s : Subject σ) :
    List (Deed σ) → Pacer σ κ → Subject σ → Prop
  | idle (hp : p.ticked.counting = false) (hc : p.condition = none) :
      Frees p s [.resume] p.ticked (p.slept s)
  | holds (c : Condition σ) (hp : p.ticked.counting = false) (hc : p.condition = some c)
      (yes : (c (p.slept s).world).1 = true) :
      Frees p s [.poll c true, .resume] { p.ticked with condition := none }
        ((p.slept s).setWorld (c (p.slept s).world).2)

/-- The ways in which a tick ends. -/
inductive Goes (p : Pacer σ κ) (ofSeconds : Float → κ) (s : Subject σ) : Turn σ κ → Prop
  | counts (hp : p.ticked.counting = true) :
      Goes p ofSeconds s ⟨[], p.ticked.repeated, p.ticked, p.slept s⟩
  | asks (c : Condition σ) (hp : p.ticked.counting = false) (hc : p.condition = some c)
      (no : (c (p.slept s).world).1 = false) :
      Goes p ofSeconds s ⟨[.poll c false], p.ticked.repeated, p.ticked,
        (p.slept s).setWorld (c (p.slept s).world).2⟩
  | fails {deeds : List (Deed σ)} {q : Pacer σ κ} {s₁ s₂ : Subject σ} {e : String}
      (free : p.Frees s deeds q s₁) (hr : s₁.resume = (.error e, s₂)) :
      Goes p ofSeconds s ⟨deeds, .error e, q, s₂⟩
  | answers {deeds : List (Deed σ)} {q : Pacer σ κ} {s₁ s₂ : Subject σ} {status : Status σ}
      (free : p.Frees s deeds q s₁) (hr : s₁.resume = (.ok status, s₂)) :
      Goes p ofSeconds s ⟨deeds, .ok status, q.note ofSeconds status, s₂⟩

section Goes

variable {ofSeconds : Float → κ} {p q : Pacer σ κ} {s s₁ : Subject σ} {deeds : List (Deed σ)}

theorem Frees.goes (free : p.Frees s deeds q s₁) :
    Goes p ofSeconds s ⟨deeds, (q.resume ofSeconds s₁).1, (q.resume ofSeconds s₁).2.1,
      (q.resume ofSeconds s₁).2.2⟩ := by
  cases hr : s₁.resume with
  | mk r s₂ =>
    cases r with
    | error e => simpa only [Pacer.resume, hr] using Goes.fails free hr
    | ok status => simpa only [Pacer.resume, hr] using Goes.answers free hr

theorem turn_goes (p : Pacer σ κ) (s : Subject σ) : Goes p ofSeconds s (p.turn ofSeconds s) := by
  have begun : p.beginTick s = (_, p.slept s) := rfl
  simp only [turn, begun]
  change Goes p ofSeconds s (if p.ticked.counting = true then _ else _)
  split
  · next hp => exact .counts hp
  · next hp =>
    rw [Bool.not_eq_true] at hp
    split
    · next hc => exact (Frees.idle hp (ticked_condition.symm.trans hc)).goes
    · next c hc =>
      replace hc := ticked_condition.symm.trans hc
      split
      · next yes => exact (Frees.holds c hp hc yes).goes
      · next no => exact .asks c hp hc (by simpa using no)

theorem Frees.condition (free : p.Frees s deeds q s₁) : q.condition = none := by
  cases free with
  | idle hp hc => exact ticked_condition.trans hc
  | holds => rfl

theorem Frees.counting (free : p.Frees s deeds q s₁) : q.counting = false := by
  cases free with
  | idle hp hc => exact hp
  | holds c hp => exact hp

theorem Frees.countP (free : p.Frees s deeds q s₁) : deeds.countP Deed.isResume = 1 := by
  cases free <;> rfl

theorem Frees.resumes (free : p.Frees s deeds q s₁) : deeds.any Deed.isResume = true := by
  cases free <;> rfl

theorem Frees.kept (free : p.Frees s deeds q s₁) :
    q.tick = p.tick ∧ q.ticks = p.ticks + 1 ∧ q.elapsed = p.elapsed + p.tick ∧
      q.budgetPauses = p.budgetPauses ∧ q.waits = p.waits := by
  cases free <;> simp

omit [OfScientific κ] [LT κ] [DecidableLT κ] [Sub κ] in
theorem slept_execution (p : Pacer σ κ) (s : Subject σ) :
    (p.slept s).execution = s.execution := by
  simp only [slept, beginTick]
  split <;> rfl

theorem Frees.execution (free : p.Frees s deeds q s₁) : s₁.execution = s.execution := by
  cases free with
  | idle => exact slept_execution p s
  | holds => exact slept_execution p s

theorem Frees.waiting (free : p.Frees s deeds q s₁) : q.waiting = false := by
  simp [Pacer.waiting, free.counting, free.condition]

theorem Goes.answered {t : Turn σ κ} (h : Goes p ofSeconds s t) {status : Status σ}
    (resumed : t.resumes = true) (answer : t.answer = .ok status) :
    ∃ q : Pacer σ κ, q.tick = p.tick ∧ q.waiting = false ∧ t.pacer = q.note ofSeconds status := by
  cases h with
  | counts | asks => cases resumed
  | fails => cases answer
  | @answers _ q _ _ _ free =>
    cases answer
    exact ⟨q, free.kept.1, free.waiting, rfl⟩

end Goes

end Pacer

/-- A pacer tick after tick. Before each tick something may be done to the subject by others. -/
structure Course (σ κ : Type) where
  ofSeconds : Float → κ
  meddle : Nat → Subject σ → Subject σ
  pacer : Pacer σ κ
  subject : Subject σ

namespace Course

variable [OfScientific κ] [LT κ] [DecidableLT κ] [Add κ] [Sub κ] (c : Course σ κ)

def after : Nat → Pacer σ κ × Subject σ
  | 0 => (c.pacer, c.subject)
  | n + 1 =>
    let (p, s) := after n
    let t := p.turn c.ofSeconds (c.meddle n s)
    (t.pacer, t.subject)

def pacerAt (n : Nat) : Pacer σ κ := (c.after n).1

/-- The subject as a tick finds it. -/
def subjectAt (n : Nat) : Subject σ := c.meddle n (c.after n).2

def turnAt (n : Nat) : Turn σ κ := (c.pacerAt n).turn c.ofSeconds (c.subjectAt n)

/-- How many of the first ticks pass a test. -/
def tally (n : Nat) (test : Turn σ κ → Bool) : Nat :=
  (List.range n).countP fun k => test (c.turnAt k)

theorem pacerAt_succ (n : Nat) : c.pacerAt (n + 1) = (c.turnAt n).pacer := rfl

theorem subjectAt_succ (n : Nat) :
    c.subjectAt (n + 1) = c.meddle (n + 1) (c.turnAt n).subject := rfl

theorem turnAt_goes (n : Nat) :
    (c.pacerAt n).Goes c.ofSeconds (c.subjectAt n) (c.turnAt n) := Pacer.turn_goes _ _

theorem tally_succ (n : Nat) (test : Turn σ κ → Bool) :
    c.tally (n + 1) test = c.tally n test + if test (c.turnAt n) then 1 else 0 := by
  simp only [tally, List.range_succ, List.countP_append, List.countP_singleton]

end Course

end LoopScript
