import LoopScript.Proofs.Pacer.Bookkeeping

/-!
What becomes of a pacer when its execution has ended, be it by itself or because somebody else has
given it up. The pacer finds out when it resumes the execution, and so not before a wait that is
pending is over.
-/

namespace LoopScript

variable {σ κ : Type} [OfScientific κ] [LT κ] [DecidableLT κ] [Add κ] [Sub κ]

namespace Pacer

variable {ofSeconds : Float → κ} {p q : Pacer σ κ} {s s₁ : Subject σ} {t : Turn σ κ}
  {status : Status σ}

/-- A pacer that waits has been told to. -/
def Told (p : Pacer σ κ) : Prop :=
  p.waiting = true → ∃ w, p.last = some (.paused w)

theorem Told.repeated (h : p.Told) (hw : p.waiting = true) :
    ∃ w, p.ticked.repeated = .ok (.paused w) := by
  obtain ⟨w, hl⟩ := h hw
  exact ⟨w, by simp [Pacer.repeated, hl]⟩

theorem Goes.of_told (h : Goes p ofSeconds s t) (hp : p.Told) :
    t.pacer.Told ∧ (t.resumes = false → ∃ w, t.answer = .ok (.paused w)) := by
  have still (hw : p.waiting = true) : p.ticked.Told := fun _ => by
    obtain ⟨w, hl⟩ := hp hw
    exact ⟨w, by simp [hl]⟩
  cases h with
  | counts hc =>
    have hw : p.waiting = true := by simp [waiting, counting_of_ticked hc]
    exact ⟨still hw, fun _ => hp.repeated hw⟩
  | asks c _ hc =>
    have hw : p.waiting = true := by simp [waiting, hc]
    exact ⟨still hw, fun _ => hp.repeated hw⟩
  | fails free =>
    refine ⟨fun hw => ?_, fun h => absurd free.resumes (Bool.eq_false_iff.mp h)⟩
    simp [free.waiting] at hw
  | @answers deeds q s₁ s₂ status free =>
    refine ⟨fun hw => ?_, fun h => absurd free.resumes (Bool.eq_false_iff.mp h)⟩
    by_cases hs : ∀ w, status ≠ .paused w
    · simp [note_waiting free.waiting hs] at hw
    · push Not at hs
      obtain ⟨w, rfl⟩ := hs
      exact ⟨w, (note_kept ofSeconds q _).2.2.2⟩

theorem Goes.of_ended (h : Goes p ofSeconds s t) (hx : s.execution = .ended status) :
    t.subject.execution = .ended status ∧ (t.resumes = true → t.answer = .ok status) := by
  have slept : (p.slept s).execution = .ended status := (slept_execution p s).trans hx
  cases h with
  | counts | asks => exact ⟨slept, nofun⟩
  | fails free hr =>
    rw [Subject.resume_ended (free.execution.trans hx)] at hr
    cases hr
  | answers free hr =>
    have ended := free.execution.trans hx
    rw [Subject.resume_ended ended] at hr
    cases hr
    exact ⟨ended, fun _ => rfl⟩

/-- A run with a limit comes to the end of the execution even if the wait that is pending does not
end. -/
theorem runFor_ended (hs : status.terminal = true) (limit : Nat) (hp : p.Told)
    (hx : s.execution = .ended status) : (p.runFor ofSeconds limit s).1 = .ok status := by
  induction limit generalizing p s with
  | zero => simp [runFor, cancel, Subject.cancel, Execution.cancel, hx]
  | succ limit ih =>
    have goes : Goes p ofSeconds s (p.turn ofSeconds s) := turn_goes p s
    obtain ⟨told, idle⟩ := goes.of_told hp
    obtain ⟨ended, found⟩ := goes.of_ended hx
    simp only [runFor, step]
    cases hr : (p.turn ofSeconds s).resumes with
    | true => simp [found hr, hs]
    | false =>
      obtain ⟨w, hw⟩ := idle hr
      simp only [hw, Status.terminal, Bool.false_eq_true, if_false]
      exact ih told ended

end Pacer

namespace Course

variable {c : Course σ κ} {status : Status σ}

theorem told_at (hp : c.pacer.Told) (n : Nat) : (c.pacerAt n).Told := by
  induction n with
  | zero => exact hp
  | succ n ih => exact ((c.turnAt_goes n).of_told ih).1

theorem ended_at {n : Nat} (hx : (c.subjectAt n).execution = .ended status)
    (keeps : ∀ m s, n < m → s.execution = .ended status →
      (c.meddle m s).execution = .ended status) (m : Nat) :
    (c.subjectAt (n + m)).execution = .ended status := by
  induction m with
  | zero => exact hx
  | succ m ih => exact keeps _ _ (by omega) ((c.turnAt_goes (n + m)).of_ended ih).1

theorem resumes_eq (floor : ¬ (Pacer.epsilon : κ) < 0.0) (n : Nat) :
    (c.turnAt n).resumes = !(c.pacerAt n).holdsBack (c.subjectAt n) := by
  have goes := c.turnAt_goes n
  have count : (c.turnAt n).deeds.countP Deed.isResume = _ := Pacer.turn_resumes floor _ _
  generalize c.turnAt n = t at goes count ⊢
  cases goes with
  | counts | asks =>
    cases h : (c.pacerAt n).holdsBack (c.subjectAt n) with
    | true => rfl
    | false => simp [h, Deed.isResume] at count
  | fails free | answers free =>
    rw [free.holdsBack floor]
    exact free.resumes

end Course

/-- Once the execution of a pacer has ended with a status, whatever was done to it before, and is left
at its end, the pacer behaves like this. If it waits for nothing, every tick resumes the execution,
asks no condition and answers with the status. If a wait is pending, ticks that go to it still answer
that the execution has paused; the first tick that no wait holds back answers with the status, and so
does every later one, without asking anything. So a run without a limit returns exactly if the pending
wait comes to an end, while one with a limit always returns the status. -/
theorem ending_found [LE κ] [DecidableLE κ] (floor : ¬ (Pacer.epsilon : κ) < 0.0)
    (ofSeconds : Float → κ) (meddle : Nat → Subject σ → Subject σ) {tick : κ}
    {sleep : Option (κ → σ → σ)} {p : Pacer σ κ} (hp : Pacer.create tick sleep = .ok p)
    (s : Subject σ) :
    let c : Course σ κ := ⟨ofSeconds, meddle, p, s⟩
    ∀ n status, status.terminal = true → (c.subjectAt n).execution = .ended status →
      (∀ m s, n < m → s.execution = .ended status → (meddle m s).execution = .ended status) →
      ((c.pacerAt n).waiting = false → ∀ m,
        (c.turnAt (n + m)).deeds = [.resume] ∧ (c.turnAt (n + m)).answer = .ok status) ∧
      (∀ m, (c.pacerAt (n + m)).holdsBack (c.subjectAt (n + m)) = true →
        (c.turnAt (n + m)).resumes = false ∧ ∃ w, (c.turnAt (n + m)).answer = .ok (.paused w)) ∧
      (∀ m, (c.pacerAt (n + m)).holdsBack (c.subjectAt (n + m)) = false →
        (c.turnAt (n + m)).answer = .ok status ∧ ∀ k, (c.turnAt (n + m + 1 + k)).deeds = [.resume] ∧
          (c.turnAt (n + m + 1 + k)).answer = .ok status) ∧
      ((∃ m, (c.turnAt (n + m)).answer = .ok status) ↔
        ∃ m, (c.pacerAt (n + m)).holdsBack (c.subjectAt (n + m)) = false) ∧
      ∀ limit, ((c.pacerAt n).runFor ofSeconds limit (c.subjectAt n)).1 = .ok status := by
  intro c n status hs hx keeps
  have idle : c.pacer.waiting = false := Pacer.create_waiting floor hp
  have told : c.pacer.Told := fun hw => absurd hw (by simp [idle])
  have waits (m : Nat) (h : (c.pacerAt (n + m)).holdsBack (c.subjectAt (n + m)) = true) :
      (c.turnAt (n + m)).resumes = false ∧ ∃ w, (c.turnAt (n + m)).answer = .ok (.paused w) := by
    have unresumed : (c.turnAt (n + m)).resumes = false := by simp [Course.resumes_eq floor, h]
    exact ⟨unresumed, ((c.turnAt_goes _).of_told (Course.told_at told _)).2 unresumed⟩
  have finds (m : Nat) (h : (c.pacerAt (n + m)).holdsBack (c.subjectAt (n + m)) = false) :
      (c.turnAt (n + m)).resumes = true ∧ (c.turnAt (n + m)).answer = .ok status := by
    have resumed : (c.turnAt (n + m)).resumes = true := by simp [Course.resumes_eq floor, h]
    exact ⟨resumed, ((c.turnAt_goes _).of_ended (Course.ended_at hx keeps m)).2 resumed⟩
  refine ⟨fun hw => Course.turnAt_stays hs keeps hw hx, waits, fun m h => ?_, ⟨?_, ?_⟩,
    fun limit => Pacer.runFor_ended hs limit (Course.told_at told n) hx⟩
  · obtain ⟨resumed, answer⟩ := finds m h
    obtain ⟨still, ended⟩ := Course.ended_of_answer hs resumed answer
    refine ⟨answer, Course.turnAt_stays hs (fun j s hj => keeps j s (by omega)) still ?_⟩
    exact keeps _ _ (by omega) ended
  · rintro ⟨m, answer⟩
    refine ⟨m, ?_⟩
    by_contra h
    obtain ⟨-, w, paused⟩ := waits m (by simpa using h)
    rw [answer] at paused
    cases paused
    cases hs
  · rintro ⟨m, h⟩
    exact ⟨m, (finds m h).2⟩

/-- A host with a function that waits for what never comes. -/
def stalling : Services Unit :=
  { Services.empty with builtins :=
      [("stall", ⟨"stall", 0, some 0, true, "", [],
        .host fun _ w => (.wait (.condition fun w => (false, w)), w)⟩)] }

def staller : Program :=
  let here : Location := ⟨"staller", 1, 1, "stall()"⟩
  ⟨here, [.expr here (.call here (.name here "stall") [] [])]⟩

/-- An execution that is given up while a condition is pending leaves the pacer waiting. -/
theorem ending_found_stalling : ∃ p : Pacer Unit ℚ, Pacer.create 1 none = .ok p ∧
    ¬ (Pacer.epsilon : ℚ) < 0.0 ∧
    let i : Interpreter Unit :=
      ⟨⟨stalling, fun _ w => w, 100, false⟩, Interpreter.opening stalling ⟨.empty, ()⟩, 0⟩
    let c : Course Unit ℚ :=
      ⟨fun _ => 1, fun n s => if n = 1 then s.cancel.2 else s, p, ⟨.fresh staller, i⟩⟩
    (c.subjectAt 1).execution = .ended .cancelled ∧ (Status.cancelled (σ := Unit)).terminal = true ∧
      (∀ m s, 1 < m → s.execution = .ended .cancelled →
        (c.meddle m s).execution = .ended .cancelled) ∧
      (∃ w, (c.turnAt 1).answer = .ok (.paused w)) ∧
      ((c.pacerAt 1).runFor (fun _ => 1) 5 (c.subjectAt 1)).1 = .ok .cancelled := by
  have floor : ¬ (Pacer.epsilon : ℚ) < 0.0 := by norm_num [Pacer.epsilon]
  obtain ⟨p, hp, awake⟩ : ∃ p : Pacer Unit ℚ, Pacer.create 1 none = .ok p ∧ p.sleep = none :=
    ⟨_, by norm_num [Pacer.create]; rfl, rfl⟩
  refine ⟨p, hp, floor, ?_⟩
  intro i c
  obtain ⟨resumed, answer, subject⟩ := Course.turnAt_free (c := c) (n := 0)
    (Pacer.create_waiting floor hp)
  have asleep : (c.pacerAt 0).slept (c.subjectAt 0) = ⟨.fresh staller, i⟩ := by
    change p.slept _ = _
    simp only [Pacer.slept, Pacer.beginTick, awake]
    rfl
  rw [asleep] at answer subject
  have paused : (Subject.mk (.fresh staller) i).resume.1 =
      .ok (.paused (.condition fun w => (false, w))) := by cbv
  have ended : (c.subjectAt 1).execution = .ended .cancelled := by
    rw [Course.subjectAt_succ, subject]
    cbv
  have keeps (m : Nat) (s : Subject Unit) (hm : 1 < m) (hx : s.execution = .ended .cancelled) :
      (c.meddle m s).execution = .ended .cancelled := by
    simpa [c, hm.ne'] using hx
  obtain ⟨q, -, -, hq⟩ := (c.turnAt_goes 0).answered resumed (answer.trans paused)
  have held : (c.pacerAt 1).holdsBack (c.subjectAt 1) = true := by
    rw [Course.pacerAt_succ, hq]
    simp [Pacer.holdsBack, Pacer.note, Pacer.beginWait]
  obtain ⟨-, waits, -, -, limited⟩ :=
    ending_found floor (fun _ => 1) c.meddle hp ⟨.fresh staller, i⟩ 1 .cancelled rfl ended keeps
  exact ⟨ended, rfl, keeps, (waits 0 held).2, limited 5⟩

end LoopScript
