import LoopScript.Shell
import LoopScript.Proofs.Pacer.Bookkeeping

/-!
Interactive sessions: what becomes of the lines that are typed. Each of them that is to be run goes
into one chunk of source, in order, but for those that are held back when the input ends.
-/

namespace LoopScript

namespace Repl

def isQuit (line : String) : Bool := Text.trim line = ":quit" ∨ Text.trim line = ":exit"

/-- What a line adds to the sources of a session: itself, unless it is blank or a command. -/
def content (held : List String) (line : String) : List String :=
  if (Text.trim line).isEmpty ∨ held = [] ∧ (isQuit line ∨ Text.trim line = ":builtins") then []
  else [line]

def Answer.source? : Answer → Option String
  | .run source => some source
  | _ => none

inductive Feeds (held : List String) (line : String) : Answer → List String → Prop
  | quits (empty : held = []) (h : isQuit line = true) : Feeds held line .quit []
  | lists (empty : held = []) (h : content held line = []) : Feeds held line .builtins []
  | runs (filled : held ++ content held line ≠ []) :
    Feeds held line (.run ("\n".intercalate (held ++ content held line))) []
  | holds : Feeds held line .more (held ++ content held line)

theorem start_feeds (line : String) : Feeds [] line (start line).1 (start line).2 := by
  unfold start
  simp only
  split
  · next quit => exact .quits rfl (by simpa [isQuit] using quit)
  · next quit =>
    split
    · next lists => exact .lists rfl (by simp [content, lists])
    · next lists =>
      split
      · next blank =>
        have nothing : content [] line = [] := by simp [content, blank]
        simpa [nothing] using @Feeds.holds [] line
      · next solid =>
        have whole : content [] line = [line] := by simp_all [content, isQuit]
        split
        · simpa [whole] using @Feeds.runs [] line (by simp [whole])
        · simpa [whole] using @Feeds.holds [] line

theorem feed_feeds (held : List String) (line : String) :
    Feeds held line (feed held line).1 (feed held line).2 := by
  unfold feed
  split
  · exact start_feeds line
  · next first rest =>
    split
    · next blank =>
      have nothing : content (first :: rest) line = [] := by simp [content, blank]
      simpa [nothing] using @Feeds.runs (first :: rest) line (by simp)
    · next solid =>
      have whole : content (first :: rest) line = [line] := by simp_all [content]
      simpa [whole] using @Feeds.holds (first :: rest) line

end Repl

namespace Pacer

variable {σ κ : Type} [OfScientific κ] [LT κ] [DecidableLT κ]

/-- A pacer at work: it has its subject to itself, and while it waits it knows what for. -/
structure Live (p : Pacer σ κ) (s : Subject σ) : Prop where
  undisturbed : s.Undisturbed
  recalls : p.waiting = true → ∃ status, p.last = some status

theorem Goes.live [Add κ] [Sub κ] (floor : ¬ (epsilon : κ) < 0.0) {ofSeconds : Float → κ}
    {p : Pacer σ κ} {s : Subject σ} {t : Turn σ κ} (h : Goes p ofSeconds s t) (live : p.Live s) :
    (∃ status, t.answer = .ok status) ∧ t.pacer.Live t.subject := by
  have undisturbed := h.undisturbed live.undisturbed
  have recalled (w : p.waiting = true) : ∃ status, p.ticked.last = some status ∧
      p.ticked.repeated = .ok status := by
    obtain ⟨status, last⟩ := live.recalls w
    have last := ticked_last.trans last
    exact ⟨status, last, by rw [repeated, last]⟩
  cases h with
  | counts counting =>
    obtain ⟨status, last, answer⟩ := recalled (waiting_of_counts floor counting)
    exact ⟨⟨status, answer⟩, undisturbed, fun _ => ⟨status, last⟩⟩
  | asks c _ pending =>
    obtain ⟨status, last, answer⟩ := recalled (by simp [waiting, pending])
    exact ⟨⟨status, answer⟩, undisturbed, fun _ => ⟨status, last⟩⟩
  | fails free failed =>
    obtain ⟨status, answers⟩ := (free.undisturbed live.undisturbed).answers
    simp [failed] at answers
  | @answers _ q _ _ status =>
    exact ⟨⟨status, rfl⟩, undisturbed, fun _ => ⟨status, (note_kept ofSeconds q status).2.2.2⟩⟩

end Pacer

namespace Shell

/-- A session that holds these lines back: it reads, or it runs a program and holds none. The pacer
of the program is live, so no tick of it can fail, which would end the session. -/
inductive Awake (o : Options) : List String → Shell → Prop
  | reads {held : List String} {s : Shell} (options : s.options = o) (i : Interpreter Console)
    (h : s.phase = .reading held i) : Awake o held s
  | runs {p : Pacer Console Float} {x : Subject Console} {s : Shell} (options : s.options = o)
    (live : p.Live x) (h : s.phase = .running true p x) : Awake o [] s

variable {o : Options}

theorem launch_awake (ho : ¬ o.tick ≤ 0.0) (source file : String) (i : Interpreter Console) :
    Awake o [] (launch o true source file i) := by
  unfold launch
  split
  · exact .reads rfl i rfl
  · extract_lets sleep
    split
    · next e refused => simp [Pacer.create, ho] at refused
    · next p created =>
      have idle : p.waiting = false := Pacer.create_waiting (by decide) created
      exact .runs rfl ⟨.fresh _ _, fun w => by simp [idle] at w⟩ rfl

theorem tick_awake {s : Shell} {p : Pacer Console Float} {x : Subject Console} (live : p.Live x)
    (h : s.phase = .running true p x) (options : s.options = o) : Awake o [] s.tick := by
  have goes : p.Goes id x (p.turn id x) := p.turn_goes x
  obtain ⟨⟨status, answer⟩, again⟩ := goes.live (by decide) live
  simp only [tick, h, Pacer.step, answer]
  cases status with
  | failed e => exact .reads options _ rfl
  | completed | cancelled => exact .reads options _ rfl
  | running | paused w => exact .runs options ⟨again.undisturbed.world _, again.recalls⟩ rfl

/-- What a session comes to that reads a line: it goes on, unless it is told to quit. -/
theorem feed_awake (ho : ¬ o.tick ≤ 0.0) {s : Shell} {held : List String} {i : Interpreter Console}
    (h : s.phase = .reading held i) (options : s.options = o) (line : String) :
    (Repl.feed held line).1 = .quit ∧ s.feed (some line) = exit o [] 0 ∨
      (Repl.feed held line).1 ≠ .quit ∧ Awake o (Repl.feed held line).2 (s.feed (some line)) := by
  have feeds := Repl.feed_feeds held line
  simp only [feed, h, options]
  generalize Repl.feed held line = fed at feeds ⊢
  obtain ⟨answer, rest⟩ := fed
  cases feeds with
  | quits => exact .inl ⟨rfl, rfl⟩
  | lists | holds => exact .inr ⟨nofun, .reads rfl i rfl⟩
  | runs => exact .inr ⟨nofun, launch_awake ho _ Repl.file i⟩

end Shell

/-- A session and the lines that it has not read yet. -/
structure Session where
  shell : Shell
  ahead : List String

namespace Session

/-- A program that runs gets a tick, and a shell that reads gets the next line, or the end of the
input. -/
def next (s : Session) : Session :=
  match s.shell.phase, s.ahead with
  | .exited _, _ => s
  | .running .., _ => { s with shell := s.shell.tick }
  | .reading .., [] => { s with shell := s.shell.feed none }
  | .reading .., line :: rest => ⟨s.shell.feed (some line), rest⟩

def after (s : Session) : Nat → Session
  | 0 => s
  | n + 1 => (s.after n).next

def reading? (s : Session) : Option (List String × String) :=
  match s.shell.phase, s.ahead with
  | .reading held _, line :: _ => some (held, line)
  | _, _ => none

/-- All lines that are read within `n` moves, each with the lines held back by then. -/
def readings (s : Session) : Nat → List (List String × String)
  | 0 => []
  | n + 1 => s.readings n ++ (s.after n).reading?.toList

/-- The lines among those read that are to be run. -/
def contents (s : Session) (n : Nat) : List String :=
  (s.readings n).flatMap fun (held, line) => Repl.content held line

def chunks (s : Session) (n : Nat) : List String :=
  (s.readings n).filterMap fun (held, line) => (Repl.feed held line).1.source?

/-- A session that reads, with these lines held back, comes to its end: the input ends, or the next
line tells it to quit. -/
def Ends (s : Session) (held : List String) : Prop :=
  (∃ i, s.shell.phase = .reading held i) ∧
    (s.ahead = [] ∨ held = [] ∧ ∃ line rest, s.ahead = line :: rest ∧ Repl.isQuit line = true)

/-- The lines make up the chunks: each chunk is the next few of them. -/
def MakeUp (lines chunks : List String) : Prop :=
  ∃ groups : List (List String), [] ∉ groups ∧ groups.flatten = lines ∧
    chunks = groups.map ("\n".intercalate ·)

theorem MakeUp.snoc {lines chunks : List String} (h : MakeUp lines chunks) {group : List String}
    (filled : group ≠ []) : MakeUp (lines ++ group) (chunks ++ ["\n".intercalate group]) := by
  obtain ⟨groups, all, rfl, rfl⟩ := h
  refine ⟨groups ++ [group], ?_, by simp, by simp⟩
  simp [all, filled.symm]

/-- How the lines read within `n` moves have been used: some have been run, and the others are held
back, or were when the session came to its end. -/
structure Accounted (o : Options) (s : Session) (n : Nat) (ran held : List String) : Prop where
  contents : s.contents n = ran ++ held
  chunks : MakeUp ran (s.chunks n)
  stands : Shell.Awake o held (s.after n).shell ∨
    (s.after n).shell.phase = .exited 0 ∧ ∃ m < n, (s.after m).Ends held

variable {o : Options} {s : Session} {n : Nat} {ran held : List String}

theorem Accounted.quiet (h : Accounted o s n ran held) (idle : (s.after n).reading? = none)
    (stands : Shell.Awake o held (s.after n).next.shell ∨
      (s.after n).next.shell.phase = .exited 0 ∧ ∃ m < n + 1, (s.after m).Ends held) :
    Accounted o s (n + 1) ran held := by
  have same : s.readings (n + 1) = s.readings n := by simp [readings, idle]
  exact ⟨by rw [Session.contents, same]; exact h.contents,
    by rw [Session.chunks, same]; exact h.chunks, stands⟩

theorem Accounted.read (ho : ¬ o.tick ≤ 0.0) (h : Accounted o s n ran held)
    {i : Interpreter Console} (phase : (s.after n).shell.phase = .reading held i)
    (options : (s.after n).shell.options = o) {line : String} {rest : List String}
    (ahead : (s.after n).ahead = line :: rest) :
    ∃ ran' held', Accounted o s (n + 1) ran' held' := by
  have reading : (s.after n).reading? = some (held, line) := by simp [reading?, phase, ahead]
  have contents : s.contents (n + 1) = s.contents n ++ Repl.content held line := by
    simp [Session.contents, readings, reading]
  have chunks : s.chunks (n + 1) = s.chunks n ++ (Repl.feed held line).1.source?.toList := by
    cases hs : (Repl.feed held line).1.source? <;> simp [Session.chunks, readings, reading, hs]
  have next : (s.after n).next.shell = (s.after n).shell.feed (some line) := by
    simp [Session.next, phase, ahead]
  have comes := Shell.feed_awake ho phase options line
  have feeds := Repl.feed_feeds held line
  rw [h.contents] at contents
  rw [← next] at comes
  -- The answer and what is held back are told apart together, in all that is known of the line.
  generalize Repl.feed held line = fed at chunks comes feeds
  obtain ⟨answer, held'⟩ := fed
  cases feeds with
  | quits empty quit =>
    subst empty
    have nothing : Repl.content [] line = [] := by simp [Repl.content, quit]
    obtain ⟨-, gone⟩ := comes.resolve_right fun go => go.1 rfl
    have ends : (s.after n).Ends [] := ⟨⟨i, phase⟩, .inr ⟨rfl, line, rest, ahead, quit⟩⟩
    refine ⟨ran, [], by rw [contents, nothing, List.append_nil], ?_,
      .inr ⟨by rw [after, gone]; rfl, n, Nat.lt_succ_self n, ends⟩⟩
    exact chunks ▸ (List.append_nil _).symm ▸ h.chunks
  | lists empty nothing =>
    obtain ⟨-, awake⟩ := comes.resolve_left nofun
    refine ⟨ran, [], by rw [contents, nothing, empty, List.append_nil], ?_, .inl awake⟩
    exact chunks ▸ (List.append_nil _).symm ▸ h.chunks
  | runs filled =>
    obtain ⟨-, awake⟩ := comes.resolve_left nofun
    refine ⟨ran ++ (held ++ Repl.content held line), [], ?_, ?_, .inl awake⟩
    · rw [contents, List.append_assoc, List.append_nil]
    · exact chunks ▸ h.chunks.snoc filled
  | holds =>
    obtain ⟨-, awake⟩ := comes.resolve_left nofun
    refine ⟨ran, held ++ Repl.content held line, ?_, ?_, .inl awake⟩
    · rw [contents, List.append_assoc]
    · exact chunks ▸ (List.append_nil _).symm ▸ h.chunks

/-- A session that starts with no line held back accounts for its lines after any moves. -/
theorem exists_accounted (ho : ¬ o.tick ≤ 0.0) (start : Shell.Awake o [] s.shell) (n : Nat) :
    ∃ ran held, Accounted o s n ran held := by
  induction n with
  | zero => exact ⟨[], [], rfl, ⟨[], by simp, rfl, rfl⟩, .inl start⟩
  | succ n ih =>
    obtain ⟨ran, held, h⟩ := ih
    rcases h.stands with awake | ⟨gone, m, hm, ends⟩
    · cases awake with
      | runs options live phase =>
        have next : (s.after n).next.shell = (s.after n).shell.tick := by simp [Session.next, phase]
        exact ⟨ran, [], h.quiet (by simp [reading?, phase])
          (.inl (next ▸ Shell.tick_awake live phase options))⟩
      | reads options i phase =>
        cases ahead : (s.after n).ahead with
        | nil =>
          have next : (s.after n).next.shell.phase = .exited 0 := by
            simp [Session.next, phase, ahead, Shell.feed, Shell.exit]
          exact ⟨ran, held, h.quiet (by simp [reading?, phase, ahead])
            (.inr ⟨next, n, Nat.lt_succ_self n, ⟨i, phase⟩, .inl ahead⟩)⟩
        | cons line rest => exact h.read ho phase options ahead
    · have next : (s.after n).next = s.after n := by simp [Session.next, gone]
      exact ⟨ran, held, h.quiet (by simp [reading?, gone])
        (.inr ⟨by rwa [next], m, Nat.lt_succ_of_lt hm, ends⟩)⟩

theorem readings_ahead (s : Session) (n : Nat) :
    (s.readings n).map Prod.snd ++ (s.after n).ahead = s.ahead := by
  induction n with
  | zero => rfl
  | succ n ih =>
    rw [readings, List.map_append, List.append_assoc, after, ← ih]
    congr 1
    unfold reading? next
    cases (s.after n).shell.phase <;> cases (s.after n).ahead <;> simp

end Session

/-- An interactive session loses no line before the input ends. At any moment the lines that are to
be run, among those read so far, are those that make up the chunks handed over to be run, followed
by those that are held back. It comes to an end only when it is told to quit, with no line held
back, or when the input ends; what is held back by then is never run. -/
theorem lines_conserved {o : Options} (ho : ¬ o.tick ≤ 0.0) (i : Interpreter Console)
    (lines : List String) (n : Nat) :
    let s : Session := ⟨.ask o [.out Shell.banner] [] i, lines⟩
    let z := s.after n
    (s.readings n).map Prod.snd ++ z.ahead = lines ∧
      ∃ ran held, s.contents n = ran ++ held ∧ Session.MakeUp ran (s.chunks n) ∧
        match z.shell.phase with
        | .reading now i => held = now ∧ ∀ line rest source, z.ahead = line :: rest →
            (Repl.feed now line).1 = .run source →
              z.next.shell = .launch o true source Repl.file i
        | .running .. => held = []
        | .exited code => code = 0 ∧ ∃ m < n, (s.after m).Ends held := by
  intro s z
  refine ⟨s.readings_ahead n, ?_⟩
  have start : Shell.Awake o [] s.shell := .reads rfl i rfl
  obtain ⟨ran, held, h⟩ := Session.exists_accounted ho start n
  refine ⟨ran, held, h.contents, h.chunks, ?_⟩
  rcases h.stands with awake | ⟨gone, ends⟩
  · cases awake with
    | runs _ _ phase => simp [z, phase]
    | reads options j phase =>
      simp only [z, phase, true_and]
      intro line rest source ahead run
      simp only [Session.next, phase, ahead, Shell.feed, options]
      generalize Repl.feed held line = fed at run
      obtain ⟨answer, now⟩ := fed
      cases run
      rfl
  · simpa [z, gone] using ends

/-- A block that no blank line ends is not run. -/
theorem lines_conserved_unfinished :
    let i : Interpreter Console := ⟨⟨Services.empty, fun _ w => w, 100, false⟩,
      Interpreter.opening Services.empty ⟨.empty, Console.initial⟩, 0⟩
    let lines := ["if True:", "    print(1)"]
    let s : Session := ⟨.ask .initial [.out Shell.banner] [] i, lines⟩
    ¬ Options.initial.tick ≤ 0.0 ∧ s.contents 3 = lines ∧ s.chunks 3 = [] ∧
      ∃ m < 3, (s.after m).Ends lines := by
  intro i lines s
  have ho : ¬ Options.initial.tick ≤ 0.0 := by decide
  have contents : s.contents 3 = lines := by decide +kernel
  have chunks : s.chunks 3 = [] := by decide +kernel
  refine ⟨ho, contents, chunks, ?_⟩
  obtain ⟨-, ran, held, all, ⟨groups, -, rfl, made⟩, ends⟩ := lines_conserved ho i lines 3
  obtain rfl : groups = [] := List.map_eq_nil_iff.mp (made.symm.trans chunks)
  obtain rfl : held = lines := all.symm.trans contents
  have gone : (match (s.after 3).shell.phase with | .exited _ => true | _ => false) = true := by
    decide +kernel
  split at ends
  · next phase => simp [s, phase] at gone
  · next phase => simp [s, phase] at gone
  · exact ends.2

end LoopScript
