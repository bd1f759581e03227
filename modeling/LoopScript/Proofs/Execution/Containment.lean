import LoopScript.Proofs.Journal.Chronicle

/-!
Failures of host code. Whatever code of the host raises, and wherever in a run, ends up in the error
of the status that the run fails with.
-/

namespace LoopScript

variable {σ : Type}

namespace HostCode

def heading : HostCode → String
  | handler kind => "Extension hook '" ++ kind.name ++ "' failed: "
  | rule => "Extension step rule failed: "
  | function => "Internal interpreter error: "

/-- What becomes of a fault that code of the host raises: an error is kept, with its place and its
step filled in; an exception is told by a new error. -/
def Becomes (code : HostCode) (e : RuntimeError) : Fault → Prop
  | .error err => ∃ loc step, e = { err.attach loc with step }
  | .foreign text => e.message = code.heading ++ text
  | .endless => True

theorem becomes_of_passesOn {code : HostCode} {f : Fault} {e : RuntimeError}
    (h : code.PassesOn f (.error e)) : code.Becomes e f := by
  cases h with
  | error code err loc => exact ⟨loc, _, rfl⟩
  | handler kind hf loc | rule hf loc =>
    cases f with
    | error err => exact absurd rfl (hf err)
    | foreign text => rfl
    | endless => trivial
  | function hf => exact absurd rfl (hf e)

theorem attach_attach (err : RuntimeError) (loc loc' : Option Location) :
    ∃ loc'', (err.attach loc).attach loc' = err.attach loc'' := by
  obtain ⟨cause, location, step⟩ := err
  cases location with
  | some l => exact ⟨none, rfl⟩
  | none =>
    cases loc with
    | some l => exact ⟨some l, rfl⟩
    | none => exact ⟨loc', rfl⟩

theorem errorOf_error (m : Machine σ) (err : RuntimeError) :
    ∃ step, Execution.errorOf m (.error err) = { err.attach m.current with step } := by
  cases hl : m.log.last with
  | none => exact ⟨(err.attach m.current).step, by simp only [Execution.errorOf, hl]⟩
  | some entry => exact ⟨some entry.step, by simp only [Execution.errorOf, hl]⟩

theorem becomes_errorOf {code : HostCode} {f g : Fault} (h : code.PassesOn g f) (m : Machine σ) :
    code.Becomes (Execution.errorOf m f) g := by
  cases h with
  | error code err loc =>
    obtain ⟨step, h⟩ := errorOf_error m (err.attach loc)
    obtain ⟨loc', attached⟩ := attach_attach err loc m.current
    exact ⟨loc', step, by rw [h, attached]⟩
  | handler kind hf loc | rule hf loc =>
    cases g with
    | error err => exact absurd rfl (hf err)
    | endless => trivial
    | foreign text =>
      obtain ⟨step, h⟩ := errorOf_error m ⟨_, loc, none⟩
      rw [h]
      exact congrArg Cause.message (RuntimeError.attach_cause _ _)
  | function hf =>
    cases f with
    | error err => exact absurd rfl (hf err)
    | endless => trivial
    | foreign text =>
      have cause : (Execution.errorOf m (.foreign text)).cause = .internal text := by
        cases hl : m.log.last <;> simp only [Execution.errorOf, hl]
      exact congrArg Cause.message cause

end HostCode

/-- How the error of a failed run comes from what code of the host has raised. -/
structure RuntimeError.Contains (e : RuntimeError) (notes : List (Note σ)) : Prop where
  /-- The error is what the last raised fault becomes. -/
  last : ∀ code f, (Note.raises notes).getLast? = some (code, f) → code.Becomes e f
  /-- The reported error is what the first one becomes, unless that comes of the report itself. -/
  first : ∀ code f, (Note.raises notes).head? = some (code, f) → code ≠ .handler .onError →
    ∀ d ∈ Note.reports notes, code.Becomes d f
  /-- After the first one nothing is raised but by a handler of the report. -/
  later : ∀ r ∈ (Note.raises notes).tail, r.1 = .handler .onError
  /-- Nothing but a handler of the report puts another error in the place of the reported one. -/
  kept : ∀ d ∈ Note.reports notes, d ≠ e →
    ∃ f, (Note.raises notes).getLast? = some (.handler .onError, f)

section Lists

variable {notes : List (Note σ)} {d e : RuntimeError} {code : HostCode} {f g : Fault}

theorem contains_own (hr : Note.reports notes = [e]) (hs : Note.raises notes = []) :
    e.Contains notes := by
  constructor <;> simp [hr, hs]

theorem contains_raised (hr : ∀ d ∈ Note.reports notes, d = e) (hs : Note.raises notes = [(code, f)])
    (he : code.Becomes e f) : e.Contains notes where
  last code' f' h := by
    rw [hs] at h
    cases h
    exact he
  first code' f' h _ d hd := by
    rw [hs] at h
    cases h
    exact hr d hd ▸ he
  later := by simp [hs]
  kept d hd hne := absurd (hr d hd) hne

theorem contains_replaced {earlier : List (HostCode × Fault)} (hr : Note.reports notes = [d])
    (hs : Note.raises notes = earlier ++ [(.handler .onError, g)])
    (hd : earlier = [] ∨ ∃ code f, earlier = [(code, f)] ∧ code.Becomes d f)
    (he : HostCode.Becomes (.handler .onError) e g) : e.Contains notes := by
  have last : (Note.raises notes).getLast? = some (.handler .onError, g) := by
    rw [hs]
    exact List.getLast?_concat
  refine ⟨fun code f h => ?_, fun code f h hc d' hd' => ?_, ?_, fun _ _ _ => ⟨g, last⟩⟩
  · rw [last] at h
    cases h
    exact he
  · rw [hr] at hd'
    obtain rfl := List.mem_singleton.mp hd'
    rcases hd with rfl | ⟨code', f', rfl, hd⟩
    · rw [hs] at h
      cases h
      exact absurd rfl hc
    · rw [hs] at h
      cases h
      exact hd
  · rcases hd with rfl | ⟨code, f, rfl, -⟩ <;> simp [hs]

end Lists

theorem Services.Fails.contains {s : Services σ} {m n : Machine (Watched σ)} {e : RuntimeError}
    (h : s.Fails m n e) (hm : m.journal = []) : e.Contains n.journal := by
  cases h with
  | @reported k f h hn =>
    obtain ⟨reports, -, raises⟩ := h.lists
    have reported : Note.reports n.journal = [Execution.errorOf n f] := by
      rw [hn, Note.reports_append, reports, hm]
      rfl
    have same : Note.raises n.journal = Note.raises k.journal := by
      rw [hn, Note.raises_append]
      exact List.append_nil _
    rw [hm] at raises
    rcases raises with quiet | ⟨code, g, raised, passes⟩
    · exact contains_own reported (same.trans quiet)
    · refine contains_raised (fun d hd => ?_) (same.trans raised) (HostCode.becomes_errorOf passes n)
      rw [reported] at hd
      exact List.mem_singleton.mp hd
  | @replaced k f g _ h hn _ he =>
    obtain ⟨reports, -, raises⟩ := h.lists
    have reported : Note.reports n.journal = [Execution.errorOf n f] := by
      rw [hn, Note.reports_append, reports, hm]
      rfl
    have more : Note.raises n.journal = Note.raises k.journal ++ [(.handler .onError, g)] := by
      rw [hn, Note.raises_append]
      rfl
    refine contains_replaced reported more ?_ (HostCode.becomes_of_passesOn he)
    rw [hm] at raises
    refine raises.imp id ?_
    rintro ⟨code, g', raised, passes⟩
    exact ⟨code, g', raised, HostCode.becomes_errorOf passes n⟩
  | @unended k g _ h hn _ he =>
    obtain ⟨reports, -, raises⟩ := h.lists
    have unreported : Note.reports n.journal = [] := by
      rw [hn, Note.reports_append, reports, hm]
      rfl
    have raised : Note.raises n.journal = [(.handler .programEnd, g)] := by
      rw [hn, Note.raises_append, raises, hm]
      rfl
    exact contains_raised (by simp [unreported]) raised (HostCode.becomes_of_passesOn he)

theorem Interpreter.run_answers (i : Interpreter σ) (host : Wait σ → World σ → World σ) (p : Program)
    (n : Nat) : ∃ s, (i.run host p (n + 1)).answer = some (.ok s) := by
  have answers : (i.run host p (n + 1)).answer ≠ none := by
    obtain ⟨count, hn⟩ := i.run_succ host p n
    rw [hn]
    nofun
  have shows : i.Shows host p (i.run host p (n + 1)) := i.run_shows (n + 1)
  generalize i.run host p (n + 1) = x at shows answers
  cases shows with
  | fresh => exact absurd rfl answers
  | running | paused | completed | failed => exact ⟨_, rfl⟩

/-- Each resumption answers with a status, whatever code of the host raises. If it has raised
anything, then the run has failed, with the error that the last raised fault becomes. -/
theorem failures_contained (i : Interpreter σ) (host : Wait σ → World σ → World σ) (p : Program)
    (n : Nat) :
    let x := i.run host p (n + 1)
    let notes := i.journal host p (n + 1)
    (i.watched.run (watchedWait host) p (n + 1)).unwatched = x ∧
    ∃ s, x.answer = some (.ok s) ∧
      match s with
      | .failed e => e.Contains notes
      | _ => Note.raises notes = [] := by
  have start : i.machine.watched.journal = [] := rfl
  refine ⟨i.run_unwatched host p (n + 1), ?_⟩
  obtain ⟨s, hs⟩ := i.run_answers host p n
  refine ⟨s, hs, ?_⟩
  cases s with
  | failed e => exact (i.chronicle_failed hs).contains start
  | completed =>
    obtain ⟨m, calm, journal⟩ := i.chronicle_completed hs
    change Note.raises (i.watched.run (watchedWait host) p (n + 1)).machine.journal = []
    rw [journal, Note.raises_append, calm.lists.2.2]
    rfl
  | running | paused w | cancelled =>
    have goes : (i.run host p (n + 1)).execution.status? = none := by
      have shows : i.Shows host p (i.run host p (n + 1)) := i.run_shows (n + 1)
      generalize i.run host p (n + 1) = x at shows hs
      cases shows with
      | fresh | running | paused => rfl
      | completed | failed => cases hs
    exact (i.chronicle_unended goes).lists.2.2

end LoopScript
