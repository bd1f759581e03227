import LoopScript.Proofs.Journal.Notes
import LoopScript.Proofs.Machine.Inner

/-!
The events of calls in a journal. A call is told when it opens and when it closes; between the two
it may open further calls, or pause the program. What goes on between two such events leaves no
trace among them.
-/

namespace LoopScript

variable {σ : Type}

inductive CallEvent (σ : Type) where
  | opened (s : Site)
  | closed (s : Site)
  | paused (w : Wait σ)

namespace CallEvent

def waits (events : List (CallEvent σ)) : List (Wait σ) :=
  events.filterMap fun
    | paused w => some w
    | _ => none

/-- Every call that opens closes again, after all those that it has opened itself. The two events
name the same call. -/
inductive Bracketed : List (CallEvent σ) → Prop where
  | nil : Bracketed []
  | paused (w : Wait σ) {rest : List (CallEvent σ)} (h : Bracketed rest) :
      Bracketed (.paused w :: rest)
  | call (s : Site) {inner rest : List (CallEvent σ)} (hi : Bracketed inner)
      (hr : Bracketed rest) : Bracketed (.opened s :: inner ++ .closed s :: rest)

/-- The calls that are still open, innermost first. -/
inductive Open : List Site → List (CallEvent σ) → Prop where
  | none {events : List (CallEvent σ)} (h : Bracketed events) : Open [] events
  | call (s : Site) {sites : List Site} {before inner : List (CallEvent σ)}
      (hb : Open sites before) (hi : Bracketed inner) :
      Open (s :: sites) (before ++ .opened s :: inner)

variable {s : Site} {sites : List Site} {events others : List (CallEvent σ)}

theorem waits_append (events others : List (CallEvent σ)) :
    waits (events ++ others) = waits events ++ waits others :=
  List.filterMap_append

theorem Bracketed.append (h : Bracketed events) (h' : Bracketed others) :
    Bracketed (events ++ others) := by
  induction h with
  | nil => exact h'
  | paused w _ ih => exact .paused w ih
  | @call s inner rest hi _ _ ih =>
    have whole := Bracketed.call s hi ih
    rwa [← List.cons_append, ← List.append_assoc] at whole

namespace Open

theorem append (h : Open sites events) (h' : Bracketed others) : Open sites (events ++ others) := by
  cases h with
  | none h => exact .none (h.append h')
  | call s hb hi =>
    rw [List.append_assoc, List.cons_append]
    exact .call s hb (hi.append h')

theorem opened (h : Open sites events) (s : Site) : Open (s :: sites) (events ++ [.opened s]) :=
  .call s h .nil

theorem paused (h : Open sites events) (w : Wait σ) : Open sites (events ++ [.paused w]) :=
  h.append (.paused w .nil)

theorem closed (h : Open (s :: sites) events) : Open sites (events ++ [.closed s]) := by
  cases h with
  | call s hb hi =>
    rw [List.append_assoc]
    exact hb.append (.call s hi .nil)

theorem innermost (h : Open (s :: sites) events) :
    ∃ before inner, events = before ++ .opened s :: inner ∧ Bracketed inner := by
  cases h with
  | call s hb hi => exact ⟨_, _, rfl, hi⟩

theorem bracketed (h : Open [] events) : Bracketed events := by
  cases h with
  | none h => exact h

theorem completes (h : Open sites events) : ∃ rest, Bracketed (events ++ rest) := by
  induction sites generalizing events with
  | nil => exact ⟨[], (List.append_nil events).symm ▸ h.bracketed⟩
  | cons s sites ih =>
    obtain ⟨rest, hr⟩ := ih h.closed
    rw [List.append_assoc] at hr
    exact ⟨_, hr⟩

end Open

end CallEvent

def Event.call? : Event σ → Option (CallEvent σ)
  | beforeCall name _ loc => some (.opened (name, some loc))
  | afterCall name _ loc => some (.closed (name, some loc))
  | onPause w => some (.paused w)
  | _ => none

namespace Note

def calls (notes : List (Note σ)) : List (CallEvent σ) :=
  notes.filterMap fun
    | told e => e.call?
    | raised _ _ => none

theorem calls_append (notes others : List (Note σ)) :
    calls (notes ++ others) = calls notes ++ calls others :=
  List.filterMap_append

theorem calls_told (e : Event σ) : calls [told e] = e.call?.toList := by
  cases e <;> rfl

theorem calls_raised (code : HostCode) (faults : List Fault) :
    calls (σ := σ) (faults.map (raised code)) = [] :=
  List.filterMap_eq_nil_iff.mpr fun note hn => by
    obtain ⟨f, -, rfl⟩ := List.mem_map.mp hn
    rfl

theorem calls_reply (r : Reply σ) : calls r.notes = [] := by
  cases r <;> rfl

end Note

def Machine.callEvents (m : Machine (Watched σ)) : List (CallEvent σ) := Note.calls m.journal

/-- The same services without handlers. -/
def Setup.hushed (setup : Setup σ) : Setup σ :=
  { setup with services := { setup.services with hooks := [] } }

/-- Nothing but the telling of events changes those of calls. -/
theorem respects_callEvents (setup : Setup σ) :
    setup.watched.hushed.RespectsCalls fun m n => n.callEvents = m.callEvents where
  refl _ := rfl
  trans h₁ h₂ := h₂.trans h₁
  current _ _ := rfl
  forced _ _ := rfl
  record _ _ := rfl
  enter _ _ _ _ _ := rfl
  exit _ _ _ _ := rfl
  world m w h := by
    have grown {notes : List (Note σ)} (h : Note.calls notes = []) :
        Note.calls (m.journal ++ notes) = m.callEvents := by
      rw [Note.calls_append, h, List.append_nil, Machine.callEvents]
    have known {name : String} {b : Builtin (Watched σ)}
        (hb : setup.watched.hushed.builtin? name = some b) : ∃ c : Builtin σ, c.watched = b := by
      change setup.watched.builtin? name = some b at hb
      rw [builtin?_watched, Option.map_eq_some_iff] at hb
      obtain ⟨c, -, hc⟩ := hb
      exact ⟨c, hc⟩
    -- Code of the host that is called for an answer notes the faults that it raises, no event.
    cases h with
    | store | print => rfl
    | hook h e hh => cases hh
    | rule r c hr =>
      obtain ⟨r, -, rfl⟩ := List.mem_map.mp hr
      exact grown (Note.calls_raised _ _)
    | reply b f c name hb hf =>
      obtain ⟨⟨_, _, _, _, _, _, action⟩, rfl⟩ := known hb
      cases action with
      | host reply => cases hf; exact grown (Note.calls_reply _)
      | core | forward | each => cases hf
    | finish b f v loc name hb hf =>
      obtain ⟨⟨_, _, _, _, _, _, action⟩, rfl⟩ := known hb
      cases action with
      | forward finish => cases hf; exact grown (Note.calls_reply _)
      | core | host | each => cases hf

namespace Act

variable {α β : Type} {setup : Setup σ}

/-- An action without a trace among the events of calls. -/
abbrev Hushed (x : Act (Watched σ) α) : Prop := Keeps (fun m n => n.callEvents = m.callEvents) x

theorem ensures_emit (setup : Setup σ) (e : Event (Watched σ)) (m : Machine (Watched σ)) :
    Ensures (emit setup.watched e) m
      (fun _ n => n.callEvents = m.callEvents ++ e.unwatched.call?.toList)
      (fun _ n => n.callEvents = m.callEvents ++ e.unwatched.call?.toList ∧
        ∃ g, setup.services.Raises e.kind g) := by
  refine (emit_watched setup e m).mono ?_ ?_
  · rintro - n ⟨-, hn⟩
    rw [Machine.callEvents, hn, Note.calls_append, Note.calls_told, Machine.callEvents]
  · rintro f n ⟨-, g, hn, hg, -⟩
    refine ⟨?_, g, hg⟩
    have raised : Note.calls (σ := σ) [.raised (.handler e.kind) g] = [] := rfl
    rw [Machine.callEvents, hn, ← List.singleton_append, Note.calls_append, Note.calls_append,
      Note.calls_told, raised, List.append_nil, Machine.callEvents]

theorem hushed_emit (setup : Setup σ) {e : Event (Watched σ)} (he : e.unwatched.call? = none) :
    Hushed (emit setup.watched e) := by
  intro m
  have told := ensures_emit setup e m
  rw [he, Option.toList_none, List.append_nil] at told
  exact told.mono (fun _ _ h => h) fun _ _ h => h.1

theorem hushed_ask (f : World σ → Reply σ × World σ) : Hushed (onWorld (watchedReply f)) := by
  intro m
  change Note.calls (m.journal ++ _) = Note.calls m.journal
  rw [Note.calls_append, Note.calls_reply, List.append_nil]

theorem hushed_reply (setup : Setup σ) (f : CoreFunction) (c : Call) :
    Hushed (f.reply setup.watched c) := by
  have same : f.reply setup.watched c = f.reply setup.watched.hushed c := by cases f <;> rfl
  rw [same]
  exact closed_reply (respects_callEvents setup).closed f c

theorem hushed_begin (setup : Setup σ) (t : Task) : Hushed (begin setup.watched t) := by
  have hP := (respects_callEvents setup).closedBegin
  cases t with
  | exec s scope k =>
    refine hP.bind (hP.place _) fun _ => ?_
    refine hP.bind (hushed_emit setup rfl) fun _ => ?_
    refine hP.bind (hP.log _ _) fun _ => ?_
    exact closed_beginStatement hP.toClosed hP.force s scope k
  | eval e scope k => exact closed_beginExpression hP.toClosed e scope k

theorem hushed_react (setup : Setup σ) {a b : Awaits} (h : Hole a b) (x : a.Input) (k : Context b)
    (hh : h.endsCall = false) : Hushed (react setup.watched h x k) := by
  have same : react setup.watched h x k = react setup.watched.hushed h x k := by
    cases h with
    | body | lambdaBody | forwarded => cases hh
    | rest statements => cases statements <;> cases x <;> rfl
    | loopBody | eachBody => cases x <;> rfl
    | sliceBound =>
      cases x with
      | atom a => cases a <;> rfl
      | ref a => rfl
    | listItem done todo | dictValue key done todo => cases todo <;> rfl
    | _ => rfl
  rw [same]
  refine closed_react (respects_callEvents setup).closed h x k fun hb => ?_
  cases h with
  | body | lambdaBody => cases hh
  | _ => cases hb

end Act

end LoopScript
