import LoopScript.Proofs.Journal.Watched
import LoopScript.Proofs.Machine.Effect

/-!
What the journal of a watched host has to say about an action. On a watched host every action does
what it does on the host by itself, and it notes the events that it tells. If it fails, then either no
code of the host has raised anything, or the last note is of the fault that the action fails with.
-/

namespace LoopScript

variable {σ : Type}

/-- The events that are told after the program has ended. -/
def EventKind.isLast : EventKind → Bool
  | onError | programEnd => true
  | _ => false

def Event.Early (events : List (Event σ)) : Prop := ∀ e ∈ events, e.kind.isLast = false

theorem RuntimeError.attach_none (err : RuntimeError) : err.attach none = err := by
  obtain ⟨cause, location, step⟩ := err
  cases location <;> rfl

theorem Fault.attach_none (f : Fault) : f.attach none = f := by
  cases f with
  | error err => exact congrArg Fault.error err.attach_none
  | endless | foreign text => rfl

namespace HostCode

/-- The fault that is passed on when code of the host raises one. An error stays as it is, but for its
place. -/
inductive PassesOn : HostCode → Fault → Fault → Prop where
  | error (code : HostCode) (err : RuntimeError) (loc : Option Location) :
      PassesOn code (.error err) (.error (err.attach loc))
  | handler (kind : EventKind) {f : Fault} (hf : ∀ err, f ≠ .error err) (loc : Option Location) :
      PassesOn (handler kind) f (.error ⟨.hookFailed kind.name f.text, loc, none⟩)
  | rule {f : Fault} (hf : ∀ err, f ≠ .error err) (loc : Option Location) :
      PassesOn rule f (.error ⟨.stepRuleFailed f.text, loc, none⟩)
  | function {f : Fault} (hf : ∀ err, f ≠ .error err) : PassesOn function f f

theorem passesOn_same (code : HostCode) (err : RuntimeError) :
    code.PassesOn (.error err) (.error err) := by
  have h := PassesOn.error code err none
  rwa [err.attach_none] at h

theorem passesOn_attach (f : Fault) (loc : Option Location) :
    function.PassesOn f (f.attach loc) := by
  cases f with
  | error err => exact .error function err loc
  | endless | foreign text => exact .function (by intro _ h; cases h)

end HostCode

def Services.Raises (s : Services σ) (kind : EventKind) (f : Fault) : Prop :=
  ∃ h ∈ s.handlers kind, ∃ e w, (h.handle e w).1 = some f

namespace Machine

variable {m n k : Machine (Watched σ)} {f : Fault}

/-- From one machine to the next, the journal has grown by events of a program that goes on. -/
def Calm (m n : Machine (Watched σ)) : Prop :=
  ∃ events : List (Event σ), Event.Early events ∧ n.journal = m.journal ++ events.map .told

/-- On the way from one machine to the next a fault has come up: by itself, or because code of the
host has raised one. -/
inductive Troubled (m : Machine (Watched σ)) (f : Fault) (n : Machine (Watched σ)) : Prop where
  | own (h : Calm m n)
  | raised {k : Machine (Watched σ)} (code : HostCode) (g : Fault) (h : Calm m k)
      (hn : n.journal = k.journal ++ [.raised code g]) (hf : code.PassesOn g f)

theorem Calm.of_eq (h : n.journal = m.journal) : Calm m n :=
  ⟨[], nofun, by rw [h, List.map_nil, List.append_nil]⟩

theorem Calm.refl (m : Machine (Watched σ)) : Calm m m := .of_eq rfl

theorem Calm.trans (h : Calm m n) (h' : Calm n k) : Calm m k := by
  obtain ⟨es, hes, hm⟩ := h
  obtain ⟨ds, hds, hn⟩ := h'
  refine ⟨es ++ ds, fun e he => ?_, ?_⟩
  · exact (List.mem_append.mp he).elim (hes e) (hds e)
  · rw [hn, hm, List.map_append, List.append_assoc]

theorem Calm.troubled (h : Calm m n) (h' : Troubled n f k) : Troubled m f k := by
  cases h' with
  | own h' => exact .own (h.trans h')
  | raised code g h' hn hf => exact .raised code g (h.trans h') hn hf

end Machine

namespace Note

section Lists

variable (notes others : List (Note σ))

theorem reports_append : reports (notes ++ others) = reports notes ++ reports others :=
  List.filterMap_append

theorem endings_append : endings (notes ++ others) = endings notes + endings others :=
  List.countP_append

theorem raises_append : raises (notes ++ others) = raises notes ++ raises others :=
  List.filterMap_append

end Lists

variable {events : List (Event σ)}

theorem reports_early (h : Event.Early events) : reports (events.map .told) = [] := by
  refine List.filterMap_eq_nil_iff.mpr fun note hn => ?_
  obtain ⟨e, he, rfl⟩ := List.mem_map.mp hn
  cases e with
  | onError e => exact absurd (h _ he) nofun
  | _ => rfl

theorem endings_early (h : Event.Early events) : endings (events.map .told) = 0 := by
  refine List.countP_eq_zero.mpr fun note hn => ?_
  obtain ⟨e, he, rfl⟩ := List.mem_map.mp hn
  cases e with
  | programEnd => exact absurd (h _ he) nofun
  | _ => nofun

theorem raises_told (events : List (Event σ)) : raises (events.map .told) = [] := by
  refine List.filterMap_eq_nil_iff.mpr fun note hn => ?_
  obtain ⟨e, -, rfl⟩ := List.mem_map.mp hn
  rfl

end Note

section Lists

variable {m n : Machine (Watched σ)} {f : Fault}

theorem Machine.Calm.lists (h : m.Calm n) : Note.reports n.journal = Note.reports m.journal ∧
    Note.endings n.journal = Note.endings m.journal ∧
    Note.raises n.journal = Note.raises m.journal := by
  obtain ⟨events, early, hn⟩ := h
  rw [hn, Note.reports_append, Note.endings_append, Note.raises_append, Note.reports_early early,
    Note.endings_early early, Note.raises_told, List.append_nil, List.append_nil]
  exact ⟨rfl, rfl, rfl⟩

theorem Machine.Troubled.lists (h : m.Troubled f n) :
    Note.reports n.journal = Note.reports m.journal ∧
      Note.endings n.journal = Note.endings m.journal ∧
      (Note.raises n.journal = Note.raises m.journal ∨
        ∃ code g, Note.raises n.journal = Note.raises m.journal ++ [(code, g)] ∧
          code.PassesOn g f) := by
  cases h with
  | own h => exact ⟨h.lists.1, h.lists.2.1, .inl h.lists.2.2⟩
  | @raised k code g h hn hf =>
    obtain ⟨reports, endings, raises⟩ := h.lists
    rw [hn, Note.reports_append, Note.endings_append, Note.raises_append, reports, endings, raises]
    exact ⟨List.append_nil _, rfl, .inr ⟨code, g, rfl, hf⟩⟩

end Lists

namespace Act

variable {α β γ δ : Type}

/-- An action of a watched host that does what an action of the host does by itself, up to a
translation of their results. -/
def Mirrors (l : α → β) (x : Act (Watched σ) α) (y : Act σ β) : Prop :=
  ∀ m, Ensures x m (fun a n => y m.unwatched = .ok (l a) n.unwatched ∧ m.Calm n)
    (fun f n => y m.unwatched = .error f n.unwatched ∧ m.Troubled f n)

theorem mirrors_pure {l : α → β} (a : α) : Mirrors (σ := σ) l (pure a) (pure (l a)) :=
  fun m => ⟨rfl, .refl m⟩

theorem mirrors_return {l : α → β} {a : α} {b : β} (h : l a = b) :
    Mirrors (σ := σ) l (pure a) (pure b) :=
  h ▸ mirrors_pure a

theorem mirrors_throw {l : α → β} (f : Fault) : Mirrors (σ := σ) l (throw f) (throw f) :=
  fun m => ⟨rfl, .own (.refl m)⟩

theorem mirrors_bind {l : α → β} {l' : γ → δ} {x : Act (Watched σ) α} {y : Act σ β}
    {f : α → Act (Watched σ) γ} {g : β → Act σ δ} (hx : Mirrors l x y)
    (hf : ∀ a, Mirrors l' (f a) (g (l a))) : Mirrors l' (x >>= f) (y >>= g) := by
  intro m
  refine ensures_bind ((hx m).mono ?_ ?_)
  · rintro a n ⟨hy, hn⟩
    have hb : (y >>= g) m.unwatched = g (l a) n.unwatched := by simp only [bind, EStateM.bind, hy]
    rw [hb]
    exact (hf a n).mono (fun _ _ h => ⟨h.1, hn.trans h.2⟩) fun _ _ h => ⟨h.1, hn.troubled h.2⟩
  · rintro f n ⟨hy, hn⟩
    exact ⟨by simp only [bind, EStateM.bind, hy], hn⟩

theorem mirrors_get : Mirrors (σ := σ) Machine.unwatched get get := fun m => ⟨rfl, .refl m⟩

theorem mirrors_change {f : Machine (Watched σ) → α × Machine (Watched σ)}
    {g : Machine σ → α × Machine σ} (h : ∀ m, g m.unwatched = ((f m).1, (f m).2.unwatched))
    (hj : ∀ m, (f m).2.journal = m.journal) : Mirrors id (modifyGet f) (modifyGet g) := by
  intro m
  have hg : (modifyGet g : Act σ α) m.unwatched = .ok (f m).1 (f m).2.unwatched := by
    change EStateM.Result.ok (g m.unwatched).1 (g m.unwatched).2 = _
    rw [h m]
  exact ⟨hg, .of_eq (hj m)⟩

theorem mirrors_seq {l : γ → δ} {x : Act (Watched σ) α} {y : Act σ α}
    {f : α → Act (Watched σ) γ} {g : α → Act σ δ} (hx : Mirrors id x y)
    (hf : ∀ a, Mirrors l (f a) (g a)) : Mirrors l (x >>= f) (y >>= g) :=
  mirrors_bind hx hf

theorem mirrors_map {l : α → β} {l' : γ → δ} {f : α → γ} {g : β → δ} {x : Act (Watched σ) α}
    {y : Act σ β} (hx : Mirrors l x y) (h : ∀ a, g (l a) = l' (f a)) :
    Mirrors l' (f <$> x) (g <$> y) := by
  rw [← bind_pure_comp, ← bind_pure_comp]
  refine mirrors_bind hx fun a => ?_
  rw [h]
  exact mirrors_pure (f a)

theorem mirrors_ask {l : γ → δ} (f : World σ → Reply σ × World σ)
    {F : Reply (Watched σ) → Act (Watched σ) γ} {G : Reply σ → Act σ δ}
    (hr : ∀ r, Mirrors l (F r) (G r.unwatched))
    (hf : ∀ g, ∃ loc, F (.fault g) = throw (g.attach loc)) :
    Mirrors l (onWorld (watchedReply f) >>= F) (onWorld f >>= G) := by
  intro m
  obtain ⟨r, u, hw⟩ : ∃ r u, f m.world.unwatched = (r, u) := ⟨_, _, rfl⟩
  let n : Machine (Watched σ) := { m with world := u.watched (m.journal ++ r.notes) }
  have hx : onWorld (watchedReply f) m = .ok r.watched n := by
    change EStateM.Result.ok (watchedReply f m.world).1
      { m with world := (watchedReply f m.world).2 } = _
    rw [watchedReply, hw]
    rfl
  have hy : onWorld f m.unwatched = .ok r n.unwatched := by
    change EStateM.Result.ok (f m.world.unwatched).1
      { m.unwatched with world := (f m.world.unwatched).2 } = _
    rw [hw]
    rfl
  have hG : (onWorld f >>= G) m.unwatched = G r n.unwatched := by simp only [bind, EStateM.bind, hy]
  have hn := hr r.watched n
  rw [r.unwatched_watched] at hn
  have quiet (h : m.Calm n) : Ensures (F r.watched) n
      (fun a k => G r n.unwatched = .ok (l a) k.unwatched ∧ m.Calm k)
      (fun g k => G r n.unwatched = .error g k.unwatched ∧ m.Troubled g k) :=
    hn.mono (fun _ _ h' => ⟨h'.1, h.trans h'.2⟩) fun _ _ h' => ⟨h'.1, h.troubled h'.2⟩
  refine ensures_bind ?_
  simp only [Ensures, hx, hG]
  cases r with
  | value v => exact quiet (.of_eq (List.append_nil m.journal))
  | wait w => exact quiet (.of_eq (List.append_nil m.journal))
  | fault g =>
    -- What the function raises goes on as it is, but for its place.
    obtain ⟨loc, hF⟩ := hf g
    change Ensures (F (.fault g)) n _ _ at hn
    change Ensures (F (.fault g)) n _ _
    rw [hF] at hn ⊢
    exact ⟨hn.1, .raised .function g (.refl m) rfl (HostCode.passesOn_attach g loc)⟩

theorem onWorld_watchedAnswer (code : HostCode) (f : World σ → Option Fault × World σ)
    (m : Machine (Watched σ)) : ∃ answer n, onWorld (watchedAnswer code f) m = .ok answer n ∧
      onWorld f m.unwatched = .ok answer n.unwatched ∧
      n.journal = m.journal ++ answer.toList.map (.raised code) ∧ ∃ w, (f w).1 = answer := by
  obtain ⟨answer, u, hw⟩ : ∃ answer u, f m.world.unwatched = (answer, u) := ⟨_, _, rfl⟩
  let n : Machine (Watched σ) :=
    { m with world := u.watched (m.journal ++ answer.toList.map (.raised code)) }
  refine ⟨answer, n, ?_, ?_, rfl, m.world.unwatched, by rw [hw]⟩
  · change EStateM.Result.ok (watchedAnswer code f m.world).1
      { m with world := (watchedAnswer code f m.world).2 } = _
    rw [watchedAnswer, hw]
    rfl
  · change EStateM.Result.ok (f m.world.unwatched).1
      { m.unwatched with world := (f m.world.unwatched).2 } = _
    rw [hw]
    rfl

theorem callHooks_watched (e : Event (Watched σ)) {hooks : List (Hook σ)}
    (hk : ∀ h ∈ hooks, h.kind = e.kind) (m : Machine (Watched σ)) :
    Ensures (callHooks e (hooks.map Hook.watched)) m
      (fun _ n => callHooks e.unwatched hooks m.unwatched = .ok ⟨⟩ n.unwatched ∧
        n.journal = m.journal)
      (fun f n => callHooks e.unwatched hooks m.unwatched = .error f n.unwatched ∧
        ∃ g, n.journal = m.journal ++ [.raised (.handler e.kind) g] ∧
          (∃ h ∈ hooks, ∃ e w, (h.handle e w).1 = some g) ∧
          HostCode.PassesOn (.handler e.kind) g f) := by
  -- The first handler that raises a fault ends the calls: the journal has one more note, or none.
  induction hooks generalizing m with
  | nil => exact ⟨rfl, rfl⟩
  | cons h hooks ih =>
    have kind : h.kind = e.kind := hk h List.mem_cons_self
    have rest := ih fun g hg => hk g (List.mem_cons_of_mem h hg)
    obtain ⟨answer, n, hx, hy, hn, w, hw⟩ :=
      onWorld_watchedAnswer (.handler h.kind) (h.handle e.unwatched) m
    have hx : onWorld (h.watched.handle e) m = .ok answer n := hx
    refine ensures_bind ?_
    simp only [Ensures, hx, callHooks, bind, EStateM.bind, hy]
    rw [kind] at hn
    cases answer with
    | none =>
      have same : n.journal = m.journal := hn.trans (List.append_nil _)
      have hr := rest n
      rw [same] at hr
      refine hr.mono (fun _ _ h => h) fun f k => ?_
      rintro ⟨hf, g, hk, ⟨d, hd, raises⟩, passes⟩
      exact ⟨hf, g, hk, ⟨d, List.mem_cons_of_mem h hd, raises⟩, passes⟩
    | some f =>
      have raises : ∃ d ∈ h :: hooks, ∃ e w, (d.handle e w).1 = some f :=
        ⟨h, List.mem_cons_self, e.unwatched, w, hw⟩
      cases f with
      | error err => exact ⟨rfl, _, hn, raises, HostCode.passesOn_same _ err⟩
      | endless | foreign text =>
        have same : e.unwatched.kind = e.kind := by cases e <;> rfl
        rw [same]
        exact ⟨rfl, _, hn, raises, .handler e.kind (by intro _ h; cases h) _⟩

theorem emit_watched (setup : Setup σ) (e : Event (Watched σ)) (m : Machine (Watched σ)) :
    Ensures (emit setup.watched e) m
      (fun _ n => emit setup e.unwatched m.unwatched = .ok ⟨⟩ n.unwatched ∧
        n.journal = m.journal ++ [.told e.unwatched])
      (fun f n => emit setup e.unwatched m.unwatched = .error f n.unwatched ∧
        ∃ g, n.journal = m.journal ++ [.told e.unwatched, .raised (.handler e.kind) g] ∧
          setup.services.Raises e.kind g ∧ HostCode.PassesOn (.handler e.kind) g f) := by
  let n : Machine (Watched σ) :=
    { m with world := m.world.unwatched.watched (m.journal ++ [.told e.unwatched]) }
  have kinds : ∀ h ∈ setup.services.handlers e.kind, h.kind = e.kind := fun h hh =>
    of_decide_eq_true (List.mem_filter.mp hh).2
  have same : e.unwatched.kind = e.kind := by cases e <;> rfl
  have told : emit setup.watched e m =
      callHooks e ((setup.services.handlers e.kind).map Hook.watched) n := by
    simp only [emit]
    rw [show setup.watched.services = setup.services.watched from rfl, handlers_watched]
    rfl
  have rest := callHooks_watched e kinds n
  rw [show n.journal = m.journal ++ [.told e.unwatched] from rfl] at rest
  simp only [List.append_assoc, List.cons_append, List.nil_append] at rest
  unfold Ensures at rest ⊢
  rw [told, emit, same]
  exact rest

theorem mirrors_emit (setup : Setup σ) (e : Event (Watched σ)) (he : e.kind.isLast = false) :
    Mirrors id (emit setup.watched e) (emit setup e.unwatched) := by
  have same : e.unwatched.kind = e.kind := by cases e <;> rfl
  have early : Event.Early [e.unwatched] := fun d hd => by
    rw [List.mem_singleton.mp hd, same, he]
  intro m
  refine (emit_watched setup e m).mono ?_ ?_
  · rintro - n ⟨hy, hn⟩
    exact ⟨hy, [e.unwatched], early, hn⟩
  · rintro f n ⟨hy, g, hn, -, hf⟩
    let k : Machine (Watched σ) :=
      { m with world := m.world.unwatched.watched (m.journal ++ [.told e.unwatched]) }
    have calm : m.Calm k := ⟨[e.unwatched], early, rfl⟩
    refine ⟨hy, .raised (.handler e.kind) g calm ?_ hf⟩
    rw [hn, show k.journal = m.journal ++ [.told e.unwatched] from rfl, List.append_assoc]
    rfl

theorem mirrors_callRules (c : StepContext) (rules : List (StepRule σ)) :
    Mirrors id (callRules c (rules.map StepRule.watched)) (callRules c rules) := by
  induction rules with
  | nil => exact mirrors_pure _
  | cons r rules ih =>
    simp only [List.map_cons, callRules]
    change Mirrors _ (if c.step % r.every = 0 then _ else _) _
    split
    · intro m
      obtain ⟨answer, n, hx, hy, hn, -⟩ := onWorld_watchedAnswer .rule (r.handle c) m
      have hx : onWorld (r.watched.handle c) m = .ok answer n := hx
      refine ensures_bind ?_
      simp only [Ensures, hx, bind, EStateM.bind, hy]
      cases answer with
      | none =>
        have calm : m.Calm n := .of_eq (hn.trans (List.append_nil _))
        exact (ih n).mono (fun _ _ h => ⟨h.1, calm.trans h.2⟩) fun _ _ h =>
          ⟨h.1, calm.troubled h.2⟩
      | some f =>
        cases f with
        | error err => exact ⟨rfl, .raised .rule _ (.refl m) hn (HostCode.passesOn_same _ err)⟩
        | endless | foreign text =>
          exact ⟨rfl, .raised .rule _ (.refl m) hn (.rule (by intro _ h; cases h) _)⟩
    · exact ih

end Act

end LoopScript
