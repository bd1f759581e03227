import LoopScript.Proofs.Machine.CallStack

/-!
Steps of a machine and its calls in progress: they stay in line with the context of the control, and
what is evaluated without an error leaves them as it found them.
-/

namespace LoopScript

variable {σ : Type} {setup : Setup σ}

namespace Act

section Calls

theorem ensures_callFunction (f : Closure) (label : String) (implicit : Nat) (c : Call)
    (k : Context .value) (m : Machine σ) :
    Ensures (callFunction setup f label implicit c k) m
      (fun t n => (bodyOf (σ := σ) t).Stands k m.calls n.calls) (fun _ n => n.calls = m.calls) := by
  have hP := (respects_calls setup).closed
  refine quiet_bind (closed_placed hP _ _) (fun bound m₁ h₁ => ?_) fun _ _ h => h
  refine quiet_bind (closed_openScope hP _ _) (fun scope m₂ h₂ => ?_) fun _ _ h => h.trans h₁
  replace h₁ := h₂.trans h₁
  refine quiet_bind (closed_emit hP _) (fun _ m₃ h₃ => ?_) fun _ _ h => h.trans h₁
  replace h₁ := h₃.trans h₁
  refine ensures_bind ((ensures_enter _ _ _ m₃).mono ?_ fun _ _ h => h.trans h₁)
  rintro _ n ⟨a, ha, hn⟩
  rw [h₁] at hn
  cases f.body with
  | nil =>
    refine ensures_bind ((ensures_exit hn).mono (fun _ n₁ h => ?_) fun _ _ h => h.elim)
    exact quiet_bind (closed_emit hP _) (fun _ _ h' => h'.trans h) fun _ _ h' => h'.trans h
  | cons s ss =>
    refine ⟨[a], ?_, hn⟩
    rw [List.map_singleton, ha]
    exact .fill (.rest ss scope) (.fill (.body f.name c.location) .refl)

theorem ensures_callLambda (params : List String) (body : Expr) (scope : ScopeId) (c : Call)
    (k : Context .value) (m : Machine σ) :
    Ensures (callLambda setup params body scope c k) m
      (fun t n => Stacked k m.calls t.context.2 n.calls) (fun _ n => n.calls = m.calls) := by
  have hP := (respects_calls setup).closed
  refine quiet_bind (closed_placed hP _ _) (fun bound m₁ h₁ => ?_) fun _ _ h => h
  refine quiet_bind (closed_openScope hP _ _) (fun scope m₂ h₂ => ?_) fun _ _ h => h.trans h₁
  replace h₁ := h₂.trans h₁
  refine quiet_bind (closed_emit hP _) (fun _ m₃ h₃ => ?_) fun _ _ h => h.trans h₁
  replace h₁ := h₃.trans h₁
  refine ensures_bind ((ensures_enter _ _ _ m₃).mono ?_ fun _ _ h => h.trans h₁)
  rintro _ n ⟨a, ha, hn⟩
  rw [h₁] at hn
  refine ⟨[a], ?_, hn⟩
  rw [List.map_singleton, ha]
  exact .fill (.lambdaBody c.location) .refl

theorem ensures_construct (cls : Addr) (name : String) (methods : Table String Addr) (c : Call)
    (k : Context .value) (m : Machine σ) :
    Ensures (construct setup cls name methods c k) m
      (fun r n => r.Stands k m.calls n.calls) (fun _ n => n.calls = m.calls) := by
  have hP := (respects_calls setup).closed
  refine quiet_bind (closed_alloc hP _) (fun object m₁ h₁ => ?_) fun _ _ h => h
  refine quiet_bind hP.store (fun s m₂ h₂ => ?_) fun _ _ h => h.trans h₁
  replace h₁ := h₂.trans h₁
  split
  · next f _ =>
    split
    · exact h₁
    · refine ensures_bind ((ensures_callFunction f name 1 _ _ m₂).mono ?_ fun _ _ h => h.trans h₁)
      intro t n ht
      rw [h₁] at ht
      cases t with
      | none => exact ht
      | some t => exact (Stacked.of_over (.fill (.construct object) .refl) m.calls).trans ht
  · split
    · exact h₁
    · exact h₁

theorem ensures_invoke (callee : Value) (c : Call) (k : Context .value) (m : Machine σ) :
    Ensures (invoke setup callee c k) m
      (fun v n => v.Stands k m.calls n.calls) (fun _ n => n.calls = m.calls) := by
  have hP := (respects_calls setup).closed
  have refuse (m : Machine σ) : Ensures (notCallable (α := Invocation σ) callee c) m
      (fun v n => v.Stands k m.calls n.calls) (fun _ n => n.calls = m.calls) :=
    (ensures_of_quiet (closed_notCallable hP callee c) (yields_notCallable callee c) m).mono
      (P := fun v n => v.Inside k ∧ n.calls = m.calls)
      (fun v n h => h.2 ▸ h.1.stands m.calls) fun _ _ h => h
  refine quiet_bind hP.store (fun s m₁ h₁ => ?_) fun _ _ h => h
  rw [← h₁]
  split
  · split
    · next b hb =>
      refine (ensures_of_quiet (closed_callBuiltin hP hb c k) (callBuiltin_inside setup b c k) m₁).mono
        (fun v n h => ?_) fun _ _ h => h
      rw [h.2]
      exact h.1.stands m₁.calls
    · exact refuse m₁
  · next f _ => exact ensures_bind (ensures_callFunction f f.name 0 c k m₁)
  · split
    · split
      · exact rfl
      · exact ensures_bind (ensures_callFunction _ _ 1 _ k m₁)
    · exact refuse m₁
  · next params body scope _ => exact ensures_bind (ensures_callLambda params body scope c k m₁)
  · next name methods a _ => exact ensures_bind (ensures_construct a name methods c k m₁)
  · exact refuse m₁

end Calls

section Step

variable {a b : Awaits} {k : Context a} {base : List Activation}

theorem sites_of_isBody (h : Hole a b) (hb : h.isBody = true) : ∃ s, h.sites = [s] := by
  cases h with
  | body name loc => exact ⟨_, rfl⟩
  | lambdaBody loc => exact ⟨_, rfl⟩
  | _ => cases hb

theorem sites_of_not_isBody (h : Hole a b) (hb : h.isBody = false) : h.sites = [] := by
  cases h with
  | body | lambdaBody => cases hb
  | _ => rfl

theorem leaves_of_not_isBody (h : Hole a b) (hb : h.isBody = false) (x : a.Input) :
    h.leaves x = false := by
  cases h with
  | body | lambdaBody => cases hb
  | _ => rfl

theorem ensures_fill (h : Hole a b) (x : a.Input) (l : Context b) {m : Machine σ} {c : Awaits}
    {k : Context c} {opened : List Activation} {sites : List Site} (ho : k.Over l sites)
    (he : opened.map Activation.site = h.sites ++ sites) (hm : m.calls = opened ++ base) :
    Ensures (react setup h x l) m
      (fun r n => ∃ calls, Stacked k base l calls ∧ r.Stands l calls n.calls)
      (fun _ n => Stacked k base (Control.move (.give x (.fill h l))).remainder.2 n.calls) := by
  have stays {calls : List Activation} (hc : calls = m.calls) : Stacked k base (.fill h l) calls :=
    ⟨opened, he ▸ .fill h ho, hc.trans hm⟩
  by_cases hb : h.isBody = true
  · -- the innermost call is that of the body
    obtain ⟨s, hs⟩ := sites_of_isBody h hb
    rw [hs] at he
    obtain ⟨act, rest, rfl, -, hrest⟩ := List.map_eq_cons_iff.mp he
    have outer : Stacked k base l (rest ++ base) := ⟨rest, hrest ▸ ho, rfl⟩
    refine (react_body h hb x l hm).mono (fun r n hr => ⟨_, outer, hr⟩) fun f n hn => ?_
    simp only [Control.remainder]
    split at hn
    · next hl =>
      rw [if_pos hl, hn]
      exact outer
    · next hl =>
      rw [if_neg hl]
      exact stays hn
  · rw [Bool.not_eq_true] at hb
    have outer : Stacked k base l m.calls := by
      rw [sites_of_not_isBody h hb] at he
      exact ⟨opened, he ▸ ho, hm⟩
    have quiet : Quiet (react setup h x l) :=
      closed_react (respects_calls setup).closed h x l fun e => by rw [hb] at e; cases e
    refine (ensures_of_quiet quiet (react_inside setup h x l hb) m).mono (fun r n hr => ?_)
      fun f n hn => ?_
    · exact ⟨m.calls, outer, hr.2 ▸ hr.1.stands m.calls⟩
    · have hl : ¬ h.leaves x = true := by simp [leaves_of_not_isBody h hb x]
      simp only [Control.remainder]
      rw [if_neg hl]
      exact stays hn

theorem ensures_giveTo (x : a.Input) (l : Context a) {c : Awaits} {k : Context c} {m : Machine σ}
    (hs : Stacked k base l m.calls) (hk : ¬ (Control.move (.give x l)).GivesTo k) :
    Ensures (giveTo setup x l) m (fun v n => v.Stands k base n.calls)
      (fun _ n => Stacked k base (Control.move (.give x l)).remainder.2 n.calls) := by
  have hP := (respects_calls setup).closed
  obtain ⟨opened, ho, hm⟩ := hs
  generalize he : opened.map Activation.site = sites at ho
  cases ho with
  | refl => exact absurd ⟨x, rfl⟩ hk
  | fill h ho =>
    refine ensures_bind ((ensures_fill h x _ ho he hm).mono ?_ fun _ _ h => h)
    rintro r n ⟨calls, hl, hr⟩
    exact (continueWith_stands hr).over hl
  | argument p ho =>
    simp only [giveTo]
    split
    · exact ⟨opened, he ▸ ho, hm⟩
    · exact ⟨opened, he ▸ .argument _ ho, hm⟩
  | sortKey s ho =>
    simp only [giveTo]
    split
    · refine quiet_bind (closed_endSort hP _ _ _ _) (fun v n hn => ?_) fun f n hn => ?_
      · exact ⟨opened, he ▸ ho, hn.trans hm⟩
      · exact ⟨opened, he ▸ .sortKey s ho, hn.trans hm⟩
    · exact ⟨opened, he ▸ .sortKey _ ho, hm⟩
  | mapItem s ho =>
    simp only [giveTo]
    split
    · refine quiet_bind (closed_endMap hP _ _ _) (fun v n hn => ?_) fun f n hn => ?_
      · exact ⟨opened, he ▸ ho, hn.trans hm⟩
      · exact ⟨opened, he ▸ .mapItem s ho, hn.trans hm⟩
    · exact ⟨opened, he ▸ .mapItem _ ho, hm⟩

theorem ensures_begin (t : Task) {m : Machine σ} (hs : Stacked k base t.context.2 m.calls) :
    Ensures (begin setup t) m (fun c n => Stacked k base c.context.2 n.calls)
      (fun _ n => Stacked k base t.context.2 n.calls) := by
  have quiet : Quiet (begin setup t) := closed_begin (respects_calls setup).closedBegin t
  refine (ensures_of_quiet quiet (begin_inner setup t) m).mono (fun c n hc => ?_) fun f n hn => ?_
  · exact hs.trans (hc.2 ▸ .of_over hc.1.over m.calls)
  · rwa [hn]

/-- A step that does not come back to a context leaves it the calls that it had. -/
theorem ensures_step (c : Control) {m : Machine σ} (hs : Stacked k base c.context.2 m.calls)
    (hk : ¬ c.GivesTo k) :
    Ensures (c.step setup) m (fun v n => v.Stands k base n.calls)
      (fun _ n => Stacked k base c.remainder.2 n.calls) := by
  cases c with
  | task t =>
    rw [Control.step, ← bind_pure_comp]
    exact ensures_bind (ensures_begin t hs)
  | move v =>
    cases v with
    | give x l => exact ensures_giveTo x l hs hk
    | call callee c l =>
      refine ensures_bind ((ensures_invoke callee c l m).mono (fun v n hv => ?_) fun f n hn => ?_)
      · cases v with
        | react r => exact (continueWith_stands hv).over hs
        | again callee c j => exact hs.trans hv
      · exact (congrArg (Stacked k base l) hn).mpr hs

end Step

end Act

theorem step_task (t : Task) (m : Machine σ) :
    (Control.task t).step setup m =
      match Act.begin setup t m with
      | .ok c n => .ok (.go c) n
      | .error f n => .error f n := by
  simp only [Control.step, Functor.map, EStateM.map]
  split <;> simp_all

/-- The control behind a pause. -/
def Resumption.control (setup : Setup σ) : Resumption → Act σ Control
  | .task t => Act.begin setup t
  | .waited name loc k => do
    Act.emit setup (.afterCall name .none loc)
    return .move (.give (a := .value) .none k)

/-- The controls that begin to evaluate what a context awaits. -/
inductive Begins : {a : Awaits} → Context a → Control → Prop where
  | expression (e : Expr) (scope : ScopeId) (k : Context .value) : Begins k (.task (.eval e scope k))
  | statement (s : Stmt) (scope : ScopeId) (k : Context .flow) : Begins k (.task (.exec s scope k))
  | block (s : Stmt) (ss : List Stmt) (scope : ScopeId) (k : Context .flow) :
      Begins k (.task (.exec s scope (.fill (.rest ss scope) k)))
  | call (callee : Value) (c : Call) (k : Context .value) : Begins k (.move (.call callee c k))

/-- An evaluation without an error: the steps of a machine up to the first that gives a context what it
awaits. Where it has to wait the host may change the world. -/
inductive Evaluates (setup : Setup σ) {a : Awaits} (k : Context a) :
    Control → Machine σ → a.Input → Machine σ → Prop where
  | done (x : a.Input) (m : Machine σ) : Evaluates setup k (.move (.give x k)) m x m
  | step {c c' : Control} {m n n' : Machine σ} {x : a.Input} (hk : ¬ c.GivesTo k)
      (hc : c.step setup m = .ok (.go c') n) (rest : Evaluates setup k c' n x n') :
      Evaluates setup k c m x n'
  | wait {c c' : Control} {m n n' n'' : Machine σ} {x : a.Input} {w : Wait σ} {r : Resumption}
      (hk : ¬ c.GivesTo k) (hc : c.step setup m = .ok (.pause w r) n) (world : World σ)
      (hr : r.control setup { n with world := world } = .ok c' n')
      (rest : Evaluates setup k c' n' x n'') : Evaluates setup k c m x n''

theorem ensures_control {a : Awaits} {k : Context a} {base : List Activation} (r : Resumption)
    {m : Machine σ} (hs : Stacked k base r.context.2 m.calls) :
    Act.Ensures (r.control setup) m (fun c n => Stacked k base c.context.2 n.calls)
      (fun _ n => Stacked k base r.context.2 n.calls) := by
  cases r with
  | task t => exact Act.ensures_begin t hs
  | waited name loc l =>
    have quiet := Act.closed_emit (Act.respects_calls setup).closed (.afterCall name .none loc)
    refine Act.quiet_bind quiet (fun _ n hn => ?_) fun f n hn => ?_
    · exact (congrArg (Stacked k base l) hn).mpr hs
    · exact (congrArg (Stacked k base l) hn).mpr hs

theorem Begins.context {a : Awaits} {k : Context a} {c : Control} (h : Begins k c) :
    k.Over c.context.2 [] := by
  cases h with
  | expression | statement | call => exact .refl
  | block s ss scope k => exact .fill _ .refl

theorem evaluates_stacked {a : Awaits} {k : Context a} {base : List Activation} {c : Control}
    {m n : Machine σ} {x : a.Input} (h : Evaluates setup k c m x n)
    (hs : Stacked k base c.context.2 m.calls) : n.calls = base := by
  induction h with
  | done x m => exact hs.eq_of_same
  | step hk hc _ ih => exact ih (Act.ensures_of_ok (Act.ensures_step _ hs hk) hc)
  | @wait c c' m n n' n'' x w r hk hc world hr _ ih =>
    have paused := Act.ensures_of_ok (Act.ensures_step _ hs hk) hc
    exact ih (Act.ensures_of_ok (ensures_control (m := { n with world := world }) r paused) hr)

/-- What is evaluated without an error leaves the calls in progress as it found them. -/
theorem evaluates_calls {a : Awaits} {k : Context a} {c : Control} {m n : Machine σ} {x : a.Input}
    (hb : Begins k c) (h : Evaluates setup k c m x n) : n.calls = m.calls :=
  evaluates_stacked h (.of_over hb.context m.calls)

end LoopScript
