import LoopScript.Proofs.Machine.Inner

/-!
A step of a machine keeps its calls in progress in line with the context of its control.
-/

namespace LoopScript

variable {σ : Type}

/-- Whether what fills a hole ends the call of which the hole is the body. -/
def Hole.leaves : {a b : Awaits} → Hole a b → a.Input → Bool
  | _, _, .body .., .normal => true
  | _, _, .body .., .returned _ => true
  | _, _, .lambdaBody _, _ => true
  | _, _, _, _ => false

namespace Control

/-- The context of which the calls are still in progress when a control fails. -/
def remainder : Control → (a : Awaits) × Context a
  | .move (.give (a := a) x (.fill (b := b) h k)) => if h.leaves x then ⟨b, k⟩ else ⟨a, .fill h k⟩
  | c => c.context

def GivesTo {a : Awaits} (k : Context a) (c : Control) : Prop :=
  ∃ x, c = .move (.give x k)

end Control

/-- What a hole gives way to stands inside the context around it, with no call between. -/
def Reaction.Inside {b : Awaits} (k : Context b) : Reaction σ b → Prop
  | .give _ => True
  | .start t => k.Over t.context.2 []
  | .pause _ r => k.Over r.context.2 []

def Reaction.Stands {b : Awaits} (k : Context b) (calls : List Activation) (r : Reaction σ b)
    (calls' : List Activation) : Prop :=
  match r with
  | .give _ => calls' = calls
  | .start t => Stacked k calls t.context.2 calls'
  | .pause _ r => Stacked k calls r.context.2 calls'

def Invocation.Inside (k : Context .value) : Invocation σ → Prop
  | .react r => r.Inside k
  | .again _ _ l => k.Over l []

def Invocation.Stands (k : Context .value) (calls : List Activation) (v : Invocation σ)
    (calls' : List Activation) : Prop :=
  match v with
  | .react r => r.Stands k calls calls'
  | .again _ _ l => Stacked k calls l calls'

def Next.Stands {a : Awaits} (k : Context a) (calls : List Activation) (v : Next σ)
    (calls' : List Activation) : Prop :=
  match v with
  | .go c => Stacked k calls c.context.2 calls'
  | .pause _ r => Stacked k calls r.context.2 calls'
  | .finished _ => False

theorem Reaction.Inner.inside {b : Awaits} {k : Context b} {r : Reaction σ b} (h : r.Inner k) :
    r.Inside k := by
  cases r with
  | give x => trivial
  | start t => exact h.over
  | pause w r => exact h.elim

theorem Reaction.Inside.stands {b : Awaits} {k : Context b} {r : Reaction σ b} (h : r.Inside k)
    (calls : List Activation) : r.Stands k calls calls := by
  cases r with
  | give x => rfl
  | start t => exact .of_over h calls
  | pause w r => exact .of_over h calls

theorem Invocation.Inside.stands {k : Context .value} {v : Invocation σ} (h : v.Inside k)
    (calls : List Activation) : v.Stands k calls calls := by
  cases v with
  | react r => exact Reaction.Inside.stands h calls
  | again callee c l => exact .of_over h calls

theorem Next.Stands.over {a b : Awaits} {k : Context a} {l : Context b} {v : Next σ}
    {calls calls' calls'' : List Activation} (h : v.Stands l calls' calls'')
    (hk : Stacked k calls l calls') : v.Stands k calls calls'' := by
  cases v with
  | go c => exact hk.trans h
  | pause w r => exact hk.trans h
  | finished f => exact h

namespace Act

theorem continueWith_stands {b : Awaits} {k : Context b} {r : Reaction σ b}
    {calls calls' : List Activation} (h : r.Stands k calls calls') :
    (continueWith k r).Stands k calls calls' := by
  cases r with
  | give x => exact h ▸ Stacked.refl k calls
  | start t => exact h
  | pause w r => exact h

section Inside

variable (setup : Setup σ)

theorem settle_inside (name : String) (loc : Location) (k : Context .value) (r : Reply σ) :
    Yields (settle setup name loc k r) (·.Inside k) := by
  cases r with
  | fault f => exact yields_throw f
  | wait w => exact yields_bind fun _ => yields_pure .refl
  | value v =>
    simp only [settle]
    split
    · iterate 2 refine yields_bind fun _ => ?_
      exact yields_pure trivial
    · iterate 2 refine yields_bind fun _ => ?_
      exact yields_pure trivial

theorem startSort_inside (c : Call) (k : Context .value) :
    Yields (startSort setup c k) (·.Inside k) := by
  unfold startSort
  split
  · exact yields_throw _
  · iterate 4 refine yields_bind fun _ => ?_
    split
    · exact yields_pure (.sortKey _ .refl)
    · exact yields_bind fun _ => yields_pure trivial

theorem startMap_inside (name : String) (c : Call) (k : Context .value) :
    Yields (startMap setup name c k) (·.Inside k) := by
  unfold startMap
  split
  · refine yields_bind fun items => ?_
    split
    · exact yields_bind fun _ => yields_pure trivial
    · exact yields_pure (.mapItem _ .refl)
  · exact yields_throw _

theorem callBuiltin_inside (b : Builtin σ) (c : Call) (k : Context .value) :
    Yields (callBuiltin setup b c k) (·.Inside k) := by
  unfold callBuiltin
  iterate 2 refine yields_bind fun _ => ?_
  split
  · exact startSort_inside setup c k
  · refine yields_bind fun r => ?_
    exact yields_of_bind (settle_inside setup _ _ k r) fun _ h => yields_pure h
  · refine yields_bind fun r => ?_
    exact yields_of_bind (settle_inside setup _ _ k _) fun _ h => yields_pure h
  · split
    · exact yields_throw _
    · exact yields_pure (.fill _ .refl)
  · exact startMap_inside setup _ c k

theorem forwarded_inside (name : String) (loc : Location) (x : Value) (k : Context .value) :
    Yields (react setup (.forwarded name loc) x k) (·.Inside k) := by
  simp only [react]
  split
  · exact yields_bind fun r => settle_inside setup name loc k r
  · exact yields_pure trivial

theorem react_inside {a b : Awaits} (h : Hole a b) (x : a.Input) (k : Context b)
    (hb : h.isBody = false) : Yields (react setup h x k) (·.Inside k) := by
  cases hh : h.endsCall with
  | false => exact fun m r n e => (react_inner setup h x k hh m r n e).inside
  | true =>
    cases h with
    | body | lambdaBody => cases hb
    | forwarded name loc => exact forwarded_inside setup name loc x k
    | _ => cases hh

end Inside

section Stands

variable {setup : Setup σ}

theorem respects_calls (setup : Setup σ) : setup.Respects fun m n => n.calls = m.calls where
  refl _ := rfl
  trans h₁ h₂ := h₂.trans h₁
  world _ _ _ := rfl
  current _ _ := rfl
  forced _ _ := rfl
  record _ _ := rfl

abbrev Quiet {α : Type} (x : Act σ α) : Prop := Keeps (fun m n => n.calls = m.calls) x

theorem ensures_of_quiet {α : Type} {x : Act σ α} (hx : Quiet x) {P : α → Prop} (hp : Yields x P)
    (m : Machine σ) : Ensures x m (fun a n => P a ∧ n.calls = m.calls)
      (fun _ n => n.calls = m.calls) := by
  unfold Ensures
  split
  · next e => exact ⟨hp _ _ _ e, hx.ok e⟩
  · next e => exact hx.error e

theorem quiet_bind {α β : Type} {x : Act σ α} {f : α → Act σ β} {m : Machine σ}
    {P : β → Machine σ → Prop} {E : Fault → Machine σ → Prop} (hx : Quiet x)
    (hf : ∀ a n, n.calls = m.calls → Ensures (f a) n P E)
    (he : ∀ f n, n.calls = m.calls → E f n) : Ensures (x >>= f) m P E :=
  ensures_bind ((hx m).mono hf he)

theorem ensures_enter (name : String) (scope : ScopeId) (loc : Location) (m : Machine σ) :
    Ensures (enter name scope loc) m
      (fun _ n => ∃ a : Activation, a.site = (name, some loc) ∧ n.calls = a :: m.calls)
      (fun _ n => n.calls = m.calls) := by
  apply ensures_get
  by_cases h : callLimit < m.calls.length
  · rw [if_pos h]
    exact rfl
  · rw [if_neg h]
    exact ⟨_, rfl, rfl⟩

theorem ensures_exit {a : Activation} {calls : List Activation} {m : Machine σ}
    (h : m.calls = a :: calls) :
    Ensures (exit (σ := σ)) m (fun _ n => n.calls = calls) (fun _ _ => False) := by
  apply ensures_get
  rw [h]
  exact rfl

/-- To fill the body of a call closes the call, unless the body was left in a stray way. -/
theorem react_body {a b : Awaits} (h : Hole a b) (hb : h.isBody = true) (x : a.Input)
    (k : Context b) {act : Activation} {calls : List Activation} {m : Machine σ}
    (hm : m.calls = act :: calls) :
    Ensures (react setup h x k) m (fun r n => r.Stands k calls n.calls)
      (fun _ n => n.calls = if h.leaves x then calls else m.calls) := by
  have hP := (respects_calls setup).closed
  cases h with
  | body name loc =>
    have close (v : Value) (n : Machine σ) (hn : n.calls = calls) :
        Ensures (do
          emit setup (.afterCall name v loc)
          return Reaction.give (σ := σ) (b := .value) v) n
          (fun r n => r.Stands k calls n.calls) (fun _ n => n.calls = calls) :=
      quiet_bind (closed_emit hP _) (fun _ n' h => h.trans hn) fun _ n' h => h.trans hn
    cases x with
    | broken | continued => exact rfl
    | normal | returned v =>
      refine ensures_bind (ensures_bind ?_)
      exact (ensures_exit hm).mono (fun _ n hn => close _ n hn) fun _ _ hf => hf.elim
  | lambdaBody loc =>
    refine ensures_bind ?_
    refine (ensures_exit hm).mono (fun _ n hn => ?_) fun _ _ hf => hf.elim
    exact quiet_bind (closed_emit hP _) (fun _ n' h => h.trans hn) fun _ n' h => h.trans hn
  | _ => cases hb

end Stands

end Act

end LoopScript
