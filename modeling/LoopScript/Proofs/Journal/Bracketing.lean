import LoopScript.Proofs.Journal.Calls
import LoopScript.Proofs.Table

/-!
Every step keeps the events of calls in line with the context. The calls that are open among the
events are those that end before the context is left, and a program pauses in the call of a function
of the host or the language.
-/

namespace LoopScript

variable {σ : Type}

/-- Every function goes by the name under which it is registered; those of the language have their
own. -/
def Services.Named (s : Services σ) : Prop :=
  ∀ e ∈ s.builtins, e.2.name = e.1 ∧ ∀ f, e.2.action = .core f → e.2.name = f.name

theorem Services.Named.addBuiltin {s t : Services σ} (h : s.Named) {o : Offer σ}
    (ho : ∀ f, o.action = .core f → o.name = f.name) (e : s.addBuiltin o = .ok t) : t.Named := by
  unfold Services.addBuiltin at e
  repeat' split at e
  all_goals cases e
  intro d hd
  rcases Table.mem_put hd with hd | rfl
  · exact h d hd
  · exact ⟨rfl, ho⟩

/-- A function that its own name stands for. -/
structure Setup.Knows (setup : Setup σ) (b : Builtin σ) : Prop where
  known : setup.builtin? b.name = some b
  core : ∀ f, b.action = .core f → b.name = f.name

theorem Services.Named.knows {setup : Setup σ} (h : setup.services.Named) {name : String}
    {b : Builtin σ} (hb : setup.builtin? name = some b) : setup.Knows b := by
  rcases Option.or_eq_some_iff.mp hb with hc | ⟨-, hs⟩
  · obtain ⟨f, -, hf⟩ := List.mem_map.mp (Table.mem_of_get? hc)
    cases hf
    exact ⟨hb, fun g hg => by cases hg; rfl⟩
  · obtain ⟨hn, hcore⟩ := h _ (Table.mem_of_get? hs)
    exact ⟨by rw [show b.name = name from hn, hb], hcore⟩

/-- The calls that close before a context is left, innermost first. -/
inductive Context.Closes (setup : Setup σ) : {a : Awaits} → Context a → List Site → Prop where
  | program : Closes setup .program []
  | fill {a b : Awaits} {h : Hole a b} {k : Context b} {sites : List Site}
      (hh : h.endsCall = false) (hk : Closes setup k sites) : Closes setup (.fill h k) sites
  | body (name : String) (loc : Location) {k : Context .value} {sites : List Site}
      (hk : Closes setup k sites) :
      Closes setup (.fill (.body name loc) k) ((name, some loc) :: sites)
  | lambdaBody (loc : Location) {k : Context .value} {sites : List Site}
      (hk : Closes setup k sites) :
      Closes setup (.fill (.lambdaBody loc) k) (("<lambda>", some loc) :: sites)
  | forwarded {b : Builtin σ} (hb : setup.Knows b)
      {finish : Value → Location → World σ → Reply σ × World σ} (hf : b.action = .forward finish)
      (loc : Location) {k : Context .value} {sites : List Site} (hk : Closes setup k sites) :
      Closes setup (.fill (.forwarded b.name loc) k) ((b.name, some loc) :: sites)
  | argument (p : PendingCall) {k : Context .value} {sites : List Site}
      (hk : Closes setup k sites) : Closes setup (.argument p k) sites
  | sortKey (s : Sorting) {k : Context .value} {sites : List Site} (hk : Closes setup k sites) :
      Closes setup (.sortKey s k) ((CoreFunction.sorted.name, some s.loc) :: sites)
  | mapItem (m : Mapping) {k : Context .value} {sites : List Site} (hk : Closes setup k sites) :
      Closes setup (.mapItem m k) ((m.name, some m.loc) :: sites)

theorem Context.Inner.closes {setup : Setup σ} {a b : Awaits} {k : Context a} {l : Context b}
    {sites : List Site} (h : k.Inner l) (hk : k.Closes setup sites) : l.Closes setup sites := by
  induction h with
  | refl => exact hk
  | fill hh _ ih => exact .fill hh ih
  | argument p _ ih => exact .argument p ih

namespace CallEvent

/-- Events of a run that has gone on from some of them: these calls are open, and the program has
paused for these waits. -/
structure Reach (base : List (CallEvent σ)) (ws : List (Wait σ)) (sites : List Site)
    (events : List (CallEvent σ)) : Prop where
  grown : base <+: events
  calls : Open sites events
  paused : waits events = ws

variable {base events : List (CallEvent σ)} {ws : List (Wait σ)} {s : Site} {sites : List Site}

theorem Reach.opened (h : Reach base ws sites events) (s : Site) :
    Reach base ws (s :: sites) (events ++ [.opened s]) where
  grown := h.grown.trans (List.prefix_append _ _)
  calls := h.calls.opened s
  paused := by rw [waits_append, h.paused]; exact List.append_nil ws

theorem Reach.closed (h : Reach base ws (s :: sites) events) :
    Reach base ws sites (events ++ [.closed s]) where
  grown := h.grown.trans (List.prefix_append _ _)
  calls := h.calls.closed
  paused := by rw [waits_append, h.paused]; exact List.append_nil ws

end CallEvent

open CallEvent (Reach)

section Steps

variable (setup : Setup σ) (base : List (CallEvent σ)) (ws : List (Wait σ))

/-- How a program pauses: in the call of a function of the host or the language, and the last event
is that it does. -/
def Resumption.Reach (r : Resumption) (w : Wait (Watched σ)) (events : List (CallEvent σ)) : Prop :=
  ∃ b loc k sites before, setup.Knows b ∧ r = .waited b.name loc k ∧ k.Closes setup sites ∧
    CallEvent.Reach base ws ((b.name, some loc) :: sites) before ∧
    events = before ++ [.paused w.unwatched]

def Next.Reach (v : Next (Watched σ)) (m : Machine (Watched σ)) : Prop :=
  match v with
  | .go c => ∃ sites, c.context.2.Closes setup sites ∧ CallEvent.Reach base ws sites m.callEvents
  | .pause w r => r.Reach setup base ws w m.callEvents
  | .finished _ => CallEvent.Reach base ws [] m.callEvents

def Invocation.Reach (k : Context .value) (v : Invocation (Watched σ)) (m : Machine (Watched σ)) :
    Prop :=
  match v with
  | .react r => (Act.continueWith k r).Reach setup base ws m
  | .again callee c l => (Next.go (.move (.call callee c l))).Reach setup base ws m

/-- An action that leads somewhere, or fails, while the events of calls go on from some of them. -/
abbrev Act.Reaches {α : Type} (x : Act (Watched σ) α) (m : Machine (Watched σ))
    (P : α → Machine (Watched σ) → Prop) : Prop :=
  Ensures x m P fun _ n => ∃ sites, CallEvent.Reach base ws sites n.callEvents

end Steps

namespace Act

variable {setup : Setup σ} {base : List (CallEvent σ)} {ws : List (Wait σ)} {sites : List Site}
  {m : Machine (Watched σ)} {α β : Type}

theorem reaches_bind {x : Act (Watched σ) α} {f : α → Act (Watched σ) β}
    {P : β → Machine (Watched σ) → Prop} (hx : Hushed x) (hm : Reach base ws sites m.callEvents)
    (hf : ∀ a n, Reach base ws sites n.callEvents → Reaches base ws (f a) n P) :
    Reaches base ws (x >>= f) m P := by
  refine ensures_bind ((hx m).mono ?_ ?_)
  · intro a n hn
    exact hf a n (hn ▸ hm)
  · intro f n hn
    exact ⟨sites, hn ▸ hm⟩

theorem reaches_yielding {x : Act (Watched σ) α} {P : α → Prop} {Q : α → Machine (Watched σ) → Prop}
    (hx : Hushed x) (hy : Yields x P) (hm : Reach base ws sites m.callEvents)
    (hq : ∀ a n, P a → Reach base ws sites n.callEvents → Q a n) : Reaches base ws x m Q := by
  unfold Reaches Ensures
  split
  · next e => exact hq _ _ (hy _ _ _ e) (hx.ok e ▸ hm)
  · next e => exact ⟨sites, hx.error e ▸ hm⟩

theorem reaches_telling {e : Event (Watched σ)} {event : CallEvent σ} {sites' : List Site}
    {f : Unit → Act (Watched σ) β} {P : β → Machine (Watched σ) → Prop}
    (he : e.unwatched.call? = some event) (hm : Reach base ws sites' (m.callEvents ++ [event]))
    (hf : ∀ n, Reach base ws sites' n.callEvents → Reaches base ws (f ()) n P) :
    Reaches base ws (emit setup.watched e >>= f) m P := by
  have told := ensures_emit setup e m
  rw [he, Option.toList_some] at told
  refine ensures_bind (told.mono ?_ ?_)
  · intro _ n hn
    exact hf n (hn ▸ hm)
  · rintro f n ⟨hn, -⟩
    exact ⟨sites', hn ▸ hm⟩

theorem reaches_opening (name : String) (args : List Value) (loc : Location)
    {f : Unit → Act (Watched σ) β} {P : β → Machine (Watched σ) → Prop}
    (hm : Reach base ws sites m.callEvents)
    (hf : ∀ n, Reach base ws ((name, some loc) :: sites) n.callEvents →
      Reaches base ws (f ()) n P) :
    Reaches base ws (emit setup.watched (.beforeCall name args loc) >>= f) m P :=
  reaches_telling rfl (hm.opened _) hf

theorem reaches_closing {name : String} (v : Value) {loc : Location}
    {f : Unit → Act (Watched σ) β} {P : β → Machine (Watched σ) → Prop}
    (hm : Reach base ws ((name, some loc) :: sites) m.callEvents)
    (hf : ∀ n, Reach base ws sites n.callEvents → Reaches base ws (f ()) n P) :
    Reaches base ws (emit setup.watched (.afterCall name v loc) >>= f) m P :=
  reaches_telling rfl hm.closed hf

theorem reaches_give {k : Context .value} (hk : k.Closes setup sites) (v : Value)
    (hm : Reach base ws sites m.callEvents) :
    (continueWith k (.give v)).Reach setup base ws m :=
  ⟨sites, hk, hm⟩

section Calls

variable {k : Context .value} (hk : k.Closes setup sites)

include hk

theorem reaches_callFunction (f : Closure) (label : String) (implicit : Nat) (c : Call)
    (hm : Reach base ws sites m.callEvents) :
    Reaches base ws (callFunction setup.watched f label implicit c k) m
      fun t n => (continueWith k (bodyOf t)).Reach setup base ws n := by
  have hP := (respects_callEvents setup).closedCalls
  refine reaches_bind (closed_placed hP.toClosed _ _) hm fun bound m₁ h₁ => ?_
  refine reaches_bind (closed_openScope hP.toClosed _ _) h₁ fun scope m₂ h₂ => ?_
  refine reaches_opening f.name c.args c.location h₂ fun m₃ h₃ => ?_
  refine reaches_bind (hP.enter _ _ _) h₃ fun _ m₄ h₄ => ?_
  cases f.body with
  | nil =>
    refine reaches_bind hP.exit h₄ fun _ m₅ h₅ => ?_
    exact reaches_closing .none h₅ fun n hn => reaches_give hk .none hn
  | cons s ss => exact ⟨_, .fill rfl (.body f.name c.location hk), h₄⟩

theorem reaches_callLambda (params : List String) (body : Expr) (scope : ScopeId) (c : Call)
    (hm : Reach base ws sites m.callEvents) :
    Reaches base ws (callLambda setup.watched params body scope c k) m
      fun t n => (continueWith k (.start t)).Reach setup base ws n := by
  have hP := (respects_callEvents setup).closedCalls
  refine reaches_bind (closed_placed hP.toClosed _ _) hm fun bound m₁ h₁ => ?_
  refine reaches_bind (closed_openScope hP.toClosed _ _) h₁ fun scope m₂ h₂ => ?_
  refine reaches_opening "<lambda>" c.args c.location h₂ fun m₃ h₃ => ?_
  refine reaches_bind (hP.enter _ _ _) h₃ fun _ m₄ h₄ => ?_
  exact ⟨_, .lambdaBody c.location hk, h₄⟩

theorem reaches_construct (cls : Addr) (name : String) (methods : Table String Addr) (c : Call)
    (hm : Reach base ws sites m.callEvents) :
    Reaches base ws (construct setup.watched cls name methods c k) m
      fun r n => (continueWith k r).Reach setup base ws n := by
  have hP := (respects_callEvents setup).closed
  refine reaches_bind (closed_alloc hP _) hm fun object m₁ h₁ => ?_
  refine reaches_bind hP.store h₁ fun s m₂ h₂ => ?_
  split
  · next f _ =>
    split
    · exact ⟨sites, h₂⟩
    · refine ensures_bind ((reaches_callFunction (.fill rfl hk) f name 1 _ h₂).mono ?_
        fun _ _ h => h)
      intro t n ht
      cases t with
      | some t => exact ht
      | none =>
        obtain ⟨sites', hs, hn⟩ := ht
        cases hs with
        | fill _ hk' => exact ⟨sites', hk', hn⟩
  · split
    · exact reaches_give hk object h₂
    · exact ⟨sites, h₂⟩

end Calls

section Builtins

variable {k : Context .value}

theorem reaches_endSort {loc : Location} (reversed : Bool) (keys items : List Value)
    (hm : Reach base ws ((CoreFunction.sorted.name, some loc) :: sites) m.callEvents) :
    Reaches base ws (endSort setup.watched loc reversed keys items) m
      fun _ n => Reach base ws sites n.callEvents := by
  have hP := (respects_callEvents setup).closed
  refine reaches_bind (closed_reading hP _ _) hm fun sorted m₁ h₁ => ?_
  refine reaches_bind (closed_alloc hP _) h₁ fun v m₂ h₂ => ?_
  exact reaches_closing v h₂ fun _ hn => hn

theorem reaches_endMap {name : String} {loc : Location} (results : List Value)
    (hm : Reach base ws ((name, some loc) :: sites) m.callEvents) :
    Reaches base ws (endMap setup.watched name loc results) m
      fun _ n => Reach base ws sites n.callEvents := by
  have hP := (respects_callEvents setup).closed
  refine reaches_bind (closed_alloc hP _) hm fun v m₁ h₁ => ?_
  exact reaches_closing v h₁ fun _ hn => hn

variable (hk : k.Closes setup sites)

include hk

theorem reaches_startSort (c : Call)
    (hm : Reach base ws ((CoreFunction.sorted.name, some c.location) :: sites) m.callEvents) :
    Reaches base ws (startSort setup.watched c k) m (Invocation.Reach setup base ws k) := by
  have hP := (respects_callEvents setup).closed
  unfold startSort
  split
  · exact ⟨_, hm⟩
  · refine reaches_bind (closed_onlyOnce hP c _ _ _) hm fun _ m₁ h₁ => ?_
    refine reaches_bind (closed_onlyOnce hP c _ _ _) h₁ fun _ m₂ h₂ => ?_
    refine reaches_bind (closed_reading hP _ _) h₂ fun items m₃ h₃ => ?_
    refine reaches_bind (closed_isTruthy hP _) h₃ fun reversed m₄ h₄ => ?_
    split
    · exact ⟨_, .sortKey ⟨c.location, _, _, _, _, _⟩ hk, h₄⟩
    · refine ensures_bind ((reaches_endSort reversed _ _ h₄).mono ?_ fun _ _ h => h)
      exact fun v n hn => reaches_give hk v hn

theorem reaches_startMap (name : String) (c : Call)
    (hm : Reach base ws ((name, some c.location) :: sites) m.callEvents) :
    Reaches base ws (startMap setup.watched name c k) m (Invocation.Reach setup base ws k) := by
  have hP := (respects_callEvents setup).closed
  unfold startMap
  split
  · refine reaches_bind (closed_reading hP _ _) hm fun items m₁ h₁ => ?_
    split
    · refine ensures_bind ((reaches_endMap _ h₁).mono ?_ fun _ _ h => h)
      exact fun v n hn => reaches_give hk v hn
    · exact ⟨_, .mapItem ⟨name, c.location, _, _, _⟩ hk, h₁⟩
  · exact ⟨_, hm⟩

variable (mild : ∀ f, ¬ setup.services.Raises .onPause f)

include mild

/-- A call is settled by its end, unless the program has to wait before. -/
theorem reaches_settle {b : Builtin σ} (hb : setup.Knows b) (loc : Location)
    (r : Reply (Watched σ)) (hm : Reach base ws ((b.name, some loc) :: sites) m.callEvents) :
    Reaches base ws (settle setup.watched b.name loc k r) m
      fun r n => (continueWith k r).Reach setup base ws n := by
  have hP := (respects_callEvents setup).closed
  cases r with
  | fault f => exact ⟨_, hm⟩
  | wait w =>
    refine ensures_bind ((ensures_emit setup (.onPause w) m).mono ?_ ?_)
    · intro _ n hn
      exact ⟨b, loc, k, sites, _, hb, rfl, hk, hm, hn⟩
    · rintro f n ⟨-, g, hg⟩
      exact absurd hg (mild g)
  | value v =>
    simp only [settle]
    split
    · refine reaches_bind (closed_map hP _ (closed_placed hP _ _)) hm fun v m₁ h₁ => ?_
      exact reaches_closing v h₁ fun _ hn => reaches_give hk v hn
    · exact reaches_closing _ hm fun _ hn => reaches_give hk _ hn

theorem reaches_callBuiltin {b : Builtin σ} (hb : setup.Knows b) (c : Call)
    (hm : Reach base ws sites m.callEvents) :
    Reaches base ws (callBuiltin setup.watched b.watched c k) m
      (Invocation.Reach setup base ws k) := by
  have hP := (respects_callEvents setup).closed
  refine reaches_bind (closed_placed hP _ _) hm fun _ m₁ h₁ => ?_
  refine reaches_opening b.name c.args c.location h₁ fun m₂ h₂ => ?_
  have answer (r : Reply (Watched σ)) (n : Machine (Watched σ))
      (hn : Reach base ws ((b.name, some c.location) :: sites) n.callEvents) :
      Reaches base ws (do return Invocation.react (← settle setup.watched b.name c.location k r)) n
        (Invocation.Reach setup base ws k) :=
    ensures_bind ((reaches_settle hk mild hb c.location r hn).mono (fun _ _ h => h) fun _ _ h => h)
  obtain ⟨name, least, most, suspends, doc, keywords, action⟩ := b
  cases action with
  | core f =>
    -- A sort tells its end under the name that it has in the language.
    have own : name = f.name := hb.core f rfl
    cases f with
    | sorted => exact reaches_startSort hk c (own ▸ h₂)
    | print | sleep | range | len | str | int | float | abs | min | max | sum =>
      exact reaches_bind (hushed_reply setup _ c) h₂ answer
  | host reply =>
    exact reaches_bind (hushed_ask (reply c)) h₂ fun r => answer _
  | forward finish =>
    obtain ⟨args, named, loc⟩ := c
    cases args with
    | nil => exact ⟨_, h₂⟩
    | cons f args => exact ⟨_, .forwarded hb rfl loc hk, h₂⟩
  | each => exact reaches_startMap hk name c h₂

end Builtins

section Steps

variable (named : setup.services.Named) (mild : ∀ f, ¬ setup.services.Raises .onPause f)

include mild

theorem reaches_forwarded {b : Builtin σ} (hb : setup.Knows b)
    {finish : Value → Location → World σ → Reply σ × World σ} (hf : b.action = .forward finish)
    (loc : Location) (x : Value) {k : Context .value} (hk : k.Closes setup sites)
    (hm : Reach base ws ((b.name, some loc) :: sites) m.callEvents) :
    Reaches base ws (react setup.watched (.forwarded b.name loc) x k) m
      fun r n => (continueWith k r).Reach setup base ws n := by
  simp only [react, builtin?_watched, hb.known]
  have settles (r : Reply (Watched σ)) (n : Machine (Watched σ))
      (hn : Reach base ws ((b.name, some loc) :: sites) n.callEvents) :=
    reaches_settle hk mild hb loc r hn
  obtain ⟨name, least, most, suspends, doc, keywords, action⟩ := b
  cases hf
  exact reaches_bind (hushed_ask (finish x loc)) hm settles

theorem reaches_react {a b : Awaits} (h : Hole a b) (x : a.Input) {k : Context b}
    (hk : (Context.fill h k).Closes setup sites) (hm : Reach base ws sites m.callEvents) :
    Reaches base ws (react setup.watched h x k) m
      fun r n => (continueWith k r).Reach setup base ws n := by
  have hP := (respects_callEvents setup).closedCalls
  cases hk with
  | fill hh hk =>
    refine reaches_yielding (hushed_react setup h x k hh) (react_inner _ h x k hh) hm ?_
    intro r n hr hn
    cases r with
    | give v => exact ⟨sites, hk, hn⟩
    | start t => exact ⟨sites, Context.Inner.closes hr hk, hn⟩
    | pause w r => exact hr.elim
  | body name loc hk =>
    refine reaches_bind (closed_leaveFunction hP.toClosed hP.exit x) hm fun v m₁ h₁ => ?_
    exact reaches_closing v h₁ fun _ hn => reaches_give hk v hn
  | lambdaBody loc hk =>
    refine reaches_bind hP.exit hm fun _ m₁ h₁ => ?_
    exact reaches_closing x h₁ fun _ hn => reaches_give hk x hn
  | forwarded hb hf loc hk => exact reaches_forwarded mild hb hf loc x hk hm

theorem reaches_giveTo {a : Awaits} (x : a.Input) {k : Context a} (hk : k.Closes setup sites)
    (hm : Reach base ws sites m.callEvents) :
    Reaches base ws (giveTo setup.watched x k) m (Next.Reach setup base ws) := by
  cases k with
  | program =>
    cases hk
    exact hm
  | fill h k =>
    exact ensures_bind ((reaches_react mild h x hk hm).mono (fun _ _ h => h) fun _ _ h => h)
  | argument p k =>
    cases hk with
    | argument _ hk =>
      simp only [giveTo]
      split
      · exact ⟨sites, hk, hm⟩
      · exact ⟨sites, .argument _ hk, hm⟩
  | sortKey s k =>
    cases hk with
    | sortKey _ hk =>
      simp only [giveTo]
      split
      · refine ensures_bind ((reaches_endSort _ _ _ hm).mono ?_ fun _ _ h => h)
        exact fun v n hn => reaches_give hk v hn
      · exact ⟨_, .sortKey _ hk, hm⟩
  | mapItem s k =>
    cases hk with
    | mapItem _ hk =>
      simp only [giveTo]
      split
      · refine ensures_bind ((reaches_endMap _ hm).mono ?_ fun _ _ h => h)
        exact fun v n hn => reaches_give hk v hn
      · exact ⟨_, .mapItem _ hk, hm⟩

include named

theorem reaches_invoke (callee : Value) (c : Call) {k : Context .value}
    (hk : k.Closes setup sites) (hm : Reach base ws sites m.callEvents) :
    Reaches base ws (invoke setup.watched callee c k) m (Invocation.Reach setup base ws k) := by
  have hP := (respects_callEvents setup).closed
  refine reaches_bind hP.store hm fun s m₁ h₁ => ?_
  have refused : Reaches base ws (notCallable callee c) m₁ (Invocation.Reach setup base ws k) :=
    reaches_yielding (closed_notCallable hP callee c) (P := fun _ => False)
      (yields_notCallable callee c) h₁ fun _ _ h => h.elim
  split
  · rw [builtin?_watched]
    cases hb : setup.builtin? _ with
    | none => exact refused
    | some b => exact reaches_callBuiltin hk mild (named.knows hb) c h₁
  · exact ensures_bind (reaches_callFunction hk _ _ _ c h₁)
  · split
    · split
      · exact ⟨sites, h₁⟩
      · exact ensures_bind (reaches_callFunction hk _ _ _ _ h₁)
    · exact refused
  · exact ensures_bind (reaches_callLambda hk _ _ _ c h₁)
  · exact ensures_bind (reaches_construct hk _ _ _ c h₁)
  · exact refused

theorem reaches_advance (v : Move) (hk : (Control.move v).context.2.Closes setup sites)
    (hm : Reach base ws sites m.callEvents) :
    Reaches base ws (advance setup.watched v) m (Next.Reach setup base ws) := by
  cases v with
  | give x k => exact reaches_giveTo mild x hk hm
  | call callee c k =>
    refine ensures_bind ((reaches_invoke named mild callee c hk hm).mono ?_ fun _ _ h => h)
    intro r n hr
    cases r with
    | react r => exact hr
    | again callee c l => exact hr

end Steps

theorem reaches_begin (t : Task) (hk : t.context.2.Closes setup sites)
    (hm : Reach base ws sites m.callEvents) :
    Reaches base ws (begin setup.watched t) m fun c n => (Next.go c).Reach setup base ws n :=
  reaches_yielding (hushed_begin setup t) (begin_inner _ t) hm fun _ _ hc hn =>
    ⟨sites, hc.closes hk, hn⟩

end Act

end LoopScript
