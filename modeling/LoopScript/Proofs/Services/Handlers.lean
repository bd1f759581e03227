import Mathlib.Data.List.Induction
import LoopScript.Proofs.Execution.Budget
import LoopScript.Proofs.Services.Provisions

/-!
Handlers at work. Whatever is registered in whichever order, an event is told to the handlers that are
registered for it, one after the other by priority and age, and a step to the rules that it is due for.
A run on such services is the run on services with one handler for each kind of event, which calls all
the others in turn.
-/

namespace LoopScript

variable {σ : Type}

namespace Provision

/-- The handler that is asked for, if the event is one there is. -/
def hook? : Provision σ → Option (Hook σ)
  | event name priority handle => (EventKind.ofName? name).map fun kind => ⟨kind, priority, handle⟩
  | _ => none

/-- The rule that is asked for, if it counts at least one step. -/
def rule? : Provision σ → Option (StepRule σ)
  | rule every handle => if 0 < every then some ⟨every.toNat, handle⟩ else none
  | _ => none

/-- Its handler or rule, if it has any, raises nothing. -/
def Calm : Provision σ → Prop
  | event _ _ handle => ∀ e w, (handle e w).1 = none
  | rule _ handle => ∀ c w, (handle c w).1 = none
  | _ => True

variable {r : Provision σ} {s t : Services σ}

theorem Granted.hooks (h : r.Granted s t) :
    t.hooks = r.hook?.toList.foldl (fun hooks h => Services.insertHook h hooks) s.hooks := by
  cases r with
  | event name priority handle =>
    obtain ⟨kind, known, rfl⟩ := h
    rw [hook?, EventKind.ofName?_eq_some_iff.mpr known]
    rfl
  | builtin o =>
    obtain ⟨b, -, rfl⟩ := h
    rfl
  | enum name members =>
    obtain ⟨named, -, rfl⟩ := h
    rfl
  | constant name v =>
    obtain rfl := h
    rfl
  | rule every handle =>
    obtain ⟨n, -, rfl⟩ := h
    rfl

theorem Granted.rules (h : r.Granted s t) (admissible : r.Admissible s) :
    t.rules = s.rules ++ r.rule?.toList := by
  cases r with
  | rule every handle =>
    obtain ⟨n, rfl, rfl⟩ := h
    rw [rule?, if_pos (by exact admissible)]
    rfl
  | event name priority handle =>
    obtain ⟨kind, -, rfl⟩ := h
    exact (List.append_nil _).symm
  | builtin o =>
    obtain ⟨b, -, rfl⟩ := h
    exact (List.append_nil _).symm
  | enum name members =>
    obtain ⟨named, -, rfl⟩ := h
    exact (List.append_nil _).symm
  | constant name v =>
    obtain rfl := h
    exact (List.append_nil _).symm

theorem asks_nothing (h : ¬ r.Admissible s) : r.hook? = none ∧ r.rule? = none := by
  cases r with
  | event name priority handle =>
    refine ⟨?_, rfl⟩
    rw [hook?, Option.map_eq_none_iff, Option.eq_none_iff_forall_ne_some]
    exact fun kind known => h ⟨kind, EventKind.ofName?_eq_some_iff.mp known⟩
  | rule every handle => exact ⟨rfl, if_neg h⟩
  | builtin | enum | constant => exact ⟨rfl, rfl⟩

end Provision

namespace Services

theorem after_hooks (s : Services σ) (rs : List (Provision σ)) : (s.after rs).hooks =
    (rs.filterMap Provision.hook?).foldl (fun hooks h => insertHook h hooks) s.hooks ∧
      (s.after rs).rules = s.rules ++ rs.filterMap Provision.rule? := by
  induction rs generalizing s with
  | nil => exact ⟨rfl, (List.append_nil _).symm⟩
  | cons r rs ih =>
    by_cases h : r.Admissible s
    · obtain ⟨t, ok, granted⟩ := Provision.perform_ok h
      simp only [after, ok]
      rw [(ih t).1, (ih t).2, granted.hooks, granted.rules h]
      cases hh : r.hook? <;> cases hr : r.rule? <;> simp [hh, hr]
    · obtain ⟨e, error⟩ := Provision.perform_error h
      obtain ⟨hook, rule⟩ := Provision.asks_nothing h
      simp only [after, error]
      rw [(ih s).1, (ih s).2, List.filterMap_cons, List.filterMap_cons, hook, rule]
      exact ⟨rfl, rfl⟩

end Services

namespace Hook

/-- Of two handlers, each with its place among all that were registered, the one that is called
first. -/
def Precedes (g h : Hook σ × Nat) : Prop :=
  h.1.priority < g.1.priority ∨ g.1.priority = h.1.priority ∧ g.2 < h.2

/-- Handlers with their places, in the order in which they are called. -/
structure Ordered (hooks : List (Hook σ)) (rows : List (Hook σ × Nat)) : Prop where
  all : rows.Perm hooks.zipIdx
  order : rows.Pairwise Precedes

theorem insertHook_split (h : Hook σ) (rows : List (Hook σ × Nat)) : ∃ above below,
    rows = above ++ below ∧
      Services.insertHook h (rows.map Prod.fst) = above.map Prod.fst ++ h :: below.map Prod.fst ∧
      (∀ g ∈ above, h.priority ≤ g.1.priority) ∧
      ∀ g ∈ below.head?, g.1.priority < h.priority := by
  induction rows with
  | nil => exact ⟨[], [], rfl, rfl, by simp, by simp⟩
  | cons g rows ih =>
    rw [List.map_cons, Services.insertHook]
    by_cases less : g.1.priority < h.priority
    · rw [if_pos less]
      exact ⟨[], g :: rows, rfl, rfl, by simp, by simpa using less⟩
    · obtain ⟨above, below, rfl, inserted, high, low⟩ := ih
      rw [if_neg less, inserted]
      refine ⟨g :: above, below, rfl, rfl, ?_, low⟩
      exact List.forall_mem_cons.mpr ⟨Int.not_lt.mp less, high⟩

theorem Ordered.insert {hooks : List (Hook σ)} {rows : List (Hook σ × Nat)}
    (h : Ordered hooks rows) (new : Hook σ) : ∃ rows', Ordered (hooks ++ [new]) rows' ∧
      Services.insertHook new (rows.map Prod.fst) = rows'.map Prod.fst := by
  obtain ⟨above, below, rfl, inserted, high, low⟩ := insertHook_split new rows
  have early : ∀ g ∈ above ++ below, g.2 < hooks.length := fun g hg =>
    (List.mem_zipIdx' (h.all.mem_iff.mp hg)).1
  obtain ⟨upper, lower, apart⟩ := List.pairwise_append.mp h.order
  have below_new : ∀ g ∈ below, g.1.priority < new.priority := by
    cases below with
    | nil => simp
    | cons b below =>
      have first : b.1.priority < new.priority := low b rfl
      refine List.forall_mem_cons.mpr ⟨first, fun g hg => ?_⟩
      have next := List.rel_of_pairwise_cons lower hg
      unfold Precedes at next
      omega
  refine ⟨above ++ (new, hooks.length) :: below, ⟨?_, ?_⟩, ?_⟩
  · rw [List.zipIdx_append]
    have moved : (above ++ (new, hooks.length) :: below).Perm
        (above ++ below ++ [(new, hooks.length)]) :=
      List.perm_middle.trans (List.perm_append_singleton _ _).symm
    simpa using moved.trans (h.all.append_right _)
  · refine List.pairwise_append.mpr ⟨upper, List.pairwise_cons.mpr ⟨?_, lower⟩, ?_⟩
    · exact fun g hg => .inl (below_new g hg)
    · intro g hg b hb
      rcases List.mem_cons.mp hb with rfl | hb
      · have old := early g (List.mem_append_left _ hg)
        have least := high g hg
        unfold Precedes
        dsimp only
        omega
      · exact apart g hg b hb
  · rw [inserted, List.map_append, List.map_cons]

theorem exists_ordered (hooks : List (Hook σ)) : ∃ rows, Ordered hooks rows ∧
    hooks.foldl (fun hooks h => Services.insertHook h hooks) [] = rows.map Prod.fst := by
  induction hooks using List.reverseRecOn with
  | nil => exact ⟨[], ⟨.refl _, .nil⟩, rfl⟩
  | append_singleton hooks new ih =>
    obtain ⟨rows, ordered, same⟩ := ih
    obtain ⟨rows', ordered', inserted⟩ := ordered.insert new
    exact ⟨rows', ordered', by rw [List.foldl_append, same, ← inserted]; rfl⟩

/-- What a world becomes when an event is told to handlers in turn. -/
def tell (e : Event σ) (hooks : List (Hook σ)) (w : World σ) : World σ :=
  hooks.foldl (fun w h => (h.handle e w).2) w

end Hook

/-- What a world becomes when a step is told to rules in turn. -/
def StepRule.tell (c : StepContext) (rules : List (StepRule σ)) (w : World σ) : World σ :=
  rules.foldl (fun w r => (r.handle c w).2) w

namespace Act

theorem callHooks_calm (e : Event σ) {hooks : List (Hook σ)}
    (calm : ∀ h ∈ hooks, ∀ e w, (h.handle e w).1 = none) :
    callHooks e hooks = onWorld fun w => ((), Hook.tell e hooks w) := by
  induction hooks with
  | nil => rfl
  | cons h hooks ih =>
    obtain ⟨here, rest⟩ := List.forall_mem_cons.mp calm
    funext m
    rw [callHooks, ih rest]
    have called : onWorld (h.handle e) m =
        .ok none { m with world := (h.handle e m.world).2 } := by
      rw [← here e m.world]
      rfl
    simp only [bind, EStateM.bind, called]
    rfl

theorem callRules_calm (c : StepContext) {rules : List (StepRule σ)}
    (calm : ∀ r ∈ rules, ∀ c w, (r.handle c w).1 = none) :
    callRules c rules =
      onWorld fun w => ((), StepRule.tell c (rules.filter fun r => r.every ∣ c.step) w) := by
  induction rules with
  | nil => rfl
  | cons r rules ih =>
    obtain ⟨here, rest⟩ := List.forall_mem_cons.mp calm
    rw [callRules, ih rest]
    by_cases due : r.every ∣ c.step
    · funext m
      have called : onWorld (r.handle c) m =
          .ok none { m with world := (r.handle c m.world).2 } := by
        rw [← here c m.world]
        rfl
      rw [if_pos (Nat.mod_eq_zero_of_dvd due), List.filter_cons_of_pos (by simpa using due)]
      simp only [bind, EStateM.bind, called]
      rfl
    · rw [if_neg (mt Nat.dvd_of_mod_eq_zero due), List.filter_cons_of_neg (by simpa using due)]

end Act

/-- Setups between which no run can tell, as they provide the same functions and fire in the same way. -/
structure Setup.Coincides (s t : Setup σ) : Prop where
  builtin? : s.builtin? = t.builtin?
  print : s.print = t.print
  budget : s.budget = t.budget
  emit : Act.emit s = Act.emit t
  logStep : Act.logStep s = Act.logStep t

section Coinciding

variable {s t : Setup σ} (h : s.Coincides t)

include h

namespace Act

theorem begin_coincides : begin s = begin t := by
  funext task
  cases task with
  | exec q scope k => simp only [begin, h.emit, h.logStep]
  | eval e scope k => rfl

theorem settle_coincides : settle s = settle t := by
  funext name loc k r
  cases r with
  | fault f => rfl
  | wait w => simp only [settle, h.emit]
  | value v => simp only [settle, h.emit]

theorem reply_coincides : CoreFunction.reply s = CoreFunction.reply t := by
  funext f c
  cases f with
  | print => simp only [CoreFunction.reply, h.print]
  | sleep | range | len | str | int | float | abs | min | max | sum | sorted => rfl

theorem react_coincides {a b : Awaits} (hole : Hole a b) (x : a.Input) (k : Context b) :
    react s hole x k = react t hole x k := by
  unfold react
  simp only [h.emit, h.builtin?, settle_coincides h]

theorem callFunction_coincides : callFunction (σ := σ) s = callFunction t := by
  funext f label implicit c k
  simp only [callFunction, h.emit]

theorem callLambda_coincides : callLambda (σ := σ) s = callLambda t := by
  funext params body scope c k
  simp only [callLambda, h.emit]

theorem construct_coincides : construct (σ := σ) s = construct t := by
  funext cls name methods c k
  simp only [construct, callFunction_coincides h]

theorem endSort_coincides : endSort (σ := σ) s = endSort t := by
  funext loc reversed keys items
  simp only [endSort, h.emit]

theorem startSort_coincides : startSort (σ := σ) s = startSort t := by
  funext c k
  simp only [startSort, endSort_coincides h]

theorem endMap_coincides : endMap (σ := σ) s = endMap t := by
  funext name loc results
  simp only [endMap, h.emit]

theorem startMap_coincides : startMap (σ := σ) s = startMap t := by
  funext name c k
  simp only [startMap, endMap_coincides h]

theorem callBuiltin_coincides : callBuiltin s = callBuiltin t := by
  funext b c k
  simp only [callBuiltin, h.emit, startSort_coincides h, startMap_coincides h, settle_coincides h,
    reply_coincides h]

theorem invoke_coincides : invoke s = invoke t := by
  funext callee c k
  simp only [invoke, h.builtin?, callBuiltin_coincides h, callFunction_coincides h,
    callLambda_coincides h, construct_coincides h]

theorem giveTo_coincides {a : Awaits} (x : a.Input) (k : Context a) :
    giveTo s x k = giveTo t x k := by
  cases k with
  | program | argument => rfl
  | fill hole k => simp only [giveTo, react_coincides h]
  | sortKey o k => simp only [giveTo, endSort_coincides h]
  | mapItem o k => simp only [giveTo, endMap_coincides h]

theorem advance_coincides : advance s = advance t := by
  funext v
  cases v with
  | give x k => exact giveTo_coincides h x k
  | call callee c k => simp only [advance, invoke_coincides h]

end Act

theorem run_coincides (count : Nat) (c : Control) (m : Machine σ) :
    run s count c m = run t count c m := by
  fun_induction run s count c m with
  | case1 count m q hb c m' e ih =>
    rw [run, dif_pos (by rw [← h.budget]; exact hb), ← Act.begin_coincides h, e]
    exact ih
  | case2 count m q hb f m' e =>
    rw [run, dif_pos (by rw [← h.budget]; exact hb), ← Act.begin_coincides h, e]
  | case3 count m q hb => rw [run, dif_neg (by rw [← h.budget]; exact hb)]
  | case4 count m v c m' e ih =>
    rw [Act.advance_coincides h] at e
    rw [run_move, e]
    exact ih
  | case5 count m v w r m' e | case6 count m v f m' e | case7 count m v f m' e =>
    rw [Act.advance_coincides h] at e
    rw [run_move, e]

namespace Execution

theorem proceed_coincides (count : Nat) (m : Machine σ) (origin : Program ⊕ Resumption) :
    proceed s count m origin = proceed t count m origin := by
  cases origin with
  | inl p => simp only [proceed, openModule, h.emit, run_coincides h]
  | inr r =>
    cases r with
    | task q => simp only [proceed, resumeFrom, Act.begin_coincides h, run_coincides h]
    | waited name loc k => simp only [proceed, resumeFrom, h.emit, run_coincides h]

theorem settle_coincides : settle s = settle t := by
  funext halt m
  simp only [settle, close, report, h.emit]

/-- What a resumption answers, leaves of the execution and makes of the machine. -/
theorem resume_coincides (x : Execution σ) (m : Machine σ) (count : Nat) :
    let left := x.resume ⟨s, m, count⟩
    let left' := x.resume ⟨t, m, count⟩
    left.1 = left'.1 ∧ left.2.1 = left'.2.1 ∧ left.2.2.machine = left'.2.2.machine ∧
      left.2.2.count = left'.2.2.count := by
  cases x with
  | fresh p | suspended r =>
    simp only [resume, advance, proceed_coincides h, settle_coincides h, and_self]
  | drained | ended => exact ⟨rfl, rfl, rfl, rfl⟩

end Execution

end Coinciding

namespace Services

variable (s : Services σ) (hooks : EventKind → List (Hook σ)) (rules : List (StepRule σ))

/-- The same services with one handler for each kind of event and one rule, which call others in turn. -/
def unison : Services σ :=
  { s with
    hooks := EventKind.all.map fun kind => ⟨kind, 0, fun e w => (none, Hook.tell e (hooks kind) w)⟩
    rules := [⟨1, fun c w => (none, StepRule.tell c (rules.filter fun r => r.every ∣ c.step) w)⟩] }

theorem callHooks_unison (e : Event σ) : Act.callHooks e ((s.unison hooks rules).handlers e.kind) =
    Act.onWorld fun w => ((), Hook.tell e (hooks e.kind) w) := by
  have one (kind : EventKind) : (s.unison hooks rules).handlers kind =
      [⟨kind, 0, fun e w => (none, Hook.tell e (hooks kind) w)⟩] := by
    cases kind <;> rfl
  rw [one, Act.callHooks_calm e (by simp)]
  rfl

theorem callRules_unison (c : StepContext) : Act.callRules c (s.unison hooks rules).rules =
    Act.onWorld fun w => ((), StepRule.tell c (rules.filter fun r => r.every ∣ c.step) w) := by
  rw [unison, Act.callRules_calm c (by simp), List.filter_cons_of_pos (by simp)]
  rfl

variable {rs : List (Provision σ)}

theorem calm_hooks (calm : ∀ r ∈ rs, r.Calm) :
    ∀ h ∈ rs.filterMap Provision.hook?, ∀ e w, (h.handle e w).1 = none := by
  intro h hh
  obtain ⟨r, hr, asked⟩ := List.mem_filterMap.mp hh
  have quiet := calm r hr
  cases r with
  | event name priority handle =>
    obtain ⟨kind, -, rfl⟩ := Option.map_eq_some_iff.mp asked
    exact quiet
  | builtin | enum | constant | rule => cases asked

theorem calm_rules (calm : ∀ r ∈ rs, r.Calm) :
    ∀ p ∈ rs.filterMap Provision.rule?, ∀ c w, (p.handle c w).1 = none := by
  intro p hp
  obtain ⟨r, hr, asked⟩ := List.mem_filterMap.mp hp
  have quiet := calm r hr
  cases r with
  | rule every handle =>
    simp only [Provision.rule?] at asked
    split at asked
    · cases asked
      exact quiet
    · cases asked
  | builtin | enum | constant | event => cases asked

end Services

theorem emit_calm {setup : Setup σ} (calm : ∀ h ∈ setup.services.hooks, ∀ e w, (h.handle e w).1 = none)
    (e : Event σ) : Act.emit setup e =
      Act.onWorld fun w => ((), Hook.tell e (setup.services.handlers e.kind) w) :=
  Act.callHooks_calm e fun h hh => calm h (List.mem_filter.mp hh).1

theorem logStep_calm {setup : Setup σ}
    (calm : ∀ r ∈ setup.services.rules, ∀ c w, (r.handle c w).1 = none) (rule : String)
    (loc : Location) : Act.logStep setup rule loc = (do
      let bindings ← if setup.verbose then Act.snapshot loc else pure none
      let step ← Act.record setup.verbose rule loc bindings
      Act.onWorld fun w => ((), StepRule.tell ⟨step, rule, some loc⟩
        (setup.services.rules.filter fun r => r.every ∣ step) w)) := by
  simp only [Act.logStep, Act.callRules_calm _ calm]

theorem coincides_unison {setup : Setup σ}
    (quiet : ∀ h ∈ setup.services.hooks, ∀ e w, (h.handle e w).1 = none)
    (still : ∀ r ∈ setup.services.rules, ∀ c w, (r.handle c w).1 = none) :
    setup.Coincides { setup with
      services := setup.services.unison setup.services.handlers setup.services.rules } where
  builtin? := rfl
  print := rfl
  budget := rfl
  emit := by
    funext e
    rw [emit_calm quiet, Act.emit, Services.callHooks_unison]
  logStep := by
    funext rule loc
    simp only [Act.logStep, Act.callRules_calm _ still, Services.callRules_unison]

/-- Each firing calls the handlers of its event, all and once each, by priority and then by age; each
step that is logged calls the rules that it is due for. -/
theorem handlers_in_order {rs : List (Provision σ)} (calm : ∀ r ∈ rs, r.Calm) {setup : Setup σ}
    (hs : setup.services = Services.empty.after rs) :
    let asked := rs.filterMap Provision.hook?
    let rules := rs.filterMap Provision.rule?
    ∃ rows, Hook.Ordered asked rows ∧
      let hooks (kind : EventKind) := (rows.filter (·.1.kind = kind)).map Prod.fst
      (∀ e, Act.emit setup e = Act.onWorld fun w => ((), Hook.tell e (hooks e.kind) w)) ∧
      (∀ rule loc, Act.logStep setup rule loc = (do
        let bindings ← if setup.verbose then Act.snapshot loc else pure none
        let step ← Act.record setup.verbose rule loc bindings
        Act.onWorld fun w => ((), StepRule.tell ⟨step, rule, some loc⟩
          (rules.filter fun r => r.every ∣ step) w))) ∧
      ∀ (x : Execution σ) (m : Machine σ) (count : Nat),
        let left := x.resume ⟨setup, m, count⟩
        let left' := x.resume
          ⟨{ setup with services := setup.services.unison hooks rules }, m, count⟩
        left.1 = left'.1 ∧ left.2.1 = left'.2.1 ∧ left.2.2.machine = left'.2.2.machine ∧
          left.2.2.count = left'.2.2.count := by
  intro asked rules
  obtain ⟨registered, ruled⟩ := Services.empty.after_hooks rs
  obtain ⟨rows, ordered, inserted⟩ := Hook.exists_ordered asked
  have same : setup.services.hooks = rows.map Prod.fst := by rw [hs, registered]; exact inserted
  have rules_eq : setup.services.rules = rules := by rw [hs, ruled]; rfl
  have handlers (kind : EventKind) :
      setup.services.handlers kind = (rows.filter (·.1.kind = kind)).map Prod.fst := by
    rw [Services.handlers, same, List.filter_map]
    rfl
  have quiet : ∀ h ∈ setup.services.hooks, ∀ e w, (h.handle e w).1 = none := by
    intro h hh
    rw [same] at hh
    obtain ⟨row, hrow, rfl⟩ := List.mem_map.mp hh
    have known := List.mem_zipIdx' (ordered.all.mem_iff.mp hrow)
    exact Services.calm_hooks calm row.1 (known.2 ▸ List.getElem_mem _)
  have still : ∀ r ∈ setup.services.rules, ∀ c w, (r.handle c w).1 = none :=
    rules_eq ▸ Services.calm_rules calm
  refine ⟨rows, ordered, fun e => ?_, fun rule loc => ?_, fun x m count => ?_⟩
  · rw [emit_calm quiet, handlers]
  · rw [logStep_calm still, rules_eq]
  · have coincide := coincides_unison quiet still
    rw [rules_eq, funext handlers] at coincide
    exact Execution.resume_coincides coincide x m count

/-- A handler that notes its number. -/
def bell {α : Type} (n : Nat) (_ : α) (w : World (List Nat)) : Option Fault × World (List Nat) :=
  (none, ⟨w.store, w.host ++ [n]⟩)

theorem bells_in_order :
    let rs : List (Provision (List Nat)) := [.event "on_error" 0 (bell 0), .rule 2 (bell 1),
      .event "program_end" 5 (bell 2), .event "on_error" (-1) (bell 3), .event "on_error" 0 (bell 4),
      .rule 0 (bell 5), .event "on_failure" 9 (bell 6), .rule 3 (bell 7), .event "on_error" 7 (bell 8)]
    let setup : Setup (List Nat) := ⟨Services.empty.after rs, fun _ h => h, 100, false⟩
    (∀ r ∈ rs, r.Calm) ∧
      (∃ rows, Hook.Ordered (rs.filterMap Provision.hook?) rows ∧
        ∀ e, Act.emit setup e = Act.onWorld fun w => ((), Hook.tell e
          ((rows.filter (·.1.kind = e.kind)).map Prod.fst) w)) ∧
      (∀ err, Hook.tell (.onError err) (setup.services.handlers .onError) ⟨⟨#[], #[]⟩, []⟩ =
        ⟨⟨#[], #[]⟩, [8, 0, 4, 3]⟩) ∧
      StepRule.tell ⟨6, "pass", none⟩ (setup.services.rules.filter fun r => r.every ∣ 6)
        ⟨⟨#[], #[]⟩, []⟩ = ⟨⟨#[], #[]⟩, [1, 7]⟩ := by
  intro rs setup
  have calm : ∀ r ∈ rs, r.Calm := by simp [rs, Provision.Calm, bell]
  have registered : setup.services = Services.empty.after rs := rfl
  obtain ⟨rows, ordered, told, -⟩ := handlers_in_order calm registered
  exact ⟨calm, ⟨rows, ordered, told⟩, fun err => rfl, rfl⟩

end LoopScript
