import LoopScript.Proofs.Execution.Failures
import LoopScript.Proofs.Machine.Trail
import LoopScript.Traceback

/-!
The frames of a traceback: where a run without extensions fails, each call in progress is shown with
the statement that it has started last.
-/

namespace LoopScript

variable {σ : Type}

/-- What is carried out before a pause gives way to the next control. -/
def Resumption.controls : Resumption → Trail
  | .task t => [.task t]
  | .waited .. => []

namespace Interpreter

variable (i : Interpreter σ) (host : Wait σ → World σ → World σ) (p : Program)

/-- The controls that a run has carried out when it comes to the next one. -/
inductive Goes : Trail → Control → Machine σ → Prop where
  | start {c : Control} {m : Machine σ} (h : Execution.openModule i.setup p i.machine = .ok ⟨⟩ m)
      (hc : Act.continueWith (σ := σ) .program (Act.block p.statements m.globals .program) = .go c) :
      Goes [] c m
  | step {t : Trail} {c c' : Control} {m n : Machine σ} (h : Goes t c m)
      (hc : c.step i.setup m = .ok (.go c') n) : Goes (c :: t) c' n
  | wait {t : Trail} {c c' : Control} {m n n' : Machine σ} {w : Wait σ} {r : Resumption}
      (h : Goes t c m) (hc : c.step i.setup m = .ok (.pause w r) n)
      (hr : r.control i.setup { n with world := host w n.world } = .ok c' n') :
      Goes (r.controls ++ c :: t) c' n'

/-- The controls that a run has carried out when it fails, the machine on which it fails, and the
context of which the calls are then in progress. -/
inductive FailsAfter : Trail → Machine σ → (a : Awaits) × Context a → Prop where
  | start {f : Fault} {m : Machine σ}
      (h : Execution.openModule i.setup p i.machine = .error f m) :
      FailsAfter [] m ⟨.flow, .program⟩
  | step {t : Trail} {c : Control} {f : Fault} {m n : Machine σ} (h : i.Goes host p t c m)
      (hc : c.step i.setup m = .error f n) : FailsAfter (c :: t) n c.remainder
  | wait {t : Trail} {c : Control} {f : Fault} {m n n' : Machine σ} {w : Wait σ} {r : Resumption}
      (h : i.Goes host p t c m) (hc : c.step i.setup m = .ok (.pause w r) n)
      (hr : r.control i.setup { n with world := host w n.world } = .error f n') :
      FailsAfter (r.controls ++ c :: t) n' r.context
  | stray {t : Trail} {c : Control} {f : Flow} {m n : Machine σ} (h : i.Goes host p t c m)
      (hc : c.step i.setup m = .ok (.finished f) n) (hf : f ≠ .normal) :
      FailsAfter (c :: t) n ⟨.flow, .program⟩

variable {i host p} {t : Trail} {c : Control} {m : Machine σ}

theorem Goes.comes (h : i.Goes host p t c m) : i.Comes host p c m := by
  induction h with
  | start h hc => exact .start h hc
  | step _ hc ih => exact .step ih hc
  | wait _ hc hr ih => exact .wait ih hc hr

theorem Comes.goes (h : i.Comes host p c m) : ∃ t, i.Goes host p t c m := by
  induction h with
  | start h hc => exact ⟨_, .start h hc⟩
  | step _ hc ih => exact ih.imp' _ fun _ h => .step h hc
  | wait _ hc hr ih => exact ih.imp' _ fun _ h => .wait h hc hr

theorem FailsAfter.failsIn {k : (a : Awaits) × Context a} (h : i.FailsAfter host p t m k) :
    i.FailsIn host p m k := by
  cases h with
  | start h => exact .start h
  | step h hc => exact .step h.comes hc
  | wait h hc hr => exact .wait h.comes hc hr
  | stray h hc hf => exact .stray h.comes hc hf

/-- A failed run without hooks has failed on the machine that it leaves. -/
theorem failsAfter_of_failed (hh : i.setup.services.hooks = []) {n : Nat} {e : RuntimeError}
    (he : (i.run host p n).execution = .ended (.failed e)) :
    ∃ t k, i.FailsAfter host p t (i.run host p n).machine k := by
  obtain ⟨halt, count, f, halts, -, how⟩ := halts_of_failed hh he
  generalize (i.run host p n).machine = m at halts
  cases halts with
  | start h => exact ⟨_, _, .start h⟩
  | wait h hc hr =>
    obtain ⟨t, h⟩ := h.goes
    exact ⟨_, _, .wait h hc hr⟩
  | step h =>
    rcases how with rfl | ⟨x, rfl, hx, -⟩
    · obtain ⟨c, n, h, hc⟩ := h
      obtain ⟨t, h⟩ := h.goes
      exact ⟨_, _, .step h hc⟩
    · obtain ⟨c, n, h, hc⟩ := h
      obtain ⟨t, h⟩ := h.goes
      exact ⟨_, _, .stray h hc hx⟩

section Recalls

variable (hs : i.setup.services = .empty) (hv : i.setup.verbose = false)

include hs hv

theorem recalls_resume {r : Resumption} {a : Activation} (h : m.Recalls t)
    (hr : Stacked .program [a] r.context.2 m.calls) :
    Act.Ensures (r.control i.setup) m (fun _ n => n.Recalls (r.controls ++ t))
      (fun _ n => n.Recalls (r.controls ++ t)) := by
  cases r with
  | task task =>
    exact Act.recalls_begin hs hv task h hr.length_eq
  | waited name loc k =>
    simp only [Resumption.control, emit_silent (Setup.hooks_of_empty hs)]
    exact h

omit hs hv in
theorem tidy_start (hc : i.machine.calls = []) (hl : i.machine.log = .empty) : i.machine.Tidy := by
  refine ⟨?_, ?_, ?_⟩
  · rw [hc]
    exact List.pairwise_singleton _ _
  · rw [hl]
    exact List.nodup_nil
  · rw [hl]
    exact List.nil_subset _

omit hs hv in
theorem recalls_start (hc : i.machine.calls = []) (hl : i.machine.log = .empty) (name : String)
    (scope : ScopeId) : Machine.Recalls [] { i.machine with
      calls := [⟨name, scope, i.machine.issued, none⟩], issued := i.machine.issued + 1 } := by
  have opened := (Machine.Tidies.enter i.machine (a := ⟨name, scope, i.machine.issued, none⟩) rfl
    (tidy_start hc hl)).1
  rw [hc] at opened
  refine ⟨opened, ?_, fun a calls _ => ?_⟩
  · rw [hl]
    rfl
  · rw [hl]
    rfl

theorem Goes.recalls (hc : i.machine.calls = []) (hl : i.machine.log = .empty)
    (h : i.Goes host p t c m) : m.Recalls t := by
  induction h with
  | start ho =>
    rw [openModule_silent (Setup.hooks_of_empty hs)] at ho
    cases ho
    exact recalls_start hc hl _ _
  | step h hc ih =>
    obtain ⟨a, -, stacked⟩ := comes_stacked h.comes
    have stepped := Act.ensures_of_ok (Act.recalls_step hs hv _ ih stacked) hc
    exact stepped
  | @wait t c c' m n n' w r h hc hr ih =>
    obtain ⟨a, -, stacked⟩ := comes_stacked h.comes
    have paused := Act.ensures_of_ok (Act.recalls_step hs hv c ih stacked) hc
    have answered := paused.keeps (n := { n with world := host w n.world }) (.of_eq rfl rfl rfl) rfl
    have stands : Stacked .program [a] r.context.2 n.calls := stands_of_step stacked hc fun _ => nofun
    have resumed := Act.ensures_of_ok (recalls_resume hs hv answered stands) hr
    exact resumed

theorem FailsAfter.recalls (hc : i.machine.calls = []) (hl : i.machine.log = .empty)
    {k : (a : Awaits) × Context a} (h : i.FailsAfter host p t m k) : m.Recalls t := by
  cases h with
  | start ho =>
    rw [openModule_silent (Setup.hooks_of_empty hs)] at ho
    cases ho
  | step h hf =>
    obtain ⟨a, -, stacked⟩ := comes_stacked h.comes
    have failed := Act.ensures_of_error (Act.recalls_step hs hv _ (h.recalls hs hv hc hl) stacked) hf
    exact failed
  | @wait t c f m n n' w r h hp hr =>
    obtain ⟨a, -, stacked⟩ := comes_stacked h.comes
    have paused := Act.ensures_of_ok (Act.recalls_step hs hv c (h.recalls hs hv hc hl) stacked) hp
    have answered := paused.keeps (n := { n with world := host w n.world }) (.of_eq rfl rfl rfl) rfl
    have stands : Stacked .program [a] r.context.2 n.calls := stands_of_step stacked hp fun _ => nofun
    have failed := Act.ensures_of_error (recalls_resume hs hv answered stands) hr
    exact failed
  | stray h hf =>
    obtain ⟨a, -, stacked⟩ := comes_stacked h.comes
    have left := Act.ensures_of_ok (Act.recalls_step hs hv _ (h.recalls hs hv hc hl) stacked) hf
    exact left

theorem run_tidy (hc : i.machine.calls = []) (hl : i.machine.log = .empty) {n : Nat}
    (hn : (i.run host p n).execution ≠ .ended .completed) : (i.run host p n).machine.Tidy := by
  have shows : i.Shows host p (i.run host p n) := run_shows n
  generalize hx : i.run host p n = x at shows hn
  cases shows with
  | fresh => exact tidy_start hc hl
  | running h =>
    obtain ⟨t, h⟩ := h.goes
    exact (h.recalls hs hv hc hl).tidy
  | paused h hp =>
    obtain ⟨t, h⟩ := h.goes
    obtain ⟨a, -, stacked⟩ := comes_stacked h.comes
    have paused := Act.ensures_of_ok (Act.recalls_step hs hv _ (h.recalls hs hv hc hl) stacked) hp
    exact paused.tidy
  | completed => exact absurd rfl hn
  | failed =>
    obtain ⟨t, k, h⟩ := failsAfter_of_failed (Setup.hooks_of_empty hs) (congrArg Moment.execution hx)
    rw [hx] at h
    exact (h.recalls hs hv hc hl).tidy

end Recalls

theorem run_ended {s : Status σ} {n : Nat} (h : (i.run host p n).execution = .ended s) (d : Nat) :
    (i.run host p (n + d)).execution = .ended s := by
  induction d with
  | zero => exact h
  | succ d ih =>
    obtain ⟨count, hn⟩ := run_succ i host p (n + d)
    rw [← Nat.add_assoc, hn]
    simp only [Moment.resume, ih, Execution.resume]

theorem not_completed {n : Nat} {e : RuntimeError}
    (he : (i.run host p n).execution = .ended (.failed e)) (k : Nat) :
    (i.run host p k).execution ≠ .ended .completed := by
  intro hk
  rcases Nat.le_total n k with h | h
  · have failed := run_ended he (k - n)
    rw [Nat.add_sub_cancel' h, hk] at failed
    cases failed
  · have completed := run_ended hk (n - k)
    rw [Nat.add_sub_cancel' h, he] at completed
    cases completed

end Interpreter

/-- The frame of a call that has started a statement last, or none. -/
def Activation.frame (a : Activation) (start : Option (Nat × Stmt)) : TracebackFrame :=
  ⟨a.name, (start.map (·.2.location)).or a.callSite, start.map (LogEntry.ofStart a.id)⟩

open Trail (lastStart)

theorem suffix_of_mem_zipIdx {calls : List Activation} {a : Activation} {d : Nat}
    (h : (a, d) ∈ calls.reverse.zipIdx) : ∃ outer, (a :: outer) <:+ calls ∧ outer.length = d := by
  have at_d : calls.reverse[d]? = some a := List.mem_zipIdx_iff_getElem?.mp h
  obtain ⟨hd, ha⟩ := List.getElem?_eq_some_iff.mp at_d
  refine ⟨(calls.reverse.take d).reverse, ⟨(calls.reverse.drop (d + 1)).reverse, ?_⟩, ?_⟩
  · have parts : calls.reverse.take d ++ a :: calls.reverse.drop (d + 1) = calls.reverse := by
      rw [← ha, List.getElem_cons_drop, List.take_append_drop]
    have reversed := congrArg List.reverse parts
    simpa using reversed
  · rw [List.length_reverse, List.length_take]
    exact Nat.min_eq_left (Nat.le_of_lt hd)

theorem Machine.Recalls.tracebackFrames {t : Trail} {m : Machine σ} (h : m.Recalls t) :
    m.tracebackFrames = m.calls.reverse.zipIdx.map fun x => x.1.frame (lastStart x.2 t) := by
  have entries : m.tracebackFrames = m.calls.reverse.zipIdx.map fun x =>
      ⟨x.1.name, ((m.log.tails.get? x.1.id).map (·.location)).or x.1.callSite,
        m.log.tails.get? x.1.id⟩ := by
    conv_lhs => rw [Machine.tracebackFrames, ← List.zipIdx_map_fst 0 m.calls.reverse]
    rw [List.map_map]
    rfl
  rw [entries]
  refine List.map_congr_left fun x hx => ?_
  obtain ⟨outer, suffix, length⟩ := suffix_of_mem_zipIdx hx
  rw [h.tails x.1 outer suffix, length]
  cases lastStart x.2 t <;> rfl

/-- The steps of frames ascend. -/
theorem steps_ascend (calls : List Activation) (t : Trail) :
    ((calls.zipIdx.map fun x => x.1.frame (lastStart x.2 t)).filterMap
      fun f => f.entry.map (·.step)).Pairwise (· < ·) := by
  rw [List.filterMap_map, List.pairwise_filterMap, List.pairwise_iff_getElem]
  intro d e hd he hde n hn k hk
  simp only [List.getElem_zipIdx, Function.comp_apply, Activation.frame, Option.map_map,
    Option.map_eq_some_iff, Nat.zero_add] at hn hk
  obtain ⟨⟨n, s⟩, hn, rfl⟩ := hn
  obtain ⟨⟨k, s'⟩, hk, rfl⟩ := hk
  exact Trail.lastStart_increasing hde hn hk

/-- The traceback of a failed run without extensions. It has a frame for each call in progress, the
module first, with the statement that this very call has started last; these statements are in the
order in which they were started. And as long as the run goes on the log has entries of calls in
progress only. -/
theorem frames_told {print : String → σ → σ} {budget : Int} {world : World σ} {i : Interpreter σ}
    (h : Interpreter.create .empty print budget false world = .ok i)
    (host : Wait σ → World σ → World σ) (p : Program) {n : Nat} {e : RuntimeError}
    (he : (i.run host p n).execution = .ended (.failed e)) :
    (∃ t k, i.FailsAfter host p t (i.run host p n).machine k ∧
      (i.run host p n).machine.calls.map Activation.site = k.2.sites ++ [.module] ∧
      (i.run host p n).machine.tracebackFrames = (i.run host p n).machine.calls.reverse.zipIdx.map
        fun x => x.1.frame (lastStart x.2 t)) ∧
    ((i.run host p n).machine.tracebackFrames.filterMap
      fun f => f.entry.map (·.step)).Pairwise (· < ·) ∧
    ((i.run host p n).machine.calls.map Activation.id).Nodup ∧
    (∀ t c m, i.Goes host p t c m → m.log.tails.keys ⊆ m.calls.map Activation.id) ∧
    ∀ k, (i.run host p k).machine.log.tails.keys ⊆
      (i.run host p k).machine.calls.map Activation.id := by
  obtain rfl := Interpreter.create_eq h
  have silent : (Services.empty : Services σ).hooks = [] := rfl
  obtain ⟨t, k, failed⟩ := Interpreter.failsAfter_of_failed silent he
  have recalls := failed.recalls rfl rfl rfl rfl
  obtain ⟨a, ha, stacked⟩ := Interpreter.failsIn_stacked failed.failsIn
  refine ⟨⟨t, k, failed, ?_, recalls.tracebackFrames⟩, ?_, ?_, fun t c m hc => ?_, fun k => ?_⟩
  · rw [stacked.map_site, List.map_singleton, ha]
  · rw [recalls.tracebackFrames]
    exact steps_ascend _ t
  · exact (List.pairwise_cons.mp recalls.tidy.ids).2.imp Nat.ne_of_gt
  · exact (hc.recalls rfl rfl rfl rfl).tidy.keys
  · exact (Interpreter.run_tidy rfl rfl rfl rfl (Interpreter.not_completed he k)).keys

def relayLine (n : Nat) : Location := ⟨"relay", n, 1, ""⟩

/-- A function that fails once another one has been called, in it and before it. -/
def relay : Program :=
  let call (n : Nat) (name : String) : Stmt :=
    .expr (relayLine n) (.call (relayLine n) (.name (relayLine n) name) [] [])
  let none : Expr := .literal (relayLine 5) .none
  ⟨relayLine 8, [.function (.mk (relayLine 1) "f" [] [.pass_ (relayLine 2)]),
    .function (.mk (relayLine 3) "g" []
      [call 4 "f", .expr (relayLine 5) (.binary (relayLine 5) .add none none)]),
    call 6 "f", call 7 "g"]⟩

/-- Its caller is shown at the call, and the function at the sum that fails. -/
theorem frames_told_relaying :
    Interpreter.create .empty (fun _ w => w) 100 false ⟨.empty, ()⟩ = .ok mute ∧
    (mute.run (fun _ w => w) relay 1).execution =
      .ended (.failed ⟨.operands "+" "None" "None", some (relayLine 5), some 7⟩) ∧
    (mute.run (fun _ w => w) relay 1).machine.tracebackFrames =
      [⟨"<module>", some (relayLine 7), some ⟨4, some 0, relayLine 7, "ExpressionStatement", none⟩⟩,
        ⟨"g", some (relayLine 5), some ⟨7, some 2, relayLine 5, "ExpressionStatement", none⟩⟩] ∧
    ∃ t k, mute.FailsAfter (fun _ w => w) relay t (mute.run (fun _ w => w) relay 1).machine k ∧
      k.2.sites ++ [Site.module] = [("g", some (relayLine 7)), Site.module] := by
  have created : Interpreter.create .empty (fun _ w => w) 100 false ⟨.empty, ()⟩ = .ok mute := rfl
  have failed : (mute.run (fun _ w => w) relay 1).execution =
      .ended (.failed ⟨.operands "+" "None" "None", some (relayLine 5), some 7⟩) := by cbv
  have sites : (mute.run (fun _ w => w) relay 1).machine.calls.map Activation.site =
      [("g", some (relayLine 7)), Site.module] := by cbv
  obtain ⟨⟨t, k, after, calls, -⟩, -⟩ := frames_told created (fun _ w => w) relay failed
  exact ⟨created, failed, by cbv, t, k, after, calls.symm.trans sites⟩

end LoopScript
