import LoopScript.Proofs.Machine.Effect

/-!
What an execution leaves of the machine it runs on: what every single change respects, every
resumption respects.
-/

namespace LoopScript

variable {σ : Type} {setup : Setup σ} {R : Machine σ → Machine σ → Prop}

structure Setup.RespectsRuns (setup : Setup σ) (R : Machine σ → Machine σ → Prop) : Prop
    extends setup.RespectsCalls R where
  start (m : Machine σ) :
    R m { m with calls := [⟨"<module>", m.globals, m.issued, none⟩], issued := m.issued + 1 }
  stop (m : Machine σ) (a : Activation) (calls : List Activation) (h : m.calls = a :: calls) :
    R m { m with calls := calls }

theorem run_respects (hR : setup.RespectsCalls R) (count : Nat) (c : Control) (m : Machine σ) :
    R m (run setup count c m).machine := by
  have step (v : Move) := Act.closed_advance hR.closedCalls v
  fun_induction run setup count c m with
  | case1 count m t hb c' m' e ih =>
    exact hR.trans ((Act.closed_begin hR.closedBegin t).ok e) ih
  | case2 count m t hb f m' e => exact (Act.closed_begin hR.closedBegin t).error e
  | case3 count m t hb => exact hR.refl m
  | case4 count m v c' m' e ih => exact hR.trans ((step v).ok e) ih
  | case5 count m v w r m' e => exact (step v).ok e
  | case6 count m v f m' e => exact (step v).ok e
  | case7 count m v f m' e => exact (step v).error e

theorem resumeFrom_respects (hR : setup.RespectsCalls R) (count : Nat) (r : Resumption)
    (m : Machine σ) : R m (resumeFrom setup count r m).machine := by
  cases r with
  | task t =>
    have h := Act.closed_begin hR.closedBegin t
    simp only [resumeFrom]
    split
    · next e => exact hR.trans (h.ok e) (run_respects hR _ _ _)
    · next e => exact h.error e
  | waited name loc k =>
    have h := Act.closed_emit hR.closed (.afterCall name .none loc)
    simp only [resumeFrom]
    split
    · next e => exact hR.trans (h.ok e) (run_respects hR _ _ _)
    · next e => exact h.error e

namespace Execution

theorem keeps_openModule (hR : setup.RespectsRuns R) (p : Program) :
    Act.Keeps R (openModule setup p) := by
  refine Act.keeps_bind hR.toRespects (fun m => hR.start m) fun _ => ?_
  exact Act.keeps_bind hR.toRespects (Act.keeps_get hR.toRespects) fun m =>
    Act.closed_emit hR.closed _

theorem proceed_respects (hR : setup.RespectsRuns R) (count : Nat) (m : Machine σ)
    (origin : Program ⊕ Resumption) : R m (proceed setup count m origin).machine := by
  cases origin with
  | inl p =>
    have h := keeps_openModule hR p
    simp only [proceed]
    split
    · next e => exact h.error e
    · next e =>
      split
      · exact hR.trans (h.ok e) (run_respects hR.toRespectsCalls _ _ _)
      · exact h.ok e
  | inr r => exact resumeFrom_respects hR.toRespectsCalls count r m

theorem report_respects (hR : setup.Respects R) (f : Fault) (m : Machine σ) :
    R m (report setup f m).2 := by
  have h := Act.closed_emit hR.closed (.onError (errorOf m f))
  simp only [report]
  split
  · next e => exact h.ok e
  · next e => exact h.error e
  · next e => exact h.error e

theorem close_respects (hR : setup.RespectsRuns R) (m : Machine σ) :
    R m (close setup m).2.2 := by
  have h := Act.closed_emit hR.closed .programEnd
  simp only [close]
  split
  · next e => exact h.error e
  · next n e =>
    have hn : R m n := h.ok e
    split
    · exact hn
    · next a calls hc => exact hR.trans hn (hR.stop n a calls hc)

theorem settle_respects (hR : setup.RespectsRuns R) (h : Halt σ) (m : Machine σ) :
    R m (settle setup h m).2.2 := by
  cases h with
  | pause w r => cases w <;> exact hR.refl m
  | failed f => exact report_respects hR.toRespects f m
  | finished f =>
    cases f with
    | normal => exact close_respects hR m
    | broken | continued | returned v => exact report_respects hR.toRespects _ m

theorem resume_respects (x : Execution σ) (i : Interpreter σ) (hR : i.setup.RespectsRuns R) :
    R i.machine (x.resume i).2.2.machine := by
  have advance (origin : Program ⊕ Resumption) : R i.machine (advance i origin).2.2.machine :=
    hR.trans (proceed_respects hR i.count i.machine origin) (settle_respects hR _ _)
  cases x with
  | fresh p => exact advance (.inl p)
  | suspended r => exact advance (.inr r)
  | drained | ended s => exact hR.refl _

end Execution

namespace Interpreter

/-- The machine of a fresh interpreter. -/
def opening (services : Services σ) (world : World σ) : Machine σ :=
  let (globals, s) := globalObjects services world.store
  let (scope, s) := s.openScope none globals
  ⟨{ world with store := s }, scope, [], none, .empty, [], 0⟩

/-- What a new interpreter makes one by one has what each of its objects and names preserves. -/
theorem globalObjects_induction {services : Services σ} {s : Store}
    {P : Table String Value × Store → Prop} (start : P ([], s))
    (function : ∀ x name, P x →
      P (x.1.put name (x.2.alloc (.builtin name)).1, (x.2.alloc (.builtin name)).2))
    (enum : ∀ x, ∀ e ∈ services.enums, P x →
      let copy := Obj.dict (e.2.map fun member => (.str member.1, member.2))
      P (x.1.put e.1 (x.2.alloc copy).1, (x.2.alloc copy).2))
    (constant : ∀ x, ∀ e ∈ services.constants, P x → P (x.1.put e.1 e.2, x.2)) :
    P (globalObjects services s) := by
  have functions := List.foldlRecOn (CoreFunction.all.map (·.name) ++ services.builtins.keys) _ start
    fun x hx name _ => function x name hx
  have enums := List.foldlRecOn services.enums _ functions fun x hx e he => enum x e he hx
  exact List.foldlRecOn (motive := fun t => P (t, _)) services.constants _ enums
    fun t ht e he => constant (t, _) e he ht

theorem create_eq {services : Services σ} {print : String → σ → σ} {budget : Int} {verbose : Bool}
    {world : World σ} {i : Interpreter σ}
    (h : create services print budget verbose world = .ok i) :
    i = ⟨⟨services, print, budget.toNat, verbose⟩, opening services world, 0⟩ := by
  unfold create at h
  split at h
  · cases h
  · split at h
    · cases h
    · exact (Except.ok.inj h).symm

end Interpreter

end LoopScript
