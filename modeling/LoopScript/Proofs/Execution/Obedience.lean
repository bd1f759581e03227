import LoopScript.Proofs.Execution.Effect
import LoopScript.Proofs.Execution.Trace
import LoopScript.Proofs.Machine.Obedience

/-!
Runs keep to a policy: from a new interpreter on, and up to where control goes back to the host.
-/

namespace LoopScript

variable {σ : Type}

section Runs

variable {p : Policy} {setup : Setup σ} {count : Nat} {m : Machine σ}

def Halt.Under (p : Policy) : Halt σ → Prop
  | .pause _ r => r.Under p
  | .finished f => f.Under p false false
  | .failed f => p.fault f

/-- All code that a machine leaves behind when it halts is as a policy has it. -/
def Halted.Under (p : Policy) (h : Halted σ) : Prop :=
  h.machine.world.store.Under p ∧ h.halt.Under p

variable (hosts : p.Hosts setup) (hm : m.world.store.Under p)

include hosts hm

theorem run_under {c : Control} (hc : c.Under p) : (run setup count c m).Under p := by
  fun_induction run setup count c m with
  | case1 count m t _ c m' e ih =>
    obtain ⟨hm', hc'⟩ := Act.ensures_of_ok (Act.obeys_begin hosts hc m hm) e
    exact ih hm' hc'
  | case2 count m t _ f m' e => exact Act.ensures_of_error (Act.obeys_begin hosts hc m hm) e
  | case3 count m t => exact ⟨hm, hc⟩
  | case4 count m v c m' e ih =>
    obtain ⟨hm', hc'⟩ := Act.ensures_of_ok (Act.obeys_step hosts hc m hm) e
    exact ih hm' hc'
  | case5 count m v w r m' e | case6 count m v f m' e =>
    exact Act.ensures_of_ok (Act.obeys_step hosts hc m hm) e
  | case7 count m v f m' e => exact Act.ensures_of_error (Act.obeys_step hosts hc m hm) e

theorem resumeFrom_under {r : Resumption} (hr : r.Under p) : (resumeFrom setup count r m).Under p := by
  rw [resumeFrom_eq]
  split
  · next c n e =>
    obtain ⟨hn, hc⟩ := Act.ensures_of_ok (Act.obeys_control hosts hr m hm) e
    exact run_under hosts hn hc
  · next f n e => exact Act.ensures_of_error (Act.obeys_control hosts hr m hm) e

omit hm in
theorem obeys_openModule (q : Program) :
    Act.Obeys p (Execution.openModule setup q) fun _ => True := by
  refine Act.obeys_then (fun _ hm => ⟨hm, trivial⟩) fun _ => Act.obeys_get fun n => ?_
  exact Act.obeys_emit hosts _

theorem proceed_under {origin : Program ⊕ Resumption}
    (ho : origin.elim (Block.Under p false false ·.statements) (·.Under p)) :
    (Execution.proceed setup count m origin).Under p := by
  cases origin with
  | inr r => exact resumeFrom_under hosts hm ho
  | inl q =>
    simp only [Execution.proceed]
    split
    · next f n e => exact Act.ensures_of_error (obeys_openModule hosts q m hm) e
    · next n e =>
      obtain ⟨hn, -⟩ := Act.ensures_of_ok (obeys_openModule hosts q m hm) e
      have begun := Act.under_block (σ := σ) n.globals (k := .program) ho trivial
      split
      · next t ht =>
        rw [ht] at begun
        exact run_under hosts hn begun
      · exact ⟨hn, trivial⟩

end Runs

/-- All code that a run comes to is as a policy has it, if the extensions and the host add no other. -/
theorem Interpreter.comes_under {i : Interpreter σ} {host : Wait σ → World σ → World σ} {p : Policy}
    {q : Program} (hosts : p.Hosts i.setup) (hm : i.machine.world.store.Under p)
    (kept : ∀ w u, u.store.Under p → (host w u).store.Under p)
    (top : Block.Under p false false q.statements) {c : Control} {m : Machine σ}
    (hc : i.Comes host q c m) : m.world.store.Under p ∧ c.Under p := by
  induction hc with
  | @start c m ho hc =>
    have opened := Act.ensures_of_ok (obeys_openModule hosts q i.machine hm) ho
    have begun := Act.continueWith_under (Act.under_block (σ := σ) m.globals (k := .program) top trivial)
    rw [hc] at begun
    exact ⟨opened.1, begun⟩
  | step _ hs ih => exact Act.ensures_of_ok (Act.obeys_step hosts ih.2 _ ih.1) hs
  | @wait _ _ _ n _ w _ _ hs hr ih =>
    have paused := Act.ensures_of_ok (Act.obeys_step hosts ih.2 _ ih.1) hs
    exact Act.ensures_of_ok (Act.obeys_control hosts paused.2 _ (kept w n.world paused.1)) hr

section Opening

variable {p : Policy}

/-- A new interpreter holds no code but that of the world it is created in. -/
theorem opening_under (services : Services σ) {world : World σ} (hw : world.store.Under p) :
    (Interpreter.opening services world).world.store.Under p := by
  apply Interpreter.globalObjects_induction (P := fun x => x.2.Under p) hw
  · exact fun _ _ hx => Store.under_alloc hx trivial
  · exact fun _ _ _ hx => Store.under_alloc hx trivial
  · exact fun _ _ _ hx => hx

end Opening

end LoopScript
