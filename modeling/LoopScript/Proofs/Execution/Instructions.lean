import LoopScript.Proofs.Execution.Finality
import LoopScript.Proofs.Execution.Trace

/-!
The instruction budget. Each task that a machine comes to is one instruction, and no resumption comes
to more of them than the budget has left.
-/

namespace LoopScript

variable {σ : Type}

/-- The controls that a machine comes to until control goes back to the host, and how it halts. Before
any task the machine may stop for the budget. -/
inductive Slice (setup : Setup σ) :
    Control → Machine σ → List Control → Halt σ → Machine σ → Prop where
  | spent (t : Task) (m : Machine σ) : Slice setup (.task t) m [.task t] (.pause none (.task t)) m
  | step {c c' : Control} {m n n' : Machine σ} {cs : List Control} {halt : Halt σ}
      (h : c.step setup m = .ok (.go c') n) (rest : Slice setup c' n cs halt n') :
      Slice setup c m (c :: cs) halt n'
  | paused {c : Control} {m n : Machine σ} {w : Wait σ} {r : Resumption}
      (h : c.step setup m = .ok (.pause w r) n) : Slice setup c m [c] (.pause (some w) r) n
  | finished {c : Control} {m n : Machine σ} {f : Flow} (h : c.step setup m = .ok (.finished f) n) :
      Slice setup c m [c] (.finished f) n
  | failed {c : Control} {m n : Machine σ} {f : Fault} (h : c.step setup m = .error f n) :
      Slice setup c m [c] (.failed f) n

section Slices

variable {setup : Setup σ}

end Slices

namespace Execution

/-- The controls that a resumption comes to, with its answer and the execution and the machine that it
leaves. -/
inductive Visits (setup : Setup σ) (m : Machine σ) : Execution σ → List Control →
    Except String (Status σ) × Execution σ × Machine σ → Prop where
  | unopened {p : Program} {f : Fault} {n : Machine σ} (h : openModule setup p m = .error f n) :
      Visits setup m (.fresh p) [] (settle setup (.failed f) n)
  | empty {p : Program} {n : Machine σ} (h : openModule setup p m = .ok ⟨⟩ n)
      (hp : p.statements = []) : Visits setup m (.fresh p) [] (settle setup (.finished .normal) n)
  | opened {p : Program} {n n' : Machine σ} {t : Task} {cs : List Control} {halt : Halt σ}
      (h : openModule setup p m = .ok ⟨⟩ n)
      (hp : Act.block (σ := σ) p.statements n.globals .program = .start t)
      (slice : Slice setup (.task t) n cs halt n') :
      Visits setup m (.fresh p) cs (settle setup halt n')
  | refused {r : Resumption} {f : Fault} {n : Machine σ} (h : r.control setup m = .error f n) :
      Visits setup m (.suspended r) [] (settle setup (.failed f) n)
  | resumed {r : Resumption} {c : Control} {n n' : Machine σ} {cs : List Control} {halt : Halt σ}
      (h : r.control setup m = .ok c n) (slice : Slice setup c n cs halt n') :
      Visits setup m (.suspended r) cs (settle setup halt n')
  | drained : Visits setup m .drained [] (.ok .completed, .ended .completed, m)
  | ended (s : Status σ) : Visits setup m (.ended s) [] (.ok s, .ended s, m)

/-- An execution that has ended with a terminal status, or not at all. -/
def Sound (x : Execution σ) : Prop := ∀ s, x.status? = some s → s.terminal = true

section Resumptions

variable {setup : Setup σ} {i : Interpreter σ} {cs : List Control} {s : Status σ}

end Resumptions

end Execution

namespace Interpreter

end Interpreter

end LoopScript
