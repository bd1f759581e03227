import LoopScript.Proofs.Execution.Failures
import LoopScript.Proofs.Execution.Grounded
import LoopScript.Proofs.Value.Sameness

/-!
Sameness in programs at work. In every state that the executions on an interpreter come to, equality,
identity, the order of values and the keys of dictionaries agree.
-/

namespace LoopScript

variable {σ : Type}

namespace Interpreter

variable {i i₀ : Interpreter σ} {xs : List (Execution σ)} {s : Store}

/-- The stores between two calls of a host, and those between two steps of an execution that is then
resumed. -/
def Sees (i : Interpreter σ) (xs : List (Execution σ)) (s : Store) : Prop :=
  s = i.machine.world.store ∨
    ∃ x ∈ xs, ∃ c m, x.Comes i.setup i.machine c m ∧ s = m.world.store

theorem sees_grounded (hosts : i₀.setup.Grounds True) (hm : i₀.machine.Grounded)
    (h : Hosts Orderly i₀ i xs) (seen : i.Sees xs s) : s.Grounded := by
  obtain ⟨setup, machine, stands⟩ := hosts_grounded hosts hm h
  rcases seen with rfl | ⟨x, hx, c, m, comes, rfl⟩
  · exact machine.store
  · rw [setup] at comes
    exact (Execution.comes_grounded hosts machine (stands x hx) comes).1

theorem grounds_of_orderly {setup : Setup σ}
    (hosts : ∀ w answer u, setup.Calls w answer u → Orderly w u) : setup.Grounds True where
  call h hw := hosts _ _ _ h hw
  report h hw := by
    obtain ⟨answer, call⟩ := h.calls
    exact (hosts _ _ _ call hw).2

end Interpreter

/-- Sameness agrees. On an interpreter whose extensions and host keep the store in order, every state
between two calls or two steps has one notion of sameness: equality is an equivalence that disregards
the order of entries, it follows from identity, it is the equality of the order, and it decides about
the keys of dictionaries, which are all different. -/
theorem sameness_agrees {services : Services σ} {print : String → σ → σ} {budget : Int}
    {verbose : Bool} {world : World σ} {i₀ i : Interpreter σ} {xs : List (Execution σ)} {s : Store}
    (h₀ : Interpreter.create services print budget verbose world = .ok i₀) (sound : services.Sound)
    (hw : world.store.Grounded)
    (hosts : ∀ w answer u, i₀.setup.Calls w answer u → Interpreter.Orderly w u)
    (h : Interpreter.Hosts Interpreter.Orderly i₀ i xs) (seen : i.Sees xs s) : s.Coherent := by
  have order := Interpreter.sees_grounded (Interpreter.grounds_of_orderly hosts)
    (create_grounded h₀ sound hw) h seen
  apply Store.coherent_of_keyed
  intro a es ha
  have here := order a
  rw [ha] at here
  exact here

def pairerPlace (column : Nat) : Location := ⟨"pairer", 1, column, ""⟩

/-- A dictionary is built from three entries, and two of their keys are equal. -/
def pairer : Program :=
  let entry (column : Nat) (c : Atom) : Expr × Expr :=
    (.literal (pairerPlace column) c, .literal (pairerPlace (column + 2)) .none)
  ⟨pairerPlace 0, [.expr (pairerPlace 1)
    (.dict (pairerPlace 1) [entry 2 (.int 1), entry 11 (.bool true), entry 23 (.str "1")])]⟩

theorem sameness_agrees_pairing :
    Interpreter.create .empty (fun _ w => w) 100 false ⟨.empty, ()⟩ = .ok mute ∧
    Store.empty.Grounded ∧ ∃ i x s a, mute.Hosts Interpreter.Orderly i [x] ∧ i.Sees [x] s ∧
      s.read a = .dict [(.int 1, .none), (.str "1", .none)] ∧
      s.Says .mem (.bool true) (.ref a) true ∧ s.Says .eq (.int 1) (.str "1") false := by
  have created : Interpreter.create .empty (fun _ w => w) 100 false ⟨.empty, ()⟩ = .ok mute := rfl
  have order : Store.empty.Grounded := fun _ => trivial
  have silent {w u : World Unit} {answer : Option Fault} : ¬mute.setup.Calls w answer u :=
    Setup.not_calls rfl
  have loaded : mute.Hosts Interpreter.Orderly mute [.fresh pairer] := .load .start pairer
  have served : mute.Hosts Interpreter.Orderly ((Execution.fresh pairer).resume mute).2.2
      [((Execution.fresh pairer).resume mute).2.1] := .call (k := 0) loaded rfl .resume
  have agree := sameness_agrees created Services.sound_empty order
    (fun _ _ _ call => absurd call silent) served (.inl rfl)
  have built : ((Execution.fresh pairer).resume mute).2.2.machine.world.store.read 12 =
      .dict [(.int 1, .none), (.str "1", .none)] := by cbv
  refine ⟨created, order, _, _, _, 12, served, .inl rfl, built, ?_, ?_⟩
  · obtain ⟨r, said, known⟩ := agree.membership (v := .bool true) (w := .ref 12) rfl rfl
      (congrArg some built)
    have member : r = true := known.mpr ⟨_, List.mem_cons_self, rfl⟩
    exact member ▸ said
  · exact List.rel_of_pairwise_cons (agree.keys built) List.mem_cons_self

end LoopScript
