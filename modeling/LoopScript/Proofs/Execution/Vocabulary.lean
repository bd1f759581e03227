import LoopScript.Proofs.Execution.Failures
import LoopScript.Proofs.Execution.Finality
import LoopScript.Proofs.Execution.Obedience
import LoopScript.Proofs.Program.Spans
import LoopScript.Proofs.Program.Spelling
import LoopScript.Proofs.Value.Rules

/-!
Executions of programs that are read from texts: no code comes to run that the machine does not know,
so that it never fails for a cause of that kind.
-/

namespace LoopScript

variable {σ : Type}

/-- A cause that belongs to the language has a rule, or else it is one of certain causes. -/
def Cause.Owned (N : Cause → Prop) (c : Cause) : Prop :=
  (∃ rule, c.ownRule? = some rule) ∨ N c

def Obj.Familiar : Obj → Prop
  | .function f => ∀ s ∈ f.body, s.Familiar
  | .lambda _ body _ => body.Familiar
  | _ => True

def Store.Familiar (s : Store) : Prop := ∀ o ∈ s.objects, o.Familiar

/-- All operators in the code are known. -/
def Policy.familiar (N : Cause → Prop) : Policy where
  stmt _ _ s := s.Familiar
  expr e := e.Familiar
  name _ := True
  names _ := True
  waits op := op ∈ BinaryOp.known
  joins op := op.joins = true
  signs op := op ∈ UnaryOp.known
  word _ := True
  fault f := ∀ e, f = .error e → e.cause.Owned N
  part hs he := hs.part he
  inner he hf := he.part hf
  branch h hs := by
    rcases hs with hs | ⟨ss, rfl, hs⟩
    · exact h.body List.mem_cons_self _ hs
    · exact h.body (List.mem_cons_of_mem _ (List.mem_singleton.mpr rfl)) _ hs
  loop h hs := h.body List.mem_cons_self _ hs
  each h hs := h.body List.mem_cons_self _ hs
  function h := ⟨trivial, trivial, h.body List.mem_cons_self⟩
  class_ h := ⟨trivial, fun d hd => ⟨trivial, trivial, h.body (List.mem_map_of_mem hd)⟩⟩
  call _ := trivial
  no_names := trivial
  fewer _ _ := trivial
  assign {_ _ _ _ op _} h b hb := by
    have known : ∀ op ∈ AssignOp.known, ∀ b ∈ op.combine?, b.joins = true := by decide
    exact known op h.self b hb
  binary h := h.self
  unary h := h.self
  joined {op} h ha ho := by
    have known : ∀ op ∈ BinaryOp.known, op ≠ .and_ → op ≠ .or_ → op.joins = true := by decide
    exact known op h ha ho
  word_name _ := trivial
  word_joins _ := trivial
  word_signs _ := trivial
  ruled h e he := .inl ((h e he).imp fun _ => And.left)
  attach {f} h loc := by
    cases f with
    | error e =>
      rintro _ ⟨⟩
      rw [e.attach_cause]
      exact h e rfl
    | endless | foreign => exact h
  unjoined h hop _ := by rw [h] at hop; cases hop
  unsigned h hop _ := absurd h hop
  stray {_ _ _ f} _ _ _ loc := by
    cases f <;> rintro _ ⟨⟩ <;> exact .inl ⟨_, rfl⟩

theorem Store.under_familiar {N : Cause → Prop} {s : Store} :
    s.Under (.familiar N) ↔ s.Familiar := by
  refine forall₂_congr fun o _ => ?_
  cases o with
  | function f => exact and_iff_left ⟨trivial, trivial⟩
  | _ => exact Iff.rfl

namespace Execution

variable {N : Cause → Prop} {setup : Setup σ} {m : Machine σ}

/-- Executions of code whose operators are known, none of which has failed for another cause than
those of the language and certain ones. -/
def Familiar (N : Cause → Prop) : Execution σ → Prop
  | fresh q => ∀ s ∈ q.statements, s.Familiar
  | suspended r => r.Under (.familiar N)
  | drained => True
  | ended s => ∀ e, s = .failed e → e.cause.Owned N

theorem owned_errorOf {f : Fault} (hf : (Policy.familiar N).fault f) :
    (errorOf m f).cause.Owned N := by
  unfold errorOf
  cases f with
  | error e =>
    have placed : (e.attach m.current).cause.Owned N := e.attach_cause _ ▸ hf e rfl
    cases m.log.last <;> exact placed
  | endless | foreign text => cases m.log.last <;> exact .inl ⟨_, rfl⟩

variable (hosts : (Policy.familiar N).Hosts setup) (hm : m.world.store.Under (.familiar N))

include hosts hm

theorem report_familiar {f : Fault} (hf : (Policy.familiar N).fault f) :
    (report setup f m).1.cause.Owned N ∧ (report setup f m).2.world.store.Under (.familiar N) := by
  have emitted := Act.obeys_emit hosts (.onError (errorOf m f)) m hm
  simp only [report]
  split
  · next n e => exact ⟨owned_errorOf hf, (Act.ensures_of_ok emitted e).1⟩
  · next n e =>
    obtain ⟨hn, raised⟩ := Act.ensures_of_error emitted e
    exact ⟨raised _ rfl, hn⟩
  · next n _ e =>
    obtain ⟨hn, raised⟩ := Act.ensures_of_error emitted e
    exact ⟨owned_errorOf raised, hn⟩

theorem close_familiar :
    (close setup m).2.1.Familiar N ∧ (close setup m).2.2.world.store.Under (.familiar N) := by
  have emitted := Act.obeys_emit hosts .programEnd m hm
  unfold close
  split
  · next f n e =>
    obtain ⟨hn, raised⟩ := Act.ensures_of_error emitted e
    refine ⟨?_, hn⟩
    rintro _ ⟨⟩
    split
    · exact raised _ rfl
    · exact owned_errorOf raised
  · next n e =>
    have hn := (Act.ensures_of_ok emitted e).1
    split
    · exact ⟨trivial, hn⟩
    · exact ⟨nofun, hn⟩

theorem settle_familiar {h : Halt σ} (hh : h.Under (.familiar N)) :
    (settle setup h m).2.1.Familiar N ∧ (settle setup h m).2.2.world.store.Under (.familiar N) := by
  have failed {f : Fault} (hf : (Policy.familiar N).fault f) :
      (Execution.ended (σ := σ) (.failed (report setup f m).1)).Familiar N ∧
        (report setup f m).2.world.store.Under (.familiar N) := by
    obtain ⟨cause, store⟩ := report_familiar hosts hm hf
    exact ⟨by rintro _ ⟨⟩; exact cause, store⟩
  cases h with
  | pause w r => cases w <;> exact ⟨hh, hm⟩
  | failed f => exact failed hh
  | finished f =>
    have flow : f.Under (.familiar N) false false := hh
    cases f with
    | normal => exact close_familiar hosts hm
    | broken | continued | returned v => exact failed (flow.stray nofun _)

omit hosts hm

theorem resume_familiar {i : Interpreter σ} (hosts : (Policy.familiar N).Hosts i.setup)
    (hm : i.machine.world.store.Under (.familiar N)) {x : Execution σ} (hx : x.Familiar N) :
    (x.resume i).2.1.Familiar N ∧ (x.resume i).2.2.machine.world.store.Under (.familiar N) := by
  have advanced (origin : Program ⊕ Resumption)
      (ho : origin.elim (Block.Under (.familiar N) false false ·.statements) (·.Under (.familiar N))) :
      (advance i origin).2.1.Familiar N ∧
        (advance i origin).2.2.machine.world.store.Under (.familiar N) := by
    have proceeded : (proceed i.setup i.count i.machine origin).Under (.familiar N) :=
      proceed_under hosts hm ho
    obtain ⟨store, halt⟩ := proceeded
    exact settle_familiar hosts store halt
  cases x with
  | fresh q => exact advanced (.inl q) hx
  | suspended r => exact advanced (.inr r) hx
  | drained => exact ⟨nofun, hm⟩
  | ended s => exact ⟨hx, hm⟩

end Execution

namespace Interpreter

/-- An interpreter and the executions on it, as calls of the host leave them: programs that are read
from texts are loaded, and executions resumed and cancelled in any order. Between two calls the host
may change the world, but adds no code with other operators. -/
inductive ServesTexts (i₀ : Interpreter σ) : Interpreter σ → List (Execution σ) → Prop where
  | start : ServesTexts i₀ i₀ []
  | load {i : Interpreter σ} {xs : List (Execution σ)} (h : ServesTexts i₀ i xs) {text file : String}
      {p : Program} (hp : Program.ofSource text file = .ok p) : ServesTexts i₀ i (xs ++ [.fresh p])
  | call {i : Interpreter σ} {xs : List (Execution σ)} {k : Nat} {x : Execution σ}
      (h : ServesTexts i₀ i xs) (hx : xs[k]? = some x) (r : Request) :
      ServesTexts i₀ (x.request i r).2.2 (xs.set k (x.request i r).2.1)
  | host {i : Interpreter σ} {xs : List (Execution σ)} (h : ServesTexts i₀ i xs) {w : World σ}
      (hw : w.store.Familiar) :
      ServesTexts i₀ { i with machine := { i.machine with world := w } } xs

variable {N : Cause → Prop} {i₀ i : Interpreter σ} {xs : List (Execution σ)}

theorem resume_setup (x : Execution σ) (i : Interpreter σ) : (x.resume i).2.2.setup = i.setup := by
  cases x <;> rfl

theorem request_familiar (hosts : (Policy.familiar N).Hosts i.setup)
    (hm : i.machine.world.store.Under (.familiar N)) {x : Execution σ} (hx : x.Familiar N)
    (r : Request) : (x.request i r).2.2.setup = i.setup ∧ (x.request i r).2.1.Familiar N ∧
      (x.request i r).2.2.machine.world.store.Under (.familiar N) := by
  cases r with
  | resume => exact ⟨resume_setup x i, x.resume_familiar hosts hm hx⟩
  | cancel =>
    cases x with
    | ended s => exact ⟨rfl, hx, hm⟩
    | fresh | suspended | drained => exact ⟨rfl, nofun, hm⟩

theorem servesTexts_familiar (hosts : (Policy.familiar N).Hosts i₀.setup)
    (hm : i₀.machine.world.store.Under (.familiar N)) (h : i₀.ServesTexts i xs) :
    i.setup = i₀.setup ∧ i.machine.world.store.Under (.familiar N) ∧ ∀ x ∈ xs, x.Familiar N := by
  induction h with
  | start => exact ⟨rfl, hm, nofun⟩
  | load h hp ih =>
    obtain ⟨setup, store, familiar⟩ := ih
    refine ⟨setup, store, List.forall_mem_append.mpr ⟨familiar, List.forall_mem_singleton.mpr ?_⟩⟩
    exact Program.familiar_ofSource hp
  | @call i xs k x h hx r ih =>
    obtain ⟨setup, store, familiar⟩ := ih
    obtain ⟨setup', familiar', store'⟩ :=
      request_familiar (setup ▸ hosts) store (familiar x (List.mem_of_getElem? hx)) r
    refine ⟨setup'.trans setup, store', fun y hy => ?_⟩
    rcases List.mem_or_eq_of_mem_set hy with hy | rfl
    · exact familiar y hy
    · exact familiar'
  | host h hw ih => exact ⟨ih.1, Store.under_familiar.mpr hw, ih.2.2⟩

end Interpreter

/-- Reading and running agree on the language. A program that is read from a text is regular. On an
interpreter to which only such programs are given, where neither extensions nor the host add code with
operators that are not known, no program fails for an operator, a statement, an expression or a target
that is not known, unless an extension has raised that error. -/
theorem texts_understood {services : Services σ} {print : String → σ → σ} {budget : Int}
    {verbose : Bool} {world : World σ} {i₀ : Interpreter σ}
    (h₀ : Interpreter.create services print budget verbose world = .ok i₀)
    (hw : world.store.Familiar)
    (hosts : ∀ w answer u, i₀.setup.Calls w answer u → w.store.Familiar → u.store.Familiar)
    {text file : String} {p : Program} (hp : Program.ofSource text file = .ok p) :
    p.Regular ∧ ∀ i xs, i₀.ServesTexts i xs → ∀ e, .ended (.failed e) ∈ xs →
      (∃ w raised u, i₀.setup.Calls w (some (.error raised)) u ∧ raised.cause = e.cause) ∨
      (∀ op, e.cause ≠ .unknownOperator op) ∧
      ∀ word : String, (∀ c ∈ word.toList, c ∉ [' ', '(']) → e.message ∉ Cause.unknownTexts word := by
  refine ⟨Program.regular_ofSource hp, fun i xs serves e he => ?_⟩
  let N (c : Cause) : Prop :=
    ∃ w raised u, i₀.setup.Calls w (some (.error raised)) u ∧ raised.cause = c
  have obey : (Policy.familiar N).Hosts i₀.setup := by
    refine ⟨fun _ _ => trivial, fun {w u answer} call store => ⟨?_, ?_⟩⟩
    · exact Store.under_familiar.mpr (hosts w answer u call (Store.under_familiar.mp store))
    · rintro _ rfl raised rfl
      exact .inr ⟨w, raised, u, call, rfl⟩
  have opened : i₀.machine.world.store.Under (.familiar N) := by
    rw [Interpreter.create_eq h₀]
    exact opening_under services (Store.under_familiar.mpr hw)
  obtain ⟨-, -, familiar⟩ := Interpreter.servesTexts_familiar obey opened serves
  rcases familiar _ he e rfl with ⟨rule, own⟩ | raised
  · refine .inr ⟨fun op hop => ?_, fun word hword => Cause.message_known own hword⟩
    rw [hop] at own
    cases own
  · exact .inl raised

def callerPlace (column : Nat) : Location := ⟨"caller", 1, column, "f('a', k='b')"⟩

/-- A call of a function that is not there. -/
def caller : Program :=
  let call : Expr := .call (callerPlace 2) (.name (callerPlace 1) "f")
    [.literal (callerPlace 3) (.str "a")] [("k", .literal (callerPlace 10) (.str "b"))]
  ⟨⟨"caller", 2, 1, ""⟩, [.expr (callerPlace 1) call]⟩

theorem texts_understood_calling :
    Interpreter.create .empty (fun _ w => w) 100 false ⟨.empty, ()⟩ = .ok mute ∧
    Program.ofSource "f('a', k='b')\n" "caller" = .ok caller ∧
    (callerPlace 3).Before (callerPlace 10) ∧
    ∃ i e, mute.ServesTexts i [.ended (.failed e)] ∧ e.message = "Undefined variable 'f'" ∧
      ∀ op, e.cause ≠ .unknownOperator op := by
  have created : Interpreter.create .empty (fun _ w => w) 100 false ⟨.empty, ()⟩ = .ok mute := rfl
  have familiar : Store.empty.Familiar := fun o ho => by cases ho; contradiction
  have read : Program.ofSource "f('a', k='b')\n" "caller" = .ok caller := by cbv
  have silent {w u : World Unit} {answer : Option Fault} : ¬mute.setup.Calls w answer u :=
    Setup.not_calls rfl
  obtain ⟨regular, understood⟩ :=
    texts_understood created familiar (fun _ _ _ call => absurd call silent) read
  have spoken := Program.Says.part (.top (p := caller) List.mem_cons_self) List.mem_cons_self
  have before := regular.arguments spoken List.mem_cons_self .refl List.mem_cons_self .refl
  have loaded : mute.ServesTexts mute [.fresh caller] := .load .start read
  have ran : ((Execution.fresh caller).resume mute).2.1 =
      .ended (.failed ⟨.undefined "f", some (callerPlace 1), some 0⟩) := by cbv
  have served : mute.ServesTexts ((Execution.fresh caller).resume mute).2.2
      [((Execution.fresh caller).resume mute).2.1] := .call (k := 0) loaded rfl .resume
  rw [ran] at served
  refine ⟨created, read, before, _, _, served, rfl, ?_⟩
  rcases understood _ _ served _ List.mem_cons_self with ⟨w, raised, u, call, -⟩ | ⟨known, -⟩
  · exact absurd call silent
  · exact known

end LoopScript
