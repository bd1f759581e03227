import LoopScript.Machine.Step

/-!
Running a machine until control goes back to the host. Each task counts as one instruction, and
between two tasks only finitely many moves are possible: `Control.follows` says which of two comes
first.
-/

namespace LoopScript

namespace Context

/-- How many arguments the calls that are being prepared have, besides one each. -/
def pending : {a : Awaits} → Context a → Nat
  | _, .program => 0
  | _, .fill _ k => k.pending
  | _, .argument p k => (p.arity - 1) + k.pending
  | _, .sortKey _ k => k.pending
  | _, .mapItem _ k => k.pending

/-- A bound on the moves that a context can make for each of its layers. -/
def weight : {a : Awaits} → Context a → Nat
  | _, .program => 0
  | _, .fill _ k => k.weight + 1
  | _, .argument _ k => k.weight + 4
  | _, .sortKey s k => k.weight + 1 + 4 * s.todo.length
  | _, .mapItem m k => k.weight + 1 + 4 * m.todo.length

end Context

namespace Move

def pending : Move → Nat
  | give _ k => k.pending
  | call _ c k => (c.arity - 1) + k.pending

def weight : Move → Nat
  | give _ k => k.weight
  | call _ c k => 1 + 2 * min 1 c.arity + k.weight

end Move

namespace Control

/-- A task has neither arguments pending nor moves left. -/
def pending : Control → Nat
  | task _ => 0
  | move v => v.pending

def weight : Control → Nat
  | task _ => 0
  | move v => v.weight

end Control

/-- The order in which one control follows another between two tasks. -/
def Control.follows (c : Control) (v : Move) : Prop :=
  c.pending < v.pending ∨ c.pending ≤ v.pending ∧ c.weight < v.weight

namespace Invocation

/-- A call that a call leads to comes after it. -/
def Follows {σ : Type} (v : Move) : Invocation σ → Prop
  | react _ => True
  | again callee c k => (Control.move (.call callee c k)).follows v

end Invocation

namespace Act

variable {σ : Type}

/-- Every result of an action satisfies a property. -/
def Yields {α : Type} (x : Act σ α) (P : α → Prop) : Prop :=
  ∀ m a n, x m = .ok a n → P a

theorem yields_pure {α : Type} {P : α → Prop} {a : α} (h : P a) : Yields (σ := σ) (pure a) P := by
  intro m b n e
  cases e
  exact h

theorem yields_throw {α : Type} {P : α → Prop} (f : Fault) : Yields (σ := σ) (throw f) P := by
  intro m b n e
  cases e

theorem yields_bind {α β : Type} {P : β → Prop} {x : Act σ α} {f : α → Act σ β}
    (h : ∀ a, Yields (f a) P) : Yields (x >>= f) P := by
  intro m b n e
  simp only [bind, EStateM.bind] at e
  split at e
  · exact h _ _ _ _ e
  · cases e

theorem yields_of_bind {α β : Type} {Q : α → Prop} {P : β → Prop} {x : Act σ α} {f : α → Act σ β}
    (hx : Yields x Q) (h : ∀ a, Q a → Yields (f a) P) : Yields (x >>= f) P := by
  intro m b n e
  simp only [bind, EStateM.bind] at e
  split at e
  · next hm => exact h _ (hx _ _ _ hm) _ _ _ e
  · cases e

theorem arity_of_sortingKey {c : Call} {x key : Value} {more : List Value}
    (hargs : c.args = x :: more) (h : sortingKey? c.named more = some key) : 2 ≤ c.arity := by
  simp only [Call.arity, hargs, List.length_cons]
  cases more with
  | cons y ys => simp; omega
  | nil =>
    cases hn : c.named with
    | nil => simp [sortingKey?, hn, Table.get?] at h
    | cons y ys => simp; omega

theorem startSort_follows (setup : Setup σ) (callee : Value) (c : Call) (k : Context .value) :
    Yields (startSort setup c k) (Invocation.Follows (.call callee c k)) := by
  unfold startSort
  split
  · exact yields_throw _
  · next x more hargs =>
    iterate 4 (refine yields_bind fun _ => ?_)
    split
    · next key i todo hkey =>
      refine yields_pure (Or.inl ?_)
      have := arity_of_sortingKey hargs hkey
      simp [Control.pending, Move.pending, Context.pending, Call.arity] at this ⊢
      omega
    · exact yields_bind fun _ => yields_pure (by trivial)

theorem startMap_follows (setup : Setup σ) (name : String) (callee : Value) (c : Call)
    (k : Context .value) :
    Yields (startMap setup name c k) (Invocation.Follows (.call callee c k)) := by
  unfold startMap
  split
  · next f xs more hargs =>
    refine yields_bind fun items => ?_
    split
    · exact yields_bind fun _ => yields_pure (by trivial)
    · refine yields_pure (Or.inl ?_)
      simp only [Control.pending, Move.pending, Context.pending, Call.arity, hargs,
        List.length_cons, List.length_nil]
      omega
  · exact yields_throw _

theorem callBuiltin_follows (setup : Setup σ) (b : Builtin σ) (callee : Value) (c : Call)
    (k : Context .value) :
    Yields (callBuiltin setup b c k) (Invocation.Follows (.call callee c k)) := by
  unfold callBuiltin
  iterate 2 (refine yields_bind fun _ => ?_)
  split
  · exact startSort_follows setup callee c k
  · iterate 2 (refine yields_bind fun _ => ?_)
    exact yields_pure (by trivial)
  · iterate 2 (refine yields_bind fun _ => ?_)
    exact yields_pure (by trivial)
  · split
    · exact yields_throw _
    · next f args hargs =>
      refine yields_pure ?_
      by_cases h : c.args.length + c.named.length = 1
      · refine Or.inr ?_
        simp [Control.pending, Control.weight, Move.pending, Move.weight, Context.pending,
          Context.weight, Call.arity, hargs] at h ⊢
        omega
      · refine Or.inl ?_
        simp [Control.pending, Move.pending, Context.pending, Call.arity, hargs] at h ⊢
        omega
  · exact startMap_follows setup _ callee c k

theorem yields_notCallable {α : Type} {P : α → Prop} (callee : Value) (c : Call) :
    Yields (σ := σ) (notCallable callee c) P :=
  yields_bind fun _ => yields_throw _

theorem invoke_follows (setup : Setup σ) (callee : Value) (c : Call) (k : Context .value) :
    Yields (invoke setup callee c k) (Invocation.Follows (.call callee c k)) := by
  unfold invoke
  refine yields_bind fun s => ?_
  split
  · split
    · exact callBuiltin_follows setup _ _ c k
    · exact yields_notCallable _ c
  · exact yields_bind fun _ => yields_pure (by trivial)
  · split
    · split
      · exact yields_throw _
      · exact yields_bind fun _ => yields_pure (by trivial)
    · exact yields_notCallable _ c
  · exact yields_bind fun _ => yields_pure (by trivial)
  · exact yields_bind fun _ => yields_pure (by trivial)
  · exact yields_notCallable _ c

end Act

namespace Next

/-- Control that a move leads to comes after it. -/
def Follows {σ : Type} (v : Move) : Next σ → Prop
  | go c => c.follows v
  | _ => True

end Next

namespace Act

variable {σ : Type}

theorem continueWith_follows {b : Awaits} {k : Context b} {v : Move} (r : Reaction σ b)
    (hp : k.pending ≤ v.pending) (hw : k.weight < v.weight) : (continueWith k r).Follows v := by
  cases r with
  | give x => exact Or.inr ⟨hp, hw⟩
  | start t => exact Or.inr ⟨Nat.zero_le _, Nat.lt_of_le_of_lt (Nat.zero_le _) hw⟩
  | pause w r => trivial

theorem receive_arity (p : PendingCall) (v : Value) :
    (p.receive v).args.length + (p.receive v).named.length + (p.receive v).todo.length ≤
      p.arity := by
  cases hc : p.callee with
  | none => simp [PendingCall.receive, PendingCall.arity, hc]
  | some f =>
    cases hk : p.key with
    | none =>
      simp [PendingCall.receive, PendingCall.arity, hc, hk]
      omega
    | some key =>
      have := Table.length_put_le p.named key v
      simp [PendingCall.receive, PendingCall.arity, hc, hk]
      omega

theorem giveTo_follows (setup : Setup σ) {a : Awaits} (x : a.Input) (k : Context a) :
    Yields (giveTo setup x k) (Next.Follows (.give x k)) := by
  cases k with
  | program => exact yields_pure (by trivial)
  | fill h k =>
    refine yields_bind fun r => yields_pure (continueWith_follows r ?_ ?_)
    · simp [Move.pending, Context.pending]
    · simp [Move.weight, Context.weight]
  | argument p k =>
    simp only [giveTo]
    split
    · next h =>
      refine yields_pure ?_
      have hr := receive_arity p x
      rw [h] at hr
      simp [Next.Follows, Control.follows, Control.pending, Control.weight, Move.pending,
        Move.weight, Context.pending, Context.weight, Call.arity] at hr ⊢
      omega
    · refine yields_pure (Or.inr ?_)
      simp [Control.pending, Control.weight, Move.weight, Context.weight]
  | sortKey s k =>
    simp only [giveTo]
    split
    · refine yields_bind fun r => yields_pure (continueWith_follows _ ?_ ?_)
      · simp [Move.pending, Context.pending]
      · simp [Move.weight, Context.weight]; omega
    · next h =>
      refine yields_pure (Or.inr ?_)
      simp [Control.pending, Control.weight, Move.pending, Move.weight, Context.pending,
        Context.weight, Call.arity, h]
      omega
  | mapItem m k =>
    simp only [giveTo]
    split
    · refine yields_bind fun r => yields_pure (continueWith_follows _ ?_ ?_)
      · simp [Move.pending, Context.pending]
      · simp [Move.weight, Context.weight]; omega
    · next h =>
      refine yields_pure (Or.inr ?_)
      simp [Control.pending, Control.weight, Move.pending, Move.weight, Context.pending,
        Context.weight, Call.arity, h]
      omega

theorem advance_follows (setup : Setup σ) (v : Move) :
    Yields (advance setup v) (Next.Follows v) := by
  cases v with
  | give x k => exact giveTo_follows setup x k
  | call callee c k =>
    refine yields_of_bind (invoke_follows setup callee c k) fun r hr => ?_
    cases r with
    | react r =>
      refine yields_pure (continueWith_follows r ?_ ?_)
      · simp [Move.pending]
      · simp only [Move.weight]; omega
    | again callee c k => exact yields_pure hr

end Act

/-- Why control goes back to the host. A pause without a wait means that the budget is used up. -/
inductive Halt (σ : Type) where
  | pause (w : Option (Wait σ)) (r : Resumption)
  | finished (f : Flow)
  | failed (f : Fault)

/-- A machine that has halted, and the instructions that it has spent of its budget. -/
structure Halted (σ : Type) where
  halt : Halt σ
  count : Nat
  machine : Machine σ

variable {σ : Type}

/-- Runs a machine that has spent `count` instructions of its budget. A pause starts a new
budget. -/
def run (setup : Setup σ) (count : Nat) (c : Control) (m : Machine σ) : Halted σ :=
  match c with
  | .task t =>
    if _h : count + 1 < setup.budget then
      match Act.begin setup t m with
      | .ok c m => run setup (count + 1) c m
      | .error f m => ⟨.failed f, count + 1, m⟩
    else ⟨.pause none (.task t), 0, m⟩
  | .move v =>
    match _h : Act.advance setup v m with
    | .ok (.go c) m => run setup count c m
    | .ok (.pause w r) m => ⟨.pause (some w) r, 0, m⟩
    | .ok (.finished f) m => ⟨.finished f, count, m⟩
    | .error f m => ⟨.failed f, count, m⟩
termination_by (setup.budget - count, c.pending, c.weight)
decreasing_by
  · exact Prod.Lex.left _ _ (by omega)
  · have hf := Act.advance_follows setup v _ _ _ _h
    rcases hf with hf | ⟨hp, hw⟩
    · exact Prod.Lex.right _ (Prod.Lex.left _ _ hf)
    · rcases Nat.lt_or_eq_of_le hp with hp | hp
      · exact Prod.Lex.right _ (Prod.Lex.left _ _ hp)
      · exact Prod.Lex.right _ (hp ▸ Prod.Lex.right _ hw)

def resumeFrom (setup : Setup σ) (count : Nat) (r : Resumption) (m : Machine σ) : Halted σ :=
  match r with
  | .task t =>
    match Act.begin setup t m with
    | .ok c m => run setup count c m
    | .error f m => ⟨.failed f, count, m⟩
  | .waited name loc k =>
    match Act.emit setup (.afterCall name .none loc) m with
    | .ok _ m => run setup count (.move (.give (a := .value) .none k)) m
    | .error f m => ⟨.failed f, count, m⟩

end LoopScript
