import LoopScript.Scope

/-!
How computations on a store end: with a value of one kind, or with a fault of one kind.
-/

namespace LoopScript

variable {α β : Type}

def Ends (P : α → Prop) (E : Fault → Prop) : Except Fault α → Prop
  | .ok a => P a
  | .error f => E f

/-- What faults a computation may end with. -/
abbrev Raises (E : Fault → Prop) (x : Except Fault α) : Prop := Ends (fun _ => True) E x

section Ends

variable {P Q : α → Prop} {E F : Fault → Prop}

theorem Ends.ok {x : Except Fault α} {a : α} (h : Ends P E x) (e : x = .ok a) : P a := by
  rwa [e] at h

theorem Ends.error {x : Except Fault α} {f : Fault} (h : Ends P E x) (e : x = .error f) : E f := by
  rwa [e] at h

theorem Ends.mono {x : Except Fault α} (h : Ends P E x) (hp : ∀ a, P a → Q a)
    (he : ∀ f, E f → F f) : Ends Q F x := by
  cases x with
  | ok a => exact hp a h
  | error f => exact he f h

theorem Ends.with_eq {x : Except Fault α} (h : Ends P E x) : Ends (fun a => P a ∧ x = .ok a) E x := by
  cases x with
  | ok a => exact ⟨h, rfl⟩
  | error f => exact h

theorem ends_bind {P : β → Prop} {x : Except Fault α} {f : α → Except Fault β} (hx : Ends Q E x)
    (hf : ∀ a, Q a → Ends P E (f a)) : Ends P E (x >>= f) := by
  cases x with
  | ok a => exact hf a hx
  | error f => exact hx

theorem ends_map {P : β → Prop} {x : Except Fault α} {f : α → β} (hx : Ends (fun a => P (f a)) E x) :
    Ends P E (f <$> x) := by
  cases x with
  | ok a => exact hx
  | error f => exact hx

theorem ends_mapM {P : β → Prop} {f : α → Except Fault β} (l : List α)
    (h : ∀ a ∈ l, Ends P E (f a)) : Ends (fun bs => ∀ b ∈ bs, P b) E (l.mapM f) := by
  induction l with
  | nil => exact fun b hb => absurd hb List.not_mem_nil
  | cons a l ih =>
    rw [List.mapM_cons]
    refine ends_bind (h a List.mem_cons_self) fun b hb => ?_
    refine ends_bind (ih fun a ha => h a (List.mem_cons_of_mem _ ha)) fun bs hbs => ?_
    exact List.forall_mem_cons.mpr ⟨hb, hbs⟩

theorem raises_mapM {f : α → Except Fault β} (l : List α) (h : ∀ a ∈ l, Raises E (f a)) :
    Raises E (l.mapM f) :=
  (ends_mapM l h).mono (fun _ _ => trivial) fun _ h => h

theorem ends_foldlM {P : β → Prop} {f : β → α → Except Fault β} {b : β} (l : List α) (hb : P b)
    (h : ∀ b, P b → ∀ a ∈ l, Ends P E (f b a)) : Ends P E (l.foldlM f b) := by
  induction l generalizing b with
  | nil => exact hb
  | cons a l ih =>
    rw [List.foldlM_cons]
    refine ends_bind (h b hb a List.mem_cons_self) fun b hb => ?_
    exact ih hb fun b hb a ha => h b hb a (List.mem_cons_of_mem _ ha)

end Ends

namespace Store

variable (s : Store)

/-- Only a value inside which containers lie without end has no text. -/
theorem ends_textWithin (n : Nat) (v : Value) :
    Raises (· = .endless) (s.textWithin n v) := by
  induction n generalizing v with
  | zero =>
    unfold textWithin
    split
    · trivial
    · split <;> trivial
  | succ n ih =>
    unfold textWithin
    split
    · trivial
    · split
      · trivial
      · trivial
      · next h =>
        cases h
        exact ends_bind (raises_mapM _ fun v _ => ih v) fun _ _ => trivial
      · next h =>
        cases h
        refine ends_bind (raises_mapM _ fun e _ => ?_) fun _ _ => trivial
        exact ends_bind (ih _) fun _ _ => ends_bind (ih _) fun _ _ => trivial
      all_goals trivial

theorem ends_text (v : Value) : Raises (· = .endless) (s.text v) :=
  s.ends_textWithin _ v

theorem ends_snapshot (i : ScopeId) : Raises (· = .endless) (s.snapshot i) :=
  raises_mapM _ fun _ _ => ends_bind (s.ends_text _) fun _ _ => trivial

end Store

end LoopScript
