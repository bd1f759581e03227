import LoopScript.Proofs.Execution.CallStack
import LoopScript.Proofs.Relocation.Runs

/-!
Executions on an interpreter that others use as well, resumed once.
-/

namespace LoopScript

variable {σ : Type} {setup : Setup σ}

namespace Execution

theorem settle_keeps (hh : setup.services.hooks = []) (halt : Halt σ) (m : Machine σ) :
    (settle setup halt m).2.2.world = m.world ∧ (settle setup halt m).2.2.forced = m.forced := by
  have reported (f : Fault) : (report setup f m).2 = m := by rw [report_silent hh]
  cases halt with
  | pause w r => cases w <;> exact ⟨rfl, rfl⟩
  | failed f => simp only [settle, reported, and_self]
  | finished f =>
    cases f with
    | normal =>
      simp only [settle, close_silent hh]
      split <;> exact ⟨rfl, rfl⟩
    | broken | continued | returned v => simp only [settle, reported, and_self]

/-- What an execution may still use: the program is yet to be started, or what is left of it stays within
the links. -/
def Stands (p : Program) (L : Link) (s : Store) : Execution σ → Prop
  | fresh q => q = p ∧ s.Moved L s
  | suspended r => s.Moved L s ∧ r.Moved L r
  | drained | ended _ => True

theorem Stands.keep {p : Program} {L : Link} {s s' : Store} {x : Execution σ} (h : x.Stands p L s)
    (source : s.Agrees L.source s') (target : s.Agrees L.target s') : x.Stands p L s' := by
  cases x with
  | fresh q => exact ⟨h.1, h.2.agree source target⟩
  | suspended r => exact ⟨h.1.agree source target, h.2⟩
  | drained | ended => trivial

theorem settle_stands {p : Program} {L : Link} {s : Store} (halt : Halt σ) (m : Machine σ)
    (h : ∀ w r, halt = .pause w r → s.Moved L s ∧ r.Moved L r) :
    (settle setup halt m).2.1.Stands p L s := by
  cases halt with
  | pause w r => cases w <;> exact h _ r rfl
  | failed f => trivial
  | finished f =>
    cases f with
    | normal =>
      simp only [settle, close]
      split
      · trivial
      · split <;> trivial
    | broken | continued | returned v => trivial

end Execution

section Resume

variable {i : Interpreter σ} {p : Program} {L : Link} (hs : i.setup.services = .empty)

include hs

theorem advance_roams {origin : Program ⊕ Resumption}
    (h : (Execution.proceed i.setup i.count i.machine origin).Roams L i.machine.world.store)
    (inside : L.region.Inside i.machine.world.store) {y : Execution σ} {j : Interpreter σ}
    {a : Except String (Status σ)} (e : Execution.advance i origin = (a, y, j)) :
    j.machine.Remains L.region i.machine.world.store ∧ ∃ L', L.Alike L' ∧
      L.region.Grows L'.region i.machine.world.store ∧ L'.region.Inside j.machine.world.store ∧
      y.Stands p L' j.machine.world.store := by
  obtain ⟨remains, pause⟩ := h
  simp only [Execution.advance] at e
  generalize Execution.proceed i.setup i.count i.machine origin = h at remains pause e
  obtain ⟨world, forced⟩ := Execution.settle_keeps (i.setup.hooks_of_empty hs) h.halt h.machine
  have stands {L' : Link} : (∀ w r, h.halt = .pause w r →
      h.machine.world.store.Moved L' h.machine.world.store ∧ r.Moved L' r) →
      (Execution.settle i.setup h.halt h.machine).2.1.Stands p L' h.machine.world.store :=
    Execution.settle_stands h.halt h.machine
  generalize Execution.settle i.setup h.halt h.machine = v at world forced stands e
  obtain ⟨answer, y', m⟩ := v
  dsimp only at world forced stands e
  cases e
  have kept : m.Remains L.region i.machine.world.store :=
    ⟨world ▸ remains.keeps, forced.trans remains.forced⟩
  refine ⟨kept, ?_⟩
  rw [world]
  by_cases paused : ∃ w r, h.halt = .pause w r
  · obtain ⟨w, r, paused⟩ := paused
    obtain ⟨L', evolves, hm, hr⟩ := pause w r paused
    refine ⟨L', evolves.alike, evolves.region_grows, hm.store.inside, stands fun w' r' e => ?_⟩
    cases paused.symm.trans e
    exact ⟨hm.store, hr⟩
  · exact ⟨L, ⟨rfl, rfl, rfl⟩, .refl _ _, inside.keep remains.keeps,
      stands fun w r e => absurd ⟨w, r, e⟩ paused⟩

/-- An execution that is resumed changes nothing but what it may use, and may use only what it has made
besides. -/
theorem resume_roams {x : Execution σ} (hf : i.machine.forced = [])
    (hg : i.machine.globals = L.root) (hp : p.Within (L.usable L.root) (L.assignable L.root))
    (inside : L.region.Inside i.machine.world.store) (hx : x.Stands p L i.machine.world.store)
    {y : Execution σ} {j : Interpreter σ} {a : Except String (Status σ)}
    (e : x.resume i = (a, y, j)) :
    j.machine.Remains L.region i.machine.world.store ∧ ∃ L', L.Alike L' ∧
      L.region.Grows L'.region i.machine.world.store ∧ L'.region.Inside j.machine.world.store ∧
      y.Stands p L' j.machine.world.store := by
  cases x with
  | fresh q =>
    obtain ⟨rfl, hm⟩ := hx
    exact advance_roams hs (proceed_roams hs i.count ⟨hm, hf, hf⟩ hg hp) inside e
  | suspended r =>
    obtain ⟨hm, hr⟩ := hx
    exact advance_roams hs (resumeFrom_roams hs i.count ⟨hm, hf, hf⟩ hr) inside e
  | drained | ended s =>
    cases e
    exact ⟨⟨.refl _ _, hf⟩, L, ⟨rfl, rfl, rfl⟩, .refl _ _, inside, trivial⟩

end Resume

section Beside

/-- The causes of failures that nothing but the calls in progress bring about. -/
def Cause.Jams (c : Cause) : Prop := c = .callsTooDeep ∨ c = .internal Execution.emptyStack

theorem jammed_cause {m : Machine σ} {f : Fault} (h : setup.Jammed m.calls f) :
    (Execution.errorOf m f).cause.Jams := by
  cases h with
  | full loc h =>
    simp only [Execution.errorOf]
    split <;> exact .inl rfl
  | empty h =>
    simp only [Execution.errorOf]
    split <;> exact .inr rfl
  | hidden h =>
    simp only [Execution.errorOf]
    split <;> exact .inl rfl

/-- Where an execution stands on a machine that others use as well, and which lines it has printed, while
on an interpreter of its own it comes to its end. The number says how often it can still be resumed. -/
inductive Execution.Abreast (i : Interpreter σ) (p : Program) (final : Machine σ) (L : Link)
    (n : Machine σ) : List String → Nat → Execution σ → Prop where
  | fresh {len : Nat} (h : i.machine.Moved L n)
      (completes : i.setup.Completes final len (p.start L.root) i.machine.opened) :
      Abreast i p final L n [] (len + 2) (.fresh p)
  | suspended {lines : List String} {len : Nat} {r r' : Resumption} {m : Machine σ}
      (h : m.Moved L n) (hr : r.Moved L r') (resumes : i.setup.Resumes final len r m)
      (hl : m.world.host = i.setup.printed lines i.machine.world.host) :
      Abreast i p final L n lines (len + 2) (.suspended r')
  | drained {lines : List String} (h : final.Moved L n)
      (hl : final.world.host = i.setup.printed lines i.machine.world.host) :
      Abreast i p final L n lines 1 .drained
  | completed {lines : List String} (h : final.Moved L n)
      (hl : final.world.host = i.setup.printed lines i.machine.world.host) :
      Abreast i p final L n lines 0 (.ended .completed)
  | cancelled (lines : List String) : Abreast i p final L n lines 0 (.ended .cancelled)
  | failed (lines : List String) {e : RuntimeError} (h : e.cause.Jams) :
      Abreast i p final L n lines 0 (.ended (.failed e))

variable {i j j' : Interpreter σ} {p : Program} {final : Machine σ} {L : Link} {lines : List String}
  {left : Nat} {x y : Execution σ} {a : Except String (Status σ)}

theorem Execution.Abreast.keep {n n' : Machine σ} (h : x.Abreast i p final L n lines left)
    (agrees : n.world.store.Agrees L.target n'.world.store) (hf : n'.forced = []) :
    x.Abreast i p final L n' lines left := by
  have moved {m : Machine σ} (h : m.Moved L n) : m.Moved L n' :=
    ⟨h.store.agree (.refl _ _) agrees, h.left, hf⟩
  cases h with
  | fresh h completes => exact .fresh (moved h) completes
  | suspended h hr resumes hl => exact .suspended (moved h) hr resumes hl
  | drained h hl => exact .drained (moved h) hl
  | completed h hl => exact .completed (moved h) hl
  | cancelled lines => exact .cancelled lines
  | failed lines h => exact .failed lines h

/-- An execution that has gone on from a machine to another, and is still abreast of itself on an
interpreter of its own or has failed over the calls in progress. -/
inductive Execution.GoesOn (i : Interpreter σ) (p : Program) (final : Machine σ) (L : Link)
    (n n' : Machine σ) (lines : List String) (left : Nat) (y : Execution σ) : Prop where
  | abreast {L' : Link} {more : List String} {left' : Nat} (alike : L.Alike L')
      (grows : L.target.Grows L'.target n.world.store) (inside : L'.target.Inside n'.world.store)
      (host : n'.world.host = i.setup.printed more n.world.host)
      (h : y.Abreast i p final L' n' (lines ++ more) left') (less : left' < left ∨ left' = 0) :
      GoesOn i p final L n n' lines left y
  | jammed {e : RuntimeError} (hy : y = .ended (.failed e)) (he : e.cause.Jams) :
      GoesOn i p final L n n' lines left y

variable (hs : i.setup.services = .empty)

include hs

theorem settle_goesOn {len : Nat} {m n : Machine σ} {h : Halted σ}
    (hl : m.world.host = i.setup.printed lines i.machine.world.host)
    (follows : i.setup.Follows final len L m n h) :
    (Execution.settle i.setup h.halt h.machine).2.1.GoesOn i p final L n
      (Execution.settle i.setup h.halt h.machine).2.2 lines (len + 2) := by
  have hh := i.setup.hooks_of_empty hs
  have lines_append {more : List String} {m' : Machine σ}
      (h : m'.world.host = i.setup.printed more m.world.host) :
      m'.world.host = i.setup.printed (lines ++ more) i.machine.world.host := by
    rw [h, hl, Setup.printed, Setup.printed, Setup.printed, List.foldl_append]
  cases follows with
  | @pause w r r' count len' m' n' L' more h hr resumes hlen =>
    have goes : (Execution.suspended r').GoesOn i p final L n n' lines (len + 2) :=
      .abreast h.evolves.alike h.evolves.target_grows h.moved.store.inside_right h.right
        (.suspended h.moved hr resumes (lines_append h.left)) (.inl (by omega))
    cases w with
    | none => exact goes
    | some w => exact goes
  | @finished count n' L' more h =>
    simp only [Execution.settle, close_silent hh]
    split
    · exact .abreast h.evolves.alike h.evolves.target_grows h.moved.store.inside_right h.right
        (.drained h.moved (lines_append h.left)) (.inl (by omega))
    · have moved := h.moved
      exact .abreast h.evolves.alike h.evolves.target_grows h.moved.store.inside_right h.right
        (.completed ⟨moved.store, moved.left, moved.right⟩ (lines_append h.left)) (.inr rfl)
  | failed h =>
    simp only [Execution.settle, report_silent hh]
    exact .jammed rfl (jammed_cause h)

theorem resume_goesOn (same : j.setup = i.setup) (hg : j.machine.globals = L.root)
    (hp : p.Within (L.usable L.root) (L.assignable L.root))
    (inside : L.target.Inside j.machine.world.store)
    (h : x.Abreast i p final L j.machine lines left) (e : x.resume j = (a, y, j')) :
    y.GoesOn i p final L j.machine j'.machine lines left := by
  obtain ⟨setup, n, count⟩ := j
  dsimp only at same hg inside h e ⊢
  subst same
  have stays {s : Status σ} (hy : y = .ended s) (hj : j' = ⟨i.setup, n, count⟩)
      (h : y.Abreast i p final L n lines 0) : y.GoesOn i p final L n j'.machine lines left := by
    subst hj
    exact .abreast ⟨rfl, rfl, rfl⟩ (.refl _ _) inside rfl ((List.append_nil lines).symm ▸ h) (.inr rfl)
  cases h with
  | fresh h completes =>
    have follows := proceed_follows hs count h hg hp completes
    cases e
    exact settle_goesOn (p := p) hs rfl follows
  | suspended h hr resumes hl =>
    have follows := resumeFrom_follows hs count h hr resumes
    cases e
    exact settle_goesOn (p := p) hs hl follows
  | drained h hl =>
    cases e
    exact stays rfl rfl (.completed h hl)
  | completed h hl =>
    cases e
    exact stays rfl rfl (.completed h hl)
  | cancelled =>
    cases e
    exact stays rfl rfl (.cancelled lines)
  | failed _ he =>
    cases e
    exact stays rfl rfl (.failed lines he)

end Beside

section Lone

variable {i : Interpreter σ} {p : Program} {final : Machine σ}

theorem completes_of_comes (hh : i.setup.services.hooks = []) {c : Control} {m : Machine σ}
    (h : i.Comes (fun _ w => w) p c m) {len : Nat} (completes : i.setup.Completes final len c m) :
    ∃ len', i.setup.Completes final len' (p.start i.machine.globals) i.machine.opened := by
  induction h generalizing len with
  | @start c m h hc =>
    rw [openModule_silent hh] at h
    cases h
    rw [continueWith_block] at hc
    cases hc
    exact ⟨len, completes⟩
  | step h hc ih => exact ih (.step hc completes)
  | wait h hc hr ih => exact ih (.wait hc hr completes)

theorem completes_of_run (hh : i.setup.services.hooks = []) {n : Nat}
    (h : (i.run (fun _ w => w) p n).execution = .ended .completed) :
    ∃ final len, i.setup.Completes final len (p.start i.machine.globals) i.machine.opened ∧
      (i.run (fun _ w => w) p n).machine.world = final.world := by
  have moment : i.run (fun _ w => w) p n = ⟨none, .fresh p, i.machine⟩ ∨
      ∃ h, i.Halts (fun _ w => w) p h ∧ i.run (fun _ w => w) p n = h.moment i.setup := i.run_moment n
  rcases moment with start | ⟨⟨halt, count, m⟩, halts, hm⟩
  · rw [start] at h
    cases h
  · rw [hm] at h ⊢
    have world := (Execution.settle_keeps hh halt m).1
    cases halt with
    | pause w r => cases w <;> cases h
    | failed f => cases h
    | finished f =>
      cases f with
      | broken | continued | returned v => cases h
      | normal =>
        cases halts with
        | step from_ =>
          obtain ⟨c, m', comes, e⟩ := from_
          obtain ⟨len, completes⟩ := completes_of_comes hh comes (.finished e)
          exact ⟨m, len, completes, world⟩

end Lone

end LoopScript
