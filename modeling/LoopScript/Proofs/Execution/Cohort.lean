import LoopScript.Proofs.Execution.Finality
import LoopScript.Proofs.Execution.Reuse
import LoopScript.Proofs.Relocation.Executions

/-!
Executions that share an interpreter, and what each of them may use of it.
-/

namespace LoopScript

section Opening

def Link.opening (globals : ScopeId) (size : Nat) (usable assignable : Set String)
    (h : assignable ⊆ usable) : Link where
  objects a b := a = b ∧ a < size
  scopes i j := i = globals ∧ j = globals
  objects_iff := by
    rintro a _ a' _ ⟨rfl, -⟩ ⟨rfl, -⟩
    exact Iff.rfl
  scopes_iff := by
    rintro i j i' j' ⟨rfl, rfl⟩ ⟨rfl, rfl⟩
    exact iff_of_true rfl rfl
  root := globals
  root_linked := ⟨rfl, rfl⟩
  usable _ := usable
  assignable _ := assignable
  assignable_subset _ := h

variable {σ : Type} (host : σ)

theorem opening_store : (Interpreter.opening .empty ⟨.empty, host⟩).world.store =
    ⟨(CoreFunction.all.map fun f => .builtin f.name).toArray,
      #[⟨none, CoreFunction.all.zipIdx.map fun (f, a) => (f.name, .ref a)⟩]⟩ :=
  rfl

theorem opening_objects {a : Addr}
    (h : a < (Interpreter.opening .empty ⟨.empty, host⟩).world.store.objects.size) :
    ∃ name, (Interpreter.opening .empty ⟨.empty, host⟩).world.store.objects[a]? =
      some (.builtin name) := by
  rw [opening_store] at h ⊢
  rw [List.size_toArray, List.length_map] at h
  exact ⟨CoreFunction.all[a].name, by simp [h]⟩

theorem opening_moved {N W : Set String} (h : W ⊆ N) :
    let m := Interpreter.opening .empty ⟨.empty, host⟩
    m.Moved (.opening m.globals m.world.store.objects.size N W h) m := by
  intro m
  refine ⟨⟨?_, ?_, ?_⟩, rfl, rfl⟩
  · rintro a _ ⟨rfl, ha⟩
    obtain ⟨name, e⟩ := opening_objects host ha
    exact ⟨_, _, e, e, .builtin name⟩
  · rintro i j ⟨rfl, -⟩ hi
    exact absurd rfl hi
  · refine ⟨_, _, rfl, rfl, rfl, rfl, fun x _ => Table.get?_alike (List.forall₂_same.mpr ?_) x⟩
    change ∀ e ∈ CoreFunction.all.zipIdx.map fun (f, a) => (f.name, Value.ref a), _
    intro e he
    obtain ⟨⟨f, a⟩, hf, rfl⟩ := List.mem_map.mp he
    exact ⟨rfl, .ref ⟨rfl, List.snd_lt_of_mem_zipIdx hf⟩⟩

end Opening

namespace Execution

variable {σ : Type} (x : Execution σ) (i : Interpreter σ)

theorem cancel_ended : ∃ s, x.cancel = (s, .ended s) ∧ (x = .ended s ∨ s = .cancelled) := by
  cases x with
  | fresh | suspended | drained => exact ⟨_, rfl, .inr rfl⟩
  | ended s => exact ⟨s, rfl, .inl rfl⟩

theorem request_keeps (r : Request) : (x.request i r).2.2.setup = i.setup ∧
    (x.request i r).2.2.machine.globals = i.machine.globals := by
  cases r with
  | cancel => exact ⟨rfl, rfl⟩
  | resume =>
    refine ⟨?_, resume_respects x i (respects_globals i.setup)⟩
    cases x with
    | fresh | suspended | drained | ended => rfl

/-- Only a program that has ended can fail to answer, and only if no call is left to close. -/
theorem resume_error {e : String} (h : (x.resume i).1 = .error e) :
    e = emptyStack ∧ (x.resume i).2.1 = .drained ∧ (x.resume i).2.2.machine.calls = [] := by
  have settled (halt : Halt σ) (m : Machine σ) (h : (settle i.setup halt m).1 = .error e) :
      e = emptyStack ∧ (settle i.setup halt m).2.1 = .drained ∧
        (settle i.setup halt m).2.2.calls = [] := by
    cases halt with
    | pause w r => cases w <;> cases h
    | failed f => cases h
    | finished f =>
      cases f with
      | broken | continued | returned v => cases h
      | normal =>
        simp only [settle, close] at h ⊢
        split at h
        · cases h
        · split at h
          · next hc =>
            cases h
            simp only [hc, and_self]
          · cases h
  cases x with
  | fresh p => exact settled _ _ h
  | suspended r => exact settled _ _ h
  | drained | ended s => cases h

theorem resume_ne_cancelled (h : x ≠ .ended .cancelled) : (x.resume i).2.1 ≠ .ended .cancelled := by
  have settled (halt : Halt σ) (m : Machine σ) :
      (settle i.setup halt m).2.1 ≠ .ended .cancelled := by
    cases halt with
    | pause w r => cases w <;> simp [settle]
    | failed f => simp [settle]
    | finished f =>
      cases f with
      | broken | continued | returned v => simp [settle]
      | normal =>
        simp only [settle, close]
        split
        · simp
        · split <;> simp
  cases x with
  | fresh p => exact settled _ _
  | suspended r => exact settled _ _
  | drained => simp [resume]
  | ended s => exact h

end Execution

/-- Executions that share an interpreter, and the lines that each of them has printed. -/
structure Cohort (ι : Type) where
  interpreter : Interpreter (List String)
  execution : ι → Execution (List String)
  output : ι → List String

namespace Cohort

variable {ι : Type}

def start (i : Interpreter (List String)) (p : ι → Program) : Cohort ι :=
  ⟨i, fun k => .fresh (p k), fun _ => []⟩

def store (x : Cohort ι) : Store := x.interpreter.machine.world.store

/-- Programs that keep to names of their own: none uses a global name that another one assigns or
defines. The first sets are the names that the programs use, the second those that they assign. -/
structure Separate (p : ι → Program) (N W : ι → Set String) : Prop where
  within : ∀ k, (p k).Within (N k) (W k)
  subset : ∀ k, W k ⊆ N k
  disjoint : ∀ j k, j ≠ k → Disjoint (W j) (N k)

/-- What each execution may use: nothing of it is for another one but the built-in functions, and each
has global names of its own. -/
structure Confined (i : Interpreter (List String)) (p : ι → Program) (N W : ι → Set String)
    (D : ι → Link) (x : Cohort ι) : Prop where
  setup : x.interpreter.setup = i.setup
  globals : x.interpreter.machine.globals = i.machine.globals
  forced : x.interpreter.machine.forced = []
  root : ∀ k, (D k).root = i.machine.globals
  usable : ∀ k, (D k).usable (D k).root = N k
  assignable : ∀ k, (D k).assignable (D k).root = W k
  inside : ∀ k, (D k).region.Inside x.store
  apart : ∀ j k, j ≠ k → x.store.Apart (D j).region (D k).region
  stands : ∀ k, (x.execution k).Stands (p k) (D k) x.store

/-- An execution beside itself on an interpreter of its own, where it comes to its end. -/
structure Tracked (i : Interpreter (List String)) (p : Program) (N W : Set String) (D : ι → Link)
    (final : Machine (List String)) (k : ι) (x : Cohort ι) (left : Nat) (L : Link) : Prop where
  root : L.root = i.machine.globals
  usable : L.usable L.root = N
  assignable : L.assignable L.root = W
  inside : L.target.Inside x.store
  apart : ∀ j, j ≠ k → x.store.Apart L.target (D j).region
  abreast : (x.execution k).Abreast i p final L x.interpreter.machine (x.output k) left

end Cohort

section Start

variable {ι : Type} {p : ι → Program} {N W : ι → Set String} (hp : Cohort.Separate p N W)
  {i : Interpreter (List String)} (hm : i.machine = Interpreter.opening .empty ⟨.empty, []⟩)

include hp hm

theorem confined_start :
    (Cohort.start i p).Confined i p N W fun k =>
      .opening i.machine.globals i.machine.world.store.objects.size (N k) (W k) (hp.subset k) := by
  have moved (k : ι) := opening_moved ([] : List String) (hp.subset k)
  have builtins {a : Addr} := opening_objects ([] : List String) (a := a)
  rw [← hm] at moved builtins
  refine ⟨rfl, rfl, by rw [Cohort.start, hm]; rfl, fun _ => rfl, fun _ => rfl, fun _ => rfl,
    fun k => (moved k).store.inside, fun j k _ => ⟨?_, ?_⟩, fun k => ⟨rfl, (moved k).store⟩⟩
  · rintro a ha -
    exact builtins ((moved j).store.inside.objects a ha)
  · rintro i (⟨_, rfl, -⟩ | ⟨_, -, rfl⟩) -
    · rfl
    · rfl

theorem tracked_start {final : Machine (List String)} (k : ι) {len : Nat}
    (completes : i.setup.Completes final len ((p k).start i.machine.globals) i.machine.opened) :
    ∃ D L, (Cohort.start i p).Confined i p N W D ∧
      (Cohort.start i p).Tracked i (p k) (N k) (W k) D final k (len + 2) L := by
  have confined := confined_start hp hm
  have moved := opening_moved ([] : List String) (hp.subset k)
  rw [← hm] at moved
  refine ⟨_, _, confined, rfl, rfl, rfl, moved.store.inside_right, fun j hj => ?_, ?_⟩
  · exact (confined.apart k j hj.symm).subset Set.subset_union_right Set.subset_union_right rfl
  · exact .fresh moved completes

end Start

namespace Cohort

variable {ι : Type} [DecidableEq ι]

def request (x : Cohort ι) (k : ι) (r : Request) :
    Except String (Status (List String)) × Cohort ι :=
  let (answer, execution, i) := (x.execution k).request x.interpreter r
  let lines := i.machine.world.host.drop x.interpreter.machine.world.host.length
  (answer, ⟨i, Function.update x.execution k execution,
    Function.update x.output k (x.output k ++ lines)⟩)

def after (x : Cohort ι) (calls : List (ι × Request)) : Cohort ι :=
  calls.foldl (fun x call => (x.request call.1 call.2).2) x

theorem request_eq {x : Cohort ι} {k : ι} {r : Request}
    {v : Except String (Status (List String)) × Execution (List String) × Interpreter (List String)}
    (h : (x.execution k).request x.interpreter r = v) :
    x.request k r = (v.1, ⟨v.2.2, Function.update x.execution k v.2.1, Function.update x.output k
      (x.output k ++ v.2.2.machine.world.host.drop x.interpreter.machine.world.host.length)⟩) := by
  subst h
  rfl

end Cohort

section Requests

variable {ι : Type} {i : Interpreter (List String)} {p : ι → Program} {N W : ι → Set String}
  {D : ι → Link} {x : Cohort ι}

theorem request_roams (hs : i.setup.services = .empty) (hp : Cohort.Separate p N W)
    (h : x.Confined i p N W D) (k : ι) (r : Request) {y : Execution (List String)}
    {j : Interpreter (List String)} {a : Except String (Status (List String))}
    (e : (x.execution k).request x.interpreter r = (a, y, j)) :
    j.machine.Remains (D k).region x.store ∧ ∃ L', (D k).Alike L' ∧
      (D k).region.Grows L'.region x.store ∧ L'.region.Inside j.machine.world.store ∧
      y.Stands (p k) L' j.machine.world.store := by
  cases r with
  | resume =>
    refine resume_roams (h.setup ▸ hs) h.forced (h.globals.trans (h.root k).symm) ?_ (h.inside k)
      (h.stands k) e
    rw [h.usable, h.assignable]
    exact hp.within k
  | cancel =>
    obtain ⟨s, hc, -⟩ := (x.execution k).cancel_ended
    simp only [Execution.request, hc] at e
    cases e
    exact ⟨⟨.refl _ _, h.forced⟩, D k, ⟨rfl, rfl, rfl⟩, .refl _ _, h.inside k, trivial⟩

variable [DecidableEq ι]

theorem confined_request (hs : i.setup.services = .empty) (hp : Cohort.Separate p N W)
    (h : x.Confined i p N W D) (k : ι) (r : Request) :
    ∃ L', (x.request k r).2.Confined i p N W (Function.update D k L') ∧
      (D k).region.Grows L'.region x.store ∧ x.store.Keeps (D k).region (x.request k r).2.store := by
  obtain ⟨setup, globals⟩ := (x.execution k).request_keeps x.interpreter r
  generalize e : (x.execution k).request x.interpreter r = v at setup globals
  obtain ⟨a, y, i'⟩ := v
  obtain ⟨remains, L', alike, grows, inside, stands⟩ := request_roams hs hp h k r e
  have kept := remains.keeps
  have apart (j : ι) (hj : j ≠ k) : i'.machine.world.store.Apart (D j).region L'.region :=
    ((h.apart j k hj).grow (h.inside j) grows).keep kept
  have alikes : ∀ j, (D j).Alike (Function.update D k L' j) :=
    (Function.forall_update_iff D fun j L => (D j).Alike L).mpr ⟨alike, fun _ _ => ⟨rfl, rfl, rfl⟩⟩
  -- the links of the others stay, and all that the new link has in addition is new to the store
  rw [Cohort.request_eq e]
  refine ⟨L', ⟨setup.trans h.setup, globals.trans h.globals, remains.forced,
    fun j => (alikes j).root.trans (h.root j), fun j => (alikes j).usable.trans (h.usable j),
    fun j => (alikes j).assignable.trans (h.assignable j), ?_, ?_, ?_⟩, grows, kept⟩
  · exact (Function.forall_update_iff D fun _ L => L.region.Inside i'.machine.world.store).mpr
      ⟨inside, fun j _ => (h.inside j).keep kept⟩
  · intro j j' hne
    by_cases hj : j = k
    · subst hj
      rw [Function.update_self, Function.update_of_ne hne.symm]
      exact (apart j' hne.symm).symm ((h.root j').trans ((h.root j).symm.trans alike.root.symm))
    · by_cases hj' : j' = k
      · subst hj'
        rw [Function.update_self, Function.update_of_ne hj]
        exact apart j hj
      · rw [Function.update_of_ne hj, Function.update_of_ne hj']
        exact (h.apart j j' hne).keep kept
  · intro j
    by_cases hj : j = k
    · subst hj
      simp only [Function.update_self]
      exact stands
    · have root : (D k).root = (D j).root := (h.root k).trans (h.root j).symm
      have names : Disjoint ((D k).assignable (D k).root) ((D j).usable (D j).root) := by
        rw [h.assignable, h.usable]
        exact hp.disjoint k j (Ne.symm hj)
      have between := h.apart j k hj
      simp only [Function.update_of_ne hj]
      refine (h.stands j).keep ?_ ?_
      · exact kept.agrees (between.subset Set.subset_union_left Set.subset_union_left rfl) root names
      · exact kept.agrees (between.subset Set.subset_union_right Set.subset_union_right rfl) root names

theorem printed_append (hi : i.setup.print = fun line out => out ++ [line])
    (lines out : List String) : i.setup.printed lines out = out ++ lines := by
  induction lines generalizing out with
  | nil => exact (List.append_nil out).symm
  | cons line lines ih =>
    change i.setup.printed lines (i.setup.print line out) = _
    rw [ih, hi, List.append_assoc, List.singleton_append]

variable {final : Machine (List String)} {k : ι} {left : Nat} {L L' : Link}

theorem tracked_other (hp : Cohort.Separate p N W) (h : x.Confined i p N W D)
    (tracked : x.Tracked i (p k) (N k) (W k) D final k left L) {j : ι} (hj : j ≠ k) {r : Request}
    (grows : (D j).region.Grows L'.region x.store)
    (kept : x.store.Keeps (D j).region (x.request j r).2.store)
    (forced : (x.request j r).2.interpreter.machine.forced = []) :
    (x.request j r).2.Tracked i (p k) (N k) (W k) (Function.update D j L') final k left L := by
  have root : (D j).root = L.root := (h.root j).trans tracked.root.symm
  have names : Disjoint ((D j).assignable (D j).root) (L.usable L.root) := by
    rw [h.assignable, tracked.usable]
    exact hp.disjoint j k hj
  refine ⟨tracked.root, tracked.usable, tracked.assignable, tracked.inside.keep kept, ?_, ?_⟩
  · refine (Function.forall_update_iff D fun j' L' => j' ≠ k → Store.Apart _ L.target L'.region).mpr ?_
    refine ⟨fun _ => ?_, fun j' _ hj' => (tracked.apart j' hj').keep kept⟩
    exact ((tracked.apart j hj).grow tracked.inside grows).keep kept
  · have abreast := tracked.abreast.keep (kept.agrees (tracked.apart j hj) root names) forced
    simpa only [Cohort.request, Function.update_of_ne (Ne.symm hj)] using abreast

theorem tracked_resume (hs : i.setup.services = .empty)
    (hi : i.setup.print = fun line out => out ++ [line]) (hp : Cohort.Separate p N W)
    (h : x.Confined i p N W D) (tracked : x.Tracked i (p k) (N k) (W k) D final k left L)
    (kept : x.store.Keeps (D k).region (x.request k .resume).2.store) :
    ∃ left' L'', (x.request k .resume).2.Tracked i (p k) (N k) (W k) (Function.update D k L') final k
      left' L'' ∧ (left' < left ∨ left' = 0) := by
  have within : (p k).Within (L.usable L.root) (L.assignable L.root) := by
    rw [tracked.usable, tracked.assignable]
    exact hp.within k
  generalize e : (x.execution k).request x.interpreter .resume = v
  obtain ⟨a, y, i'⟩ := v
  rw [Cohort.request_eq e] at kept ⊢
  have goes := resume_goesOn hs h.setup (h.globals.trans tracked.root.symm) within tracked.inside
    tracked.abreast e
  cases goes with
  | @abreast L'' more left' alike grows inside host abreast less =>
    refine ⟨left', L'', ⟨alike.root.trans tracked.root, alike.usable.trans tracked.usable,
      alike.assignable.trans tracked.assignable, inside, ?_, ?_⟩, less⟩
    · intro j hj
      rw [Function.update_of_ne hj]
      have root : L.target.root = (D j).region.root := tracked.root.trans (h.root j).symm
      have apart := ((tracked.apart j hj).symm root).grow (h.inside j) grows
      exact (apart.keep kept).symm (root.symm.trans alike.root.symm)
    · simp only [Function.update_self, host, printed_append hi, List.drop_left]
      exact abreast
  | jammed hy he =>
    refine ⟨0, L, ⟨tracked.root, tracked.usable, tracked.assignable, tracked.inside.keep kept, ?_, ?_⟩,
      .inr rfl⟩
    · intro j hj
      rw [Function.update_of_ne hj]
      exact (tracked.apart j hj).keep kept
    · simp only [Function.update_self, hy]
      exact .failed _ he

theorem tracked_cancel (tracked : x.Tracked i (p k) (N k) (W k) D final k left L) :
    ∃ left', (x.request k .cancel).2.Tracked i (p k) (N k) (W k) (Function.update D k L') final k
      left' L ∧ left' ≤ left := by
  obtain ⟨s, hc, hx⟩ := (x.execution k).cancel_ended
  have abreast : ∃ left', (Execution.ended s).Abreast i (p k) final L x.interpreter.machine
      (x.output k) left' ∧ left' ≤ left := by
    rcases hx with hx | rfl
    · exact ⟨left, hx ▸ tracked.abreast, le_rfl⟩
    · exact ⟨0, .cancelled _, Nat.zero_le _⟩
  obtain ⟨left', abreast, less⟩ := abreast
  have e : (x.execution k).request x.interpreter .cancel = (.ok s, .ended s, x.interpreter) := by
    simp only [Execution.request, hc]
  rw [Cohort.request_eq e]
  refine ⟨left', ⟨tracked.root, tracked.usable, tracked.assignable, tracked.inside, ?_, ?_⟩, less⟩
  · intro j hj
    rw [Function.update_of_ne hj]
    exact tracked.apart j hj
  · simp only [Function.update_self, List.drop_length, List.append_nil]
    exact abreast

end Requests

end LoopScript
