import LoopScript.Proofs.Gap.Runs
import Mathlib

/-!
Programs that are run one after the other, each on an interpreter of its own, over the same services.
Whatever the earlier ones have made stays behind as a gap in the store. So a program comes to the same as
it does alone, unless what was registered has itself been changed.
-/

namespace LoopScript

variable {σ : Type}

structure Services.Within (s : Store) (services : Services σ) : Prop where
  enums : ∀ e ∈ services.enums, ∀ member ∈ e.2, member.2.Within s
  constants : ∀ e ∈ services.constants, e.2.Within s

namespace Interpreter

section Creation

variable {g : Gaps}

theorem allocs_past {ι : Type} (key : ι → String) {object : ι → Obj} {items : List ι}
    (ho : ∀ i ∈ items, (object i).past g = object i) {x y : Table String Value × Store}
    (ht : y.1 = Bindings.past g x.1) (hs : x.2.Opens g y.2) :
    let make := fun ((t, s) : Table String Value × Store) i =>
      let (v, s) := s.alloc (object i)
      (Table.put t (key i) v, s)
    (items.foldl make y).1 = Bindings.past g (items.foldl make x).1 ∧
      (items.foldl make x).2.Opens g (items.foldl make y).2 := by
  intro make
  induction items generalizing x y with
  | nil => exact ⟨ht, hs⟩
  | cons i items ih =>
    obtain ⟨here, rest⟩ := List.forall_mem_cons.mp ho
    have made := hs.alloc (object i)
    rw [here] at made
    refine ih rest ?_ made.2
    simp only [make, ht, made.1]
    exact Table.put_values x.1 (key i) _

theorem puts_past {entries : Table String Value} (he : ∀ e ∈ entries, e.2.past g = e.2)
    {t u : Table String Value} (ht : u = Bindings.past g t) :
    entries.foldl (fun t (name, v) => Table.put t name v) u =
      Bindings.past g (entries.foldl (fun t (name, v) => Table.put t name v) t) := by
  subst ht
  induction entries generalizing t with
  | nil => rfl
  | cons e entries ih =>
    obtain ⟨here, rest⟩ := List.forall_mem_cons.mp he
    have put := Table.put_values (u := Value.past g) t e.1 e.2
    rw [here] at put
    simp only [List.foldl_cons, put]
    exact ih rest

variable {services : Services σ} {s t : Store}

theorem globalObjects_past (whole : s.Whole) (within : services.Within s) (kept : s.KeptIn t) :
    (globalObjects services t).1 = Bindings.past (s.behind t) (globalObjects services s).1 ∧
      (globalObjects services s).2.Opens (s.behind t) (globalObjects services t).2 := by
  have members : ∀ e ∈ services.enums,
      (Obj.dict (e.2.map fun (n, v) => (.str n, v))).past (s.behind t) =
        .dict (e.2.map fun (n, v) => (.str n, v)) := by
    intro e he
    refine congrArg Obj.dict (map_fixed fun entry hentry => ?_)
    obtain ⟨member, hm, rfl⟩ := List.mem_map.mp hentry
    exact Prod.ext rfl (Value.Within.past (within.enums e he member hm))
  have functions : ∀ name ∈ CoreFunction.all.map (·.name) ++ services.builtins.keys,
      (Obj.builtin name).past (s.behind t) = .builtin name := fun _ _ => rfl
  obtain ⟨builtins, opens⟩ := allocs_past id functions (x := ([], s)) (y := ([], t)) rfl
    (whole.opens kept)
  obtain ⟨globals, opens⟩ := allocs_past Prod.fst members builtins opens
  exact ⟨puts_past (fun e he => (within.constants e he).past) globals, opens⟩

theorem opening_past {world left : World σ} (whole : world.store.Whole)
    (within : services.Within world.store) (kept : world.store.KeptIn left.store) :
    let g := world.store.behind left.store
    opening services left = (opening services world).past g (opening services left).world ∧
      (opening services world).world.store.Opens g (opening services left).world.store := by
  obtain ⟨globals, opens⟩ := globalObjects_past whole within kept
  have opened := opens.openScope none (globalObjects services world.store).1
  rw [← globals] at opened
  obtain ⟨scope, opened⟩ := opened
  refine ⟨?_, opened⟩
  exact congrArg (fun i => (⟨(opening services left).world, i, [], none, .empty, [], 0⟩ : Machine σ))
    scope

end Creation

end Interpreter

section Apart

variable (lines : σ → List String)

/-- The distance from a world to a later one that begins with it: what has been made since lies in gaps,
and of what has been printed only the lines that follow are the same. -/
def World.apart (world left : World σ) : Distance σ where
  toGaps := world.store.behind left.store
  hosts h k := ∃ news, lines h = lines world.host ++ news ∧ lines k = lines left.host ++ news

/-- Functions and handlers that keep nothing from one run to the next: they do the same to a run whatever
has been made and printed before it. -/
def Services.Stateless (s : Store) (services : Services σ) : Prop :=
  ∀ host left, services.Keep (World.apart lines ⟨s, host⟩ left)

/-- Two moments that look the same to a host, of runs that began in the given worlds: with the same
status and error, the same lines printed so far, and the same globals. -/
structure Moment.Alike (world left : World σ) (x y : Moment σ) : Prop where
  answer : y.answer.map (·.map fun s => (s.name, s.error?)) =
    x.answer.map (·.map fun s => (s.name, s.error?))
  printed : ∃ news, lines x.machine.world.host = lines world.host ++ news ∧
    lines y.machine.world.host = lines left.host ++ news
  globals : y.machine.world.store.snapshot y.machine.globals =
    x.machine.world.store.snapshot x.machine.globals

variable {lines}

theorem World.apart_goesOn {world left : World σ} {h h' k k' : σ}
    (apart : (world.apart lines left).hosts h k) {more : List String}
    (hh : lines h' = lines h ++ more) (hk : lines k' = lines k ++ more) :
    (world.apart lines left).hosts h' k' := by
  obtain ⟨news, first, second⟩ := apart
  refine ⟨news ++ more, ?_, ?_⟩
  · rw [hh, first, List.append_assoc]
  · rw [hk, second, List.append_assoc]

end Apart

theorem Status.Matches.told {d : Distance σ} {s s' : Status σ} (h : s.Matches d s') :
    (s'.name, s'.error?) = (s.name, s.error?) := by
  cases h <;> rfl

theorem Moment.Matches.alike {lines : σ → List String} {world left : World σ} {x y : Moment σ}
    (h : x.Matches (world.apart lines left) y) : x.Alike lines world left y := by
  obtain ⟨answer, -, worlds⟩ := h
  refine ⟨?_, worlds.host, worlds.store.snapshot _⟩
  cases answer with
  | none => rfl
  | some answer =>
    cases answer with
    | error e => rfl
    | ok status => exact congrArg (fun told => some (Except.ok told)) status.told

namespace Interpreter

variable {services : Services σ} {print : String → σ → σ} {lines : σ → List String}
  {world left : World σ}

theorem opening_runs_match (printed : ∀ line host, lines (print line host) = lines host ++ [line])
    (stateless : services.Stateless lines world.store) (whole : world.store.Whole)
    (within : services.Within world.store) (kept : world.store.KeptIn left.store) (budget : Nat)
    (verbose : Bool) {host host' : Wait σ → World σ → World σ}
    (answers : (world.apart lines left).Answers host host') (p : Program) (n : Nat) :
    (run ⟨⟨services, print, budget, verbose⟩, opening services world, 0⟩ host p n).Matches
      (world.apart lines left)
      (run ⟨⟨services, print, budget, verbose⟩, opening services left, 0⟩ host' p n) := by
  have keeps : Setup.Keeps (world.apart lines left) ⟨services, print, budget, verbose⟩ :=
    ⟨stateless world.host left, fun line _ _ apart =>
      World.apart_goesOn apart (printed line _) (printed line _)⟩
  obtain ⟨opened, opens⟩ := opening_past whole within kept
  have worlds : (opening services world).world.Matches (world.apart lines left)
      (opening services left).world :=
    ⟨opens, [], (List.append_nil _).symm, (List.append_nil _).symm⟩
  rw [opened]
  exact run_matches keeps answers 0 _ worlds p n

theorem create_again {budget : Int} {verbose : Bool} {i : Interpreter σ}
    (created : create services print budget verbose world = .ok i) {budget' : Int}
    (hb : 1 ≤ budget') (verbose' : Bool) (left : World σ) :
    create services print budget' verbose' left =
      .ok ⟨⟨services, print, budget'.toNat, verbose'⟩, opening services left, 0⟩ := by
  unfold create at created
  split at created
  · cases created
  · split at created
    · cases created
    · next free =>
      rw [create, if_neg (Int.not_lt.mpr hb), free]
      rfl

/-- A program on a fresh interpreter, after another has run as far as you like on one of its own, comes
to the same as it does alone: to the same answers, lines and globals, resumption by resumption. Each has
its own copies of the enumerations, but the objects that constants and members refer to are shared, so
these must be as they were; where nothing is shared, nothing is asked of the other program. -/
theorem fresh_runs_independent
    (printed : ∀ line host, lines (print line host) = lines host ++ [line])
    (stateless : services.Stateless lines world.store) (whole : world.store.Whole)
    (within : services.Within world.store) {budget : Int} {verbose : Bool} {i : Interpreter σ}
    (created : create services print budget verbose world = .ok i) (host : Wait σ → World σ → World σ)
    (p : Program) (n : Nat) (kept : world.store.KeptIn (i.run host p n).machine.world.store)
    {budget' : Int} (hb : 1 ≤ budget') (verbose' : Bool) :
    let left := (i.run host p n).machine.world
    ∃ alone after, create services print budget' verbose' world = .ok alone ∧
      create services print budget' verbose' left = .ok after ∧
        ∀ host₁ host₂, (world.apart lines left).Answers host₁ host₂ → ∀ q k,
          (alone.run host₁ q k).Matches (world.apart lines left) (after.run host₂ q k) ∧
            (alone.run host₁ q k).Alike lines world left (after.run host₂ q k) := by
  intro left
  refine ⟨_, _, create_again created hb verbose' world, create_again created hb verbose' left, ?_⟩
  intro host₁ host₂ answers q k
  have same := opening_runs_match printed stateless whole within kept budget'.toNat verbose' answers
    q k
  exact ⟨same, same.alike⟩

/-- Services with a list that a constant and a member of an enumeration share, a function that looks at
its arguments, and a handler that prints. -/
def sharing : Services (List String) where
  metadata := []
  builtins := [("full", ⟨"full", 0, none, false, "", [],
    .host fun c w => (.value (.bool (c.args.any w.store.truthy)), w)⟩)]
  enums := [("Colors", [("Red", .str "red"), ("All", .ref 0)])]
  constants := [("C", .ref 0)]
  hooks := [⟨.programStart, 0, fun _ w => (none, { w with host := w.host ++ ["start"] })⟩]
  rules := []

def shared : World (List String) := ⟨⟨#[.list [.int 1]], #[]⟩, []⟩

theorem sharing_stateless : sharing.Stateless id shared.store := by
  intro host left
  constructor
  case reply =>
    intro name b hb reply hr c w v hw
    cases List.mem_singleton.mp (Table.mem_of_get? hb)
    cases hr
    refine ⟨?_, hw⟩
    simp only [Call.past, List.any_map, Function.comp_def, hw.store.truthy]
    exact .value _
  case finish =>
    intro name b hb finish hf
    cases List.mem_singleton.mp (Table.mem_of_get? hb)
    cases hf
  case hook =>
    intro h hh e e' _ w v hw
    cases List.mem_singleton.mp hh
    exact ⟨rfl, hw.store, World.apart_goesOn hw.host rfl rfl⟩
  case rule =>
    intro r hr
    exact absurd hr List.not_mem_nil

def painter : Program :=
  let here : Location := ⟨"painter", 1, 1, ""⟩
  ⟨here, [.assign here (.index here (.name here "Colors") (.literal here (.str "Red"))) .set
    (.name here "C")]⟩

def asker : Program :=
  let here : Location := ⟨"asker", 1, 1, ""⟩
  ⟨here, [.expr here (.call here (.name here "print")
    [.call here (.name here "full") [.name here "C"] [], .member here (.name here "Colors") "Red"] [])]⟩

def scribing (line : String) (lines : List String) : List String := lines ++ [line]

def painting : Interpreter (List String) :=
  ⟨⟨sharing, scribing, 8, false⟩, opening sharing shared, 0⟩

theorem left_painted : shared.store.KeptIn (painting.run Wait.poll painter 1).machine.world.store := by
  refine ⟨fun a ha => ?_, fun i hi => absurd hi (Nat.not_lt_zero i)⟩
  obtain rfl : a = 0 := Nat.lt_one_iff.mp ha
  cbv

theorem shared_whole : shared.store.Whole where
  objects o ho := by
    obtain rfl : o = .list [.int 1] := by simpa [shared] using ho
    intro v hv
    rw [List.mem_singleton.mp hv]
    trivial
  scopes p hp := by simp [shared] at hp

theorem sharing_within : sharing.Within shared.store where
  enums e he member hm := by
    obtain rfl := List.mem_singleton.mp he
    rcases List.mem_pair.mp hm with rfl | rfl
    · trivial
    · exact Nat.zero_lt_one
  constants e he := by
    obtain rfl := List.mem_singleton.mp he
    exact Nat.zero_lt_one

def asking : Interpreter (List String) :=
  ⟨⟨sharing, scribing, 12, false⟩, opening sharing shared, 0⟩

theorem fresh_runs_independent_sharing :
    let left := (painting.run Wait.poll painter 1).machine.world
    create sharing scribing 8 false shared = .ok painting ∧ sharing.Stateless id shared.store ∧
    shared.store.Whole ∧ sharing.Within shared.store ∧ shared.store.KeptIn left.store ∧
    ∃ after, create sharing scribing 12 false left = .ok after ∧
      (after.run Wait.poll asker 1).machine.world.host = ["start", "start", "True red"] := by
  have created : create sharing scribing 8 false shared = .ok painting := rfl
  have printed : ∀ line lines, id (scribing line lines) = id lines ++ [line] := fun _ _ => rfl
  obtain ⟨alone, after, first, second, runs⟩ := fresh_runs_independent printed sharing_stateless
    shared_whole sharing_within created Wait.poll painter 1 left_painted (by decide : (1 : Int) ≤ 12)
    false
  refine ⟨created, sharing_stateless, shared_whole, sharing_within, left_painted, after, second, ?_⟩
  obtain ⟨-, ⟨-, ⟨news, told, retold⟩, -⟩⟩ := runs _ _ (Distance.answers_poll _) asker 1
  have before : (painting.run Wait.poll painter 1).machine.world.host = ["start"] := by cbv
  have lines : (asking.run Wait.poll asker 1).machine.world.host = ["start", "True red"] := by cbv
  obtain rfl : alone = asking := Except.ok.inj (first.symm.trans rfl)
  simp only [id] at told retold
  rw [retold, before, ← lines, told]
  rfl

end Interpreter

end LoopScript
