import LoopScript.Proofs.Execution.Effect
import LoopScript.Proofs.Services.Provisions

/-!
What the global names of a new interpreter stand for. Everything that extensions have registered is
there; a registered function never takes the place of a function of the language, but enumerations
and constants do.
-/

namespace LoopScript

variable {σ : Type}

section Allocation

variable {ι : Type} {key : ι → String} {object : ι → Obj} {items : List ι}

/-- Every item is bound to an object of its own, which was not there before, and nothing else is
changed. -/
structure Allocates (key : ι → String) (object : ι → Obj) (items : List ι)
    (x y : Table String Value × Store) : Prop where
  size : x.2.objects.size ≤ y.2.objects.size
  kept : ∀ a < x.2.objects.size, y.2.objects[a]? = x.2.objects[a]?
  bound : ∀ i ∈ items, ∃ a, x.2.objects.size ≤ a ∧ y.1.get? (key i) = some (.ref a) ∧
    y.2.objects[a]? = some (object i)
  other : ∀ name ∉ items.map key, y.1.get? name = x.1.get? name

theorem allocates (hn : (items.map key).Nodup) (x : Table String Value × Store) :
    Allocates key object items x (items.foldl (fun (t, s) i =>
      let (v, s) := s.alloc (object i)
      (Table.put t (key i) v, s)) x) := by
  induction items generalizing x with
  | nil => exact ⟨Nat.le_refl _, fun _ _ => rfl, List.forall_mem_nil _, fun _ _ => rfl⟩
  | cons i items ih =>
    obtain ⟨t, s⟩ := x
    obtain ⟨fresh, hn⟩ := List.nodup_cons.mp hn
    have made := ih hn (Table.put t (key i) (.ref s.objects.size), (s.alloc (object i)).2)
    have grown : s.objects.size < (s.alloc (object i)).2.objects.size := by simp [Store.alloc]
    refine ⟨?_, fun a ha => ?_, ?_, fun name hname => ?_⟩
    · exact Nat.le_trans (Nat.le_of_lt grown) made.size
    · refine (made.kept a (Nat.lt_trans ha grown)).trans ?_
      exact Array.getElem?_push_lt ha |>.trans (Array.getElem?_eq_getElem ha).symm
    · refine List.forall_mem_cons.mpr ⟨⟨s.objects.size, Nat.le_refl _, ?_, ?_⟩, fun j hj => ?_⟩
      · exact (made.other _ fresh).trans (Table.get?_put_self t _ _)
      · refine (made.kept _ grown).trans ?_
        exact Array.getElem?_push_size
      · obtain ⟨a, ha, bound, object⟩ := made.bound j hj
        exact ⟨a, Nat.le_trans (Nat.le_of_lt grown) ha, bound, object⟩
    · obtain ⟨hne, hrest⟩ := not_or.mp (mt List.mem_cons.mpr hname)
      exact (made.other name hrest).trans (Table.get?_put_of_ne t _ (Ne.symm hne))

end Allocation

theorem CoreFunction.names_nodup : (CoreFunction.all.map CoreFunction.name).Nodup := by
  decide

theorem coreBuiltins_get? (f : CoreFunction) :
    (coreBuiltins (σ := σ)).get? f.name = some f.builtin := by
  cases f <;> rfl

theorem coreBuiltins_has_iff {name : String} :
    (coreBuiltins (σ := σ)).has name = true ↔ ∃ f : CoreFunction, f.name = name := by
  have keys : (coreBuiltins (σ := σ)).keys = CoreFunction.all.map CoreFunction.name := rfl
  rw [Table.has_iff, keys, List.mem_map]
  exact ⟨fun ⟨f, _, hf⟩ => ⟨f, hf⟩, fun ⟨f, hf⟩ => ⟨f, by cases f <;> decide, hf⟩⟩

namespace Store

theorem lookup?_openScope (s : Store) (bindings : Table String Value) (name : String) :
    (s.openScope none bindings).2.lookup? s.scopes.size name = bindings.get? name := by
  have opened : (s.openScope none bindings).2.scope s.scopes.size = ⟨none, bindings⟩ := by
    simp [scope, openScope]
  have top : (s.openScope none bindings).2.parent? s.scopes.size = none := by
    rw [parent?, opened]
  rw [lookup?, owner?, opened, top]
  by_cases h : bindings.has name = true
  · simp [h, opened]
  · have unbound : bindings.get? name = none :=
      Table.get?_eq_none_iff.mpr (mt Table.has_iff.mpr h)
    simp [h, unbound]

end Store

namespace Interpreter

variable {services : Services σ} {s : Store}

/-- Functions come first, then copies of the enumerations; constants bring no objects with them. -/
theorem globalObjects_allocates (hn : services.names.Nodup)
    (hc : ∀ f : CoreFunction, f.name ∉ services.builtins.keys) (s : Store) : ∃ x y,
      Allocates id Obj.builtin (CoreFunction.all.map (·.name) ++ services.builtins.keys) ([], s) x ∧
      Allocates Prod.fst (fun e => .dict (e.2.map fun member => (.str member.1, member.2)))
        services.enums x y ∧
      globalObjects services s =
        (services.constants.foldl (fun t e => Table.put t e.1 e.2) y.1, y.2) := by
  obtain ⟨builtins, data, -⟩ := List.nodup_append.mp hn
  have functions : ((CoreFunction.all.map (·.name) ++ services.builtins.keys).map id).Nodup := by
    rw [List.map_id]
    refine List.nodup_append.mpr ⟨CoreFunction.names_nodup, builtins, ?_⟩
    rintro _ core name registered rfl
    obtain ⟨f, -, rfl⟩ := List.mem_map.mp core
    exact hc f registered
  exact ⟨_, _, allocates functions _, allocates (List.nodup_append.mp data).1 _, rfl⟩

theorem globalObjects_spec (hn : services.names.Nodup)
    (hc : ∀ f : CoreFunction, f.name ∉ services.builtins.keys) (s : Store) :
    let g := globalObjects services s
    (∀ name ∈ CoreFunction.all.map (·.name) ++ services.builtins.keys,
      name ∉ services.enums.keys → name ∉ services.constants.keys →
        ∃ a, g.1.get? name = some (.ref a) ∧ g.2.objects[a]? = some (.builtin name)) ∧
    (∀ e ∈ services.enums, ∃ a, s.objects.size ≤ a ∧ g.1.get? e.1 = some (.ref a) ∧
      g.2.objects[a]? = some (.dict (e.2.map fun (n, v) => (.str n, v)))) ∧
    ∀ e ∈ services.constants, g.1.get? e.1 = some e.2 := by
  obtain ⟨-, data, -⟩ := List.nodup_append.mp hn
  obtain ⟨-, constants, distinct⟩ := List.nodup_append.mp data
  have unbound {name : String} (h : name ∉ services.constants.keys) (t : Table String Value) :=
    Table.get?_foldl_put_of_not_mem h t
  obtain ⟨x, y, first, second, made⟩ := globalObjects_allocates hn hc s
  rw [made]
  refine ⟨fun name hname he hk => ?_, fun e he => ?_, fun e he => ?_⟩
  · obtain ⟨a, -, bound, object⟩ := first.bound name hname
    refine ⟨a, ?_, ?_⟩
    · exact (unbound hk _).trans ((second.other name he).trans bound)
    · have old := (Array.getElem?_eq_some_iff.mp object).1
      exact (second.kept a old).trans object
  · obtain ⟨a, ha, bound, object⟩ := second.bound e he
    have key : e.1 ∈ services.enums.keys := List.mem_map_of_mem he
    have other : e.1 ∉ services.constants.keys := fun hk => distinct _ key _ hk rfl
    exact ⟨a, Nat.le_trans first.size ha, (unbound other _).trans bound, object⟩
  · exact Table.get?_foldl_put_of_mem constants he _

/-- What a global name stands for before the first program. -/
def global? (i : Interpreter σ) (name : String) : Option Value :=
  i.machine.world.store.lookup? i.machine.globals name

/-- The name stands for the given function, as an object and when it is called. -/
def Calls (i : Interpreter σ) (name : String) (b : Builtin σ) : Prop :=
  ∃ a, i.global? name = some (.ref a) ∧
    i.machine.world.store.objects[a]? = some (.builtin name) ∧ i.setup.builtin? name = some b

/-- What was asked for is there. An enumeration is a dictionary that was not yet in the store. -/
def Provides (i : Interpreter σ) (s : Store) : Provision σ → Prop
  | .builtin o => ∃ b, o.Describes b ∧ i.Calls o.name b
  | .enum name members => ∃ named : List (String × Value),
    named.map (fun e => (Atom.str e.1, e.2)) = members ∧ ∃ a, s.objects.size ≤ a ∧
      i.global? name = some (.ref a) ∧ i.machine.world.store.objects[a]? =
        some (.dict ((Table.ofList named).map fun (n, v) => (.str n, v)))
  | .constant name v => i.global? name = some v
  | .event .. | .rule .. => True

theorem create_of_free (print : String → σ → σ) {budget : Int} (hb : 1 ≤ budget) (verbose : Bool)
    (world : World σ) (hc : ∀ f : CoreFunction, f.name ∉ services.builtins.keys) :
    create services print budget verbose world =
      .ok ⟨⟨services, print, budget.toNat, verbose⟩, opening services world, 0⟩ := by
  have free : services.builtins.keys.find? (coreBuiltins (σ := σ)).has = none := by
    rw [List.find?_eq_none]
    rintro name registered taken
    obtain ⟨f, rfl⟩ := coreBuiltins_has_iff.mp taken
    exact hc f registered
  rw [create, if_neg (Int.not_lt.mpr hb), free]
  rfl

theorem create_of_taken (print : String → σ → σ) {budget : Int} (hb : 1 ≤ budget) (verbose : Bool)
    (world : World σ) (hc : ∃ f : CoreFunction, f.name ∈ services.builtins.keys) :
    ∃ f : CoreFunction, f.name ∈ services.builtins.keys ∧
      create services print budget verbose world = .error (.extension (.coreFunction f.name)) := by
  obtain ⟨f, hf⟩ := hc
  have taken : (coreBuiltins (σ := σ)).has f.name = true := coreBuiltins_has_iff.mpr ⟨f, rfl⟩
  cases first : services.builtins.keys.find? (coreBuiltins (σ := σ)).has with
  | none => exact absurd taken (List.find?_eq_none.mp first f.name hf)
  | some name =>
    obtain ⟨g, rfl⟩ := coreBuiltins_has_iff.mp (List.find?_some first)
    refine ⟨g, List.mem_of_find?_eq_some first, ?_⟩
    rw [create, if_neg (Int.not_lt.mpr hb), first]

theorem global?_opening (setup : Setup σ) (world : World σ) (name : String) :
    global? ⟨setup, opening services world, 0⟩ name =
      (globalObjects services world.store).1.get? name :=
  Store.lookup?_openScope _ _ _

theorem calls_of_names (hs : services.Sound)
    (hc : ∀ f : CoreFunction, f.name ∉ services.builtins.keys) (setup : Setup σ) (world : World σ)
    {name : String} {b : Builtin σ}
    (hname : name ∈ CoreFunction.all.map (·.name) ++ services.builtins.keys)
    (he : name ∉ services.enums.keys) (hk : name ∉ services.constants.keys)
    (hb : setup.builtin? name = some b) :
    Calls ⟨setup, opening services world, 0⟩ name b := by
  obtain ⟨a, bound, object⟩ := (globalObjects_spec hs.unique hc world.store).1 name hname he hk
  exact ⟨a, (global?_opening setup world name).trans bound, object, hb⟩

theorem provides_of_held (hs : services.Sound)
    (hc : ∀ f : CoreFunction, f.name ∉ services.builtins.keys) (setup : Setup σ)
    (known : setup.services = services) (world : World σ) {r : Provision σ} (hr : r.Held services) :
    Provides ⟨setup, opening services world, 0⟩ world.store r := by
  obtain ⟨-, enums, constants⟩ := globalObjects_spec hs.unique hc world.store
  cases r with
  | builtin o =>
    obtain ⟨b, described, mem⟩ := hr
    obtain ⟨nodup, -, apart⟩ := List.nodup_append.mp hs.unique
    have registered : o.name ∈ services.builtins.keys := List.mem_map_of_mem mem
    have free : o.name ∉ services.enums.keys ++ services.constants.keys :=
      fun h => apart _ registered _ h rfl
    obtain ⟨he, hk⟩ := not_or.mp (mt List.mem_append.mpr free)
    refine ⟨b, described, ?_⟩
    refine calls_of_names hs hc setup world (List.mem_append_right _ registered) he hk ?_
    have other : (coreBuiltins (σ := σ)).get? o.name = none := by
      rw [Table.get?_eq_none_iff, ← Table.has_iff, coreBuiltins_has_iff]
      rintro ⟨f, core⟩
      exact hc f (core ▸ registered)
    rw [Setup.builtin?, other, known, Table.get?_of_mem nodup mem]
    rfl
  | enum name members =>
    obtain ⟨named, keys, mem⟩ := hr
    obtain ⟨a, ha, bound, object⟩ := enums _ mem
    exact ⟨named, keys, a, ha, (global?_opening setup world name).trans bound, object⟩
  | constant name v => exact (global?_opening setup world name).trans (constants _ hr)
  | event name priority handle | rule every handle => trivial

theorem registered_globals {rs : List (Provision σ)} {s : Services σ}
    (h : rs.forM Provision.perform Services.empty = .ok () s) (print : String → σ → σ) {budget : Int}
    (hb : 1 ≤ budget) (verbose : Bool) (world : World σ) :
    (∃ f : CoreFunction, (∃ r ∈ rs, r.function? = some f.name) ∧
      create s print budget verbose world = .error (.extension (.coreFunction f.name))) ∨
    ∃ i, create s print budget verbose world = .ok i ∧ (∀ r ∈ rs, i.Provides world.store r) ∧
      ∀ f : CoreFunction, (∀ r ∈ rs, r.value? ≠ some f.name) → i.Calls f.name f.builtin := by
  have granted := Provision.allGranted Services.sound_empty h
  by_cases hc : ∃ f : CoreFunction, f.name ∈ s.builtins.keys
  · obtain ⟨f, registered, error⟩ := create_of_taken print hb verbose world hc
    rw [granted.functions] at registered
    exact .inl ⟨f, List.mem_filterMap.mp registered, error⟩
  · rw [not_exists] at hc
    refine .inr ⟨_, create_of_free print hb verbose world hc, fun r hr => ?_, fun f hf => ?_⟩
    · exact provides_of_held granted.sound hc _ rfl world (granted.held r hr)
    · have free : f.name ∉ s.enums.keys ++ s.constants.keys := by
        rw [granted.values.mem_iff]
        rintro named
        obtain ⟨r, hr, value⟩ := List.mem_filterMap.mp named
        exact hf r hr value
      obtain ⟨he, hk⟩ := not_or.mp (mt List.mem_append.mpr free)
      have core : f.name ∈ CoreFunction.all.map (·.name) :=
        List.mem_map_of_mem (by cases f <;> decide)
      refine calls_of_names granted.sound hc _ world (List.mem_append_left _ core) he hk ?_
      rw [Setup.builtin?, coreBuiltins_get?]
      rfl

/-- A constant takes the place of a function of the language. -/
theorem constant_in_place_of_print :
    let rs : List (Provision Unit) :=
      [.constant "print" (.int 1), .builtin ⟨"twice", 1, some 2, false, "", [], .each⟩]
    ∃ s i, rs.forM Provision.perform Services.empty = .ok () s ∧ (1 : Int) ≤ 100 ∧
      create s (fun _ u => u) 100 false ⟨Store.empty, ()⟩ = .ok i ∧
        i.global? "print" = some (.int 1) ∧ ∃ b, i.Calls "twice" b := by
  intro rs
  let o : Offer Unit := ⟨"twice", 1, some 2, false, "", [], .each⟩
  have free : (Services.empty (σ := Unit)).Admits "print" := ⟨by decide +kernel, nofun⟩
  obtain ⟨t, first, granted⟩ := Provision.perform_ok (r := .constant "print" (.int 1)) free
  have twice : t.Admits "twice" := by
    rw [granted]
    exact ⟨by decide +kernel, by decide +kernel⟩
  have fits : o.Fits := ⟨by decide, by rintro _ ⟨⟩; decide⟩
  obtain ⟨s, second, -⟩ := Provision.perform_ok (r := .builtin o) ⟨twice, fits⟩
  have h : rs.forM Provision.perform Services.empty = .ok () s := by
    refine Provision.forM_cons_ok first (Provision.forM_cons_ok second ?_)
    rfl
  rcases registered_globals h (fun _ u => u) (by decide : (1 : Int) ≤ 100) false ⟨Store.empty, ()⟩
    with ⟨f, ⟨r, hr, core⟩, -⟩ | ⟨i, created, provided, -⟩
  · have other : ∀ r ∈ rs, r.function? ≠ some f.name := by cases f <;> decide
    exact absurd core (other r hr)
  · obtain ⟨b, -, calls⟩ := provided _ (List.mem_cons_of_mem _ List.mem_cons_self)
    exact ⟨s, i, h, by decide, created, provided _ List.mem_cons_self, b, calls⟩

end Interpreter

end LoopScript
