import LoopScript.Services.Registration
import LoopScript.Proofs.Table

/-!
What becomes of the services when extensions register with them. A provision is taken over as it stands
or changes nothing, and whatever is provided, in any order, a global name keeps a single meaning.
-/

namespace LoopScript

variable {σ : Type}

/-- What an extension can provide. -/
inductive Provision (σ : Type) where
  | builtin (o : Offer σ)
  | enum (name : String) (members : List (Atom × Value))
  | constant (name : String) (v : Value)
  | event (name : String) (priority : Int) (handle : Event σ → World σ → Option Fault × World σ)
  | rule (every : Int) (handle : StepContext → World σ → Option Fault × World σ)

structure Offer.Fits (o : Offer σ) : Prop where
  least : 0 ≤ o.least
  most : ∀ m ∈ o.most, o.least ≤ m

structure Offer.Describes (o : Offer σ) (b : Builtin σ) : Prop where
  name : b.name = o.name
  least : (b.least : Int) = o.least
  most : b.most.map Int.ofNat = o.most
  suspends : b.suspends = o.suspends
  doc : b.doc = o.doc
  keywords : b.keywords = o.keywords
  action : b.action = o.action

namespace EventKind

theorem ofName?_eq_some_iff {name : String} {kind : EventKind} :
    ofName? name = some kind ↔ kind.name = name := by
  constructor
  · exact fun h => eq_of_beq (List.find?_some h :)
  · rintro rfl
    cases kind <;> decide

end EventKind

theorem Offer.Fits.not_refused {o : Offer σ} (h : o.Fits) :
    ¬ (o.least < 0 ∨ o.most.any (· < o.least) = true) := by
  have most := h.most
  rintro (low | few)
  · exact Int.not_lt.mpr h.least low
  · cases hm : o.most with
    | none => simp [hm] at few
    | some m =>
      have := most m hm
      simp only [hm, Option.any_some, decide_eq_true_eq] at few
      omega

theorem Offer.fits_of_not_refused {o : Offer σ}
    (h : ¬ (o.least < 0 ∨ o.most.any (· < o.least) = true)) : o.Fits := by
  obtain ⟨low, few⟩ := not_or.mp h
  refine ⟨Int.not_lt.mp low, fun m hm => ?_⟩
  simpa [Option.mem_def.mp hm] using few

theorem Offer.Describes.arity {o : Offer σ} {b : Builtin σ} (h : o.Describes b) (fits : o.Fits) :
    ∀ m ∈ b.most, b.least ≤ m := by
  intro m hm
  have most : (m : Int) ∈ o.most := by
    rw [← h.most, Option.mem_def.mp hm]
    rfl
  have := fits.most m most
  rw [← h.least] at this
  exact Int.ofNat_le.mp this

namespace Services

variable {s : Services σ} {name : String}

/-- The names of globals, each once for every meaning that it has. -/
def names (s : Services σ) : List String :=
  s.builtins.keys ++ (s.enums.keys ++ s.constants.keys)

def Admits (s : Services σ) (name : String) : Prop :=
  Text.isIdentifier name = true ∧ name ∉ s.names

structure Sound (s : Services σ) : Prop where
  identifiers : ∀ name ∈ s.names, Text.isIdentifier name = true
  unique : s.names.Nodup
  arities : ∀ e ∈ s.builtins, e.2.name = e.1 ∧ ∀ m ∈ e.2.most, e.2.least ≤ m
  members : ∀ e ∈ s.enums, e.2.keys.Nodup ∧ ∀ name ∈ e.2.keys, Text.isIdentifier name = true

theorem isTaken_iff : s.isTaken name = true ↔ name ∈ s.names := by
  simp only [isTaken, names, Bool.or_eq_true, Table.has_iff, List.mem_append, or_assoc]

theorem ensureFree_ok (h : s.Admits name) : s.ensureFree name = .ok () := by
  have free : ¬ s.isTaken name = true := mt isTaken_iff.mp h.2
  simp [ensureFree, h.1, free]

theorem ensureFree_error (h : ¬ s.Admits name) : ∃ e, s.ensureFree name = .error e := by
  by_cases identifier : Text.isIdentifier name = true
  · have taken : s.isTaken name = true :=
      isTaken_iff.mpr (not_not.mp fun free => h ⟨identifier, free⟩)
    exact ⟨.globalTaken name, by simp [ensureFree, identifier, taken]⟩
  · exact ⟨.globalName name, by simp [ensureFree, identifier]⟩

theorem Admits.builtins (h : s.Admits name) : name ∉ s.builtins.keys :=
  fun m => h.2 (List.mem_append_left _ m)

theorem Admits.enums (h : s.Admits name) : name ∉ s.enums.keys :=
  fun m => h.2 (List.mem_append_right _ (List.mem_append_left _ m))

theorem Admits.constants (h : s.Admits name) : name ∉ s.constants.keys :=
  fun m => h.2 (List.mem_append_right _ (List.mem_append_right _ m))

theorem registerBuiltin_ok {o : Offer σ} (h : s.Admits o.name) (hf : o.Fits) : ∃ b, o.Describes b ∧
    s.registerBuiltin o = .ok { s with builtins := s.builtins ++ [(o.name, b)] } := by
  let b : Builtin σ :=
    ⟨o.name, o.least.toNat, o.most.map Int.toNat, o.suspends, o.doc, o.keywords, o.action⟩
  have fresh : ¬ s.builtins.has o.name = true := mt Table.has_iff.mp h.builtins
  refine ⟨b, ?_, ?_⟩
  · constructor
    case least => exact Int.toNat_of_nonneg hf.least
    case most =>
      simp only [b]
      cases hm : o.most with
      | none => rfl
      | some m => exact congrArg some (Int.toNat_of_nonneg (Int.le_trans hf.least (hf.most m hm)))
    all_goals rfl
  · simp only [registerBuiltin, ensureFree_ok h, addBuiltin, h.1, fresh, if_neg hf.not_refused,
      Table.put_of_not_mem h.builtins]
    rfl

theorem registerBuiltin_error {o : Offer σ} (h : ¬ (s.Admits o.name ∧ o.Fits)) :
    ∃ e, s.registerBuiltin o = .error e := by
  by_cases admits : s.Admits o.name
  · have fresh : ¬ s.builtins.has o.name = true := mt Table.has_iff.mp admits.builtins
    have refused : o.least < 0 ∨ o.most.any (· < o.least) = true :=
      not_not.mp fun fits => h ⟨admits, Offer.fits_of_not_refused fits⟩
    exact ⟨.arity o.name, by simp only [registerBuiltin, ensureFree_ok admits, addBuiltin, admits.1,
      fresh, if_pos refused]; rfl⟩
  · obtain ⟨e, he⟩ := ensureFree_error admits
    exact ⟨e, by rw [registerBuiltin, he]; rfl⟩

/-- Keys of members as an enumeration may have them. -/
def Spelled (members : List (Atom × Value)) : Prop :=
  ∀ e ∈ members, ∃ t, e.1 = .str t ∧ Text.isIdentifier t = true

theorem memberNames_ok (enum : String) {members : List (Atom × Value)} (h : Spelled members) :
    ∃ named, memberNames enum members = .ok named ∧
      named.map (fun e => (Atom.str e.1, e.2)) = members ∧
        ∀ e ∈ named, Text.isIdentifier e.1 = true := by
  induction members with
  | nil => exact ⟨[], rfl, rfl, List.forall_mem_nil _⟩
  | cons e members ih =>
    obtain ⟨a, v⟩ := e
    obtain ⟨⟨t, rfl, identifier⟩, rest⟩ := List.forall_mem_cons.mp h
    obtain ⟨named, ok, keys, identifiers⟩ := ih rest
    refine ⟨(t, v) :: named, ?_, ?_, List.forall_mem_cons.mpr ⟨identifier, identifiers⟩⟩
    · simp only [memberNames, identifier, if_true, ok]
      rfl
    · rw [List.map_cons, keys]

theorem memberNames_error (enum : String) {members : List (Atom × Value)} (h : ¬ Spelled members) :
    ∃ e, memberNames enum members = .error e := by
  induction members with
  | nil => exact absurd (List.forall_mem_nil _) h
  | cons e members ih =>
    obtain ⟨a, v⟩ := e
    cases a with
    | str t =>
      by_cases identifier : Text.isIdentifier t = true
      · obtain ⟨e, he⟩ := ih fun rest => h (List.forall_mem_cons.mpr ⟨⟨t, rfl, identifier⟩, rest⟩)
        exact ⟨e, by simp only [memberNames, identifier, if_true, he]; rfl⟩
      · exact ⟨_, by simp only [memberNames, if_neg identifier]; rfl⟩
    | none | bool b | int i | num x => exact ⟨_, rfl⟩

theorem registerEnum_ok {members : List (Atom × Value)} (h : s.Admits name) (hm : Spelled members) :
    ∃ named : List (String × Value), named.map (fun e => (Atom.str e.1, e.2)) = members ∧
      s.registerEnum name members =
        .ok { s with enums := s.enums ++ [(name, Table.ofList named)] } := by
  obtain ⟨named, ok, keys, -⟩ := memberNames_ok name hm
  refine ⟨named, keys, ?_⟩
  simp only [registerEnum, ensureFree_ok h, ok, Table.put_of_not_mem h.enums]
  rfl

theorem registerEnum_error {members : List (Atom × Value)} (h : ¬ (s.Admits name ∧ Spelled members)) :
    ∃ e, s.registerEnum name members = .error e := by
  by_cases admits : s.Admits name
  · obtain ⟨e, he⟩ := memberNames_error name fun hm => h ⟨admits, hm⟩
    exact ⟨e, by simp only [registerEnum, ensureFree_ok admits, he]; rfl⟩
  · obtain ⟨e, he⟩ := ensureFree_error admits
    exact ⟨e, by rw [registerEnum, he]; rfl⟩

theorem registerConstant_ok (h : s.Admits name) (v : Value) :
    s.registerConstant name v = .ok { s with constants := s.constants ++ [(name, v)] } := by
  simp only [registerConstant, ensureFree_ok h, Table.put_of_not_mem h.constants]
  rfl

theorem registerConstant_error (h : ¬ s.Admits name) (v : Value) :
    ∃ e, s.registerConstant name v = .error e := by
  obtain ⟨e, he⟩ := ensureFree_error h
  exact ⟨e, by rw [registerConstant, he]; rfl⟩

end Services

namespace Registration

variable {change : Services σ → Except ExtensionError (Services σ)} {s t : Services σ}
  {e : ExtensionError}

theorem of_eq : of change s = match change s with
    | .ok t => .ok () t
    | .error e => .error e s := by
  change (match change s with | .ok t => set t | .error e => throw e : Registration σ Unit) s = _
  cases change s <;> rfl

theorem of_ok (h : change s = .ok t) : of change s = .ok () t := by
  rw [of_eq, h]

theorem of_error (h : change s = .error e) : of change s = .error e s := by
  rw [of_eq, h]

end Registration

namespace Provision

def perform : Provision σ → Registration σ Unit
  | builtin o => .builtin o
  | enum name members => .enum name members
  | constant name v => .constant name v
  | event name priority handle => .of (·.onEvent name priority handle)
  | rule every handle => .of (·.everySteps every handle)

def Admissible (s : Services σ) : Provision σ → Prop
  | builtin o => s.Admits o.name ∧ o.Fits
  | enum name members => s.Admits name ∧ Services.Spelled members
  | constant name _ => s.Admits name
  | event name _ _ => ∃ kind : EventKind, kind.name = name
  | rule every _ => 0 < every

/-- What was asked for comes last of its kind, and nothing else is changed. -/
def Granted (s t : Services σ) : Provision σ → Prop
  | builtin o => ∃ b, o.Describes b ∧ t = { s with builtins := s.builtins ++ [(o.name, b)] }
  | enum name members => ∃ named : List (String × Value),
    named.map (fun e => (Atom.str e.1, e.2)) = members ∧
      t = { s with enums := s.enums ++ [(name, Table.ofList named)] }
  | constant name v => t = { s with constants := s.constants ++ [(name, v)] }
  | event name priority handle => ∃ kind : EventKind,
    kind.name = name ∧ t = { s with hooks := Services.insertHook ⟨kind, priority, handle⟩ s.hooks }
  | rule every handle => ∃ n : Nat, n = every ∧ t = { s with rules := s.rules ++ [⟨n, handle⟩] }

/-- The name of a function that is asked for. -/
def function? : Provision σ → Option String
  | builtin o => some o.name
  | _ => none

/-- The name of a value that is asked for. -/
def value? : Provision σ → Option String
  | enum name _ | constant name _ => some name
  | _ => none

def names (r : Provision σ) : List String :=
  r.function?.toList ++ r.value?.toList

theorem Granted.extends {s t : Services σ} {r : Provision σ} (h : r.Granted s t) : ∃ bs es cs,
    t.builtins = s.builtins ++ bs ∧ t.enums = s.enums ++ es ∧ t.constants = s.constants ++ cs ∧
      Table.keys bs = r.function?.toList ∧ Table.keys es ++ Table.keys cs = r.value?.toList := by
  have same {α : Type} (l : List α) : l = l ++ [] := (List.append_nil l).symm
  cases r with
  | builtin o =>
    obtain ⟨b, -, rfl⟩ := h
    exact ⟨_, [], [], rfl, same _, same _, rfl, rfl⟩
  | enum name members =>
    obtain ⟨named, -, rfl⟩ := h
    exact ⟨[], _, [], same _, rfl, same _, rfl, rfl⟩
  | constant name v =>
    obtain rfl := h
    exact ⟨[], [], _, same _, same _, rfl, rfl, rfl⟩
  | event name priority handle =>
    obtain ⟨kind, -, rfl⟩ := h
    exact ⟨[], [], [], same _, same _, same _, rfl, rfl⟩
  | rule every handle =>
    obtain ⟨n, -, rfl⟩ := h
    exact ⟨[], [], [], same _, same _, same _, rfl, rfl⟩

theorem Granted.functions {s t : Services σ} {r : Provision σ} (h : r.Granted s t) :
    t.builtins.keys = s.builtins.keys ++ r.function?.toList := by
  obtain ⟨bs, es, cs, builtins, -, -, function, -⟩ := h.extends
  rw [builtins, ← function]
  exact List.map_append

theorem Granted.values {s t : Services σ} {r : Provision σ} (h : r.Granted s t) :
    (t.enums.keys ++ t.constants.keys).Perm
      (s.enums.keys ++ s.constants.keys ++ r.value?.toList) := by
  obtain ⟨bs, es, cs, -, enums, constants, -, value⟩ := h.extends
  have moved := (List.perm_append_comm_assoc (Table.keys es) s.constants.keys
    (Table.keys cs)).append_left s.enums.keys
  simpa only [enums, constants, ← value, Table.keys, List.map_append, List.append_assoc] using moved

theorem Granted.included {s t : Services σ} {r : Provision σ} (h : r.Granted s t) :
    s.builtins ⊆ t.builtins ∧ s.enums ⊆ t.enums ∧ s.constants ⊆ t.constants := by
  obtain ⟨bs, es, cs, builtins, enums, constants, -⟩ := h.extends
  rw [builtins, enums, constants]
  exact ⟨List.subset_append_left _ _, List.subset_append_left _ _, List.subset_append_left _ _⟩

theorem Granted.names {s t : Services σ} {r : Provision σ} (h : r.Granted s t) :
    t.names.Perm (s.names ++ r.names) := by
  have values := h.values.append_left t.builtins.keys
  refine values.trans ?_
  have moved := (List.perm_append_comm_assoc r.function?.toList (s.enums.keys ++ s.constants.keys)
    r.value?.toList).append_left s.builtins.keys
  simpa only [h.functions, Services.names, Provision.names, List.append_assoc] using moved

theorem Admissible.names {s : Services σ} {r : Provision σ} (h : r.Admissible s) :
    r.names.Nodup ∧ ∀ name ∈ r.names, s.Admits name := by
  cases r with
  | builtin o => exact ⟨List.pairwise_singleton _ _, List.forall_mem_singleton.mpr h.1⟩
  | enum name members => exact ⟨List.pairwise_singleton _ _, List.forall_mem_singleton.mpr h.1⟩
  | constant name v => exact ⟨List.pairwise_singleton _ _, List.forall_mem_singleton.mpr h⟩
  | event name priority handle | rule every handle =>
    exact ⟨List.nodup_nil, List.forall_mem_nil _⟩

theorem perform_ok {s : Services σ} {r : Provision σ} (h : r.Admissible s) :
    ∃ t, r.perform s = .ok () t ∧ r.Granted s t := by
  cases r with
  | builtin o =>
    obtain ⟨b, described, ok⟩ := Services.registerBuiltin_ok h.1 h.2
    exact ⟨_, Registration.of_ok ok, b, described, rfl⟩
  | enum name members =>
    obtain ⟨named, keys, ok⟩ := Services.registerEnum_ok h.1 h.2
    exact ⟨_, Registration.of_ok ok, named, keys, rfl⟩
  | constant name v => exact ⟨_, Registration.of_ok (Services.registerConstant_ok h v), rfl⟩
  | event name priority handle =>
    obtain ⟨kind, known⟩ := h
    have ok : s.onEvent name priority handle =
        .ok { s with hooks := Services.insertHook ⟨kind, priority, handle⟩ s.hooks } := by
      rw [Services.onEvent, EventKind.ofName?_eq_some_iff.mpr known]
    exact ⟨_, Registration.of_ok ok, kind, known, rfl⟩
  | rule every handle =>
    have ok : s.everySteps every handle =
        .ok { s with rules := s.rules ++ [⟨every.toNat, handle⟩] } := if_neg (Int.not_le.mpr h)
    exact ⟨_, Registration.of_ok ok, every.toNat, Int.toNat_of_nonneg (Int.le_of_lt h), rfl⟩

theorem perform_error {s : Services σ} {r : Provision σ} (h : ¬ r.Admissible s) :
    ∃ e, r.perform s = .error e s := by
  have refused {change : Services σ → Except ExtensionError (Services σ)}
      (h : ∃ e, change s = .error e) : ∃ e, Registration.of change s = .error e s :=
    h.imp fun _ => Registration.of_error
  cases r with
  | builtin o => exact refused (Services.registerBuiltin_error h)
  | enum name members => exact refused (Services.registerEnum_error h)
  | constant name v => exact refused (Services.registerConstant_error h v)
  | event name priority handle =>
    have unknown : EventKind.ofName? name = none := by
      rw [Option.eq_none_iff_forall_ne_some]
      exact fun kind known => h ⟨kind, EventKind.ofName?_eq_some_iff.mp known⟩
    exact refused ⟨.unknownEvent name, by rw [Services.onEvent, unknown]⟩
  | rule every handle => exact refused ⟨.stepCount, if_pos (Int.not_lt.mp h)⟩

def Held (s : Services σ) : Provision σ → Prop
  | builtin o => ∃ b, o.Describes b ∧ (o.name, b) ∈ s.builtins
  | enum name members => ∃ named : List (String × Value),
    named.map (fun e => (Atom.str e.1, e.2)) = members ∧ (name, Table.ofList named) ∈ s.enums
  | constant name v => (name, v) ∈ s.constants
  | event .. | rule .. => True

theorem Granted.held {s t : Services σ} {r : Provision σ} (h : r.Granted s t) : r.Held t := by
  cases r with
  | builtin o =>
    obtain ⟨b, described, rfl⟩ := h
    exact ⟨b, described, List.mem_append_right _ List.mem_cons_self⟩
  | enum name members =>
    obtain ⟨named, keys, rfl⟩ := h
    exact ⟨named, keys, List.mem_append_right _ List.mem_cons_self⟩
  | constant name v =>
    obtain rfl := h
    exact List.mem_append_right _ List.mem_cons_self
  | event name priority handle | rule every handle => trivial

theorem Held.mono {s t : Services σ} {r : Provision σ} (h : r.Held s)
    (hst : s.builtins ⊆ t.builtins ∧ s.enums ⊆ t.enums ∧ s.constants ⊆ t.constants) :
    r.Held t := by
  cases r with
  | builtin o =>
    obtain ⟨b, described, mem⟩ := h
    exact ⟨b, described, hst.1 mem⟩
  | enum name members =>
    obtain ⟨named, keys, mem⟩ := h
    exact ⟨named, keys, hst.2.1 mem⟩
  | constant name v => exact hst.2.2 h
  | event name priority handle | rule every handle => trivial

theorem of_perform_ok {s t : Services σ} {r : Provision σ} (h : r.perform s = .ok () t) :
    r.Admissible s ∧ r.Granted s t := by
  by_cases admissible : r.Admissible s
  · obtain ⟨u, ok, granted⟩ := perform_ok admissible
    rw [ok] at h
    cases h
    exact ⟨admissible, granted⟩
  · obtain ⟨e, error⟩ := perform_error admissible
    rw [error] at h
    cases h

end Provision

namespace Services

theorem Sound.granted {s t : Services σ} {r : Provision σ} (hs : s.Sound) (h : r.Admissible s)
    (granted : r.Granted s t) : t.Sound := by
  obtain ⟨nodup, admits⟩ := h.names
  have identifiers : ∀ name ∈ t.names, Text.isIdentifier name = true := by
    intro name hn
    rcases List.mem_append.mp (granted.names.mem_iff.mp hn) with hn | hn
    · exact hs.identifiers name hn
    · exact (admits name hn).1
  have unique : t.names.Nodup := by
    rw [granted.names.nodup_iff, List.nodup_append]
    refine ⟨hs.unique, nodup, ?_⟩
    rintro name old _ new rfl
    exact (admits name new).2 old
  cases r with
  | builtin o =>
    obtain ⟨b, described, rfl⟩ := granted
    refine ⟨identifiers, unique, List.forall_mem_append.mpr ⟨hs.arities, ?_⟩, hs.members⟩
    exact List.forall_mem_singleton.mpr ⟨described.name, described.arity h.2⟩
  | enum name members =>
    obtain ⟨named, rfl, rfl⟩ := granted
    refine ⟨identifiers, unique, hs.arities, List.forall_mem_append.mpr ⟨hs.members, ?_⟩⟩
    refine List.forall_mem_singleton.mpr ⟨Table.nodup_keys_ofList named, fun n hn => ?_⟩
    obtain ⟨d, hd, rfl⟩ := List.mem_map.mp (Table.mem_keys_ofList hn)
    obtain ⟨t, spelled, identifier⟩ := h.2 _ (List.mem_map_of_mem hd)
    cases spelled
    exact identifier
  | constant name v =>
    obtain rfl := granted
    exact ⟨identifiers, unique, hs.arities, hs.members⟩
  | event name priority handle =>
    obtain ⟨kind, -, rfl⟩ := granted
    exact ⟨identifiers, unique, hs.arities, hs.members⟩
  | rule every handle =>
    obtain ⟨n, -, rfl⟩ := granted
    exact ⟨identifiers, unique, hs.arities, hs.members⟩

theorem sound_empty : (empty (σ := σ)).Sound :=
  ⟨List.forall_mem_nil _, List.nodup_nil, List.forall_mem_nil _, List.forall_mem_nil _⟩

/-- The services after some provisions, of which each may be refused. -/
def after (s : Services σ) : List (Provision σ) → Services σ
  | [] => s
  | r :: rs =>
    match r.perform s with
    | .ok _ t | .error _ t => after t rs

theorem Sound.after {s : Services σ} (hs : s.Sound) (rs : List (Provision σ)) :
    (s.after rs).Sound := by
  induction rs generalizing s with
  | nil => exact hs
  | cons r rs ih =>
    by_cases h : r.Admissible s
    · obtain ⟨t, ok, granted⟩ := Provision.perform_ok h
      simp only [Services.after, ok]
      exact ih (hs.granted h granted)
    · obtain ⟨e, error⟩ := Provision.perform_error h
      simp only [Services.after, error]
      exact ih hs

theorem registration_atomic (rs : List (Provision σ)) (r : Provision σ) :
    let s := empty.after rs
    s.Sound ∧
      ((r.Admissible s ∧ ∃ t, r.perform s = .ok () t ∧ r.Granted s t ∧ t.Sound) ∨
        (¬ r.Admissible s ∧ ∃ e, r.perform s = .error e s)) := by
  have sound : (empty.after rs).Sound := sound_empty.after rs
  refine ⟨sound, ?_⟩
  by_cases h : r.Admissible (empty.after rs)
  · obtain ⟨t, ok, granted⟩ := Provision.perform_ok h
    exact .inl ⟨h, t, ok, granted, sound.granted h granted⟩
  · exact .inr ⟨h, Provision.perform_error h⟩

end Services

namespace Provision

theorem forM_cons_ok {s t u : Services σ} {r : Provision σ} {rs : List (Provision σ)}
    (first : r.perform s = .ok () t) (rest : rs.forM perform t = .ok () u) :
    (r :: rs).forM perform s = .ok () u := by
  change (r.perform >>= fun _ => rs.forM perform) s = .ok () u
  simp only [bind, EStateM.bind, first, rest]

/-- What has become of the services when all of the provisions are granted. -/
structure AllGranted (rs : List (Provision σ)) (s t : Services σ) : Prop where
  sound : t.Sound
  held : ∀ r ∈ rs, r.Held t
  kept : s.builtins ⊆ t.builtins ∧ s.enums ⊆ t.enums ∧ s.constants ⊆ t.constants
  functions : t.builtins.keys = s.builtins.keys ++ rs.filterMap function?
  values : (t.enums.keys ++ t.constants.keys).Perm
    (s.enums.keys ++ s.constants.keys ++ rs.filterMap value?)

theorem allGranted {rs : List (Provision σ)} {s t : Services σ} (hs : s.Sound)
    (h : rs.forM perform s = .ok () t) : AllGranted rs s t := by
  induction rs generalizing s with
  | nil =>
    cases h
    refine ⟨hs, List.forall_mem_nil _, ⟨fun _ => id, fun _ => id, fun _ => id⟩, ?_, ?_⟩
    · exact (List.append_nil _).symm
    · rw [List.filterMap_nil, List.append_nil]
  | cons r rs ih =>
    change (r.perform >>= fun _ => rs.forM perform) s = .ok () t at h
    simp only [bind, EStateM.bind] at h
    split at h
    · next u hr =>
      obtain ⟨admissible, granted⟩ := of_perform_ok hr
      have rest := ih (hs.granted admissible granted) h
      obtain ⟨builtins, enums, constants⟩ := granted.included
      have held := List.forall_mem_cons.mpr ⟨granted.held.mono rest.kept, rest.held⟩
      refine ⟨rest.sound, held, ?_, ?_, ?_⟩
      · exact ⟨List.Subset.trans builtins rest.kept.1, List.Subset.trans enums rest.kept.2.1,
          List.Subset.trans constants rest.kept.2.2⟩
      · rw [rest.functions, granted.functions, List.append_assoc]
        cases hf : r.function? <;> simp [hf]
      · refine rest.values.trans ((granted.values.append_right _).trans ?_)
        rw [List.append_assoc]
        cases hv : r.value? <;> simp [hv]
    · cases h

end Provision

end LoopScript
