import LoopScript.Machine.Step
import LoopScript.Proofs.Computation
import LoopScript.Proofs.Machine.Grounded
import Mathlib.Data.List.Nodup

/-!
Calls bind arguments to parameters: each parameter to the one value that is supplied for it. A call
with other arguments fails before it has done anything.
-/

namespace LoopScript

variable {callee : String} {params names : List String} {args : List Value}
  {named bound r : Table String Value} {implicit : Nat}

theorem bindNamed_eq_ok_iff (hn : named.keys.Nodup) :
    bindNamed callee names bound named = .ok r ↔
      (∀ key ∈ named.keys, key ∈ names ∧ key ∉ bound.keys) ∧ r = bound ++ named := by
  induction named generalizing bound with
  | nil => simp [bindNamed, eq_comm]
  | cons e named ih =>
    obtain ⟨key, v⟩ := e
    rw [Table.keys_cons, List.nodup_cons] at hn
    simp only [Table.keys_cons, List.forall_mem_cons, bindNamed]
    by_cases known : key ∈ names
    · by_cases taken : key ∈ bound.keys
      · simp [known, taken, Table.has_iff]
      · rw [if_neg (by simpa using known), if_neg (by simpa [Table.has_iff] using taken),
          Table.put_of_not_mem taken, ih hn.2]
        constructor
        · rintro ⟨free, rfl⟩
          refine ⟨⟨⟨known, taken⟩, fun k hk => ⟨(free k hk).1, fun h => ?_⟩⟩, by simp⟩
          exact (free k hk).2 (by simp [h])
        · rintro ⟨⟨-, free⟩, rfl⟩
          refine ⟨fun k hk => ⟨(free k hk).1, fun h => ?_⟩, by simp⟩
          rcases List.mem_append.mp (Table.keys_append bound _ ▸ h) with h | h
          · exact (free k hk).2 h
          · obtain rfl : k = key := List.mem_singleton.mp h
            exact hn.1 hk
    · simp [known]

/-- The parameters that have no argument by position are those of the arguments by keyword. -/
def Fits (params : List String) (args : List Value) (named : Table String Value) : Prop :=
  args.length ≤ params.length ∧ ∀ key, key ∈ named.keys ↔ key ∈ params.drop args.length

theorem bindArguments_eq_ok_iff (hp : params.Nodup) (hn : named.keys.Nodup)
    (hi : implicit ≤ args.length) :
    bindArguments callee params args named implicit = .ok bound ↔
      Fits params args named ∧ bound = params.zip args ++ named := by
  have split : params.take args.length ++ params.drop args.length = params :=
    List.take_append_drop _ _
  have apart : (params.take args.length).Disjoint (params.drop args.length) :=
    List.disjoint_of_nodup_append (split.symm ▸ hp)
  have zipped : Table.ofList (params.zip args) = params.zip args := by
    apply Table.ofList_of_nodup
    rw [Table.keys_zip]
    exact hp.sublist (List.take_sublist _ _)
  unfold bindArguments
  rw [zipped]
  constructor
  · intro h
    split at h
    · cases h
    · next count =>
      obtain ⟨all, named_ok, h⟩ := ok_of_bind h
      obtain ⟨free, rfl⟩ := (bindNamed_eq_ok_iff hn).mp named_ok
      rw [Table.keys_zip] at free
      split at h
      · cases h
      · next missing =>
        cases h
        have given : ∀ p ∈ params, p ∈ params.take args.length ∨ p ∈ named.keys := by
          intro p hp
          have has := List.find?_eq_none.mp missing p hp
          rw [Bool.not_eq_true', Bool.not_eq_false, Table.has_iff, Table.keys_append, Table.keys_zip] at has
          exact List.mem_append.mp has
        refine ⟨⟨by omega, fun key => ⟨fun hk => ?_, fun hk => ?_⟩⟩, rfl⟩
        · obtain ⟨known, new⟩ := free key hk
          have inside := List.mem_of_mem_drop known
          rw [← split] at inside
          exact (List.mem_append.mp inside).resolve_left new
        · exact (given key (List.mem_of_mem_drop hk)).resolve_left fun taken => apart taken hk
  · rintro ⟨⟨few, covers⟩, rfl⟩
    have free : ∀ key ∈ named.keys,
        key ∈ params.drop implicit ∧ key ∉ Table.keys (params.zip args) := by
      intro key hk
      have rest := (covers key).mp hk
      rw [Table.keys_zip]
      exact ⟨List.drop_subset_drop_left params hi rest, fun taken => apart taken rest⟩
    rw [if_neg, (bindNamed_eq_ok_iff hn).mpr ⟨free, rfl⟩]
    · have complete : params.find? (!Table.has (params.zip args ++ named) ·) = none := by
        apply List.find?_eq_none.mpr
        intro p hp
        rw [← split] at hp
        rw [Bool.not_eq_true', Bool.not_eq_false, Table.has_iff, Table.keys_append, Table.keys_zip,
          List.mem_append, covers]
        exact List.mem_append.mp hp
      simp only [bind, Except.bind, complete]
    · rintro (many | ⟨empty, other⟩)
      · omega
      · rw [List.isEmpty_iff] at empty
        subst empty
        have full : params.drop args.length = [] :=
          List.eq_nil_iff_forall_not_mem.mpr fun key hk => List.not_mem_nil ((covers key).mpr hk)
        rw [List.drop_eq_nil_iff] at full
        omega

theorem Fits.keys_perm (h : Fits params args named) (hp : params.Nodup) (hn : named.keys.Nodup) :
    (Table.keys (params.zip args ++ named)).Perm params := by
  have rest : named.keys.Perm (params.drop args.length) := by
    apply (List.perm_ext_iff_of_nodup hn (hp.sublist (List.drop_sublist _ _))).mpr
    exact h.2
  calc Table.keys (params.zip args ++ named) = params.take args.length ++ named.keys := by
        rw [Table.keys_append, Table.keys_zip]
    (params.take args.length ++ named.keys).Perm
        (params.take args.length ++ params.drop args.length) := rest.append_left _
    _ = params := List.take_append_drop _ _

/-- What the calls of a value bind: the name of the callee in messages, its parameters, all arguments
by position, and how many of these are implicit. -/
inductive Store.Binds (s : Store) (c : Call) :
    Value → String → List String → List Value → Nat → Prop where
  | function {f : Value} {g : Closure} (h : s.object? f = some (.function g)) :
      Binds s c f g.name g.params c.args 0
  | method {f : Value} {r a : Addr} {g : Closure} (h : s.object? f = some (.method r a))
      (hg : s.read a = .function g) (self : g.params ≠ []) :
      Binds s c f g.name g.params (.ref r :: c.args) 1
  | lambda {f : Value} {params : List String} {body : Expr} {scope : ScopeId}
      (h : s.object? f = some (.lambda params body scope)) :
      Binds s c f "<lambda>" params c.args 0
  | construct {a init : Addr} {name : String} {methods : Table String Addr} {g : Closure}
      (h : s.read a = .cls name methods) (hi : methods.get? "__init__" = some init)
      (hg : s.read init = .function g) (self : g.params ≠ []) :
      Binds s c (.ref a) name g.params (.ref s.objects.size :: c.args) 1

theorem Store.read_made {s : Store} {cls a : Addr} {g : Closure} :
    (s.alloc (.instance_ cls [])).2.read a = .function g ↔ s.read a = .function g := by
  rw [read_alloc]
  split
  · next e =>
    rw [read_of_le (Nat.le_of_eq e.symm)]
    exact iff_of_false nofun nofun
  · exact Iff.rfl

namespace Act

variable {σ : Type} {setup : Setup σ} {m : Machine σ} {c : Call} {k : Context .value} {e : Fault}

theorem placed_error {α : Type} {x : Except Fault α} (h : x = .error e) (loc : Location) :
    placed loc x m = .error (e.attach (some loc)) m := by
  rw [h]
  rfl

theorem callFunction_error {f : Closure} {label : String}
    (h : bindArguments label f.params c.args c.named implicit = .error e) :
    callFunction setup f label implicit c k m = .error (e.attach (some c.location)) m :=
  bind_of_error (placed_error h c.location) _

theorem callLambda_error {body : Expr} {scope : ScopeId}
    (h : bindArguments "<lambda>" params c.args c.named 0 = .error e) :
    callLambda setup params body scope c k m = .error (e.attach (some c.location)) m :=
  bind_of_error (placed_error h c.location) _

theorem construct_error {a init : Addr} {name : String} {methods : Table String Addr} {g : Closure}
    (hi : methods.get? "__init__" = some init) (hg : m.world.store.read init = .function g)
    (self : g.params ≠ [])
    (h : bindArguments name g.params (.ref m.world.store.objects.size :: c.args) c.named 1 =
      .error e) :
    construct setup a name methods c k m = .error (e.attach (some c.location))
      { m with world := ⟨(m.world.store.alloc (.instance_ a [])).2, m.world.host⟩ } := by
  let n : Machine σ :=
    { m with world := ⟨(m.world.store.alloc (.instance_ a [])).2, m.world.host⟩ }
  have made : alloc (.instance_ a []) m = .ok (.ref m.world.store.objects.size) n := rfl
  have read : store n = .ok n.world.store n := rfl
  have there : n.world.store.read init = .function g := Store.read_made.mpr hg
  unfold construct
  rw [bind_of_ok made, bind_of_ok read, hi, Option.map_some, there]
  simp only [List.isEmpty_iff, self, if_false]
  exact bind_of_error (callFunction_error h) _

/-- No scope is opened, no call entered and no handler asked. At most there is a new object that
nothing refers to. -/
theorem invoke_error {f : Value} (hb : m.world.store.Binds c f callee params args implicit)
    (h : bindArguments callee params args c.named implicit = .error e) :
    ∃ made, invoke setup f c k m = .error (e.attach (some c.location)) { m with
      world := ⟨{ m.world.store with objects := m.world.store.objects ++ made }, m.world.host⟩ } := by
  have read : store m = .ok m.world.store m := rfl
  have same (h : invoke setup f c k m = .error (e.attach (some c.location)) m) :
      ∃ made, invoke setup f c k m = .error (e.attach (some c.location)) { m with
        world := ⟨{ m.world.store with objects := m.world.store.objects ++ made }, m.world.host⟩ } :=
    ⟨#[], by rw [Array.append_empty]; exact h⟩
  cases hb with
  | function hf =>
    apply same
    rw [invoke, bind_of_ok read]
    simp only [hf]
    exact bind_of_error (callFunction_error h) _
  | method hf hg self =>
    apply same
    rw [invoke, bind_of_ok read]
    simp only [hf, hg, List.isEmpty_iff, self, if_false]
    exact bind_of_error (callFunction_error h) _
  | lambda hf =>
    apply same
    rw [invoke, bind_of_ok read]
    simp only [hf]
    exact bind_of_error (callLambda_error h) _
  | @construct a _ _ _ _ hf hi hg self =>
    refine ⟨#[.instance_ a []], ?_⟩
    rw [invoke, bind_of_ok read]
    simp only [Store.object?, hf]
    exact bind_of_error (construct_error hi hg self h) _

end Act

theorem Fits.get?_iff (h : Fits params args named) (hp : params.Nodup) (hn : named.keys.Nodup)
    {p : String} {v : Value} :
    Table.get? (params.zip args ++ named) p = some v ↔
      (p, v) ∈ params.zip args ∨ (p, v) ∈ named := by
  have distinct := (h.keys_perm hp hn).nodup_iff.mpr hp
  rw [← List.mem_append]
  exact ⟨Table.mem_of_get?, Table.get?_of_mem distinct⟩

/-- A table holds each value of a call under a name of its own: the parameter in its place, or its
keyword. -/
structure Supplied (bound : Table String Value) (params : List String) (args : List Value)
    (named : Table String Value) : Prop where
  length : bound.length = args.length + named.length
  distinct : bound.keys.Nodup
  position (i : Nat) (v : Value) : args[i]? = some v →
    ∃ p, params[i]? = some p ∧ bound.get? p = some v
  keyword (key : String) (v : Value) : (key, v) ∈ named → bound.get? key = some v

theorem supplied_of_bindArguments (hp : params.Nodup) (hn : named.keys.Nodup)
    (hi : implicit ≤ args.length) (h : bindArguments callee params args named implicit = .ok bound) :
    Supplied bound params args named := by
  obtain ⟨fits, rfl⟩ := (bindArguments_eq_ok_iff hp hn hi).mp h
  refine ⟨?_, (fits.keys_perm hp hn).nodup_iff.mpr hp, fun i v hv => ?_, fun key v hv => ?_⟩
  · rw [List.length_append, List.length_zip, Nat.min_eq_right fits.1]
  · obtain ⟨hi, -⟩ := List.getElem?_eq_some_iff.mp hv
    have hp' := List.getElem?_eq_getElem (hi.trans_le fits.1)
    refine ⟨_, hp', (fits.get?_iff hp hn).mpr (.inl ?_)⟩
    exact List.mem_of_getElem? (List.getElem?_zip_eq_some.mpr ⟨hp', hv⟩)
  · exact (fits.get?_iff hp hn).mpr (.inr hv)

theorem Fits.receiver (h : Fits params args named) (hp : params.Nodup) (some_arg : 1 ≤ args.length) :
    ∃ self rest object others, params = self :: rest ∧ args = object :: others ∧
      params.zip args = (self, object) :: rest.zip others ∧ self ∉ rest ∧ self ∉ named.keys := by
  match params, args, some_arg with
  | self :: rest, object :: others, _ =>
    have apart := (List.nodup_cons.mp hp).1
    refine ⟨self, rest, object, others, rfl, rfl, rfl, apart, fun hk => ?_⟩
    exact apart (List.mem_of_mem_drop ((h.2 self).mp hk))
  | [], _ :: _, _ => exact absurd h.1 (by simp)

/-- Arguments are accepted if and only if there are not too many by position and those by keyword are for
the parameters that are left. Then each parameter has one value, and the receiver stands for the first
parameter only. Otherwise the call fails, and no scope is opened, no call entered and no handler asked. -/
theorem arguments_bind_once (hp : params.Nodup) (hn : named.keys.Nodup)
    (receiver : implicit ≤ args.length) :
    ((∃ bound, bindArguments callee params args named implicit = .ok bound) ↔
      args.length ≤ params.length ∧
        ∀ key, key ∈ named.keys ↔ key ∈ params.drop args.length) ∧
    (∀ bound, bindArguments callee params args named implicit = .ok bound →
      bound.keys.Perm params ∧
      (∀ p v, bound.get? p = some v ↔ (p, v) ∈ params.zip args ∨ (p, v) ∈ named) ∧
      (implicit = 1 → ∃ self rest object others,
        params = self :: rest ∧ args = object :: others ∧
        bound = (self, object) :: (rest.zip others ++ named) ∧
        self ∉ rest ∧ self ∉ named.keys)) ∧
    (∀ e, bindArguments callee params args named implicit = .error e →
      ∀ (σ : Type) (setup : Setup σ) (m : Machine σ) (f : Value) (c : Call) (k : Context .value),
        c.named = named → m.world.store.Binds c f callee params args implicit →
        ∃ made, Act.invoke setup f c k m = .error (e.attach (some c.location)) { m with
          world := ⟨{ m.world.store with objects := m.world.store.objects ++ made },
            m.world.host⟩ }) := by
  have accepted := @bindArguments_eq_ok_iff callee params args named
  refine ⟨⟨?_, ?_⟩, ?_, ?_⟩
  · rintro ⟨bound, h⟩
    exact ((accepted hp hn receiver).mp h).1
  · intro h
    exact ⟨_, (accepted hp hn receiver).mpr ⟨h, rfl⟩⟩
  · intro bound h
    obtain ⟨fits, rfl⟩ := (accepted hp hn receiver).mp h
    refine ⟨fits.keys_perm hp hn, fun p v => fits.get?_iff hp hn, ?_⟩
    rintro rfl
    obtain ⟨self, rest, object, others, hself, hargs, zipped, first, last⟩ := fits.receiver hp receiver
    exact ⟨self, rest, object, others, hself, hargs, by rw [zipped]; rfl, first, last⟩
  · rintro e h σ setup m f c k rfl hb
    exact Act.invoke_error hb h

theorem receiver_and_keyword_bind : ∃ bound,
    bindArguments "Turtle" ["self", "steps"] [.ref 0] [("steps", .bool true)] 1 = .ok bound ∧
      bound.keys.Perm ["self", "steps"] ∧ bound.get? "self" = some (.ref 0) ∧
      bound.get? "steps" = some (.bool true) := by
  have distinct : ["self", "steps"].Nodup := by decide
  have single : Table.keys [("steps", Value.bool true)] = ["steps"] := rfl
  obtain ⟨accepted, kept, -⟩ := @arguments_bind_once "Turtle" ["self", "steps"] [.ref 0]
    [("steps", .bool true)] 1 distinct (by simp [single]) (Nat.le_refl 1)
  obtain ⟨bound, h⟩ := accepted.mpr ⟨by decide, fun key => Iff.rfl⟩
  obtain ⟨all, read, -⟩ := kept bound h
  exact ⟨bound, h, all, (read _ _).mpr (.inl (.head _)), (read _ _).mpr (.inr (.head _))⟩

end LoopScript
