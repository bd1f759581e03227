import LoopScript.Proofs.Machine.Inner
import LoopScript.Proofs.Machine.Closed
import LoopScript.Proofs.Machine.Evaluation
import LoopScript.Proofs.Machine.Sorting
import LoopScript.Proofs.Machine.Trail
import LoopScript.Proofs.Services.Globals

/-!
Calls of `sorted`, with the calls that it makes of its key function. Such a call may suspend the
program and may change any container; what is sorted are the items as they were when the sort began,
by the keys as they are when the last one is there.
-/

namespace LoopScript

variable {σ : Type} {setup : Setup σ} {m m' n p : Machine σ}

/-- The controls that are carried out until another one is reached. While a program is suspended, the
machine is in other hands. -/
inductive Setup.Travels (setup : Setup σ) :
    Control → Machine σ → Trail → Control → Machine σ → Prop where
  | refl (c : Control) (m : Machine σ) : Travels setup c m [] c m
  | step {c c' d : Control} {m m' n : Machine σ} {trail : Trail}
      (h : c.step setup m = .ok (.go c') m') (rest : Travels setup c' m' trail d n) :
      Travels setup c m (c :: trail) d n
  | turn {t : Task} {d : Control} {m m' n : Machine σ} {trail : Trail}
      (rest : Travels setup (.task t) m' trail d n) : Travels setup (.task t) m trail d n
  | wait {c c' d : Control} {m p p' m' n : Machine σ} {w : Wait σ} {r : Resumption} {trail : Trail}
      (h : c.step setup m = .ok (.pause w r) p) (hr : r.control setup p' = .ok c' m')
      (rest : Travels setup c' m' trail d n) : Travels setup c m (c :: trail) d n

theorem Setup.Travels.trans {c c' d : Control} {first second : Trail}
    (h : setup.Travels c m first c' m') (h' : setup.Travels c' m' second d n) :
    setup.Travels c m (first ++ second) d n := by
  induction h with
  | refl => exact h'
  | step e _ ih => exact .step e (ih h')
  | turn _ ih => exact .turn (ih h')
  | wait e hr _ ih => exact .wait e hr (ih h')

/-- A call gives a value to the context around it, after everything that it does inside. -/
structure Setup.Returns (setup : Setup σ) (callee : Value) (c : Call) (k : Context .value)
    (m : Machine σ) (inner : Trail) (v : Value) (n : Machine σ) : Prop where
  travels : setup.Travels (.move (.call callee c k)) m (.move (.call callee c k) :: inner)
    (.move (.give (a := .value) v k)) n
  inside : ∀ d ∈ inner, k.depth < d.context.2.depth

/-- The calls that are made right inside a call, in order. -/
def Trail.callsIn (k : Context .value) (trail : Trail) : List (Value × Call) :=
  trail.filterMap fun
    | .move (.call callee c l) => if l.depth = k.depth + 1 then some (callee, c) else none
    | _ => none

/-- The key function is called with one item after the other, and each call returns. -/
inductive Setup.Keys (setup : Setup σ) (k : Context .value) :
    Sorting → Machine σ → List Value → Machine σ → Prop where
  | done {s : Sorting} {m : Machine σ} (h : s.todo = []) : Keys setup k s m [] m
  | next {s : Sorting} {i v : Value} {todo keys : List Value} {inner : Trail} {m m' n : Machine σ}
      (h : s.todo = i :: todo)
      (returns : setup.Returns s.key ⟨[i], [], s.loc⟩ (.sortKey { s with todo } k) m inner v m')
      (rest : Keys setup k { s with todo, keys := v :: s.keys } m' keys n) :
      Keys setup k s m (v :: keys) n

/-- The keys that a call of `sorted` goes by, and the machine on which it sorts. -/
inductive Setup.SortsBy (setup : Setup σ) (k : Context .value) (loc : Location) (reversed : Bool)
    (items : List Value) (m : Machine σ) : Value → List Value → Machine σ → Prop where
  | items : SortsBy setup k loc reversed items m .none items m
  | computed {key : Value} {keys : List Value} {n : Machine σ} (given : key ≠ .none)
      (h : setup.Keys k ⟨loc, key, items, [], items, reversed⟩ m keys n) :
      SortsBy setup k loc reversed items m key keys n

namespace Call

/-- An argument that is given by position or by keyword. -/
def option (c : Call) (place : Nat) (name : String) : Option Value :=
  c.args[place]?.or (c.named.get? name)

/-- The arguments of a call of `sorted`: what is sorted, the key function, and whether the order is
reversed. -/
structure Sorts (c : Call) (x key flag : Value) : Prop where
  first : c.args[0]? = some x
  few : c.args.length ≤ 3
  known : ∀ name ∈ c.named.keys, name = "key" ∨ name = "reverse"
  oneKey : c.named.has "key" → c.args.length ≤ 1
  oneReverse : c.named.has "reverse" → c.args.length ≤ 2
  key : (c.option 1 "key").getD .none = key
  reverse : (c.option 2 "reverse").getD (.bool false) = flag

end Call

namespace Act

variable {c : Call} {x key flag i : Value} {items keys todo sorted : List Value} {k : Context .value}
  {loc : Location} {reversed : Bool}

theorem keywordsOf_ok {b : Builtin σ} {names : List String} (h : ∀ name ∈ names, name ∈ b.keywords) :
    Builtin.accepts.keywordsOf b names = .ok () := by
  induction names with
  | nil => rfl
  | cons name names ih =>
    rw [List.forall_mem_cons] at h
    rw [Builtin.accepts.keywordsOf, if_pos h.1]
    exact ih h.2

theorem accepts_ok {b : Builtin σ} (least : b.least ≤ c.args.length)
    (most : ∀ n ∈ b.most, c.args.length ≤ n) (known : ∀ name ∈ c.named.keys, name ∈ b.keywords) :
    b.accepts c = .ok () := by
  unfold Builtin.accepts
  rw [if_neg (Nat.not_lt.mpr least), keywordsOf_ok known]
  cases h : b.most with
  | none => rfl
  | some n => exact if_neg (Nat.not_lt.mpr (most n h))

theorem accepts_sorted (h : c.Sorts x key flag) :
    (CoreFunction.sorted.builtin (σ := σ)).accepts c = .ok () := by
  apply accepts_ok
  · exact (List.getElem?_eq_some_iff.mp h.first).1
  · intro n hn
    cases hn
    exact h.few
  · intro name hn
    rcases h.known name hn with rfl | rfl <;> simp [CoreFunction.builtin, CoreFunction.keywords]

theorem onlyOnce_ok {name : String} {place : Nat} {more : List Value}
    (h : c.named.has name → more.length < place) :
    onlyOnce (σ := σ) c name place more m = .ok () m := by
  unfold onlyOnce
  rw [if_neg fun ⟨given, again⟩ => absurd (h given) (Nat.not_lt.mpr again)]
  rfl

theorem sortingKey?_none {named : Table String Value} {more : List Value}
    (h : (more[0]?.or (named.get? "key")).getD .none = .none) : sortingKey? named more = none := by
  unfold sortingKey?
  rw [List.head?_eq_getElem?]
  cases he : more[0]?.or (named.get? "key") with
  | none => rfl
  | some key =>
    rw [he, Option.getD_some] at h
    rw [h]

theorem sortingKey?_some {named : Table String Value} {more : List Value}
    (h : (more[0]?.or (named.get? "key")).getD .none = key) (given : key ≠ .none) :
    sortingKey? named more = some key := by
  unfold sortingKey?
  rw [List.head?_eq_getElem?]
  cases he : more[0]?.or (named.get? "key") with
  | none =>
    rw [he] at h
    exact absurd h.symm given
  | some key' =>
    rw [he, Option.getD_some] at h
    subst h
    split
    · next e =>
      cases e
      exact absurd rfl given
    · rfl

/-- A sort once its arguments are known. -/
def beginSort (setup : Setup σ) (loc : Location) (reversed : Bool) (k : Context .value) :
    Option Value → List Value → Act σ (Invocation σ)
  | some key, i :: todo =>
    return .again key ⟨[i], [], loc⟩ (.sortKey ⟨loc, key, i :: todo, [], todo, reversed⟩ k)
  | _, items => return .react (.give (← endSort setup loc reversed items items))

theorem startSort_eq (h : c.Sorts x key flag) (hi : m.world.store.items x = .ok items) :
    startSort setup c k m = beginSort setup c.location (m.world.store.truthy flag) k
      (sortingKey? c.named (c.args.drop 1)) items m := by
  obtain ⟨first, few, -, oneKey, oneReverse, -, hr⟩ := h
  cases hargs : c.args with
  | nil => simp [hargs] at first
  | cons y more =>
    simp only [hargs, List.getElem?_cons_zero, Option.some.injEq] at first
    subst first
    simp only [hargs, List.length_cons] at few oneKey oneReverse
    simp only [Call.option, hargs, List.getElem?_cons_succ] at hr
    unfold startSort
    simp only [hargs]
    rw [bind_of_ok (onlyOnce_ok fun given => by have := oneKey given; omega),
      bind_of_ok (onlyOnce_ok fun given => by have := oneReverse given; omega),
      bind_of_ok (reading_ok c.location hi)]
    rw [← hr, List.drop_succ_cons, List.drop_zero]
    -- The place of the flag depends on how many arguments there are.
    rcases more with _ | ⟨_, _ | ⟨_, _⟩⟩ <;>
      · generalize sortingKey? c.named _ = key
        cases key <;> cases items <;> rfl

/-- A sort that needs no keys, or has nothing to compute them of. -/
theorem startSort_plain (h : c.Sorts x key flag) (hi : m.world.store.items x = .ok items)
    (plain : key = .none ∨ items = []) :
    startSort setup c k m = ((fun v => .react (.give v)) <$>
      endSort setup c.location (m.world.store.truthy flag) items items) m := by
  have hk := h.key
  rw [startSort_eq h hi, ← bind_pure_comp]
  rcases plain with rfl | rfl
  · rw [sortingKey?_none (by simpa [Call.option] using hk)]
    rfl
  · cases sortingKey? c.named (c.args.drop 1) <;> rfl

theorem startSort_keyed (h : c.Sorts x key flag) (hi : m.world.store.items x = .ok (i :: todo))
    (given : key ≠ .none) :
    startSort setup c k m = .ok (.again key ⟨[i], [], c.location⟩
      (.sortKey ⟨c.location, key, i :: todo, [], todo, m.world.store.truthy flag⟩ k)) m := by
  have hk := h.key
  rw [startSort_eq h hi, sortingKey?_some (by simpa [Call.option] using hk) given]
  rfl

/-- The end of a sort by keys that have an order. -/
theorem endSort_eq (setup : Setup σ) (hn : keys.length = items.length) (h : keys.Pairwise m.world.store.Ranked)
    (loc : Location) (reversed : Bool) :
    ∃ sorted, m.world.store.StablySorts reversed keys items sorted ∧
      endSort setup loc reversed keys items m = (do
        let result ← alloc (.list sorted)
        emit setup (.afterCall CoreFunction.sorted.name result loc)
        return result) m := by
  obtain ⟨sorted, hs, stable⟩ := (Store.sortBy_stable hn h reversed).exists_ok
  exact ⟨sorted, stable, bind_of_ok (reading_ok loc hs) _⟩

end Act

section Calls

variable {f x key flag i : Value} {c : Call} {k : Context .value} {items keys todo : List Value}
  {m₀ : Machine σ} {s : Sorting}

/-- A sort is at work once the observers of its call have let it. -/
theorem invoke_sorted (hf : m.world.store.object? f = some (.builtin CoreFunction.sorted.name))
    (hc : c.Sorts x key flag)
    (before : Act.emit setup (.beforeCall CoreFunction.sorted.name c.args c.location) m = .ok ⟨⟩ m₀) :
    Act.invoke setup f c k m = Act.startSort setup c k m₀ := by
  have found : setup.builtin? CoreFunction.sorted.name = some CoreFunction.sorted.builtin := by
    rw [Setup.builtin?, coreBuiltins_get?]
    rfl
  have called : Act.invoke setup f c k m = Act.callBuiltin setup CoreFunction.sorted.builtin c k m := by
    have read : Act.store m = .ok m.world.store m := rfl
    rw [Act.invoke, Act.bind_of_ok read]
    simp only [hf, found]
  have accepted : Act.placed c.location ((CoreFunction.sorted.builtin (σ := σ)).accepts c) m =
      .ok ⟨⟩ m := by
    rw [Act.accepts_sorted hc]
    rfl
  rw [called, Act.callBuiltin, Act.bind_of_ok accepted]
  exact Act.bind_of_ok before _

theorem step_sorted_plain (hf : m.world.store.object? f = some (.builtin CoreFunction.sorted.name))
    (hc : c.Sorts x key flag)
    (before : Act.emit setup (.beforeCall CoreFunction.sorted.name c.args c.location) m = .ok ⟨⟩ m₀)
    (hi : m₀.world.store.items x = .ok items) (plain : key = .none ∨ items = []) {v : Value}
    (works : Act.endSort setup c.location (m₀.world.store.truthy flag) items items m₀ = .ok v n) :
    Control.step setup (.move (.call f c k)) m = .ok (.go (.move (.give (a := .value) v k))) n := by
  have started : Act.invoke setup f c k m = .ok (.react (.give v)) n := by
    rw [invoke_sorted hf hc before, Act.startSort_plain hc hi plain, ← bind_pure_comp,
      Act.bind_of_ok works]
    rfl
  exact Act.bind_of_ok started _

theorem step_sorted_keyed (hf : m.world.store.object? f = some (.builtin CoreFunction.sorted.name))
    (hc : c.Sorts x key flag)
    (before : Act.emit setup (.beforeCall CoreFunction.sorted.name c.args c.location) m = .ok ⟨⟩ m₀)
    (hi : m₀.world.store.items x = .ok (i :: todo)) (given : key ≠ .none) :
    Control.step setup (.move (.call f c k)) m =
      .ok (.go (.move (.call key ⟨[i], [], c.location⟩
        (.sortKey ⟨c.location, key, i :: todo, [], todo, m₀.world.store.truthy flag⟩ k)))) m₀ := by
  have started := invoke_sorted (k := k) hf hc before
  rw [Act.startSort_keyed hc hi given] at started
  exact Act.bind_of_ok started _

theorem step_sortKey_next {v : Value} (h : s.todo = i :: todo) :
    Control.step setup (.move (.give (a := .value) v (.sortKey s k))) m =
      .ok (.go (.move (.call s.key ⟨[i], [], s.loc⟩
        (.sortKey { s with keys := v :: s.keys, todo } k)))) m := by
  change Act.giveTo setup (a := .value) v (.sortKey s k) m = _
  simp only [Act.giveTo, h]
  rfl

theorem step_sortKey_done {v w : Value} (h : s.todo = [])
    (works : Act.endSort setup s.loc s.reversed (v :: s.keys).reverse s.items m = .ok w n) :
    Control.step setup (.move (.give (a := .value) v (.sortKey s k))) m =
      .ok (.go (.move (.give (a := .value) w k))) n := by
  change Act.giveTo setup (a := .value) v (.sortKey s k) m = _
  simp only [Act.giveTo, h]
  exact Act.bind_of_ok works _

theorem callsIn_append (first second : Trail) :
    Trail.callsIn k (first ++ second) = Trail.callsIn k first ++ Trail.callsIn k second :=
  List.filterMap_append

/-- What stands deeper than the arguments of a call is not called by it. -/
theorem callsIn_of_inside {trail : Trail} (h : ∀ d ∈ trail, k.depth + 1 < d.context.2.depth) :
    Trail.callsIn k trail = [] := by
  apply List.filterMap_eq_nil_iff.mpr
  intro d hd
  have deep := h d hd
  match d with
  | .task _ => rfl
  | .move (.give _ _) => rfl
  | .move (.call _ _ l) =>
    change k.depth + 1 < l.depth at deep
    exact if_neg (by omega)

/-- Where a sort is when its last key is there. -/
theorem keys_travel {i : Value} {todo : List Value} (h : setup.Keys k s m keys n)
    (hs : s.todo = i :: todo) :
    ∃ (inner : Trail) (v : Value) (t : Sorting),
      setup.Travels (.move (.call s.key ⟨[i], [], s.loc⟩ (.sortKey { s with todo } k))) m inner
        (.move (.give (a := .value) v (.sortKey t k))) n ∧
      (t.loc = s.loc ∧ t.reversed = s.reversed ∧ t.items = s.items ∧ t.todo = [] ∧
        (v :: t.keys).reverse = s.keys.reverse ++ keys) ∧
      (∀ d ∈ inner, k.depth < d.context.2.depth) ∧
      Trail.callsIn k inner = s.todo.map fun i => (s.key, ⟨[i], [], s.loc⟩) := by
  induction h generalizing i todo with
  | done h => cases h.symm.trans hs
  | @next s i v todo keys inner m m' n h returns keyed ih =>
    obtain ⟨rfl, rfl⟩ := List.cons.inj (h.symm.trans hs)
    let call : Control := .move (.call s.key ⟨[i], [], s.loc⟩ (.sortKey { s with todo } k))
    have calls : Trail.callsIn k (call :: inner) = [(s.key, ⟨[i], [], s.loc⟩)] := by
      have none : Trail.callsIn k inner = [] := callsIn_of_inside returns.inside
      rw [← none]
      exact List.filterMap_cons_some (if_pos rfl)
    have deep : ∀ d ∈ call :: inner, k.depth < d.context.2.depth := by
      refine List.forall_mem_cons.mpr ⟨Nat.lt_succ_self _, fun d hd => ?_⟩
      exact Nat.lt_of_succ_lt (returns.inside d hd)
    cases todo with
    | nil =>
      cases keyed with
      | next h => cases h
      | done =>
        refine ⟨_, v, { s with todo := [] }, returns.travels, ⟨rfl, rfl, rfl, rfl, ?_⟩, deep, ?_⟩
        · exact List.reverse_cons
        · rw [calls, hs]
          rfl
    | cons i' todo =>
      obtain ⟨later, w, t, travels, ⟨loc, reversed, items, todo', kept⟩, deep', calls'⟩ := ih rfl
      have turn : Control.step setup
          (.move (.give (a := .value) v (.sortKey { s with todo := i' :: todo } k))) m' = _ :=
        step_sortKey_next rfl
      refine ⟨_, w, t, returns.travels.trans (.step turn travels),
        ⟨loc, reversed, items, todo', ?_⟩, ?_, ?_⟩
      · rw [kept, List.reverse_cons, List.append_assoc]
        rfl
      · intro d hd
        rcases List.mem_append.mp hd with hd | hd
        · exact deep d hd
        · rcases List.mem_cons.mp hd with rfl | hd
          · exact Nat.lt_succ_self _
          · exact deep' d hd
      · rw [callsIn_append, calls, hs]
        exact congrArg _ calls'

theorem keys_length (h : setup.Keys k s m keys n) : keys.length = s.todo.length := by
  induction h with
  | done h => rw [h]
  | next h _ _ ih => rw [h, List.length_cons, List.length_cons, ih]

/-- The calls of the key function that a sort makes. -/
def keyCalls (loc : Location) (items : List Value) : Value → List (Value × Call)
  | .none => []
  | key => items.map fun i => (key, ⟨[i], [], loc⟩)

theorem keyCalls_of_ne (loc : Location) (items : List Value) (given : key ≠ .none) :
    keyCalls loc items key = items.map fun i => (key, ⟨[i], [], loc⟩) := by
  unfold keyCalls
  split
  · exact absurd rfl given
  · rfl

theorem sorted_returns (hf : m.world.store.object? f = some (.builtin CoreFunction.sorted.name))
    (hc : c.Sorts x key flag)
    (before : Act.emit setup (.beforeCall CoreFunction.sorted.name c.args c.location) m = .ok ⟨⟩ m₀)
    (hi : m₀.world.store.items x = .ok items)
    (hk : setup.SortsBy k c.location (m₀.world.store.truthy flag) items m₀ key keys n)
    {v : Value} {n' : Machine σ}
    (works : Act.endSort setup c.location (m₀.world.store.truthy flag) keys items n = .ok v n') :
    ∃ inner, setup.Returns f c k m inner v n' ∧
      Trail.callsIn k inner = keyCalls c.location items key := by
  cases hk with
  | items =>
    have step := step_sorted_plain (k := k) hf hc before hi (.inl rfl) works
    exact ⟨[], ⟨.step step (.refl _ _), nofun⟩, rfl⟩
  | computed given keyed =>
    cases items with
    | nil =>
      cases keyed with
      | next h => cases h
      | done =>
        have step := step_sorted_plain (k := k) hf hc before hi (.inr rfl) works
        exact ⟨[], ⟨.step step (.refl _ _), nofun⟩, (keyCalls_of_ne c.location [] given).symm⟩
    | cons i todo =>
      obtain ⟨inner, w, t, travels, ⟨loc, reversed, items, none, kept⟩, deep, calls⟩ :=
        keys_travel keyed rfl
      have first := step_sorted_keyed (k := k) hf hc before hi given
      have last : Control.step setup (.move (.give (a := .value) w (.sortKey t k))) n =
          .ok (.go (.move (.give (a := .value) v k))) n' := by
        apply step_sortKey_done none
        rw [loc, reversed, items, kept]
        exact works
      refine ⟨_, ⟨.step first (travels.trans (.step last (.refl _ _))), ?_⟩, ?_⟩
      · intro d hd
        rcases List.mem_append.mp hd with hd | hd
        · exact deep d hd
        · exact List.mem_singleton.mp hd ▸ Nat.lt_succ_self _
      · rw [callsIn_append, calls, keyCalls_of_ne _ _ given]
        exact List.append_nil _

/-- `sorted` is a stable sort in both directions. If each call of the key function returns, and the keys
have an order, it gives a new list of the items as they were when the sort began, and has called the
key function with each of them once, in their order. -/
theorem sorted_stable (hf : m.world.store.object? f = some (.builtin CoreFunction.sorted.name))
    (hc : c.Sorts x key flag)
    (before : Act.emit setup (.beforeCall CoreFunction.sorted.name c.args c.location) m = .ok ⟨⟩ m₀)
    (hi : m₀.world.store.items x = .ok items)
    (hk : setup.SortsBy k c.location (m₀.world.store.truthy flag) items m₀ key keys n)
    (ranked : keys.Pairwise n.world.store.Ranked) :
    ∃ sorted, sorted.Perm items ∧
      n.world.store.StablySorts (m₀.world.store.truthy flag) keys items sorted ∧
      ∃ n₁, Act.alloc (.list sorted) n = .ok (.ref n.world.store.objects.size) n₁ ∧
        ∀ n₂, Act.emit setup (.afterCall CoreFunction.sorted.name
            (.ref n.world.store.objects.size) c.location) n₁ = .ok ⟨⟩ n₂ →
          ∃ inner, setup.Returns f c k m inner (.ref n.world.store.objects.size) n₂ ∧
            Trail.callsIn k inner = keyCalls c.location items key := by
  have hn : keys.length = items.length := by
    cases hk with
    | items => rfl
    | computed _ keyed => exact keys_length keyed
  obtain ⟨sorted, stable, ends⟩ := Act.endSort_eq setup hn ranked c.location
    (m₀.world.store.truthy flag)
  refine ⟨sorted, stable.perm hn, stable, _, rfl, fun n₂ after => ?_⟩
  apply sorted_returns hf hc before hi hk
  rw [ends]
  exact Act.bind_of_ok after _

end Calls

def sorterPlace : Location := ⟨"sorter", 1, 1, ""⟩

def sorterSetup : Setup Unit := ⟨.empty, fun _ u => u, 100, false⟩

/-- A machine on which there are a list, a function that gives its argument back, and `sorted`. -/
def sorter : Machine Unit :=
  { world := ⟨⟨#[.builtin "sorted", .list [.str "a", .str "b"],
      .lambda ["x"] (.name sorterPlace "x") 0], #[⟨none, []⟩]⟩, ()⟩
    globals := 0, forced := [], current := none, log := .empty, calls := [], issued := 0 }

def sorterCall : Call := ⟨[.ref 1, .ref 2], [("reverse", .bool true)], sorterPlace⟩

theorem sorterCall_sorts : sorterCall.Sorts (.ref 1) (.ref 2) (.bool true) where
  first := rfl
  few := by decide
  known := by decide
  oneKey := by decide
  oneReverse := by decide
  key := rfl
  reverse := rfl

theorem Setup.Travels.snoc {c c' d : Control} {trail : Trail} (h : setup.Travels c m trail c' m')
    (e : c'.step setup m' = .ok (.go d) n) : setup.Travels c m (trail ++ [c']) d n :=
  h.trans (.step e (.refl d n))

theorem Setup.Travels.again {c c' : Control} {trail : Trail} (_ : setup.Travels c m trail c' n)
    (d : Control) : setup.Travels d n [] d n :=
  .refl d n

theorem sorter_keys : ∃ n, sorterSetup.SortsBy (.fill .discard .program) sorterPlace true
    [.str "a", .str "b"] sorter (.ref 2) [.str "a", .str "b"] n ∧
    n.world.store.objects = sorter.world.store.objects := by
  let k : Context .value := .fill .discard .program
  let s : Sorting := ⟨sorterPlace, .ref 2, [.str "a", .str "b"], [], [.str "b"], true⟩
  have calling := @Setup.Travels.refl Unit sorterSetup
    (.move (.call (.ref 2) ⟨[.str "a"], [], sorterPlace⟩ (.sortKey s k))) sorter
  have evaluating := calling.snoc (by conv_lhs => cbv)
  have leaving := evaluating.snoc (by conv_lhs => cbv)
  have left := leaving.snoc rfl
  let s' : Sorting := ⟨sorterPlace, .ref 2, [.str "a", .str "b"], [.str "a"], [], true⟩
  have calling' := left.again (.move (.call (.ref 2) ⟨[.str "b"], [], sorterPlace⟩ (.sortKey s' k)))
  have evaluating' := calling'.snoc (by conv_lhs => cbv)
  have leaving' := evaluating'.snoc (by conv_lhs => cbv)
  have left' := leaving'.snoc rfl
  refine ⟨_, .computed (by simp) (.next rfl ⟨left, ?_⟩ (.next rfl ⟨left', ?_⟩ (.done rfl))), rfl⟩
  · decide
  · decide

theorem ranked_letters (s : Store) : [Value.str "a", .str "b"].Pairwise s.Ranked := by
  apply List.pairwise_pair.mpr
  exact ⟨(Store.regular_atom rfl).numbers, (Store.regular_atom rfl).numbers, .lt, rfl⟩

/-- Two strings in the reverse of their order, by the keys that a function computes. -/
theorem sorted_by_function : ∃ n, sorterSetup.SortsBy (.fill .discard .program) sorterPlace true
      [.str "a", .str "b"] sorter (.ref 2) [.str "a", .str "b"] n ∧
    ∃ sorted, sorted.Perm [.str "a", .str "b"] ∧
      n.world.store.StablySorts true [.str "a", .str "b"] [.str "a", .str "b"] sorted ∧
      ∃ n₁, Act.alloc (.list sorted) n = .ok (.ref n.world.store.objects.size) n₁ ∧
        ∃ inner, sorterSetup.Returns (.ref 0) sorterCall (.fill .discard .program) sorter inner
            (.ref n.world.store.objects.size) n₁ ∧
          Trail.callsIn (.fill .discard .program) inner =
            [(.ref 2, ⟨[.str "a"], [], sorterPlace⟩), (.ref 2, ⟨[.str "b"], [], sorterPlace⟩)] := by
  obtain ⟨n, keys, -⟩ := sorter_keys
  obtain ⟨sorted, perm, stable, n₁, allocated, returns⟩ :=
    sorted_stable (f := .ref 0) rfl sorterCall_sorts rfl rfl keys (ranked_letters _)
  exact ⟨n, keys, sorted, perm, stable, n₁, allocated, returns n₁ rfl⟩

/-- `min`, or `max` for the reverse order. -/
abbrev extremum (reversed : Bool) : CoreFunction := if reversed then .max else .min

theorem reply_extremum {c : Call} {v : Value} {reversed : Bool}
    (h : m.world.store.extreme (extremum reversed).name (Store.leading reversed) c.args = .ok v) :
    (extremum reversed).reply setup c m = .ok (.value v) m := by
  cases reversed <;> exact Act.bind_of_ok (Act.reading_ok c.location h) _

/-- `min` and `max` agree with `sorted`. Among items that have an order, `min` gives the first that is
not above any other, and `max` the first that is not below any other; a sort of the same items gives
the same one first, in the order of the items or in the reverse order. -/
theorem extremes_lead_sorts {c d : Call} {x flag : Value} {items : List Value} (ne : items ≠ [])
    (ranked : items.Pairwise m.world.store.Ranked) (supplied : m.world.store.Supplies c.args items)
    (hi : m.world.store.items x = .ok items) (hd : d.Sorts x .none flag) {reversed : Bool}
    (direction : m.world.store.truthy flag = reversed) (k : Context .value) :
    ∃ i v rest, m.world.store.Extreme reversed items i v ∧
      (extremum reversed).reply setup c m = .ok (.value v) m ∧
      Act.startSort setup d k m = (do
        let list ← Act.alloc (.list (v :: rest))
        Act.emit setup (.afterCall CoreFunction.sorted.name list d.location)
        return Invocation.react (.give list)) m := by
  obtain ⟨r, hr, found, first⟩ :=
    Store.extreme_row ne ranked supplied (extremum reversed).name reversed
  obtain ⟨sorted, stable, ends⟩ := Act.endSort_eq setup rfl ranked d.location reversed
  have head := Store.sort_head ranked hr first stable
  obtain ⟨rest, rfl⟩ := List.head?_eq_some_iff.mp head
  refine ⟨r.place, r.item, rest, Store.extreme_of_row hr first, reply_extremum found, ?_⟩
  rw [Act.startSort_plain hd hi (.inl rfl), direction, ← bind_pure_comp, Act.bind_congr ends]
  simp only [bind_assoc, pure_bind]

/-- The greater of two strings, and their sort in the reverse order. -/
theorem greatest_leads_sort :
    let k : Context .value := .fill .discard .program
    let call : Call := ⟨[.ref 1], [], sorterPlace⟩
    let sort : Call := ⟨[.ref 1], [("reverse", .bool true)], sorterPlace⟩
    ∃ i v rest, sorter.world.store.Extreme true [.str "a", .str "b"] i v ∧
      CoreFunction.max.reply sorterSetup call sorter = .ok (.value v) sorter ∧
      Act.startSort sorterSetup sort k sorter = (do
        let list ← Act.alloc (.list (v :: rest))
        Act.emit sorterSetup (.afterCall "sorted" list sorterPlace)
        return Invocation.react (.give list)) sorter := by
  intro k call sort
  have sorts : sort.Sorts (.ref 1) .none (.bool true) := {
    first := rfl
    few := by decide
    known := by decide
    oneKey := by decide
    oneReverse := by decide
    key := rfl
    reverse := rfl }
  exact extremes_lead_sorts (List.cons_ne_nil _ _) (ranked_letters _) (.one rfl) rfl sorts rfl k

end LoopScript
