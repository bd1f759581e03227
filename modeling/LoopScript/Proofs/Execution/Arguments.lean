import LoopScript.Proofs.Execution.Failures
import LoopScript.Proofs.Execution.Obedience
import LoopScript.Proofs.Machine.Acceptance
import LoopScript.Proofs.Program.Parts
import LoopScript.Proofs.Program.Spans

/-!
The arguments of calls in programs that are read from texts: neither the parameters of a definition
nor the keywords of a call are repeated, so that no value of an accepted call is lost.
-/

namespace LoopScript

variable {σ : Type}

/-- The keywords of a call differ. -/
def Expr.Distinct : Expr → Prop
  | call _ _ _ named => (named.map (·.1)).Nodup
  | _ => True

/-- The parameters of each function that a statement defines differ. -/
def Stmt.Distinct (s : Stmt) : Prop :=
  ∀ d ∈ s.definitions, d.params.Nodup

abbrev Expr.Unambiguous (e : Expr) : Prop := e.Holds Distinct

abbrev Stmt.Unambiguous (s : Stmt) : Prop := s.Holds Distinct Expr.Distinct

def Obj.Unambiguous : Obj → Prop
  | .function f => f.params.Nodup ∧ ∀ s ∈ f.body, s.Unambiguous
  | .lambda _ body _ => body.Unambiguous
  | _ => True

def Store.Unambiguous (s : Store) : Prop := ∀ o ∈ s.objects, o.Unambiguous

section Reading

variable {o : Origin} {w : List Token}

theorem Expr.Stems.keywords {e : Expr} (h : e.Stems o w) : e.Distinct := by
  cases e with
  | call => exact h.2.1
  | _ => trivial

theorem Program.unambiguous_ofSource {text file : String} {p : Program}
    (h : ofSource text file = .ok p) : ∀ s ∈ p.statements, s.Unambiguous := by
  obtain ⟨o, tokens, -, spans⟩ := spans_ofSource h
  intro s hs
  exact Stmt.Holds.mono (spans.origins s hs) (fun _ h => h.distinct) fun _ h => h.keywords

end Reading

/-- In all code parameters and keywords differ. The parameters of a lambda may be the same. -/
def Policy.unambiguous : Policy where
  stmt _ _ s := s.Unambiguous
  expr e := e.Unambiguous
  name _ := True
  names := List.Nodup
  waits _ := True
  joins _ := True
  signs _ := True
  word _ := True
  fault _ := True
  part hs he := hs.part he
  inner he hf := he.part hf
  branch h hs := by
    rcases hs with hs | ⟨ss, rfl, hs⟩
    · exact h.body List.mem_cons_self _ hs
    · exact h.body (List.mem_cons_of_mem _ (List.mem_singleton.mpr rfl)) _ hs
  loop h hs := h.body List.mem_cons_self _ hs
  each h hs := h.body List.mem_cons_self _ hs
  function h := ⟨trivial, h.self _ List.mem_cons_self, h.body List.mem_cons_self⟩
  class_ h := ⟨trivial, fun d hd => ⟨trivial, h.self d hd, h.body (List.mem_map_of_mem hd)⟩⟩
  call h := h.self
  no_names := List.nodup_nil
  fewer h hs := h.sublist hs
  assign _ _ _ := trivial
  binary _ := trivial
  unary _ := trivial
  joined _ _ _ := trivial
  word_name _ := trivial
  word_joins _ := trivial
  word_signs _ := trivial
  ruled _ := trivial
  attach _ _ := trivial
  unjoined _ _ _ := trivial
  unsigned _ _ _ := trivial
  stray _ _ _ _ := trivial

theorem Store.under_unambiguous {s : Store} : s.Under .unambiguous ↔ s.Unambiguous := by
  refine forall₂_congr fun o _ => ?_
  cases o with
  | function f =>
    constructor
    · exact fun ⟨body, _, params⟩ => ⟨params, body⟩
    · exact fun ⟨params, body⟩ => ⟨body, trivial, params⟩
  | _ => exact Iff.rfl

section Calls

variable {s : Store} {c : Call} {f : Value} {callee : String} {params : List String}
  {args : List Value} {implicit : Nat}

theorem Store.Binds.implicit_le (h : s.Binds c f callee params args implicit) :
    implicit ≤ args.length := by
  cases h <;> simp

theorem Store.Binds.nodup (h : s.Binds c f callee params args implicit)
    (hs : s.Under .unambiguous)
    (lambdas : ∀ ps body scope, s.object? f = some (.lambda ps body scope) → ps.Nodup) :
    params.Nodup := by
  have differ {a : Addr} {g : Closure} (hg : s.read a = .function g) : g.params.Nodup := by
    have made := under_read hs a
    rw [hg] at made
    exact made.2.2
  cases h with
  | function hf => exact (under_object hs hf).2.2
  | method hf hg => exact differ hg
  | lambda hf => exact lambdas _ _ _ hf
  | construct hf hi hg => exact differ hg

theorem Store.lookup_opened {fresh : ScopeId} {parent : Option ScopeId} {bound : Table String Value}
    {name : String} {v : Value} (h : s.scopes[fresh]? = some ⟨parent, bound⟩)
    (hv : bound.get? name = some v) : s.lookup fresh name = .ok v := by
  have here : s.scope fresh = ⟨parent, bound⟩ := by
    rw [scope, Array.getD_eq_getD_getElem?, h, Option.getD_some]
  have has : bound.has name = true := by rw [Table.has, hv, Option.isSome_some]
  rw [lookup, lookup?, owner?, here, if_pos has, Option.bind_some, here, hv]

end Calls

/-- No accepted call loses an argument. In a program that is read from a text no definition repeats a
parameter. In its run, whatever code the interpreter holds already, as long as that does not either,
a call that is accepted calls a function of the language or the host, makes an object of a class that
takes no arguments, or has a scope of its own with one binding for each value that is supplied, the
receiver included, unless the callee is a lambda that repeats a parameter. -/
theorem accepted_calls_keep_arguments {text file : String} {p : Program}
    (hp : Program.ofSource text file = .ok p) :
    (∀ looped inside s, p.Has looped inside s → ∀ d ∈ s.definitions, d.params.Nodup) ∧
    ∀ (i : Interpreter σ) (host : Wait σ → World σ → World σ),
      i.machine.world.store.Unambiguous →
      (∀ w answer u, i.setup.Calls w answer u → w.store.Unambiguous → u.store.Unambiguous) →
      (∀ w u, u.store.Unambiguous → (host w u).store.Unambiguous) →
      ∀ f c k m v n, i.Comes host p (.move (.call f c k)) m →
        Act.invoke i.setup f c k m = .ok v n →
        (∀ ps body scope, m.world.store.object? f = some (.lambda ps body scope) → ps.Nodup) →
        (∃ name, m.world.store.object? f = some (.builtin name)) ∨
        (m.world.store.Bare f ∧ c.arity = 0) ∨
        ∃ callee params args implicit bound,
          m.world.store.Binds c f callee params args implicit ∧
          bindArguments callee params args c.named implicit = .ok bound ∧
          Supplied bound params args c.named ∧
          (∀ t, v = .react (.start t) → t.scope = m.world.store.scopes.size) ∧
          (i.setup.SparesScopes → ∀ name w, bound.get? name = some w →
            n.world.store.lookup m.world.store.scopes.size name = .ok w) := by
  have plain := Program.unambiguous_ofSource hp
  refine ⟨fun looped inside s hs => (hs.holds plain).self, ?_⟩
  intro i host store calls kept f c k m v n comes accepted lambdas
  have hosts : Policy.unambiguous.Hosts i.setup := by
    refine ⟨fun _ _ => trivial, fun {w u answer} call store => ⟨?_, fun _ _ => trivial⟩⟩
    exact Store.under_unambiguous.mpr (calls w answer u call (Store.under_unambiguous.mp store))
  have waits (w : Wait σ) (u : World σ) (hu : u.store.Under .unambiguous) :
      (host w u).store.Under .unambiguous :=
    Store.under_unambiguous.mpr (kept w u (Store.under_unambiguous.mp hu))
  obtain ⟨order, keywords, -⟩ :=
    Interpreter.comes_under hosts (Store.under_unambiguous.mpr store) waits plain comes
  rcases Act.ensures_of_ok (Act.accepts_invoke f c k) accepted with builtin | bare | accepts
  · exact .inl builtin
  · exact .inr (.inl bare)
  · obtain ⟨callee, params, args, implicit, bound, binds, hb, scope, opened⟩ := accepts
    have supplied := supplied_of_bindArguments (binds.nodup order lambdas) keywords binds.implicit_le hb
    refine .inr (.inr ⟨callee, params, args, implicit, bound, binds, hb, supplied, scope, ?_⟩)
    intro spares name w hw
    obtain ⟨parent, there⟩ := opened spares
    exact Store.lookup_opened there hw

def giverPlace (line column : Nat) (text : String) : Location := ⟨"giver", line, column, text⟩

/-- A call with an argument by position and one by keyword. -/
def giver : Program :=
  let place (column : Nat) : Location := giverPlace 3 column "f('a', y='b')"
  let call : Expr := .call (place 2) (.name (place 1) "f") [.literal (place 3) (.str "a")]
    [("y", .literal (place 10) (.str "b"))]
  ⟨giverPlace 4 1 "", [.function (.mk (giverPlace 1 1 "def f(x, y):") "f" ["x", "y"]
    [.pass_ (giverPlace 2 5 "pass")]), .expr (place 1) call]⟩

theorem giver_calls : ∃ f g k m v n,
    mute.Comes (fun _ w => w) giver
      (.move (.call f ⟨[.str "a"], [("y", .str "b")], giverPlace 3 2 "f('a', y='b')"⟩ k)) m ∧
    Act.invoke mute.setup f ⟨[.str "a"], [("y", .str "b")], giverPlace 3 2 "f('a', y='b')"⟩ k m =
      .ok v n ∧
    m.world.store.object? f = some (.function g) ∧ g.params = ["x", "y"] := by
  have defining := @Interpreter.Comes.start Unit mute (fun _ w => w) giver _ _ rfl rfl
  have defined := Interpreter.Comes.step defining (by conv_lhs => cbv)
  have next := Interpreter.Comes.step defined rfl
  have calling := Interpreter.Comes.step next (by conv_lhs => cbv)
  have naming := Interpreter.Comes.step calling (by conv_lhs => cbv)
  have named := Interpreter.Comes.step naming (by conv_lhs => cbv)
  have first := Interpreter.Comes.step named rfl
  have given := Interpreter.Comes.step first (by conv_lhs => cbv)
  have second := Interpreter.Comes.step given rfl
  have ready := Interpreter.Comes.step second (by conv_lhs => cbv)
  have called := Interpreter.Comes.step ready rfl
  exact ⟨_, _, _, _, _, _, called, rfl, rfl, rfl⟩

/-- A lambda with a parameter that stands twice. -/
def repeater : Program :=
  let place (column : Nat) : Location := ⟨"repeater", 1, column, "f = lambda x, x: x"⟩
  ⟨⟨"repeater", 2, 1, ""⟩, [.assign (place 1) (.name (place 1) "f") .set
    (.lambda (place 5) ["x", "x"] (.name (place 18) "x"))]⟩

/-- The two values of a call are there to be read. The text of a lambda with a parameter twice is a
program, too. -/
theorem accepted_calls_keep_arguments_giving :
    Program.ofSource "def f(x, y):\n    pass\nf('a', y='b')\n" "giver" = .ok giver ∧
    (∃ f c k m v n, mute.Comes (fun _ w => w) giver (.move (.call f c k)) m ∧
      Act.invoke mute.setup f c k m = .ok v n ∧
      n.world.store.lookup m.world.store.scopes.size "x" = .ok (.str "a") ∧
      n.world.store.lookup m.world.store.scopes.size "y" = .ok (.str "b")) ∧
    ∃ q loc e, Program.ofSource "f = lambda x, x: x\n" "repeater" = .ok q ∧
      q.Says (.lambda loc ["x", "x"] e) := by
  have read : Program.ofSource "def f(x, y):\n    pass\nf('a', y='b')\n" "giver" = .ok giver := by cbv
  have silent {w u : World Unit} {answer : Option Fault} : ¬mute.setup.Calls w answer u :=
    Setup.not_calls rfl
  have begun : mute.machine.world.store.Unambiguous :=
    Store.under_unambiguous.mp (opening_under .empty fun o ho => by cases ho; contradiction)
  obtain ⟨f, g, k, m, v, n, comes, accepted, hf, hg⟩ := giver_calls
  have function : ∀ o, m.world.store.object? f = some o → o = .function g := by
    rintro o h
    exact Option.some.inj (h.symm.trans hf)
  obtain ⟨-, kept⟩ := accepted_calls_keep_arguments (σ := Unit) read
  refine ⟨read, ⟨f, _, k, m, v, n, comes, accepted, ?_⟩, ?_⟩
  · rcases kept mute (fun _ w => w) begun (fun _ _ _ call => absurd call silent) (fun _ _ h => h) _ _ _
      _ _ _ comes accepted (fun _ _ _ h => by cases function _ h) with ⟨_, h⟩ | ⟨bare, -⟩ | h
    · cases function _ h
    · obtain ⟨a, name, methods, rfl, h, -⟩ := bare
      cases function _ (congrArg some h)
    · obtain ⟨callee, params, args, implicit, bound, binds, -, supplied, -, reads⟩ := h
      have spares : mute.setup.SparesScopes := fun _ h => absurd h List.not_mem_nil
      cases binds with
      | function h =>
        cases function _ h
        obtain ⟨p, hp, x⟩ := supplied.position 0 (.str "a") rfl
        rw [hg] at hp
        cases hp
        exact ⟨reads spares _ _ x, reads spares _ _ (supplied.keyword "y" _ List.mem_cons_self)⟩
      | method h | lambda h => cases function _ h
      | construct h => cases function _ (congrArg some h)
  · have accepted : Program.ofSource "f = lambda x, x: x\n" "repeater" = .ok repeater := by cbv
    have said : ∃ loc e, repeater.Says (.lambda loc ["x", "x"] e) :=
      ⟨_, _, .part (.top List.mem_cons_self) (List.mem_cons_of_mem _ List.mem_cons_self)⟩
    obtain ⟨loc, e, said⟩ := said
    exact ⟨repeater, loc, e, accepted, said⟩

end LoopScript
