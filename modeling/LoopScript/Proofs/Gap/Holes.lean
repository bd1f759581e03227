import LoopScript.Proofs.Gap.Actions

/-!
Tasks that begin and holes that are filled, on two machines of which the second one has gaps in its store.
-/

namespace LoopScript

inductive Reaction.Matches {σ : Type} (d : Distance σ) {b : Awaits} :
    Reaction σ b → Reaction σ b → Prop where
  | give {x y : b.Input} (h : b.past d x = y) : Matches d (.give x) (.give y)
  | start {t u : Task} (h : t.past d = u) : Matches d (.start t) (.start u)
  | pause {w w' : Wait σ} {r r' : Resumption} (hw : w.Matches d w') (hr : r.past d = r') :
      Matches d (.pause w r) (.pause w' r')

namespace Act

variable {σ : Type} {d : Distance σ} {setup : Setup σ}

section Values

theorem passes_combine (loc : Location) (old : Old) (v : Value) :
    Passes d (Value.past d) (combine loc old v : Act σ Value)
      (combine loc (Old.past d old) (v.past d)) := by
  cases old with
  | none => exact tallies_pure rfl
  | some o => exact passes_making loc fun s t hs => hs.binary o.1 o.2 v

theorem passes_oldValue (op : AssignOp) {x y : Act σ Value} (h : Passes d (Value.past d) x y) :
    Passes d (Old.past d) (oldValue op x) (oldValue op y) := by
  unfold oldValue
  split
  · exact tallies_pure rfl
  · exact passes_bind h fun _ => tallies_pure rfl

theorem passes_lookup (loc : Location) (scope : ScopeId) (name : String) :
    Passes d (Value.past d) (reading loc (·.lookup scope name) : Act σ Value)
      (reading loc (·.lookup (d.scopes.past scope) name)) :=
  passes_reading loc fun _ _ hs => hs.lookup scope name

theorem passes_getMember (loc : Location) (v : Value) (name : String) :
    Passes d (Value.past d) (making loc (·.getMember v name) : Act σ Value)
      (making loc (·.getMember (v.past d) name)) :=
  passes_making loc fun _ _ hs => hs.getMember v name

theorem passes_items (loc : Location) (v : Value) :
    Passes d (List.map (Value.past d)) (reading loc (·.items v) : Act σ (List Value))
      (reading loc (·.items (v.past d))) :=
  passes_reading loc fun _ _ hs => hs.items v

theorem passes_defineMethods (scope : ScopeId) (ds : List FunctionDef) :
    Passes d (List.map (Prod.map id d.objects.past))
      (defineMethods scope ds : Act σ (List (String × Addr)))
      (defineMethods (d.scopes.past scope) ds) := by
  induction ds with
  | nil => exact tallies_pure rfl
  | cons f fs ih =>
    refine passes_bind (passes_alloc (.function ⟨f.name, f.params, f.body, scope⟩)) fun v => ?_
    cases v with
    | ref a => exact passes_bind ih fun _ => tallies_pure rfl
    | atom a => exact ih

end Values

section Tasks

theorem passes_beginExpression (e : Expr) (scope : ScopeId) (k : Context .value) :
    Passes d (Control.past d) (beginExpression e scope k : Act σ Control)
      (beginExpression e (d.scopes.past scope) (k.past d)) := by
  cases e with
  | name loc id => exact passes_bind (passes_lookup loc scope id) fun _ => tallies_pure rfl
  | list _ items | tuple _ items =>
    cases items with
    | nil => exact passes_bind (passes_alloc (.list [])) fun _ => tallies_pure rfl
    | cons e es => exact tallies_pure rfl
  | dict _ entries =>
    cases entries with
    | nil => exact passes_bind (passes_alloc (.dict [])) fun _ => tallies_pure rfl
    | cons e es => exact tallies_pure rfl
  | lambda _ params body =>
    exact passes_bind (passes_alloc (.lambda params body scope)) fun _ => tallies_pure rfl
  | literal | binary | unary | call | index | slice | comprehension | member =>
    exact tallies_pure rfl

theorem passes_beginStatement (s : Stmt) (scope : ScopeId) (k : Context .flow) :
    Passes d (Control.past d) (beginStatement s scope k : Act σ Control)
      (beginStatement s (d.scopes.past scope) (k.past d)) := by
  cases s with
  | assign loc target op e =>
    cases target with
    | name place id =>
      exact passes_bind (passes_oldValue op (passes_lookup place scope id)) fun _ => tallies_pure rfl
    | member _ base name => exact tallies_pure rfl
    | index _ base index => exact tallies_pure rfl
  | function f =>
    refine passes_bind (passes_alloc (.function ⟨f.name, f.params, f.body, scope⟩)) fun v => ?_
    exact tallies_seq (tallies_define scope f.name v) fun _ => tallies_pure rfl
  | class_ _ name methods =>
    refine passes_bind (passes_defineMethods scope methods) fun table => ?_
    rw [Table.ofList_values]
    refine passes_bind (passes_alloc (.cls name (Table.ofList table))) fun v => ?_
    exact tallies_seq (tallies_define scope name v) fun _ => tallies_pure rfl
  | return_ _ value => cases value <;> exact tallies_pure rfl
  | global_ _ names =>
    exact tallies_seq (tallies_change (fun _ _ => rfl) fun _ => rfl) fun _ => tallies_pure rfl
  | import_ loc name member =>
    refine passes_bind (passes_lookup loc scope name) fun v => ?_
    cases member with
    | none => exact tallies_pure rfl
    | some member => exact passes_bind (passes_getMember loc v member) fun _ => tallies_pure rfl
  | expr | cond | loop | each | break_ | continue_ | pass_ => exact tallies_pure rfl

theorem passes_begin (hs : setup.Keeps d) (t : Task) :
    Passes d (Control.past d) (begin setup t) (begin setup (t.past d)) := by
  cases t with
  | exec s scope k =>
    refine tallies_seq (tallies_change (fun _ _ => rfl) fun _ => rfl) fun _ => ?_
    refine tallies_seq (tallies_emit hs (.beforeStatement s scope)) fun _ => ?_
    refine tallies_seq (tallies_logStep hs _ _) fun _ => ?_
    exact passes_beginStatement s scope k
  | eval e scope k => exact passes_beginExpression e scope k

end Tasks

section Rounds

theorem tallies_forM {f k : Value → Act σ PUnit} (h : ∀ v, Tallies d Eq (f v) (k (v.past d)))
    (vs : List Value) : Tallies d Eq (vs.forM f) ((vs.map (Value.past d)).forM k) := by
  induction vs with
  | nil => exact tallies_pure rfl
  | cons v vs ih => exact tallies_seq (h v) fun _ => ih

theorem block_matches (body : List Stmt) (scope : ScopeId) (k : Context .flow) :
    (block (σ := σ) body scope k).Matches d (block body (d.scopes.past scope) (k.past d)) := by
  cases body with
  | nil => exact .give rfl
  | cons s ss => exact .start rfl

theorem tallies_nextRound (item : String) (todo : List Value) (body : List Stmt) (scope : ScopeId)
    (k : Context .flow) :
    Tallies d (Reaction.Matches d) (nextRound item todo body scope k)
      (nextRound item (todo.map (Value.past d)) body (d.scopes.past scope) (k.past d)) := by
  cases todo with
  | nil => cases body <;> exact tallies_pure (.give rfl)
  | cons v todo =>
    cases body with
    | nil =>
      exact tallies_seq (tallies_forM (fun v => tallies_assign scope item v) (v :: todo)) fun _ =>
        tallies_pure (.give rfl)
    | cons s ss =>
      exact tallies_seq (tallies_assign scope item v) fun _ => tallies_pure (.start rfl)

theorem tallies_nextItem (c : Comprehension) (todo done : List Value) (k : Context .value) :
    Tallies d (Reaction.Matches d) (nextItem c todo done k)
      (nextItem (c.past d) (todo.map (Value.past d)) (done.map (Value.past d)) (k.past d)) := by
  cases todo with
  | nil =>
    unfold nextItem
    simp only [List.map_nil, ← List.map_reverse]
    exact passes_bind (passes_alloc (.list done.reverse)) fun v => tallies_pure (.give rfl)
  | cons v todo =>
    obtain ⟨element, item, condition, scope⟩ := c
    refine passes_bind (passes_openScope scope [(item, v)]) fun inner => ?_
    cases condition with
    | none => exact tallies_pure (.start rfl)
    | some test => exact tallies_pure (.start rfl)

theorem tallies_nextBound (loc : Location) (base : Value) (scope : ScopeId) (k : Context .value)
    (done : List (Option Int)) (todo : List (Option Expr)) :
    Tallies d (Reaction.Matches d) (nextBound loc base scope k done todo)
      (nextBound loc (base.past d) (d.scopes.past scope) (k.past d) done todo) := by
  induction todo generalizing done with
  | nil =>
    refine passes_bind (passes_making loc fun s t hs => ?_) fun v => tallies_pure (.give rfl)
    exact congrArg Except.ok (hs.slice base _ _ _)
  | cons e todo ih =>
    cases e with
    | none => exact ih _
    | some e => exact tallies_pure (.start rfl)

end Rounds

section Replies

theorem passes_leaveFunction (f : Flow) :
    Passes d (Value.past d) (leaveFunction f : Act σ Value) (leaveFunction (f.past d)) := by
  cases f with
  | normal | returned v => exact tallies_seq tallies_exit fun _ => tallies_pure rfl
  | broken | continued => exact tallies_get fun m v hv => .error _ hv

theorem tallies_settle (hs : setup.Keeps d) (name : String) (loc : Location) (k : Context .value)
    {r r' : Reply σ} (hr : r.Matches d r') :
    Tallies d (Reaction.Matches d) (settle setup name loc k r)
      (settle setup name loc (k.past d) r') := by
  cases hr with
  | fault f => exact tallies_throw f
  | wait hw =>
    exact tallies_seq (tallies_emit hs (.onPause hw)) fun _ => tallies_pure (.pause hw rfl)
  | value v =>
    have tell (v : Value) : Tallies d (Reaction.Matches d)
        (do
          emit setup (.afterCall name v loc)
          return Reaction.give (σ := σ) (b := .value) v)
        (do
          emit setup (.afterCall name (v.past d) loc)
          return Reaction.give (σ := σ) (b := .value) (v.past d)) :=
      tallies_seq (tallies_emit hs (.afterCall name v loc)) fun _ => tallies_pure (.give rfl)
    -- of all values only an integer is changed on its way
    cases v with
    | atom a =>
      cases a with
      | int i =>
        refine passes_bind (f := Value.past d) (tallies_map (R := Eq) ?_ ?_) tell
        · exact passes_placed (f := id) loc (id_map _).symm
        · rintro x _ rfl
          rfl
      | none | bool | num | str => exact passes_bind (f := Value.past d) (tallies_pure rfl) tell
    | ref a => exact passes_bind (f := Value.past d) (tallies_pure rfl) tell

theorem registered {name : String} {b : Builtin σ} (h : setup.builtin? name = some b) :
    (∃ f, b.action = .core f) ∨ setup.services.builtins.get? name = some b :=
  (Option.or_eq_some_iff.mp h).imp action_of_coreBuiltins And.right

theorem tallies_forwarded (hs : setup.Keeps d) (name : String) (loc : Location) (x : Value)
    (k : Context .value) :
    Tallies d (Reaction.Matches d) (react setup (.forwarded name loc) x k)
      (react setup (.forwarded name loc) (x.past d) (k.past d)) := by
  simp only [react]
  cases hb : setup.builtin? name with
  | none => exact tallies_pure (.give rfl)
  | some b =>
    obtain ⟨name', least, most, suspends, doc, keywords, action⟩ := b
    cases action with
    | core | host | each => exact tallies_pure (.give rfl)
    | forward finish =>
      have known := (registered hb).resolve_left (by simp)
      have kept := hs.services.finish _ _ known finish rfl x loc
      exact tallies_bind (tallies_onWorld kept) fun r r' hr => tallies_settle hs name loc _ hr

end Replies

theorem tallies_react (hs : setup.Keeps d) {a b : Awaits} (h : Hole a b) (x : a.Input)
    (k : Context b) :
    Tallies d (Reaction.Matches d) (react setup h x k)
      (react setup (h.past d) (a.past d x) (k.past d)) := by
  cases h with
  | rest statements scope =>
    cases statements with
    | nil => exact tallies_pure (.give rfl)
    | cons s ss =>
      cases x with
      | normal => exact tallies_pure (.start rfl)
      | broken | continued | returned => exact tallies_pure (.give rfl)
  | branch body otherwise scope =>
    refine tallies_seq (tallies_isTruthy x) fun t => ?_
    split <;> exact tallies_pure (block_matches _ scope k)
  | loopTest test body scope =>
    refine tallies_seq (tallies_isTruthy x) fun t => ?_
    split
    · split <;> exact tallies_pure (.start rfl)
    · exact tallies_pure (.give rfl)
  | loopBody test body scope =>
    cases x with
    | broken | returned => exact tallies_pure (.give rfl)
    | normal | continued => exact tallies_pure (.start rfl)
  | eachOver loc item body scope =>
    exact passes_bind (passes_items loc x) fun vs => tallies_nextRound item vs body scope k
  | eachBody item todo body scope =>
    cases x with
    | broken | returned => exact tallies_pure (.give rfl)
    | normal | continued => exact tallies_nextRound item todo body scope k
  | assignName loc id old scope =>
    refine passes_bind (passes_combine loc old x) fun v => ?_
    exact tallies_seq (tallies_assign scope id v) fun _ => tallies_pure (.give rfl)
  | memberBase loc name op e scope =>
    refine passes_bind (passes_reading loc fun s t hs => hs.settable x) fun base => ?_
    refine passes_bind (passes_oldValue op (passes_getMember loc x name)) fun old => ?_
    exact tallies_pure (.start rfl)
  | assignMember loc base name old =>
    refine passes_bind (passes_combine loc old x) fun v => ?_
    refine tallies_seq (tallies_modifyStore fun s t hs => hs.setField base name v) fun _ => ?_
    exact tallies_pure (.give rfl)
  | itemIndex loc base op e scope =>
    refine passes_bind (passes_oldValue op (passes_reading loc fun s t hs => hs.getIndex base x))
      fun old => ?_
    exact tallies_pure (.start rfl)
  | assignItem loc base index old =>
    refine passes_bind (passes_combine loc old x) fun v => ?_
    refine passes_bind (passes_reading loc fun s t hs => hs.setIndex base index v) fun place => ?_
    refine tallies_seq (tallies_modifyStore fun s t hs => hs.write place.1 place.2) fun _ => ?_
    exact tallies_pure (.give rfl)
  | left loc op right scope =>
    refine tallies_seq (tallies_isTruthy x) fun t => ?_
    split
    · exact tallies_pure (.give rfl)
    · exact tallies_pure (.give rfl)
    · exact tallies_pure (.start rfl)
    · exact tallies_pure (.start rfl)
    · exact tallies_pure (.start rfl)
  | right loc op left =>
    exact passes_bind (passes_making loc fun s t hs => hs.binary op left x) fun _ =>
      tallies_pure (.give rfl)
  | operand loc op =>
    exact passes_bind (passes_reading loc fun s t hs => hs.unary op x) fun _ =>
      tallies_pure (.give rfl)
  | index loc base =>
    exact passes_bind (passes_reading loc fun s t hs => hs.getIndex base x) fun _ =>
      tallies_pure (.give rfl)
  | sliceBase loc bounds scope =>
    exact tallies_seq (tallies_reading loc fun s t hs => hs.sliceable x) fun _ =>
      tallies_nextBound loc x scope k [] bounds
  | sliceBound loc base done todo scope =>
    have bound (x : Value) : Tallies d (Reaction.Matches d)
        (reading loc (·.toIndex x) >>= fun i => nextBound (σ := σ) loc base scope k
          (some i :: done) todo)
        (reading loc (·.toIndex (x.past d)) >>= fun i => nextBound (σ := σ) loc (base.past d)
          (d.scopes.past scope) (k.past d) (some i :: done) todo) :=
      tallies_seq (tallies_reading loc fun s t hs => hs.toIndex x) fun _ =>
        tallies_nextBound loc base scope k _ todo
    cases x with
    | atom a =>
      cases a with
      | none => exact tallies_nextBound loc base scope k _ todo
      | bool | int | num | str => exact bound _
    | ref a => exact bound _
  | member loc name =>
    exact passes_bind (passes_getMember loc x name) fun _ => tallies_pure (.give rfl)
  | listItem done todo scope =>
    cases todo with
    | nil =>
      simp only [react, Hole.past, Awaits.past, ← List.map_cons, ← List.map_reverse]
      exact passes_bind (passes_alloc (.list (x :: done).reverse)) fun _ => tallies_pure (.give rfl)
    | cons e todo => exact tallies_pure (.start rfl)
  | dictKey loc value done todo scope =>
    exact tallies_seq (tallies_reading loc fun s t hs => hs.requireKey x) fun _ =>
      tallies_pure (.start rfl)
  | dictValue key done todo scope =>
    have put : Table.put (Entries.past d done) (key.past d) (x.past d) =
        Entries.past d (done.put key x) := Table.put_map Value.past_beq done key x
    cases todo with
    | nil =>
      simp only [react, Hole.past, Awaits.past, put]
      exact passes_bind (passes_alloc (.dict (done.put key x))) fun _ => tallies_pure (.give rfl)
    | cons e todo =>
      simp only [react, Hole.past, Awaits.past, put]
      exact tallies_pure (.start rfl)
  | comprehendOver loc c =>
    exact passes_bind (passes_items loc x) fun vs => tallies_nextItem c vs [] k
  | comprehendTest c inner todo done =>
    refine tallies_seq (tallies_isTruthy x) fun t => ?_
    split
    · exact tallies_pure (.start rfl)
    · exact tallies_nextItem c todo done k
  | comprehendItem c todo done => exact tallies_nextItem c todo (x :: done) k
  | body name loc =>
    refine passes_bind (passes_leaveFunction x) fun v => ?_
    exact tallies_seq (tallies_emit hs (.afterCall name v loc)) fun _ => tallies_pure (.give rfl)
  | lambdaBody loc =>
    refine tallies_seq tallies_exit fun _ => ?_
    exact tallies_seq (tallies_emit hs (.afterCall _ x loc)) fun _ => tallies_pure (.give rfl)
  | forwarded name loc => exact tallies_forwarded hs name loc x k
  | discard | leave | construct => exact tallies_pure (.give rfl)
  | itemBase | indexBase => exact tallies_pure (.start rfl)

end Act

end LoopScript
