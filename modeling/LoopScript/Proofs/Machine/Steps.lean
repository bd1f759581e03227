import LoopScript.Proofs.Machine.Faults

/-!
A step of a machine without extensions leads from a control that fits to controls that fit, or it
fails.
-/

namespace LoopScript

namespace Act

variable {σ : Type} {N L : Prop} {B : Stmt → LogEntry → Prop} {keep : Bool} {F : Begun}
  {m : Machine σ}

section Begin

theorem stays_beginExpression (hm : m.Accords N B keep F) {e : Expr} (he : e.Fits N F)
    (scope : ScopeId) {k : Context .value} (hk : k.Fits N F) :
    Stays N L B keep F (beginExpression e scope k) m (·.Fits N F) := by
  cases e with
  | literal loc a => exact ⟨hm, he.self.2, hk⟩
  | name loc id =>
    refine stays_bind (stays_reading hm he.loc (m.world.store.ends_lookup hm.native scope id)) ?_
    exact fun v n hn hv => ⟨hn, hv, hk⟩
  | binary loc op l r =>
    exact ⟨hm, he.part (by simp [Expr.parts]), ⟨he.loc, he.part (by simp [Expr.parts])⟩, hk⟩
  | unary loc op d => exact ⟨hm, he.part (by simp [Expr.parts]), he.loc, hk⟩
  | call loc f args named =>
    refine ⟨hm, he.part (by simp [Expr.parts]), ⟨he.loc, List.forall_mem_nil _, List.forall_mem_nil _, ?_⟩, hk⟩
    intro d hd
    rcases List.mem_append.mp hd with hd | hd
    · obtain ⟨d, ha, rfl⟩ := List.mem_map.mp hd
      exact he.part (by simp [Expr.parts, ha])
    · obtain ⟨d, ha, rfl⟩ := List.mem_map.mp hd
      exact he.part (List.mem_cons_of_mem _ (List.mem_append_right _ (List.mem_map_of_mem ha)))
  | index loc base i =>
    exact ⟨hm, he.part (by simp [Expr.parts]), ⟨he.loc, he.part (by simp [Expr.parts])⟩, hk⟩
  | slice loc base start stop step =>
    refine ⟨hm, he.part (by simp [Expr.parts]), ⟨he.loc, fun d hd => he.part ?_⟩, hk⟩
    simp only [List.mem_cons, List.not_mem_nil, or_false] at hd
    rcases hd with rfl | rfl | rfl <;> simp [Expr.parts]
  | list loc items | tuple loc items =>
    cases items with
    | nil =>
      refine stays_bind (stays_alloc hm (o := .list []) (List.forall_mem_nil _)) ?_
      exact fun v n hn hv => ⟨hn, hv, hk⟩
    | cons d ds =>
      refine ⟨hm, he.part List.mem_cons_self, ⟨List.forall_mem_nil _, fun d hd => ?_⟩, hk⟩
      exact he.part (List.mem_cons_of_mem _ hd)
  | dict loc entries =>
    cases entries with
    | nil =>
      refine stays_bind (stays_alloc hm (o := .dict []) (List.forall_mem_nil _)) ?_
      exact fun v n hn hv => ⟨hn, hv, hk⟩
    | cons e es =>
      have key : e.1.Fits N F := he.part (by simp [Expr.parts])
      refine ⟨hm, key, ⟨key.loc, he.part (by simp [Expr.parts]), List.forall_mem_nil _, fun d hd => ?_⟩, hk⟩
      have part {f : Expr} (hf : f ∈ [d.1, d.2]) : f.Fits N F :=
        he.part (List.mem_flatMap.mpr ⟨d, List.mem_cons_of_mem _ hd, hf⟩)
      exact ⟨part (by simp), part (by simp)⟩
  | lambda loc params body =>
    have clean (n : N) : body.Clean := (he.part (f := body) (by simp [Expr.parts])).clean n
    refine stays_bind (stays_alloc hm (o := .lambda params body scope) clean) ?_
    exact fun v n hn hv => ⟨hn, hv, hk⟩
  | comprehension loc element item iterable condition =>
    refine ⟨hm, he.part (by simp [Expr.parts]), ⟨he.loc, he.part (by simp [Expr.parts]), ?_⟩, hk⟩
    rintro test rfl
    exact he.part (by simp [Expr.parts])
  | member loc base name => exact ⟨hm, he.part (by simp [Expr.parts]), he.loc, hk⟩

theorem stays_beginStatement {s : Stmt} (hm : m.Accords N B keep (F.begin s)) (hF : F ≠ [])
    (hs : N → s.Clean) (scope : ScopeId) {k : Context .flow} (hk : k.Fits N (F.begin s)) :
    Stays N L B keep (F.begin s) (beginStatement s scope k) m (·.Fits N (F.begin s)) := by
  have here : (F.begin s).Blames s.location := Begun.blames_covered F (.inl rfl)
  have part {e : Expr} (he : e ∈ s.parts) : e.Fits N (F.begin s) := Stmt.fits_part hs he
  have block {ss : List Stmt} (h : ss ∈ s.bodies) : Block.Fits N ss := Block.fits_body hs h
  have lookup (id : String) :
      Ends (Value.Native N) (Fault.Plain L) (m.world.store.lookup scope id) :=
    m.world.store.ends_lookup hm.native scope id
  cases s with
  | expr loc e => exact ⟨hm, part (by simp [Stmt.parts]), trivial, hk⟩
  | assign loc target op e =>
    have value : e.Fits N (F.begin _) := part (by simp [Stmt.parts])
    have place : target.toExpr.Fits N (F.begin _) := part (by simp [Stmt.parts])
    cases target with
    | name loc' id =>
      refine stays_bind (stays_oldValue hm op (stays_reading hm place.loc (lookup id))) ?_
      exact fun old n hn ho => ⟨hn, value, ⟨here, ho⟩, hk⟩
    | member loc' base name =>
      exact ⟨hm, place.part (by simp [Target.toExpr, Expr.parts]), ⟨here, value⟩, hk⟩
    | index loc' base i =>
      have base : base.Fits N (F.begin _) := place.part (by simp [Target.toExpr, Expr.parts])
      have i : i.Fits N (F.begin _) := place.part (by simp [Target.toExpr, Expr.parts])
      exact ⟨hm, base, ⟨here, i, value⟩, hk⟩
  | cond loc test body otherwise =>
    refine ⟨hm, part (by simp [Stmt.parts]), ⟨block (by simp [Stmt.bodies]), ?_⟩, hk⟩
    cases otherwise with
    | none => exact fun _ => List.forall_mem_nil _
    | some ss => exact block (by simp [Stmt.bodies])
  | loop loc test body =>
    -- The loop is among the statements that the call has begun, so its later tests are, too.
    have loops : (F.begin (.loop loc test body)).Loops test body := by
      obtain ⟨ss, F, rfl⟩ := List.exists_cons_of_ne_nil hF
      exact ⟨loc, _, rfl, List.mem_cons_self⟩
    have test := part (e := test) (by simp [Stmt.parts])
    exact ⟨hm, test, ⟨loops, test.clean, block (by simp [Stmt.bodies])⟩, hk⟩
  | each loc item e body =>
    exact ⟨hm, part (by simp [Stmt.parts]), ⟨here, block (by simp [Stmt.bodies])⟩, hk⟩
  | function d =>
    have clean : Block.Fits N d.body := block (by simp [Stmt.bodies])
    refine stays_bind (stays_alloc hm (o := .function ⟨d.name, d.params, d.body, scope⟩) clean) ?_
    intro v n hn hv
    exact stays_bind (stays_define hn scope d.name hv) fun _ n hn _ => ⟨hn, trivial, hk⟩
  | class_ loc name methods =>
    have clean (d : FunctionDef) (hd : d ∈ methods) : Block.Fits N d.body :=
      block (List.mem_map_of_mem hd)
    refine stays_bind (stays_defineMethods hm scope clean) fun table n hn _ => ?_
    refine stays_bind (stays_alloc hn (o := .cls name (Table.ofList table)) trivial) ?_
    intro v n hn hv
    exact stays_bind (stays_define hn scope name hv) fun _ n hn _ => ⟨hn, trivial, hk⟩
  | return_ loc value =>
    cases value with
    | none => exact ⟨hm, native_none, hk⟩
    | some e => exact ⟨hm, part (by simp [Stmt.parts]), trivial, hk⟩
  | break_ | continue_ | pass_ => exact ⟨hm, trivial, hk⟩
  | global_ loc names => exact ⟨hm.forced _, trivial, hk⟩
  | import_ loc name member =>
    refine stays_bind (stays_reading hm here (lookup name)) fun v n hn hv => ?_
    cases member with
    | none => exact ⟨hn, trivial, hk⟩
    | some member =>
      refine stays_bind (stays_making hn here (n.world.store.ends_getMember hn.native v member)) ?_
      exact fun _ n hn _ => ⟨hn, trivial, hk⟩

variable {setup : Setup σ}

/-- The result of a step fits what the calls have begun then. -/
abbrev Leads (N L : Prop) (B : Stmt → LogEntry → Prop) (keep : Bool) {α : Type} (x : Act σ α)
    (m : Machine σ) (P : Begun → α → Prop) : Prop :=
  Ensures x m (fun a n => ∃ F, n.Accords N B keep F ∧ P F a)
    fun f n => ∃ F, n.Accords N B keep F ∧ f.Fits L F n

theorem Stays.leads {α : Type} {x : Act σ α} {P : Begun → α → Prop}
    (h : Stays N L B keep F x m (P F)) : Leads N L B keep x m P :=
  h.mono (fun _ _ h => ⟨F, h⟩) fun _ _ h => ⟨F, h⟩

theorem leads_begin (hs : setup.services = .empty) {t : Task}
    (hm : m.Accords N B setup.verbose F) (ht : t.Fits N F)
    (hB : ∀ s scope k b, t = .exec s scope k → B s (m.entry s.rule s.location b)) :
    Leads N L B setup.verbose (begin setup t) m fun F c => c.Fits N F := by
  cases t with
  | eval e scope k => exact Stays.leads (stays_beginExpression hm ht.1 scope ht.2)
  | exec s scope k =>
    obtain ⟨clean, hk⟩ := ht
    have ne : F ≠ [] := hk.ne_nil
    have begun (b : Option (List (String × String))) :
        Leads N L B setup.verbose (beginStatement s scope k)
          (Machine.record setup.verbose { m with current := some s.location }
            (m.entry s.rule s.location b)) fun F c => c.Fits N F :=
      Stays.leads (stays_beginStatement (hm.record ne (hB s scope k b rfl)) ne clean scope (hk.begin s))
    simp only [Leads, Ensures, begin_exec hs]
    -- A verbose log shows the bindings, and a value without a text makes the step fail before it
    -- has recorded the statement.
    generalize setup.verbose = verbose at hm begun ⊢
    cases verbose with
    | false => exact begun none
    | true =>
      have placed := hm.place (some s.location)
      have read := raises_bindings { m with current := some s.location }
      simp only [if_true]
      cases hb : Machine.bindings { m with current := some s.location } with
      | ok b => exact begun b
      | error f =>
        cases read.error hb
        exact ⟨F, placed, .endless⟩

end Begin

section React

variable {setup : Setup σ}

theorem exec_fits {s : Stmt} {ss : List Stmt} (hb : Block.Fits N (s :: ss)) (scope : ScopeId)
    {k : Context .flow} (hk : k.Fits N F) :
    Task.Fits N F (.exec s scope (.fill (.rest ss scope) k)) :=
  ⟨hb.head, hb.tail, hk⟩

theorem block_fits {body : List Stmt} (hb : Block.Fits N body) (scope : ScopeId)
    {k : Context .flow} (hk : k.Fits N F) : (block (σ := σ) body scope k).Fits N F k := by
  cases body with
  | nil => exact ⟨trivial, hk⟩
  | cons s ss => exact exec_fits hb scope hk

theorem stays_nextRound (hm : m.Accords N B keep F) (item : String) {todo : List Value}
    {body : List Stmt} (ht : ∀ v ∈ todo, v.Native N) (hb : Block.Fits N body) (scope : ScopeId)
    {k : Context .flow} (hk : k.Fits N F) :
    Stays N L B keep F (nextRound item todo body scope k) m (·.Fits N F k) := by
  unfold nextRound
  split
  · exact ⟨hm, trivial, hk⟩
  · refine stays_bind (stays_forM hm fun v hv n hn => stays_assign hn scope item (ht v hv)) ?_
    exact fun _ n hn _ => ⟨hn, trivial, hk⟩
  · next s ss v todo =>
    obtain ⟨hv, ht⟩ := List.forall_mem_cons.mp ht
    refine stays_bind (stays_assign hm scope item hv) fun _ n hn _ => ⟨hn, ?_⟩
    exact exec_fits hb scope ⟨⟨ht, hb⟩, hk⟩

theorem stays_nextItem (hm : m.Accords N B keep F) {c : Comprehension} (hc : c.Fits N F)
    {todo done : List Value} (ht : ∀ v ∈ todo, v.Native N) (hd : ∀ v ∈ done, v.Native N)
    {k : Context .value} (hk : k.Fits N F) :
    Stays N L B keep F (nextItem c todo done k) m (·.Fits N F k) := by
  unfold nextItem
  split
  · have items : (Obj.list done.reverse).Native N := fun v hv => hd v (List.mem_reverse.mp hv)
    exact stays_bind (stays_alloc hm items) fun v n hn hv => ⟨hn, hv, hk⟩
  · next v todo =>
    obtain ⟨hv, ht⟩ := List.forall_mem_cons.mp ht
    have binding : ∀ e ∈ [(c.item, v)], e.2.Native N := List.forall_mem_singleton.mpr hv
    refine stays_bind (stays_openScope hm c.scope binding) fun inner n hn _ => ?_
    split
    · next test h => exact ⟨hn, hc.2 test h, ⟨hc, ht, hd⟩, hk⟩
    · exact ⟨hn, hc.1, ⟨hc, ht, hd⟩, hk⟩

theorem stays_nextBound (hm : m.Accords N B keep F) {loc : Location} (hl : F.Blames loc)
    {base : Value} (hb : base.Native N) (scope : ScopeId) {k : Context .value} (hk : k.Fits N F)
    (done : List (Option Int)) {todo : List (Option Expr)} (ht : ∀ e, some e ∈ todo → e.Fits N F) :
    Stays N L B keep F (nextBound loc base scope k done todo) m (·.Fits N F k) := by
  induction todo generalizing done with
  | nil =>
    refine stays_bind (stays_making hm hl (Store.native_slice hm.native hb _ _ _)) ?_
    exact fun v n hn hv => ⟨hn, hv, hk⟩
  | cons bound todo ih =>
    have rest (e : Expr) (he : some e ∈ todo) : e.Fits N F := ht e (List.mem_cons_of_mem _ he)
    cases bound with
    | none => exact ih _ rest
    | some e => exact ⟨hm, ht e List.mem_cons_self, ⟨hl, hb, rest⟩, hk⟩

theorem stays_give {x : Act σ Value} {k : Context .value} (hx : Stays N L B keep F x m (·.Native N))
    (hk : k.Fits N F) :
    Stays N L B keep F (do return Reaction.give (σ := σ) (b := .value) (← x)) m (·.Fits N F k) :=
  stays_bind hx fun _ _ hn hv => ⟨hn, hv, hk⟩

theorem stays_normal (hm : m.Accords N B keep F) {k : Context .flow} (hk : k.Fits N F) :
    Stays N L B keep F (pure (Reaction.give (σ := σ) (b := .flow) .normal)) m (·.Fits N F k) :=
  ⟨hm, trivial, hk⟩

section Holes

variable (hm : m.Accords N B keep F)

include hm

theorem stays_loopTest {test : Expr} {body : List Stmt} (hl : F.Loops test body)
    (ht : N → test.Clean) (hb : Block.Fits N body) (scope : ScopeId) (x : Value)
    {k : Context .flow} (hk : k.Fits N F) :
    Stays N L B keep F (react setup (.loopTest test body scope) x k) m (·.Fits N F k) := by
  refine stays_bind (stays_isTruthy hm x) fun t n hn _ => ?_
  split
  · cases body with
    | nil => exact ⟨hn, hl.fits ht, ⟨hl, ht, hb⟩, hk⟩
    | cons s ss => exact ⟨hn, exec_fits hb scope ⟨⟨hl, ht, hb⟩, hk⟩⟩
  · exact stays_normal hn hk

theorem stays_loopBody {test : Expr} {body : List Stmt} (hl : F.Loops test body)
    (ht : N → test.Clean) (hb : Block.Fits N body) (scope : ScopeId) {f : Flow}
    (hf : Awaits.Fits N .flow f) {k : Context .flow} (hk : k.Fits N F) :
    Stays N L B keep F (react setup (.loopBody test body scope) f k) m (·.Fits N F k) := by
  cases f with
  | broken => exact stays_normal hm hk
  | returned v => exact ⟨hm, hf, hk⟩
  | normal | continued => exact ⟨hm, hl.fits ht, ⟨hl, ht, hb⟩, hk⟩

theorem stays_eachBody (item : String) {todo : List Value} (ht : ∀ v ∈ todo, v.Native N)
    {body : List Stmt} (hb : Block.Fits N body) (scope : ScopeId) {f : Flow}
    (hf : Awaits.Fits N .flow f) {k : Context .flow} (hk : k.Fits N F) :
    Stays N L B keep F (react setup (.eachBody item todo body scope) f k) m (·.Fits N F k) := by
  cases f with
  | broken => exact stays_normal hm hk
  | returned v => exact ⟨hm, hf, hk⟩
  | normal | continued => exact stays_nextRound hm item ht hb scope hk

theorem stays_left {loc : Location} (hl : F.Blames loc) (op : BinaryOp) {right : Expr}
    (hr : right.Fits N F) (scope : ScopeId) {x : Value} (hx : x.Native N) {k : Context .value}
    (hk : k.Fits N F) :
    Stays N L B keep F (react setup (.left loc op right scope) x k) m (·.Fits N F k) := by
  refine stays_bind (stays_isTruthy hm x) fun t n hn _ => ?_
  split
  · exact ⟨hn, hx, hk⟩
  · exact ⟨hn, hx, hk⟩
  · exact ⟨hn, hr, hk⟩
  · exact ⟨hn, hr, hk⟩
  · exact ⟨hn, hr, ⟨hl, hx⟩, hk⟩

theorem stays_sliceBound {loc : Location} (hl : F.Blames loc) {base : Value} (hb : base.Native N)
    (done : List (Option Int)) {todo : List (Option Expr)} (ht : ∀ e, some e ∈ todo → e.Fits N F)
    (scope : ScopeId) {x : Value} (hx : x.Native N) {k : Context .value} (hk : k.Fits N F)
    (hL : ¬N → L) :
    Stays N L B keep F (react setup (.sliceBound loc base done todo scope) x k) m (·.Fits N F k) := by
  have bound (hx : x.Native N) : Stays N L B keep F (do
      nextBound loc base scope k (some (← reading loc (·.toIndex x)) :: done) todo) m
      (·.Fits N F k) := by
    have index := (m.world.store.raises_toIndex hx).plain hL
    refine stays_bind (stays_reading hm hl index) fun i n hn _ => ?_
    exact stays_nextBound hn hl hb scope hk _ ht
  cases x with
  | atom a =>
    cases a with
    | none => exact stays_nextBound hm hl hb scope hk _ ht
    | bool | int | num | str => exact bound hx
  | ref a => exact bound hx

theorem stays_listItem {done : List Value} (hd : ∀ v ∈ done, v.Native N) {todo : List Expr}
    (ht : ∀ e ∈ todo, e.Fits N F) (scope : ScopeId) {x : Value} (hx : x.Native N)
    {k : Context .value} (hk : k.Fits N F) :
    Stays N L B keep F (react setup (.listItem done todo scope) x k) m (·.Fits N F k) := by
  have items : ∀ v ∈ x :: done, v.Native N := List.forall_mem_cons.mpr ⟨hx, hd⟩
  cases todo with
  | nil =>
    have list : (Obj.list (x :: done).reverse).Native N :=
      fun v hv => items v (List.mem_reverse.mp hv)
    exact stays_give (stays_alloc hm list) hk
  | cons e todo =>
    obtain ⟨he, ht⟩ := List.forall_mem_cons.mp ht
    exact ⟨hm, he, ⟨items, ht⟩, hk⟩

end Holes

/-- What fills a hole, other than the body of a call, leaves the innermost call as it is. -/
theorem stays_react (hm : m.Accords N B keep F) {a b : Awaits} {h : Hole a b} {x : a.Input}
    {k : Context b} (hb : h.isBody = false) (hh : h.Fits N F) (hk : k.Fits N F) (hx : a.Fits N x)
    (hL : ¬N → L) (hs : (Control.move (.give x (.fill h k))).Strains m → L) :
    Stays N L B keep F (react setup h x k) m (·.Fits N F k) := by
  cases h with
  | rest ss scope =>
    cases ss with
    | nil => exact ⟨hm, hx, hk⟩
    | cons s ss =>
      cases x with
      | normal => exact ⟨hm, exec_fits hh scope hk⟩
      | broken | continued | returned v => exact ⟨hm, hx, hk⟩
  | discard => exact stays_normal hm hk
  | branch body otherwise scope =>
    refine stays_bind (stays_isTruthy hm x) fun t n hn _ => ?_
    split
    · exact ⟨hn, block_fits hh.1 scope hk⟩
    · exact ⟨hn, block_fits hh.2 scope hk⟩
  | loopTest test body scope => exact stays_loopTest hm hh.1 hh.2.1 hh.2.2 scope x hk
  | loopBody test body scope => exact stays_loopBody hm hh.1 hh.2.1 hh.2.2 scope hx hk
  | eachOver loc item body scope =>
    refine stays_bind (stays_reading hm hh.1 (m.world.store.ends_items hm.native x)) ?_
    exact fun items n hn hi => stays_nextRound hn item hi hh.2 scope hk
  | eachBody item todo body scope => exact stays_eachBody hm item hh.1 hh.2 scope hx hk
  | leave => exact ⟨hm, hx, hk⟩
  | assignName loc id old scope =>
    refine stays_bind (stays_combine hm hh.1 hh.2 hx ?_) fun v n hn hv => ?_
    · rintro op w rfl
      exact Or.rec hL fun h => hs (.name h)
    · exact stays_bind (stays_assign hn scope id hv) fun _ n hn _ => stays_normal hn hk
  | memberBase loc name op e scope =>
    refine stays_bind (stays_reading hm hh.1 (m.world.store.raises_settable x)) fun base n hn _ => ?_
    have read : Stays N L B keep F (making loc (·.getMember x name)) n (·.Native N) :=
      stays_making hn hh.1 (n.world.store.ends_getMember hn.native x name)
    exact stays_bind (stays_oldValue hn op read) fun old n hn ho => ⟨hn, hh.2, ⟨hh.1, ho⟩, hk⟩
  | assignMember loc base name old =>
    refine stays_bind (stays_combine hm hh.1 hh.2 hx ?_) fun v n hn hv => ?_
    · rintro op w rfl
      exact Or.rec hL fun h => hs (.member h)
    · have kept := Store.native_setField hn.native base name hv
      exact stays_bind (stays_modifyStore hn kept) fun _ n hn _ => stays_normal hn hk
  | itemBase loc index op e scope => exact ⟨hm, hh.2.1, ⟨hh.1, hh.2.2⟩, hk⟩
  | itemIndex loc base op e scope =>
    have old := (m.world.store.ends_getIndex hm.native base hx).plain hL
    refine stays_bind (stays_oldValue hm op (stays_reading hm hh.1 old)) fun old n hn ho => ?_
    exact ⟨hn, hh.2, ⟨hh.1, hx, ho⟩, hk⟩
  | assignItem loc base index old =>
    obtain ⟨hl, hi, ho⟩ := hh
    refine stays_bind (stays_combine hm hl ho hx ?_) fun v n hn hv => ?_
    · rintro op w rfl
      exact Or.rec hL fun h => hs (.item h)
    · have put := (n.world.store.ends_setIndex hn.native base hi hv).plain hL
      refine stays_bind (stays_reading hn hl put) fun p n hn hp => ?_
      have kept := Store.native_write hn.native p.1 hp
      exact stays_bind (stays_modifyStore hn kept) fun _ n hn _ => stays_normal hn hk
  | left loc op right scope => exact stays_left hm hh.1 op hh.2 scope hx hk
  | right loc op left =>
    have joined := m.world.store.ends_binary hm.native op hh.2 hx
    have large (h : ¬N ∨ m.world.store.Overflows op left x) : L := h.elim hL fun h => hs (.operator h)
    exact stays_give (stays_making hm hh.1 (joined.plain large)) hk
  | operand loc op =>
    exact stays_give (stays_reading hm hh ((m.world.store.ends_unary op hx).plain hL)) hk
  | indexBase loc index scope => exact ⟨hm, hh.2, hh.1, hk⟩
  | index loc base =>
    have value := (m.world.store.ends_getIndex hm.native base hx).plain hL
    exact stays_give (stays_reading hm hh value) hk
  | sliceBase loc bounds scope =>
    refine stays_bind (stays_reading hm hh.1 (m.world.store.raises_sliceable x)) fun _ n hn _ => ?_
    exact stays_nextBound hn hh.1 hx scope hk [] hh.2
  | sliceBound loc base done todo scope =>
    exact stays_sliceBound hm hh.1 hh.2.1 done hh.2.2 scope hx hk hL
  | member loc name =>
    exact stays_give (stays_making hm hh (m.world.store.ends_getMember hm.native x name)) hk
  | listItem done todo scope => exact stays_listItem hm hh.1 hh.2 scope hx hk
  | dictKey loc value done todo scope =>
    obtain ⟨hl, hv, hd, ht⟩ := hh
    refine stays_bind (stays_reading hm hl m.world.store.raises_requireKey) fun _ n hn _ => ?_
    exact ⟨hn, hv, ⟨hx, hd, ht⟩, hk⟩
  | dictValue key done todo scope =>
    obtain ⟨hkey, hd, ht⟩ := hh
    have entries : (Obj.dict (done.put key x)).Native N := Table.forall_put hd hkey hx
    cases todo with
    | nil => exact stays_give (stays_alloc hm entries) hk
    | cons e todo =>
      obtain ⟨he, ht⟩ := List.forall_mem_cons.mp ht
      exact ⟨hm, he.1, ⟨he.1.loc, he.2, entries, ht⟩, hk⟩
  | comprehendOver loc c =>
    refine stays_bind (stays_reading hm hh.1 (m.world.store.ends_items hm.native x)) ?_
    exact fun items n hn hi => stays_nextItem hn hh.2 hi (List.forall_mem_nil _) hk
  | comprehendTest c inner todo done =>
    refine stays_bind (stays_isTruthy hm x) fun t n hn _ => ?_
    split
    · exact ⟨hn, hh.1.1, hh, hk⟩
    · exact stays_nextItem hn hh.1 hh.2.1 hh.2.2 hk
  | comprehendItem c todo done =>
    exact stays_nextItem hm hh.1 hh.2.1 (List.forall_mem_cons.mpr ⟨hx, hh.2.2⟩) hk
  | body name loc | lambdaBody loc => cases hb
  | construct object => exact ⟨hm, hh, hk⟩
  | forwarded name loc => exact hh.elim

end React

end Act

end LoopScript
