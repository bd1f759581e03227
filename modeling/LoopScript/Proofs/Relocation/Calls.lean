import LoopScript.Proofs.Relocation.Holes

/-!
Two machines in parallel make the same call, and with that take the same step.
-/

namespace LoopScript

variable {σ : Type} {setup : Setup σ} {L : Link}

theorem has_of_bindArguments {callee : String} {params : List String} {args : List Value}
    {named : Table String Value} {implicit : Nat} {bound : Table String Value}
    (h : bindArguments callee params args named implicit = .ok bound) :
    ∀ x ∈ params, bound.has x = true := by
  unfold bindArguments at h
  split at h
  · cases h
  · obtain ⟨bound', -, h⟩ := ok_of_bind h
    split at h
    · cases h
    · next missing =>
      cases h
      simpa using List.find?_eq_none.mp missing

namespace Act

section Functions

variable {c d : Call} (hc : c.Moved L d)

include hc

theorem parallel_bound {α β : Type} {R : Link → α → β → Prop} {i j : ScopeId} (hij : L.scopes i j)
    (callee : String) (params : List String) (implicit : Nat) {f : ScopeId → Act σ α}
    {g : ScopeId → Act σ β}
    (h : ∀ L' i' j', L ≤ L' → L'.scopes i' j' → L'.usable i' = L.usable i ∪ {x | x ∈ params} →
      L'.assignable i' = L.assignable i ∪ {x | x ∈ params} →
      setup.Parallel R L' (f i') (g j')) :
    setup.Parallel R L
      (do
        let bound ← placed c.location (bindArguments callee params c.args c.named implicit)
        f (← openScope i bound))
      (do
        let bound ← placed d.location (bindArguments callee params d.args d.named implicit)
        g (← openScope j bound)) := by
  have concur := bindArguments_moved hc.args hc.named callee params implicit
  generalize e : bindArguments callee params c.args c.named implicit = x,
    bindArguments callee params d.args d.named implicit = y at concur ⊢
  cases concur with
  | error f => exact parallel_throw _ _
  | @ok bound bound' hb =>
    change setup.Parallel R L (openScope i bound >>= f) (openScope j bound' >>= g)
    refine parallel_bind (parallel_openScope hij hb {x | x ∈ params} (has_of_bindArguments e)) ?_
    exact fun L' i' j' hL ⟨hij', usable, assignable⟩ => h L' i' j' hL hij' usable assignable

variable (hs : setup.services = .empty) {k k' : Context .value} (hk : k.Moved L k')

include hs hk

theorem parallel_callFunction {f : Closure} {j : ScopeId} (hij : L.scopes f.scope j)
    (hb : L.Holds f.scope f.params f.body) (label : String) (implicit : Nat) :
    setup.Parallel (fun L => Option.Rel (Task.Moved L)) L (callFunction setup f label implicit c k)
      (callFunction setup { f with scope := j } label implicit d k') := by
  have silent := setup.hooks_of_empty hs
  refine parallel_bound hc hij label f.params implicit fun L₁ i' j' h₁ hij' usable assignable => ?_
  refine parallel_seq (parallel_emit silent _ _) fun L₂ h₂ _ _ => ?_
  refine parallel_seq (parallel_enter _ _ _ _ _ _) fun L₃ h₃ _ _ => ?_
  have later := h₂.trans h₃
  have runs : L₃.Runs i' f.body := Link.Runs.mono (by rwa [Link.Runs, usable, assignable]) hij' later
  obtain ⟨name, params, body, i⟩ := f
  cases body with
  | nil =>
    refine parallel_seq parallel_exit fun L₄ h₄ _ _ => ?_
    exact parallel_seq (parallel_emit silent _ _) fun _ _ _ _ => parallel_pure .none
  | cons s ss =>
    obtain ⟨hs, hss⟩ := List.forall_mem_cons.mp runs
    have inner := later.scopes hij'
    rw [hc.location]
    exact parallel_pure (.some (.exec inner hs (.fill (.rest inner hss)
      (.fill (.body name d.location) (hk.mono (h₁.trans later))))))

theorem parallel_callLambda {i j : ScopeId} (hij : L.scopes i j) {params : List String} {body : Expr}
    (hb : body.Within (L.usable i ∪ {x | x ∈ params})) :
    setup.Parallel (fun L => Task.Moved L) L (callLambda setup params body i c k)
      (callLambda setup params body j d k') := by
  refine parallel_bound hc hij "<lambda>" params 0 fun L₁ i' j' h₁ hij' usable _ => ?_
  refine parallel_seq (parallel_emit (setup.hooks_of_empty hs) _ _) fun L₂ h₂ _ _ => ?_
  refine parallel_seq (parallel_enter _ _ _ _ _ _) fun L₃ h₃ _ _ => ?_
  have later := h₂.trans h₃
  have evals : L₃.Evals i' body := Link.Evals.mono later (by rwa [Link.Evals, usable]) hij'
  rw [hc.location]
  exact parallel_pure (.eval (later.scopes hij') evals
    (.fill (.lambdaBody d.location) (hk.mono (h₁.trans later))))

omit hs hk in
theorem arity_moved : c.arity = d.arity := by
  simp only [Call.arity, hc.args.length_eq, hc.named.length_eq]

theorem parallel_construct {a b : Addr} (hab : L.objects a b) (name : String)
    {methods methods' : Table String Addr} (hm : Table.Paired Eq L.objects methods methods') :
    setup.Parallel (fun L => Reaction.Moved L) L (construct setup a name methods c k)
      (construct setup b name methods' d k') := by
  have arity := arity_moved hc
  have location := hc.location
  refine parallel_bind (parallel_alloc (.instance_ hab .nil)) fun L' v w hL hv => ?_
  have plain : setup.Parallel (fun L => Reaction.Moved L) L'
      (if c.arity = 0 then pure (.give v) else fail c.location (.wrongArity name 0 c.arity) :
        Act σ (Reaction σ .value))
      (if d.arity = 0 then pure (.give w) else fail d.location (.wrongArity name 0 d.arity)) := by
    rw [arity]
    split_ifs
    · exact parallel_pure (.give (b := .value) hv)
    · exact parallel_throw _ _
  -- both classes have the initializer or neither has, and it is the same kind of object
  refine parallel_store fun m n hmn => ?_
  match methods.get? "__init__", methods'.get? "__init__", Table.get?_alike hm "__init__" with
  | _, _, .none => exact plain m n hmn
  | some f, some g, .some hfg =>
    dsimp only [Option.map_some]
    match m.world.store.read f, n.world.store.read g, hmn.store.read (hL.objects hfg) with
    | _, _, @Obj.Moved.function _ fn params body i j hij hb =>
      dsimp only
      split_ifs
      · exact parallel_throw _ _ m n hmn
      · have inner : Call.Moved L' { c with args := v :: c.args } { d with args := w :: d.args } :=
          ⟨.cons hv (Value.Moved.mono_list hL hc.args), Value.Moved.mono_table hL hc.named, location⟩
        refine parallel_bind (parallel_callFunction inner hs (.fill (.construct hv) (hk.mono hL)) hij hb
          name 1) ?_ m n hmn
        rintro L'' t t' hL' (ht | _)
        · exact parallel_pure (.start ht)
        · exact parallel_pure (.give (b := .value) (hv.mono hL'))
    | _, _, .builtin _ | _, _, .lambda _ _ | _, _, .list _ | _, _, .cls _
    | _, _, .instance_ _ _ | _, _, .method _ _ | _, _, .dict _ => exact plain m n hmn

end Functions

section Builtins

variable (hs : setup.services = .empty)

include hs

theorem parallel_endMap (name : String) (loc : Location) {results results' : List Value}
    (h : List.Forall₂ (Value.Moved L) results results') :
    setup.Parallel Value.Moved L (endMap setup name loc results) (endMap setup name loc results') :=
  parallel_bind (parallel_alloc (.list h)) fun _ _ _ _ hv =>
    parallel_seq (parallel_emit (setup.hooks_of_empty hs) _ _) fun _ hL _ _ =>
      parallel_pure (hv.mono hL)

theorem parallel_endSort (loc : Location) (reversed : Bool) {keys keys' items items' : List Value}
    (hk : List.Forall₂ (Value.Moved L) keys keys') (hi : List.Forall₂ (Value.Moved L) items items') :
    setup.Parallel Value.Moved L (endSort setup loc reversed keys items)
      (endSort setup loc reversed keys' items') := by
  refine parallel_bind (P := fun L => List.Forall₂ (Value.Moved L))
    (parallel_reading loc fun _ _ hs => sortBy_moved hk hs reversed hi) fun L₁ _ _ h₁ h => ?_
  refine parallel_bind (parallel_alloc (.list h)) fun L₂ v w h₂ hv => ?_
  exact parallel_seq (parallel_emit (setup.hooks_of_empty hs) _ _) fun _ h₃ _ _ =>
    parallel_pure (hv.mono h₃)

variable {c d : Call} (hc : c.Moved L d) {k k' : Context .value} (hk : k.Moved L k')

include hc

omit hs in
theorem parallel_onlyOnce (key : String) (place : Nat) {more more' : List Value}
    (h : more.length = more'.length) :
    setup.Parallel (σ := σ) Done L (onlyOnce c key place more) (onlyOnce d key place more') := by
  simp only [onlyOnce, Table.has_alike hc.named, h]
  split_ifs
  · exact parallel_throw _ _
  · exact parallel_pure trivial

include hk

theorem parallel_startSort :
    setup.Parallel (fun L => Invocation.Moved L) L (startSort setup c k) (startSort setup d k') := by
  have location := hc.location
  unfold startSort
  match c.args, d.args, hc.args with
  | _, _, .nil => exact parallel_throw _ _
  | _, _, @List.Forall₂.cons _ _ _ x y more more' hx hmore =>
    dsimp only
    rw [location]
    refine parallel_seq (parallel_onlyOnce hc "key" 1 hmore.length_eq) fun L₁ h₁ _ _ => ?_
    refine parallel_seq (parallel_onlyOnce (hc.mono h₁) "reverse" 2 hmore.length_eq)
      fun L₂ h₂ _ _ => ?_
    refine parallel_bind (parallel_items d.location (hx.mono (h₁.trans h₂)))
      fun L₃ items items' h₃ hi => ?_
    have later := (h₁.trans h₂).trans h₃
    refine parallel_bind (parallel_isTruthy ?_) ?_
    · have named : Value.Moved L₃ ((c.named.get? "reverse").getD (.bool false))
          ((d.named.get? "reverse").getD (.bool false)) := by
        match c.named.get? "reverse", d.named.get? "reverse", Table.get?_alike hc.named "reverse" with
        | _, _, .none => exact .atom _
        | _, _, .some h => exact h.mono later
      match more, more', hmore with
      | _, _, .nil => exact named
      | _, _, .cons _ .nil => exact named
      | _, _, .cons _ (.cons hr _) => exact hr.mono later
    rintro L₄ reversed _ h₄ rfl
    have plain : setup.Parallel (fun L => Invocation.Moved L) L₄
        (do return .react (.give (← endSort setup d.location reversed items items)) :
          Act σ (Invocation σ))
        (do return .react (.give (← endSort setup d.location reversed items' items'))) :=
      have hi' := Value.Moved.mono_list h₄ hi
      parallel_bind (parallel_endSort hs d.location reversed hi' hi') fun _ _ _ _ h =>
        parallel_pure (.react (.give (b := .value) h))
    have key := sortingKey?_moved (Value.Moved.mono_list (later.trans h₄) hmore)
      (Value.Moved.mono_table (later.trans h₄) hc.named)
    match sortingKey? c.named more, sortingKey? d.named more', key with
    | _, _, .none => exact plain
    | _, _, .some hkey =>
      cases hi with
      | nil => exact plain
      | cons hi his =>
        have first := hi.mono h₄
        have rest := Value.Moved.mono_list h₄ his
        refine parallel_pure (.again hkey ⟨.cons first .nil, .nil, rfl⟩ (.sortKey ?_ ?_))
        · exact ⟨rfl, hkey, .cons first rest, .nil, rest, rfl⟩
        · exact hk.mono (later.trans h₄)

omit hs hc hk in
theorem parallel_print (line : String) :
    setup.Parallel Done L
      (onWorld fun ⟨store, host⟩ => ((), ⟨store, setup.print line host⟩))
      (onWorld fun ⟨store, host⟩ => ((), ⟨store, setup.print line host⟩)) :=
  fun _ _ hm => .ok [line] (.refl _ _ _) ⟨hm.store, hm.left, hm.right⟩ rfl rfl trivial

omit hs hk in
theorem parallel_coreReply (f : CoreFunction) :
    setup.Parallel (fun L => Reply.Moved L) L (f.reply setup c) (f.reply setup d) := by
  have location := hc.location
  have first : (c.args.headD .none).Moved L (d.args.headD .none) := by
    match c.args, d.args, hc.args with
    | _, _, .nil => exact .atom _
    | _, _, .cons h _ => exact h
  have read {α : Type} {g h : Store → Except Fault α} (same : ∀ s t, s.Moved L t → g s = h t) :
      setup.Parallel (σ := σ) (fun _ => Eq) L (reading c.location g) (reading d.location h) := by
    rw [location]
    exact parallel_reading _ fun s t hs => concur_eq.mpr (same s t hs)
  have atoms {α : Type} {g h : Store → Except Fault α} (a : α → Atom)
      (same : ∀ s t, s.Moved L t → g s = h t) :
      setup.Parallel (fun L => Reply.Moved L) L
        (do return .value (.atom (a (← reading c.location g))) : Act σ (Reply σ))
        (do return .value (.atom (a (← reading d.location h)))) := by
    refine parallel_bind (read same) ?_
    rintro L' x _ _ rfl
    exact parallel_pure (.value (.atom _))
  have values {g h : Store → Except Fault Value}
      (same : ∀ s t, s.Moved L t → Concur (Value.Moved L) (g s) (h t)) :
      setup.Parallel (fun L => Reply.Moved L) L
        (do return .value (← reading c.location g) : Act σ (Reply σ))
        (do return .value (← reading d.location h)) := by
    rw [location]
    exact parallel_bind (P := Value.Moved) (parallel_reading _ same) fun _ _ _ _ hv =>
      parallel_pure (.value hv)
  cases f with
  | print =>
    refine parallel_bind (read fun s t hs => mapM_congr hc.args fun _ _ hv => text_moved hs hv) ?_
    rintro L' texts _ _ rfl
    exact parallel_seq (parallel_print _) fun _ _ _ _ => parallel_pure (.value (.atom _))
  | sleep =>
    refine parallel_bind (read fun s t hs => duration_moved hs first) ?_
    rintro L' x _ _ rfl
    exact parallel_pure (.wait _)
  | range =>
    have items : setup.Parallel (σ := σ) (fun L => List.Forall₂ (Value.Moved L)) L
        (reading c.location (·.rangeItems c.args)) (reading d.location (·.rangeItems d.args)) := by
      rw [location]
      exact parallel_reading _ fun s t hs => rangeItems_moved hc.args hs
    refine parallel_bind items fun _ _ _ _ h => ?_
    exact parallel_bind (parallel_alloc (.list h)) fun _ _ _ _ hv => parallel_pure (.value hv)
  | len => exact atoms .num fun s t hs => lengthOf_moved hs first
  | str => exact atoms .str fun s t hs => text_moved hs first
  | int => exact atoms .num fun s t hs => by rw [toInt_moved hs first]
  | float => exact atoms .num fun s t hs => toNumber_moved hs first "float"
  | abs => exact atoms (.num ·.abs) fun s t hs => expectNumber_moved hs first "abs"
  | min => exact values fun s t hs => extreme_moved hc.args hs "min" .lt
  | max => exact values fun s t hs => extreme_moved hc.args hs "max" .gt
  | sum => exact atoms .num fun s t hs => sumOf_moved hs first
  | sorted => exact parallel_pure (.value (.atom _))

theorem parallel_callBuiltin (f : CoreFunction) :
    setup.Parallel (fun L => Invocation.Moved L) L (callBuiltin setup f.builtin c k)
      (callBuiltin setup f.builtin d k') := by
  have silent := setup.hooks_of_empty hs
  have plain (f : CoreFunction) {L' : Link} (hL : L ≤ L') :
      setup.Parallel (fun L => Invocation.Moved L) L'
        (do return .react (← settle setup f.name c.location k (← f.reply setup c)) :
          Act σ (Invocation σ))
        (do return .react (← settle setup f.name d.location k' (← f.reply setup d))) := by
    rw [hc.location]
    refine parallel_bind (parallel_coreReply (hc.mono hL) f) fun L₁ r r' h₁ hr => ?_
    refine parallel_bind (parallel_settle silent _ _ (hk.mono (hL.trans h₁)) hr) fun _ _ _ _ h => ?_
    exact parallel_pure (.react h)
  refine parallel_seq (P := Done) ?_ fun L₁ h₁ _ _ => ?_
  · rw [accepts_moved _ hc, hc.location]
    exact parallel_placed _ ((concur_eq.mpr rfl).imp fun _ _ _ => trivial)
  refine parallel_seq (parallel_emit silent _ _) fun L₂ h₂ _ _ => ?_
  have later := h₁.trans h₂
  cases f with
  | sorted => exact parallel_startSort hs (hc.mono later) (hk.mono later)
  | _ => exact plain _ later

end Builtins

section Invocations

theorem parallel_notCallable {α β : Type} {R : Link → α → β → Prop} (f g : Value) (c d : Call) :
    setup.Parallel (σ := σ) R L (notCallable f c) (notCallable g d) :=
  fun _ _ hm => .error (.inl ⟨.refl _ _, hm.left⟩)

variable (hs : setup.services = .empty)

include hs

theorem parallel_invoke {f g : Value} (hf : f.Moved L g) {c d : Call} (hc : c.Moved L d)
    {k k' : Context .value} (hk : k.Moved L k') :
    setup.Parallel (fun L => Invocation.Moved L) L (invoke setup f c k) (invoke setup g d k') := by
  refine parallel_store fun m n hm => ?_
  have called {x y : Act σ (Option Task)}
      (h : setup.Parallel (fun L => Option.Rel (Task.Moved L)) L x y) :
      setup.Parallel (fun L => Invocation.Moved L) L
        (do return .react (bodyOf (← x)) : Act σ (Invocation σ))
        (do return .react (bodyOf (← y))) :=
    parallel_bind h fun L' t t' _ ht => parallel_pure <| by
      cases ht with
      | none => exact .react (.give (b := .value) (.atom _))
      | some ht => exact .react (.start ht)
  cases hf with
  | atom a => exact parallel_notCallable _ _ _ _ m n hm
  | @ref a b h =>
    simp only [Store.object?]
    have callee := hm.store.read h
    generalize m.world.store.read a = o, n.world.store.read b = o' at callee ⊢
    cases callee with
    | builtin name =>
      dsimp only
      cases hb : setup.builtin? name with
      | none => exact parallel_notCallable _ _ _ _ m n hm
      | some b =>
        obtain ⟨f, -, rfl⟩ := builtin?_eq_some hs hb
        exact parallel_callBuiltin hs hc hk f m n hm
    | function hij hb => exact called (parallel_callFunction hc hs hk hij hb _ 0) m n hm
    | @method r r' f f' hr hf =>
      have type := typeName_moved hm.store (.ref hr)
      have bound := hm.store.read hf
      dsimp only
      generalize m.world.store.read f = p, n.world.store.read f' = p' at bound ⊢
      cases bound with
      | function hij hb =>
        dsimp only
        split_ifs
        · exact parallel_throw _ _ m n hm
        · have inner : Call.Moved L { c with args := .ref r :: c.args }
              { d with args := .ref r' :: d.args } :=
            ⟨.cons (.ref hr) hc.args, hc.named, hc.location⟩
          exact called (parallel_callFunction inner hs hk hij hb _ 1) m n hm
      | builtin | lambda | list | cls | instance_ | method | dict =>
        exact parallel_notCallable _ _ _ _ m n hm
    | lambda hij hb =>
      refine parallel_bind (parallel_callLambda hc hs hk hij hb) ?_ m n hm
      exact fun _ _ _ _ ht => parallel_pure (.react (.start ht))
    | cls hms =>
      refine parallel_bind (parallel_construct hc hs hk h _ hms) ?_ m n hm
      exact fun _ _ _ _ hr => parallel_pure (.react hr)
    | list | instance_ | dict => exact parallel_notCallable _ _ _ _ m n hm

omit hs in
theorem continueWith_moved {b : Awaits} {k k' : Context b} (hk : k.Moved L k') {r r' : Reaction σ b}
    (hr : r.Moved L r') : (continueWith k r).Moved L (continueWith k' r') := by
  cases hr with
  | give h => exact .go (.move (.give h hk))
  | start h => exact .go (.task h)
  | pause w h => exact .pause w h

omit hs in
theorem receive_moved {p q : PendingCall} (h : p.Moved L q) {v w : Value} (hv : v.Moved L w) :
    (p.receive v).Moved L (q.receive w) := by
  obtain ⟨loc, callee, args, named, key, todo, i⟩ := p
  obtain ⟨loc', callee', args', named', key', todo', j⟩ := q
  obtain ⟨hl, hc, ha, hn, hk, ht, hij, he⟩ := h
  dsimp only at hl hc ha hn hk ht hij he
  subst hl hk ht
  cases hc with
  | none => exact ⟨rfl, .some hv, ha, hn, rfl, rfl, hij, he⟩
  | some hc =>
    cases key with
    | none =>
      exact ⟨rfl, .some hc, List.rel_append ha (.cons hv .nil), hn, rfl, rfl, hij, he⟩
    | some key => exact ⟨rfl, .some hc, ha, Table.put_alike hn key hv, rfl, rfl, hij, he⟩

theorem parallel_giveTo {a : Awaits} {x y : a.Input} (hx : a.Moved L x y) {k k' : Context a}
    (hk : k.Moved L k') :
    setup.Parallel (fun L => Next.Moved L) L (giveTo setup x k) (giveTo setup y k') := by
  cases hk with
  | program => exact parallel_pure (.finished hx)
  | fill hh hk =>
    exact parallel_bind (parallel_react hs hh hx hk) fun _ _ _ hL hr =>
      parallel_pure (continueWith_moved (hk.mono hL) hr)
  | @argument p q k k' hp hk =>
    obtain ⟨hl, hc, ha, hn, -, ht, hij, he⟩ := receive_moved hp hx
    simp only [giveTo]
    generalize p.receive x = r, q.receive y = r' at hl hc ha hn ht hij he
    obtain ⟨loc, callee, args, named, key, todo, i⟩ := r
    obtain ⟨loc', callee', args', named', key', todo', j⟩ := r'
    dsimp only at hl hc ha hn ht hij he
    subst hl ht
    cases todo with
    | nil =>
      refine parallel_pure (.go (.move (.call ?_ ⟨ha, hn, rfl⟩ hk)))
      cases hc with
      | none => exact .atom _
      | some h => exact h
    | cons e todo =>
      obtain ⟨key, e⟩ := e
      obtain ⟨he, hes⟩ := List.forall_mem_cons.mp he
      refine parallel_pure (.go (.task (.eval hij he (.argument ?_ hk))))
      exact ⟨rfl, hc, ha, hn, rfl, rfl, hij, hes⟩
  | @sortKey s s' k k' hso hk =>
    obtain ⟨hl, hkey, hi, hks, ht, hr⟩ := hso
    obtain ⟨loc, key, items, keys, todo, reversed⟩ := s
    obtain ⟨loc', key', items', keys', todo', reversed'⟩ := s'
    dsimp only at hl hkey hi hks ht hr
    subst hl hr
    cases ht with
    | nil =>
      have sorted := parallel_endSort hs loc reversed (List.rel_reverse (.cons hx hks)) hi
      exact parallel_bind sorted fun _ _ _ hL hv =>
        parallel_pure (continueWith_moved (hk.mono hL) (.give (b := .value) hv))
    | cons hi' ht =>
      refine parallel_pure (.go (.move (.call hkey ⟨.cons hi' .nil, .nil, rfl⟩ (.sortKey ?_ hk))))
      exact ⟨rfl, hkey, hi, .cons hx hks, ht, rfl⟩
  | @mapItem m m' k k' hm hk =>
    obtain ⟨hn, hl, hf, hd, ht⟩ := hm
    obtain ⟨name, loc, callee, done, todo⟩ := m
    obtain ⟨name', loc', callee', done', todo'⟩ := m'
    dsimp only at hn hl hf hd ht
    subst hn hl
    cases ht with
    | nil =>
      have mapped := parallel_endMap hs name loc (List.rel_reverse (.cons hx hd))
      exact parallel_bind mapped fun _ _ _ hL hv =>
        parallel_pure (continueWith_moved (hk.mono hL) (.give (b := .value) hv))
    | cons hi ht =>
      refine parallel_pure (.go (.move (.call hf ⟨.cons hi .nil, .nil, rfl⟩ (.mapItem ?_ hk))))
      exact ⟨rfl, rfl, hf, .cons hx hd, ht⟩

theorem parallel_advance {v w : Move} (h : v.Moved L w) :
    setup.Parallel (fun L => Next.Moved L) L (advance setup v) (advance setup w) := by
  cases h with
  | give hx hk => exact parallel_giveTo hs hx hk
  | call hf hc hk =>
    refine parallel_bind (parallel_invoke hs hf hc hk) fun _ _ _ hL hr => ?_
    cases hr with
    | react hr => exact parallel_pure (continueWith_moved (hk.mono hL) hr)
    | again hf hc hk => exact parallel_pure (.go (.move (.call hf hc hk)))

theorem parallel_step {c d : Control} (h : c.Moved L d) :
    setup.Parallel (fun L => Next.Moved L) L (c.step setup) (d.step setup) := by
  cases h with
  | task ht => exact parallel_map (parallel_begin hs ht) fun _ _ _ hc => .go hc
  | move hv => exact parallel_advance hs hv

end Invocations

end Act

end LoopScript
