import LoopScript.Proofs.Gap.Holes

/-!
Calls on two machines of which the second one has gaps in its store, and the moves that lead from one task
to the next.
-/

namespace LoopScript

inductive Invocation.Matches {σ : Type} (d : Distance σ) : Invocation σ → Invocation σ → Prop where
  | react {r r' : Reaction σ .value} (h : r.Matches d r') : Matches d (.react r) (.react r')
  | again (callee : Value) (c : Call) (k : Context .value) :
      Matches d (.again callee c k) (.again (callee.past d) (c.past d) (k.past d))

inductive Next.Matches {σ : Type} (d : Distance σ) : Next σ → Next σ → Prop where
  | go {c e : Control} (h : c.past d = e) : Matches d (.go c) (.go e)
  | pause {w w' : Wait σ} (h : w.Matches d w') (r : Resumption) :
      Matches d (.pause w r) (.pause w' (r.past d))
  | finished (f : Flow) : Matches d (.finished f) (.finished (f.past d))

namespace Act

variable {σ : Type} {d : Distance σ} {setup : Setup σ}

section Functions

variable (hs : setup.Keeps d)

include hs

theorem passes_callFunction (f : Closure) (label : String) (implicit : Nat) (c : Call)
    (k : Context .value) :
    Passes d (Option.map (Task.past d)) (callFunction setup f label implicit c k)
      (callFunction setup (f.past d) label implicit (c.past d) (k.past d)) := by
  obtain ⟨name, params, body, scope⟩ := f
  have bound := bindArguments_past (g := d) label params c.args c.named implicit
  refine passes_bind (passes_placed c.location bound) fun bound => ?_
  refine passes_bind (passes_openScope scope bound) fun inner => ?_
  refine tallies_seq (tallies_emit hs (.beforeCall name c.args c.location)) fun _ => ?_
  refine tallies_seq (tallies_enter name inner c.location) fun _ => ?_
  cases body with
  | nil =>
    refine tallies_seq tallies_exit fun _ => ?_
    exact tallies_seq (tallies_emit hs (.afterCall name .none c.location)) fun _ => tallies_pure rfl
  | cons s ss => exact tallies_pure rfl

theorem passes_callLambda (params : List String) (body : Expr) (scope : ScopeId) (c : Call)
    (k : Context .value) :
    Passes d (Task.past d) (callLambda setup params body scope c k)
      (callLambda setup params body (d.scopes.past scope) (c.past d) (k.past d)) := by
  have bound := bindArguments_past (g := d) "<lambda>" params c.args c.named 0
  refine passes_bind (passes_placed c.location bound) fun bound => ?_
  refine passes_bind (passes_openScope scope bound) fun inner => ?_
  refine tallies_seq (tallies_emit hs (.beforeCall "<lambda>" c.args c.location)) fun _ => ?_
  exact tallies_seq (tallies_enter "<lambda>" inner c.location) fun _ => tallies_pure rfl

theorem tallies_construct (cls : Addr) (name : String) (methods : Table String Addr) (c : Call)
    (k : Context .value) :
    Tallies d (Reaction.Matches d) (construct setup cls name methods c k)
      (construct setup (d.objects.past cls) name (methods.map (Prod.map id d.objects.past)) (c.past d)
        (k.past d)) := by
  refine passes_bind (passes_alloc (.instance_ cls [])) fun object => ?_
  refine tallies_store fun s t hst => ?_
  have plain : Tallies d (Reaction.Matches d)
      (if c.arity = 0 then return .give object else fail c.location (.wrongArity name 0 c.arity))
      (if (c.past d).arity = 0 then return Reaction.give (b := .value) (object.past d)
        else fail (c.past d).location (.wrongArity name 0 (c.past d).arity)) := by
    have arity : (c.past d).arity = c.arity := by simp [Call.arity, Call.past]
    rw [arity]
    split
    · exact tallies_pure (.give rfl)
    · exact tallies_throw _
  have init : (Table.get? (methods.map (Prod.map id d.objects.past)) "__init__").map t.read =
      ((methods.get? "__init__").map s.read).map (Obj.past d) := by
    rw [Table.get?_values, Option.map_map, Option.map_map]
    exact congrArg (Option.map · _) (funext hst.read)
  rw [init]
  cases (methods.get? "__init__").map s.read with
  | none => exact plain
  | some o =>
    cases o with
    | function f =>
      simp only [Option.map_some, Obj.past, Closure.past]
      split
      · exact tallies_throw _
      · refine passes_bind (passes_callFunction hs f name 1 { c with args := object :: c.args } _)
          fun task => ?_
        cases task with
        | none => exact tallies_pure (.give rfl)
        | some t => exact tallies_pure (.start rfl)
    | list | dict | builtin | lambda | cls | instance_ | method => exact plain

theorem passes_endSort (loc : Location) (reversed : Bool) (keys items : List Value) :
    Passes d (Value.past d) (endSort setup loc reversed keys items)
      (endSort setup loc reversed (keys.map (Value.past d)) (items.map (Value.past d))) := by
  refine passes_bind (passes_reading loc fun s t hst => hst.sortBy reversed keys items) fun xs => ?_
  refine passes_bind (passes_alloc (.list xs)) fun v => ?_
  exact tallies_seq (tallies_emit hs (.afterCall _ v loc)) fun _ => tallies_pure rfl

theorem passes_endMap (name : String) (loc : Location) (results : List Value) :
    Passes d (Value.past d) (endMap setup name loc results)
      (endMap setup name loc (results.map (Value.past d))) := by
  refine passes_bind (passes_alloc (.list results)) fun v => ?_
  exact tallies_seq (tallies_emit hs (.afterCall name v loc)) fun _ => tallies_pure rfl

omit hs in
theorem tallies_onlyOnce (c : Call) (key : String) (place : Nat) (more : List Value) :
    Tallies d Eq (onlyOnce c key place more : Act σ Unit)
      (onlyOnce (c.past d) key place (more.map (Value.past d))) := by
  simp only [onlyOnce, Call.past, Table.has_values, List.length_map]
  split
  · exact tallies_throw _
  · exact tallies_pure rfl

/-- What is left of a call of `sorted` when its arguments have been looked at. -/
theorem tallies_sortItems (loc : Location) (named : Table String Value) (more items : List Value)
    (k : Context .value) (flag : Value) :
    Tallies d (Invocation.Matches d)
      (do
        let reversed ← isTruthy flag
        match sortingKey? named more, items with
        | some key, i :: todo =>
          return .again key ⟨[i], [], loc⟩ (.sortKey ⟨loc, key, items, [], todo, reversed⟩ k)
        | _, _ => return .react (.give (← endSort setup loc reversed items items)))
      (do
        let reversed ← isTruthy (flag.past d)
        match sortingKey? (Bindings.past d named) (more.map (Value.past d)),
          items.map (Value.past d) with
        | some key, i :: todo =>
          return .again key ⟨[i], [], loc⟩
            (.sortKey ⟨loc, key, items.map (Value.past d), [], todo, reversed⟩ (k.past d))
        | _, _ => return .react (.give (← endSort setup loc reversed (items.map (Value.past d))
            (items.map (Value.past d))))) := by
  refine tallies_seq (tallies_isTruthy flag) fun reversed => ?_
  have ended : Tallies d (Invocation.Matches d)
      (do return Invocation.react (.give (← endSort setup loc reversed items items)))
      (do return Invocation.react (.give (← endSort setup loc reversed
        (items.map (Value.past d)) (items.map (Value.past d))))) :=
    passes_bind (passes_endSort hs loc reversed items items) fun _ =>
      tallies_pure (.react (.give rfl))
  rw [sortingKey?_past]
  cases sortingKey? named more with
  | none => exact ended
  | some key =>
    cases items with
    | nil => exact ended
    | cons i todo => exact tallies_pure (.again key ⟨[i], [], loc⟩ _)

theorem tallies_startSort (c : Call) (k : Context .value) :
    Tallies d (Invocation.Matches d) (startSort setup c k)
      (startSort setup (c.past d) (k.past d)) := by
  obtain ⟨args, named, loc⟩ := c
  cases args with
  | nil => exact tallies_throw _
  | cons x more =>
    refine tallies_seq (tallies_onlyOnce ⟨x :: more, named, loc⟩ "key" 1 more) fun _ => ?_
    refine tallies_seq (tallies_onlyOnce ⟨x :: more, named, loc⟩ "reverse" 2 more) fun _ => ?_
    refine passes_bind (passes_items loc x) fun items => ?_
    have reverse : ((Bindings.past d named).get? "reverse").getD (.bool false) =
        ((named.get? "reverse").getD (.bool false)).past d := by
      rw [Table.get?_values]
      cases named.get? "reverse" <;> rfl
    have rest := tallies_sortItems hs loc named more items k
    have unnamed := rest ((named.get? "reverse").getD (.bool false))
    rw [← reverse] at unnamed
    rcases more with _ | ⟨key, _ | ⟨flag, more⟩⟩
    · exact unnamed
    · exact unnamed
    · exact rest flag

theorem tallies_startMap (name : String) (c : Call) (k : Context .value) :
    Tallies d (Invocation.Matches d) (startMap setup name c k)
      (startMap setup name (c.past d) (k.past d)) := by
  obtain ⟨args, named, loc⟩ := c
  match args with
  | [] | [_] => exact tallies_throw _
  | f :: xs :: more =>
    refine passes_bind (passes_items loc xs) fun items => ?_
    cases items with
    | nil => exact passes_bind (passes_endMap hs name loc []) fun _ => tallies_pure (.react (.give rfl))
    | cons i todo => exact tallies_pure (.again f ⟨[i], [], loc⟩ _)

end Functions

section Builtins

variable (hs : setup.Keeps d)

include hs

theorem tallies_print (c : Call) :
    Tallies d (Reply.Matches d) (CoreFunction.print.reply setup c)
      (CoreFunction.print.reply setup (c.past d)) := by
  have texts (s t : Store) (hst : s.Opens d t) :
      (c.past d).args.mapM t.text = c.args.mapM s.text := by
    rw [Call.past, List.mapM_map]
    exact congrArg (c.args.mapM ·) (funext hst.text)
  refine tallies_seq (tallies_reading c.location texts) fun lines => ?_
  refine tallies_seq (tallies_onWorld fun w v hw => ⟨rfl, ?_⟩) fun _ => tallies_pure (.value .none)
  exact ⟨hw.store, hs.print _ _ _ hw.host⟩

theorem tallies_reply (f : CoreFunction) (c : Call) :
    Tallies d (Reply.Matches d) (f.reply setup c) (f.reply setup (c.past d)) := by
  have first : (c.past d).args.headD .none = (c.args.headD .none).past d := by
    rw [Call.past]
    cases c.args <;> rfl
  cases f with
  | print => exact tallies_print hs c
  | range =>
    refine passes_bind (passes_reading _ fun s t hst => hst.rangeItems c.args) fun items => ?_
    exact passes_bind (passes_alloc (.list items)) fun v => tallies_pure (.value v)
  | sorted => exact tallies_pure (.value .none)
  | min | max =>
    exact passes_bind (passes_reading _ fun s t hst => hst.extreme _ _ c.args) fun v =>
      tallies_pure (.value v)
  | sleep =>
    simp only [CoreFunction.reply, first]
    exact tallies_seq (tallies_reading _ fun s t hst => hst.duration _) fun x =>
      tallies_pure (.wait (.seconds x))
  | len =>
    simp only [CoreFunction.reply, first]
    exact tallies_seq (tallies_reading _ fun s t hst => hst.lengthOf _) fun x =>
      tallies_pure (.value (.num x))
  | str =>
    simp only [CoreFunction.reply, first]
    exact tallies_seq (tallies_reading _ fun s t hst => hst.text _) fun x =>
      tallies_pure (.value (.str x))
  | int =>
    simp only [CoreFunction.reply, first]
    refine tallies_seq (tallies_reading _ fun s t hst => ?_) fun x => tallies_pure (.value (.num x))
    simp only [hst.toInt]
  | float =>
    simp only [CoreFunction.reply, first]
    exact tallies_seq (tallies_reading _ fun s t hst => hst.toNumber _ _) fun x =>
      tallies_pure (.value (.num x))
  | abs =>
    simp only [CoreFunction.reply, first]
    exact tallies_seq (tallies_reading _ fun s t hst => hst.expectNumber _ _) fun x =>
      tallies_pure (.value (.num _))
  | sum =>
    simp only [CoreFunction.reply, first]
    exact tallies_seq (tallies_reading _ fun s t hst => hst.sumOf _) fun x =>
      tallies_pure (.value (.num x))

theorem tallies_callBuiltin {name : String} {b : Builtin σ} (hb : setup.builtin? name = some b)
    (c : Call) (k : Context .value) :
    Tallies d (Invocation.Matches d) (callBuiltin setup b c k)
      (callBuiltin setup b (c.past d) (k.past d)) := by
  have known := registered hb
  obtain ⟨label, least, most, suspends, doc, keywords, action⟩ := b
  have answer {r r' : Reply σ} (hr : r.Matches d r') : Tallies d (Invocation.Matches d)
      (do return Invocation.react (← settle setup label c.location k r))
      (do return Invocation.react (← settle setup label c.location (k.past d) r')) :=
    tallies_bind (tallies_settle hs label c.location k hr) fun _ _ h => tallies_pure (.react h)
  refine tallies_seq (passes_placed (f := id) c.location ?_) fun _ => ?_
  · rw [accepts_past, id_map]
  refine tallies_seq (tallies_emit hs (.beforeCall label c.args c.location)) fun _ => ?_
  cases action with
  | core f =>
    cases f with
    | sorted => exact tallies_startSort hs c k
    | print | sleep | range | len | str | int | float | abs | min | max | sum =>
      exact tallies_bind (tallies_reply hs _ c) fun _ _ => answer
  | host reply =>
    have kept := hs.services.reply _ _ (known.resolve_left nofun) reply rfl c
    refine tallies_bind (tallies_onWorld kept) fun r r' hr => ?_
    cases hr with
    | fault f => exact answer (.fault (f.attach (some c.location)))
    | value v => exact answer (.value v)
    | wait hw => exact answer (.wait hw)
  | forward finish =>
    obtain ⟨args, named, loc⟩ := c
    cases args with
    | nil => exact tallies_throw _
    | cons f args => exact tallies_pure (.again f ⟨args, named, loc⟩ _)
  | each => exact tallies_startMap hs label c k

omit hs in
theorem tallies_notCallable {α β : Type} {R : α → β → Prop} (callee : Value) (c : Call) :
    Tallies d R (notCallable callee c : Act σ α) (notCallable (callee.past d) (c.past d)) := by
  refine tallies_store fun s t hst => ?_
  rw [hst.typeName]
  exact tallies_throw _

omit hs in
theorem bodyOf_matches (t : Option Task) :
    (Invocation.react (bodyOf (σ := σ) t)).Matches d (.react (bodyOf (t.map (Task.past d)))) := by
  cases t with
  | none => exact .react (.give rfl)
  | some t => exact .react (.start rfl)

theorem tallies_invoke (callee : Value) (c : Call) (k : Context .value) :
    Tallies d (Invocation.Matches d) (invoke setup callee c k)
      (invoke setup (callee.past d) (c.past d) (k.past d)) := by
  refine tallies_store fun s t hst => ?_
  cases callee with
  | atom a => exact tallies_notCallable (.atom a) c
  | ref a =>
    simp only [Value.past_ref, Store.object?, hst.read]
    cases s.read a with
    | builtin name =>
      simp only [Obj.past]
      cases hb : setup.builtin? name with
      | none => exact tallies_notCallable (.ref a) c
      | some b => exact tallies_callBuiltin hs hb c k
    | function f =>
      exact passes_bind (passes_callFunction hs f f.name 0 c k) fun t => tallies_pure (bodyOf_matches t)
    | method r f =>
      simp only [Obj.past, hst.read]
      cases s.read f with
      | function f =>
        simp only [Closure.past, hst.typeName_ref]
        split
        · exact tallies_throw _
        · exact passes_bind
            (passes_callFunction hs f f.name 1 { c with args := .ref r :: c.args } k)
            fun t => tallies_pure (bodyOf_matches t)
      | list | dict | builtin | lambda | cls | instance_ | method =>
        exact tallies_notCallable (.ref a) c
    | lambda params body scope =>
      exact passes_bind (passes_callLambda hs params body scope c k) fun t =>
        tallies_pure (.react (.start rfl))
    | cls name methods =>
      exact tallies_bind (tallies_construct hs a name methods c k) fun _ _ h =>
        tallies_pure (.react h)
    | list | dict | instance_ => exact tallies_notCallable (.ref a) c

end Builtins

section Moves

theorem continueWith_matches {b : Awaits} (k : Context b) {r r' : Reaction σ b}
    (h : r.Matches d r') : (continueWith k r).Matches d (continueWith (k.past d) r') := by
  cases h with
  | give h => exact .go (h ▸ rfl)
  | start h => exact .go (h ▸ rfl)
  | pause hw hr => exact hr ▸ .pause hw _

variable (hs : setup.Keeps d)

include hs

theorem tallies_giveTo {a : Awaits} (x : a.Input) (k : Context a) :
    Tallies d (Next.Matches d) (giveTo setup x k) (giveTo setup (a.past d x) (k.past d)) := by
  cases k with
  | program => exact tallies_pure (.finished x)
  | fill h k =>
    exact tallies_bind (tallies_react hs h x k) fun _ _ h => tallies_pure (continueWith_matches k h)
  | argument p k =>
    simp only [giveTo, Context.past, Awaits.past, PendingCall.receive_past]
    generalize p.receive x = p
    obtain ⟨loc, callee, args, named, key, todo, scope⟩ := p
    cases todo with
    | nil => cases callee <;> exact tallies_pure (.go rfl)
    | cons e todo => exact tallies_pure (.go rfl)
  | sortKey s k =>
    obtain ⟨loc, key, items, keys, todo, reversed⟩ := s
    cases todo with
    | nil =>
      have sorted := passes_endSort hs loc reversed (x :: keys).reverse items
      rw [List.map_reverse] at sorted
      exact passes_bind sorted fun v => tallies_pure (continueWith_matches k (.give rfl))
    | cons i todo => exact tallies_pure (.go rfl)
  | mapItem m k =>
    obtain ⟨name, loc, callee, done, todo⟩ := m
    cases todo with
    | nil =>
      have results := passes_endMap hs name loc (x :: done).reverse
      rw [List.map_reverse] at results
      exact passes_bind results fun v => tallies_pure (continueWith_matches k (.give rfl))
    | cons i todo => exact tallies_pure (.go rfl)

theorem tallies_advance (v : Move) :
    Tallies d (Next.Matches d) (advance setup v) (advance setup (v.past d)) := by
  cases v with
  | give x k => exact tallies_giveTo hs x k
  | call callee c k =>
    refine tallies_bind (tallies_invoke hs callee c k) fun _ _ h => ?_
    cases h with
    | react h => exact tallies_pure (continueWith_matches k h)
    | again callee c k => exact tallies_pure (.go rfl)

end Moves

end Act

end LoopScript
