import LoopScript.Proofs.Relocation.Contexts

/-!
Two machines in parallel begin to execute the same statement, or to evaluate the same expression.
-/

namespace LoopScript

variable {σ : Type} {setup : Setup σ} {L : Link}

namespace Act

theorem parallel_current (loc : Option Location) :
    setup.Parallel Done L (modify fun m => { m with current := loc } : Act σ Unit)
      (modify fun m => { m with current := loc }) := by
  intro m n hm
  change setup.Outcomes Done L m n (.ok () { m with current := loc })
    (.ok () { n with current := loc })
  refine outcomes_keep hm ?_ ?_ ?_ ?_ trivial <;> rfl

theorem parallel_combine (loc : Location) {old old' : Old} (ho : Old.Moved L old old')
    {v w : Value} (hv : v.Moved L w) :
    setup.Parallel (σ := σ) Value.Moved L (combine loc old v) (combine loc old' w) := by
  cases ho with
  | none => exact parallel_pure hv
  | @some p q h =>
    obtain ⟨op, u⟩ := p
    obtain ⟨_, u'⟩ := q
    obtain ⟨rfl, hu⟩ := h
    exact parallel_making loc fun _ _ hs => binary_moved hs hu hv op

theorem parallel_oldValue (op : AssignOp) {x y : Act σ Value}
    (h : setup.Parallel Value.Moved L x y) :
    setup.Parallel Old.Moved L (oldValue op x) (oldValue op y) := by
  unfold oldValue
  split
  · exact parallel_pure .none
  · exact parallel_bind h fun _ _ _ _ h => parallel_pure (.some ⟨rfl, h⟩)

theorem parallel_lookup (loc : Location) {i j : ScopeId} (hij : L.scopes i j) {x : String}
    (hx : x ∈ L.usable i) :
    setup.Parallel (σ := σ) Value.Moved L (reading loc (·.lookup i x))
      (reading loc (·.lookup j x)) :=
  parallel_reading loc fun _ _ hs => lookup_moved hs hij hx

theorem parallel_getMember (loc : Location) (name : String) {v w : Value} (hv : v.Moved L w) :
    setup.Parallel (σ := σ) Value.Moved L (making loc (·.getMember v name))
      (making loc (·.getMember w name)) :=
  parallel_making loc fun _ _ hs => getMember_moved hs hv name

theorem parallel_defineMethods {i j : ScopeId} (hij : L.scopes i j) {ds : List FunctionDef}
    (hd : ∀ d ∈ ds, L.Holds i d.params d.body) :
    setup.Parallel (σ := σ) (fun L => Table.Paired Eq L.objects) L (defineMethods i ds)
      (defineMethods j ds) := by
  induction ds generalizing L with
  | nil => exact parallel_pure .nil
  | cons d ds ih =>
    obtain ⟨hd, hds⟩ := List.forall_mem_cons.mp hd
    refine parallel_bind (parallel_alloc (.function hij hd)) fun L' v w hL hv => ?_
    have rest := ih (hL.scopes hij) fun d h => (hds d h).mono hij hL
    cases hv with
    | atom a => exact rest
    | ref h =>
      refine parallel_bind rest fun L'' _ _ hL' hm => parallel_pure ?_
      exact .cons ⟨rfl, hL'.objects h⟩ hm

theorem parallel_beginStatement {s : Stmt} {i j : ScopeId} {k k' : Context .flow}
    (hij : L.scopes i j) (hs : s.Within (L.usable i) (L.assignable i)) (hk : k.Moved L k') :
    setup.Parallel (σ := σ) Control.Moved L (beginStatement s i k) (beginStatement s j k') := by
  have ended {L' : Link} (hL : L ≤ L') {f g : Flow} (hf : f.Moved L' g) :
      (Control.move (.give (a := .flow) f k)).Moved L' (.move (.give (a := .flow) g k')) :=
    .move (.give hf (hk.mono hL))
  cases hs with
  | expr loc h => exact parallel_pure (.task (.eval hij h (.fill .discard hk)))
  | assignName loc place op hn hw h =>
    refine parallel_bind (parallel_oldValue op (parallel_lookup place hij hn)) ?_
    intro L' old old' hL ho
    have hij' := hL.scopes hij
    refine parallel_pure (.task (.eval hij' (Link.Evals.mono hL h hij) (.fill ?_ (hk.mono hL))))
    exact .assignName loc hij' (hL.assignable hij ▸ hw) ho
  | assignMember loc place name op hb h =>
    exact parallel_pure (.task (.eval hij hb (.fill (.memberBase loc name op hij h) hk)))
  | assignItem loc place op hb hi h =>
    exact parallel_pure (.task (.eval hij hb (.fill (.itemBase loc op hij hi h) hk)))
  | cond loc ht hb ho => exact parallel_pure (.task (.eval hij ht (.fill (.branch hij hb ho) hk)))
  | loop loc ht hb => exact parallel_pure (.task (.eval hij ht (.fill (.loopTest hij ht hb) hk)))
  | each loc hw h hb =>
    exact parallel_pure (.task (.eval hij h (.fill (.eachOver loc hij hw hb) hk)))
  | function hw hb =>
    refine parallel_bind (parallel_alloc (.function hij hb)) fun L' v w hL hv => ?_
    refine parallel_seq (P := Done) ?_ fun L'' hL' _ _ =>
      parallel_pure (ended (hL.trans hL') .normal)
    exact parallel_define (hL.scopes hij) (hL.assignable hij ▸ hw) hv
  | class_ loc hw hb =>
    refine parallel_bind (parallel_defineMethods hij hb) fun L' ms ns hL hm => ?_
    refine parallel_bind (parallel_alloc (.cls (Table.ofList_alike hm))) fun L'' v w hL' hv => ?_
    have hLL := hL.trans hL'
    refine parallel_seq (P := Done) ?_ fun L''' hL'' _ _ =>
      parallel_pure (ended (hLL.trans hL'') .normal)
    exact parallel_define (hLL.scopes hij) (hLL.assignable hij ▸ hw) hv
  | @return_ _ _ value loc h =>
    cases value with
    | none => exact parallel_pure (ended le_rfl (.returned (.atom .none)))
    | some e => exact parallel_pure (.task (.eval hij (h e rfl) (.fill .leave hk)))
  | break_ loc => exact parallel_pure (ended le_rfl .broken)
  | continue_ loc => exact parallel_pure (ended le_rfl .continued)
  | pass_ loc => exact parallel_pure (ended le_rfl .normal)
  | import_ loc member h =>
    refine parallel_bind (parallel_lookup loc hij h) fun L' v w hL hv => ?_
    cases member with
    | none => exact parallel_pure (ended hL .normal)
    | some member =>
      refine parallel_seq (parallel_getMember loc member hv) fun L'' hL' _ _ => ?_
      exact parallel_pure (ended (hL.trans hL') .normal)

theorem parallel_beginExpression {e : Expr} {i j : ScopeId} {k k' : Context .value}
    (hij : L.scopes i j) (he : L.Evals i e) (hk : k.Moved L k') :
    setup.Parallel (σ := σ) Control.Moved L (beginExpression e i k) (beginExpression e j k') := by
  have give {L' : Link} (hL : L ≤ L') {v w : Value} (hv : v.Moved L' w) :
      (Control.move (.give (a := .value) v k)).Moved L' (.move (.give (a := .value) w k')) :=
    .move (.give hv (hk.mono hL))
  have made {o o' : Obj} (ho : o.Moved L o') : setup.Parallel (σ := σ) Control.Moved L
      (do return .move (.give (a := .value) (← alloc o) k))
      (do return .move (.give (a := .value) (← alloc o') k')) :=
    parallel_bind (parallel_alloc ho) fun _ _ _ hL hv => parallel_pure (give hL hv)
  cases he with
  | literal loc a => exact parallel_pure (give le_rfl (.atom a))
  | name loc h =>
    exact parallel_bind (parallel_lookup loc hij h) fun _ _ _ hL hv => parallel_pure (give hL hv)
  | binary loc op hl hr => exact parallel_pure (.task (.eval hij hl (.fill (.left loc op hij hr) hk)))
  | unary loc op h => exact parallel_pure (.task (.eval hij h (.fill (.operand loc op) hk)))
  | call loc hf ha hn =>
    refine parallel_pure (.task (.eval hij hf (.argument ?_ hk)))
    refine ⟨rfl, .none, .nil, .nil, rfl, rfl, hij, fun e he => ?_⟩
    rcases List.mem_append.mp he with he | he
    · obtain ⟨d, hd, rfl⟩ := List.mem_map.mp he
      exact ha d hd
    · obtain ⟨d, hd, rfl⟩ := List.mem_map.mp he
      exact hn d hd
  | index loc hb hi => exact parallel_pure (.task (.eval hij hb (.fill (.indexBase loc hij hi) hk)))
  | slice loc hb h => exact parallel_pure (.task (.eval hij hb (.fill (.sliceBase loc hij h) hk)))
  | @list _ es loc h | @tuple _ es loc h =>
    cases es with
    | nil => exact made (.list .nil)
    | cons e es =>
      obtain ⟨he, hes⟩ := List.forall_mem_cons.mp h
      exact parallel_pure (.task (.eval hij he (.fill (.listItem hij .nil hes) hk)))
  | @dict _ entries loc hkey hv =>
    cases entries with
    | nil => exact made (.dict .nil)
    | cons p es =>
      obtain ⟨key, value⟩ := p
      obtain ⟨hkey, hkeys⟩ := List.forall_mem_cons.mp hkey
      obtain ⟨hv, hvs⟩ := List.forall_mem_cons.mp hv
      refine parallel_pure (.task (.eval hij hkey (.fill ?_ hk)))
      exact .dictKey key.location hij hv .nil fun e he => ⟨hkeys e he, hvs e he⟩
  | lambda loc h => exact made (.lambda hij h)
  | comprehension loc he hi hc =>
    exact parallel_pure (.task (.eval hij hi (.fill (.comprehendOver loc ⟨hij, he, hc⟩) hk)))
  | member loc name h => exact parallel_pure (.task (.eval hij h (.fill (.member loc name) hk)))

theorem parallel_begin (hs : setup.services = .empty) {t t' : Task} (ht : t.Moved L t') :
    setup.Parallel Control.Moved L (begin setup t) (begin setup t') := by
  cases ht with
  | eval hij h hk => exact parallel_beginExpression hij h hk
  | @exec s i j k k' hij h hk =>
    refine parallel_seq (parallel_current _) fun L₁ h₁ _ _ => ?_
    refine parallel_seq (parallel_emit (setup.hooks_of_empty hs) _ _) fun L₂ h₂ _ _ => ?_
    refine parallel_seq (parallel_logStep (setup.rules_of_empty hs) _ _ _ _) fun L₃ h₃ _ _ => ?_
    have hL := (h₁.trans h₂).trans h₃
    refine parallel_beginStatement (hL.scopes hij) ?_ (hk.mono hL)
    rwa [hL.usable hij, hL.assignable hij]

end Act

end LoopScript
