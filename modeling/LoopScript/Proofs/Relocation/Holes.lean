import LoopScript.Proofs.Machine.Invocations
import LoopScript.Proofs.Relocation.Statements

/-!
Two machines in parallel fill the same hole with moved values.
-/

namespace LoopScript

variable {σ : Type} {setup : Setup σ} {L : Link}

namespace Act

theorem block_moved {body : List Stmt} {i j : ScopeId} (hij : L.scopes i j) (hb : L.Runs i body)
    {k k' : Context .flow} (hk : k.Moved L k') :
    (block (σ := σ) body i k).Moved L (block body j k') := by
  cases body with
  | nil => exact .give (b := .flow) .normal
  | cons s ss =>
    obtain ⟨hs, hss⟩ := List.forall_mem_cons.mp hb
    exact .start (.exec hij hs (.fill (.rest hij hss) hk))

theorem parallel_forM {i j : ScopeId} {x : String} (hij : L.scopes i j) (hx : x ∈ L.assignable i)
    {vs ws : List Value} (h : List.Forall₂ (Value.Moved L) vs ws) :
    setup.Parallel (σ := σ) Done L (vs.forM fun v => assign i x v) (ws.forM fun w => assign j x w) := by
  induction vs generalizing L ws with
  | nil =>
    cases h
    exact parallel_pure trivial
  | cons v vs ih =>
    cases h with
    | cons hv hvs =>
      refine parallel_seq (parallel_assign hij hx hv) fun L' hL _ _ => ?_
      exact ih (hL.scopes hij) (hL.assignable hij ▸ hx) (Value.Moved.mono_list hL hvs)

section Rounds

theorem parallel_items (loc : Location) {v w : Value} (hv : v.Moved L w) :
    setup.Parallel (σ := σ) (fun L => List.Forall₂ (Value.Moved L)) L (reading loc (·.items v))
      (reading loc (·.items w)) :=
  parallel_reading loc fun _ _ hs => items_moved hs hv

theorem parallel_nextRound {item : String} {body : List Stmt} {i j : ScopeId} (hij : L.scopes i j)
    (hw : item ∈ L.assignable i) (hb : L.Runs i body) {todo todo' : List Value}
    (ht : List.Forall₂ (Value.Moved L) todo todo') {k k' : Context .flow} (hk : k.Moved L k') :
    setup.Parallel (σ := σ) (fun L => Reaction.Moved L) L (nextRound item todo body i k)
      (nextRound item todo' body j k') := by
  have ended (L' : Link) :
      (Reaction.give (σ := σ) (b := .flow) .normal).Moved L' (.give (b := .flow) .normal) :=
    .give (b := .flow) .normal
  cases ht with
  | nil => exact parallel_pure (ended L)
  | cons hv hvs =>
    cases body with
    | nil =>
      exact parallel_seq (parallel_forM hij hw (.cons hv hvs)) fun L' _ _ _ => parallel_pure (ended L')
    | cons s ss =>
      obtain ⟨hs, hss⟩ := List.forall_mem_cons.mp hb
      refine parallel_seq (parallel_assign hij hw hv) fun L' hL _ _ => parallel_pure ?_
      have hij' := hL.scopes hij
      have runs := hb.mono hij hL
      obtain ⟨hs', hss'⟩ := List.forall_mem_cons.mp runs
      refine .start (.exec hij' hs' (.fill (.rest hij' hss') (.fill ?_ (hk.mono hL))))
      exact .eachBody hij' (hL.assignable hij ▸ hw) (Value.Moved.mono_list hL hvs) runs

theorem parallel_nextItem {c c' : Comprehension} (hc : c.Moved L c') {todo todo' done done' : List Value}
    (ht : List.Forall₂ (Value.Moved L) todo todo') (hd : List.Forall₂ (Value.Moved L) done done')
    {k k' : Context .value} (hk : k.Moved L k') :
    setup.Parallel (σ := σ) (fun L => Reaction.Moved L) L (nextItem c todo done k)
      (nextItem c' todo' done' k') := by
  cases ht with
  | nil =>
    exact parallel_bind (parallel_alloc (.list (List.rel_reverse hd))) fun _ _ _ _ hv =>
      parallel_pure (.give (b := .value) hv)
  | @cons v w todo todo' hv hvs =>
    cases hc with
    | @mk element item condition i j hij he hcond =>
      have binding : Table.Paired Eq (Value.Moved L) [(item, v)] [(item, w)] := .cons ⟨rfl, hv⟩ .nil
      have bound : ∀ x ∈ ({item} : Set String), Table.has [(item, v)] x = true := by
        rintro _ rfl
        simp [Table.has, Table.get?]
      refine parallel_bind (parallel_openScope hij binding {item} bound) ?_
      rintro L' i' j' hL ⟨inner, usable, -⟩
      have evals {e : Expr} (h : e.Within (L.usable i ∪ {item})) : L'.Evals i' e := by
        rwa [Link.Evals, usable]
      have hm := Comprehension.Moved.mono hL (.mk hij he hcond)
      have todos := Value.Moved.mono_list hL hvs
      have dones := Value.Moved.mono_list hL hd
      cases condition with
      | some test =>
        refine parallel_pure (.start (.eval inner (evals (hcond test rfl)) (.fill ?_ (hk.mono hL))))
        exact .comprehendTest hm inner (evals he) todos dones
      | none =>
        exact parallel_pure (.start (.eval inner (evals he)
          (.fill (.comprehendItem hm todos dones) (hk.mono hL))))

theorem parallel_nextBound (loc : Location) {base base' : Value} (hb : base.Moved L base')
    {i j : ScopeId} (hij : L.scopes i j) {k k' : Context .value} (hk : k.Moved L k')
    (done : List (Option Int)) {todo : List (Option Expr)} (he : ∀ e ∈ todo, ∀ d ∈ e, L.Evals i d) :
    setup.Parallel (σ := σ) (fun L => Reaction.Moved L) L (nextBound loc base i k done todo)
      (nextBound loc base' j k' done todo) := by
  induction todo generalizing done with
  | nil =>
    refine parallel_bind (parallel_making loc fun _ _ hs => .ok (slice_moved hs hb _ _ _)) ?_
    exact fun _ _ _ _ hv => parallel_pure (.give (b := .value) hv)
  | cons e todo ih =>
    obtain ⟨he, hes⟩ := List.forall_mem_cons.mp he
    cases e with
    | none => exact ih (none :: done) hes
    | some e =>
      exact parallel_pure (.start (.eval hij (he e rfl) (.fill (.sliceBound loc done hij hb hes) hk)))

end Rounds

theorem parallel_leaveFunction {f g : Flow} (hf : f.Moved L g) :
    setup.Parallel (σ := σ) Value.Moved L (leaveFunction f) (leaveFunction g) := by
  have stray (x y : Machine σ → Fault) : setup.Parallel (σ := σ) Value.Moved L
      (do throw (x (← get))) (do throw (y (← get))) :=
    fun _ _ hm => .error (.inr ⟨.refl _ _, hm.right⟩)
  cases hf with
  | broken | continued => exact stray _ _
  | normal => exact parallel_seq parallel_exit fun _ _ _ _ => parallel_pure (.atom .none)
  | returned h => exact parallel_seq parallel_exit fun _ hL _ _ => parallel_pure (h.mono hL)

theorem parallel_report (hh : setup.services.hooks = []) (e e' : Value → Event σ) {x y : Act σ Value}
    (h : setup.Parallel Value.Moved L x y) :
    setup.Parallel (fun L => Reaction.Moved L) L
      (do
        let result ← x
        emit setup (e result)
        return Reaction.give (σ := σ) (b := .value) result)
      (do
        let result ← y
        emit setup (e' result)
        return Reaction.give (σ := σ) (b := .value) result) :=
  parallel_bind h fun _ _ _ _ hv => parallel_seq (parallel_emit hh _ _) fun _ hL _ _ =>
    parallel_pure (.give (b := .value) (hv.mono hL))

theorem parallel_settle (hh : setup.services.hooks = []) (name : String) (loc : Location)
    {k k' : Context .value} (hk : k.Moved L k') {r r' : Reply σ} (hr : r.Moved L r') :
    setup.Parallel (fun L => Reaction.Moved L) L (settle setup name loc k r)
      (settle setup name loc k' r') := by
  cases hr with
  | fault f g => exact parallel_throw f g
  | wait w =>
    exact parallel_seq (parallel_emit hh _ _) fun _ hL _ _ =>
      parallel_pure (.pause w (.waited name loc (hk.mono hL)))
  | value h =>
    cases h with
    | ref h => exact parallel_report hh _ _ (parallel_pure (.ref h))
    | atom a =>
      cases a with
      | int i =>
        refine parallel_report hh _ _ (parallel_map (P := fun _ => Eq)
          (parallel_placed loc (concur_eq.mpr rfl)) ?_)
        rintro L' x _ rfl
        exact .atom _
      | none | bool | num | str => exact parallel_report hh _ _ (parallel_pure (.atom _))

theorem parallel_getIndex (loc : Location) {v w x y : Value} (hv : v.Moved L w) (hx : x.Moved L y) :
    setup.Parallel (σ := σ) Value.Moved L (reading loc (·.getIndex v x))
      (reading loc (·.getIndex w y)) :=
  parallel_reading loc fun _ _ hs => getIndex_moved hs hv hx

theorem parallel_toIndex (loc : Location) {v w : Value} (hv : v.Moved L w) :
    setup.Parallel (σ := σ) (fun _ => Eq) L (reading loc (·.toIndex v))
      (reading loc (·.toIndex w)) :=
  parallel_reading loc fun _ _ hs => concur_eq.mpr (toIndex_moved hs hv)

section Assignments

variable {old old' : Old} {v w : Value} (loc : Location) (ho : Old.Moved L old old')
  (hv : v.Moved L w)

include ho hv

theorem parallel_assignName {i j : ScopeId} (hij : L.scopes i j) {x : String}
    (hx : x ∈ L.assignable i) (k k' : Context .flow) :
    setup.Parallel (fun L => Reaction.Moved L) L (react setup (.assignName loc x old i) v k)
      (react setup (.assignName loc x old' j) w k') := by
  refine parallel_bind (parallel_combine loc ho hv) fun L' u u' hL hu => ?_
  refine parallel_seq (parallel_assign (hL.scopes hij) (hL.assignable hij ▸ hx) hu) ?_
  exact fun _ _ _ _ => parallel_pure (.give (b := .flow) .normal)

theorem parallel_assignMember {a b : Addr} (hab : L.objects a b) (name : String)
    (k k' : Context .flow) :
    setup.Parallel (fun L => Reaction.Moved L) L (react setup (.assignMember loc a name old) v k)
      (react setup (.assignMember loc b name old') w k') := by
  refine parallel_bind (parallel_combine loc ho hv) fun L' u u' hL hu => ?_
  refine parallel_seq (P := Done) (parallel_modifyStore fun _ _ hs => ?_) ?_
  · exact setField_moved hs (hL.objects hab) name hu
  · exact fun _ _ _ _ => parallel_pure (.give (b := .flow) .normal)

theorem parallel_assignItem {base base' index index' : Value} (hb : base.Moved L base')
    (hi : index.Moved L index') (k k' : Context .flow) :
    setup.Parallel (fun L => Reaction.Moved L) L (react setup (.assignItem loc base index old) v k)
      (react setup (.assignItem loc base' index' old') w k') := by
  refine parallel_bind (parallel_combine loc ho hv) fun L' u u' hL hu => ?_
  -- what is written is what was read, and that was no built-in function
  intro m n hm
  let write (p : Addr × Obj) : Act σ (Reaction σ .flow) := do
    modifyStore (·.write p.1 p.2)
    return .give .normal
  change setup.Outcomes (fun L => Reaction.Moved L) L' m n
    ((placed loc (m.world.store.setIndex base index u) >>= write) m)
    ((placed loc (n.world.store.setIndex base' index' u') >>= write) n)
  have concur := setIndex_moved hm.store (hb.mono hL) (hi.mono hL) hu
  generalize e : m.world.store.setIndex base index u = x,
    n.world.store.setIndex base' index' u' = y at concur ⊢
  cases concur with
  | error f => exact .error (.inl ⟨.refl _ _, hm.left⟩)
  | @ok p q h =>
    obtain ⟨hab, ho⟩ := h
    have evolves := write_evolves hm.store hab (setIndex_container e) p.2 q.2
    have moved := write_moved hm.store hab ho
    exact .ok [] evolves ⟨moved, hm.left, hm.right⟩ rfl rfl (.give (b := .flow) .normal)

end Assignments

theorem parallel_react (hs : setup.services = .empty) {a b : Awaits} {h h' : Hole a b}
    (hm : h.Moved L h') {x y : a.Input} (hx : a.Moved L x y) {k k' : Context b}
    (hk : k.Moved L k') :
    setup.Parallel (fun L => Reaction.Moved L) L (react setup h x k) (react setup h' y k') := by
  have hh := setup.hooks_of_empty hs
  have given {L' : Link} {b : Awaits} {x y : b.Input} (h : b.Moved L' x y) :
      setup.Parallel (fun L => Reaction.Moved L) L' (pure (.give x) : Act σ (Reaction σ b))
        (pure (.give y)) := parallel_pure (.give h)
  have started {L' : Link} {b : Awaits} {t t' : Task} (h : t.Moved L' t') :
      setup.Parallel (fun L => Reaction.Moved L) L' (pure (.start t) : Act σ (Reaction σ b))
        (pure (.start t')) := parallel_pure (.start h)
  -- in each case what the hole holds is still linked after what its evaluation has added
  cases hm with
  | @rest ss i j hij hr =>
    cases ss with
    | nil => exact given hx
    | cons s ss =>
      obtain ⟨hs, hss⟩ := List.forall_mem_cons.mp hr
      cases hx with
      | normal => exact started (.exec hij hs (.fill (.rest hij hss) hk))
      | broken => exact given .broken
      | continued => exact given .continued
      | returned h => exact given (.returned h)
  | discard => exact given .normal
  | @branch body otherwise i j hij hb ho =>
    refine parallel_bind (parallel_isTruthy hx) ?_
    rintro L' c _ hL rfl
    have blocks {body : List Stmt} (h : L.Runs i body) :
        setup.Parallel (fun L => Reaction.Moved L) L' (pure (block (σ := σ) body i k))
          (pure (block body j k')) :=
      parallel_pure (block_moved (hL.scopes hij) (h.mono hij hL) (hk.mono hL))
    cases c with
    | true => exact blocks hb
    | false =>
      refine blocks ?_
      cases otherwise with
      | none => exact fun s hs => absurd hs List.not_mem_nil
      | some ss => exact ho ss rfl
  | @loopTest test body i j hij ht hb =>
    refine parallel_bind (parallel_isTruthy hx) ?_
    rintro L' c _ hL rfl
    have hij' := hL.scopes hij
    have test' := Link.Evals.mono hL ht hij
    have runs := hb.mono hij hL
    cases c with
    | false => exact given .normal
    | true =>
      cases body with
      | nil => exact started (.eval hij' test' (.fill (.loopTest hij' test' runs) (hk.mono hL)))
      | cons s ss =>
        obtain ⟨hs, hss⟩ := List.forall_mem_cons.mp runs
        exact started (.exec hij' hs (.fill (.rest hij' hss)
          (.fill (.loopBody hij' test' runs) (hk.mono hL))))
  | loopBody hij ht hb =>
    have again := started (b := .flow) (.eval hij ht (.fill (.loopTest hij ht hb) hk))
    cases hx with
    | normal => exact again
    | broken => exact given .normal
    | continued => exact again
    | returned h => exact given (.returned h)
  | eachOver loc hij hw hb =>
    refine parallel_bind (parallel_items loc hx) fun L' _ _ hL ht => ?_
    exact parallel_nextRound (hL.scopes hij) (hL.assignable hij ▸ hw) (hb.mono hij hL) ht (hk.mono hL)
  | eachBody hij hw ht hb =>
    have again : setup.Parallel (fun L => Reaction.Moved L) L _ _ :=
      parallel_nextRound hij hw hb ht hk
    cases hx with
    | normal => exact again
    | broken => exact given .normal
    | continued => exact again
    | returned h => exact given (.returned h)
  | leave => exact given (.returned hx)
  | assignName loc hij hw ho =>
    exact parallel_assignName loc ho hx hij hw k k'
  | memberBase loc name op hij he =>
    refine parallel_bind (P := fun L => L.objects)
      (parallel_reading loc fun _ _ hs => settable_moved hs hx) fun L₁ a b h₁ hab => ?_
    refine parallel_bind (parallel_oldValue op (parallel_getMember loc name (hx.mono h₁))) ?_
    intro L₂ old old' h₂ ho
    have hL := h₁.trans h₂
    refine started (.eval (hL.scopes hij) (Link.Evals.mono hL he hij) (.fill ?_ (hk.mono hL)))
    exact .assignMember loc name (h₂.objects hab) ho
  | assignMember loc name hb ho =>
    exact parallel_assignMember loc ho hx hb name k k'
  | itemBase loc op hij hi he =>
    exact started (.eval hij hi (.fill (.itemIndex loc op hij hx he) hk))
  | itemIndex loc op hij hb he =>
    refine parallel_bind (parallel_oldValue op (parallel_getIndex loc hb hx)) ?_
    intro L' old old' hL ho
    refine started (.eval (hL.scopes hij) (Link.Evals.mono hL he hij) (.fill ?_ (hk.mono hL)))
    exact .assignItem loc (hb.mono hL) (hx.mono hL) ho
  | assignItem loc hb hi ho =>
    exact parallel_assignItem loc ho hx hb hi k k'
  | left loc op hij he =>
    refine parallel_bind (parallel_isTruthy hx) ?_
    rintro L' c _ hL rfl
    have right := Task.Moved.eval (hL.scopes hij) (Link.Evals.mono hL he hij)
      (.fill (.right loc op (hx.mono hL)) (hk.mono hL))
    have whole := Task.Moved.eval (hL.scopes hij) (Link.Evals.mono hL he hij) (hk.mono hL)
    cases op with
    | and_ =>
      cases c with
      | true => exact started whole
      | false => exact given (hx.mono hL)
    | or_ =>
      cases c with
      | true => exact given (hx.mono hL)
      | false => exact started whole
    | _ => exact started right
  | right loc op hv =>
    exact parallel_bind (parallel_making loc fun _ _ hs => binary_moved hs hv hx op)
      fun _ _ _ _ h => given h
  | operand loc op =>
    exact parallel_bind (P := Value.Moved) (parallel_reading loc fun _ _ hs => unary_moved hs hx op)
      fun _ _ _ _ h => given h
  | indexBase loc hij hi => exact started (.eval hij hi (.fill (.index loc hx) hk))
  | index loc hb => exact parallel_bind (parallel_getIndex loc hb hx) fun _ _ _ _ h => given h
  | sliceBase loc hij he =>
    refine parallel_seq (P := Done) (parallel_reading loc fun _ _ hs => ?_) fun L' hL _ _ => ?_
    · rw [sliceable_moved hs hx]
      exact (concur_eq.mpr rfl).imp fun _ _ _ => trivial
    · exact parallel_nextBound loc (hx.mono hL) (hL.scopes hij) (hk.mono hL) []
        fun e h d hd => (he e h d hd).mono hL hij
  | @sliceBound base base' todo i j loc done hij hb he =>
    have bound : setup.Parallel (σ := σ) (fun L => Reaction.Moved L) L
        (do nextBound loc base i k (some (← reading loc (·.toIndex x)) :: done) todo)
        (do nextBound loc base' j k' (some (← reading loc (·.toIndex y)) :: done) todo) := by
      refine parallel_bind (parallel_toIndex loc hx) ?_
      rintro L' n _ hL rfl
      exact parallel_nextBound loc (hb.mono hL) (hL.scopes hij) (hk.mono hL) (some n :: done)
        fun e h d hd => (he e h d hd).mono hL hij
    cases hx with
    | ref h => exact bound
    | atom a =>
      cases a with
      | none => exact parallel_nextBound loc hb hij hk (none :: done) he
      | bool | int | num | str => exact bound
  | member loc name => exact parallel_bind (parallel_getMember loc name hx) fun _ _ _ _ h => given h
  | @listItem done done' todo i j hij hd he =>
    cases todo with
    | nil =>
      exact parallel_bind (parallel_alloc (.list (List.rel_reverse (.cons hx hd)))) fun _ _ _ _ h =>
        given h
    | cons e todo =>
      obtain ⟨he, hes⟩ := List.forall_mem_cons.mp he
      exact started (.eval hij he (.fill (.listItem hij (.cons hx hd) hes) hk))
  | dictKey loc hij hv hd he =>
    refine parallel_seq (P := Done) (parallel_reading loc fun _ _ hs => ?_) fun L' hL _ _ => ?_
    · rw [requireKey_moved hs hx]
      exact (concur_eq.mpr rfl).imp fun _ _ _ => trivial
    · refine started (.eval (hL.scopes hij) (Link.Evals.mono hL hv hij) (.fill ?_ (hk.mono hL)))
      exact .dictValue (hL.scopes hij) (hx.mono hL) (Value.Moved.mono_dict hL hd)
        fun e h => ⟨(he e h).1.mono hL hij, (he e h).2.mono hL hij⟩
  | @dictValue key key' done done' todo i j hij hkey hd he =>
    have entries := Table.put_paired hd (fun _ _ h => h.beq hkey) hkey hx
    cases todo with
    | nil => exact parallel_bind (parallel_alloc (.dict entries)) fun _ _ _ _ h => given h
    | cons e todo =>
      obtain ⟨he, hes⟩ := List.forall_mem_cons.mp he
      exact started (.eval hij he.1 (.fill (.dictKey e.1.location hij he.2 entries hes) hk))
  | comprehendOver loc hc =>
    refine parallel_bind (parallel_items loc hx) fun L' _ _ hL ht => ?_
    exact parallel_nextItem (hc.mono hL) ht .nil (hk.mono hL)
  | comprehendTest hc hij he ht hd =>
    refine parallel_bind (parallel_isTruthy hx) ?_
    rintro L' c _ hL rfl
    have todos := Value.Moved.mono_list hL ht
    have dones := Value.Moved.mono_list hL hd
    cases c with
    | true =>
      cases hc with
      | mk hs hel hcond =>
        refine started (.eval (hL.scopes hij) (Link.Evals.mono hL he hij) (.fill ?_ (hk.mono hL)))
        exact .comprehendItem (Comprehension.Moved.mono hL (.mk hs hel hcond)) todos dones
    | false => exact parallel_nextItem (hc.mono hL) todos dones (hk.mono hL)
  | comprehendItem hc ht hd => exact parallel_nextItem hc ht (.cons hx hd) hk
  | body name loc => exact parallel_report hh _ _ (parallel_leaveFunction hx)
  | lambdaBody loc =>
    refine parallel_seq parallel_exit fun L₁ h₁ _ _ => ?_
    exact parallel_seq (parallel_emit hh _ _) fun _ h₂ _ _ => given (hx.mono (h₁.trans h₂))
  | construct h => exact given h
  | forwarded name loc =>
    simp only [react]
    split
    · next hb =>
      obtain ⟨f, -, hf⟩ := builtin?_eq_some hs hb
      cases hf
    · exact given hx

end Act

end LoopScript
