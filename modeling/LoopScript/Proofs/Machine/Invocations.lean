import LoopScript.Proofs.Machine.Steps

/-!
Calls and returns on a machine without extensions, and with them every step.
-/

namespace LoopScript

variable {σ : Type} {setup : Setup σ}

/-- Without extensions the functions of the language are all there is. -/
theorem builtin?_eq_some (hs : setup.services = .empty) {name : String} {b : Builtin σ}
    (h : setup.builtin? name = some b) : ∃ f : CoreFunction, name = f.name ∧ b = f.builtin := by
  rw [Setup.builtin?, hs] at h
  have core : coreBuiltins.get? name = some b := by
    rcases Option.or_eq_some_iff.mp h with h | ⟨-, h⟩
    · exact h
    · cases h
  obtain ⟨f, -, hf⟩ := List.mem_map.mp (Table.mem_of_get? core)
  cases hf
  exact ⟨f, rfl, rfl⟩

def Reply.Fits (N : Prop) : Reply σ → Prop
  | .value v => v.Native N
  | .wait _ => True
  | .fault _ => False

namespace Act

variable {N L : Prop} {B : Stmt → LogEntry → Prop} {keep : Bool} {F : Begun} {m : Machine σ}

theorem leads_bind {α β : Type} {P : α → Prop} {Q : Begun → β → Prop} {x : Act σ α}
    {f : α → Act σ β} (hx : Stays N L B keep F x m P)
    (hf : ∀ a n, n.Accords N B keep F → P a → Leads N L B keep (f a) n Q) :
    Leads N L B keep (x >>= f) m Q := by
  apply ensures_bind
  refine Ensures.mono hx ?_ fun _ _ h => ⟨F, h⟩
  rintro a n ⟨hn, ha⟩
  exact hf a n hn ha

theorem ensures_store {α : Type} {f : Store → Act σ α} {P : α → Machine σ → Prop}
    {E : Fault → Machine σ → Prop} (h : Ensures (f m.world.store) m P E) :
    Ensures (store >>= f) m P E := h

theorem stays_emit (hooks : setup.services.hooks = []) (hm : m.Accords N B keep F) (e : Event σ) :
    Stays N L B keep F (emit setup e) m fun _ => True := by
  rw [emit_silent hooks]
  exact ⟨hm, trivial⟩

theorem stays_enter (hm : m.Accords N B keep F) (name : String) (scope : ScopeId) {loc : Location}
    (hl : F.Blames loc) :
    Ensures (enter name scope loc) m (fun _ n => n.Accords N B keep ([] :: F))
      fun f n => n.Accords N B keep F ∧ f.Fits L F n := by
  apply ensures_get
  split
  · exact ⟨hm, .error rfl hl⟩
  · exact hm.enter rfl

theorem stays_exit (hm : m.Accords N B keep F) (hF : F ≠ []) :
    Ensures (exit (σ := σ)) m (fun _ n => n.Accords N B keep F.tail) fun _ _ => False := by
  obtain ⟨a, calls, hc⟩ := hm.exists_calls hF
  apply ensures_get
  rw [hc]
  exact hm.exit hc

section Builtins

variable (hm : m.Accords N B keep F)

include hm

theorem stays_reply (f : CoreFunction) {c : Call} (hc : c.Fits N F) (hL : ¬N → L)
    (hlen : f = .len → m.world.store.Exceeds (c.args.headD .none) → L) :
    Stays N L B keep F (f.reply setup c) m (·.Fits N) := by
  have first : (c.args.headD .none).Native N := by
    cases h : c.args with
    | nil => exact native_none
    | cons v vs => exact hc.args v (h ▸ List.mem_cons_self)
  have read {α : Type} {P : α → Prop} {g : Store → Except Fault α}
      (h : Ends P (Fault.Plain ¬N) (g m.world.store)) :
      Stays N L B keep F (reading c.location g) m P := stays_reading hm hc.loc (h.plain hL)
  cases f with
  | print =>
    refine stays_bind (read (raises_mapM _ fun v _ => m.world.store.raises_text v)) ?_
    intro texts n hn _
    have said (w : World σ) (hw : w.store = n.world.store) :
        Machine.Accords N B keep F { n with world := w } := hn.world (hw ▸ hn.native)
    exact ⟨said _ rfl, native_none⟩
  | sleep =>
    exact stays_bind (read (m.world.store.raises_duration first)) fun x n hn _ => ⟨hn, trivial⟩
  | range =>
    refine stays_bind (read (m.world.store.ends_rangeItems hc.args)) fun items n hn hi => ?_
    exact stays_bind (stays_alloc hn (o := .list items) hi) fun v n hn hv => ⟨hn, hv⟩
  | len =>
    have length := (m.world.store.raises_lengthOf (c.args.headD .none)).plain (hlen rfl)
    exact stays_bind (stays_reading hm hc.loc length) fun x n hn _ => ⟨hn, native_num x⟩
  | str =>
    exact stays_bind (read (m.world.store.raises_text _)) fun t n hn _ => ⟨hn, native_str t⟩
  | int =>
    have whole : Raises (Fault.Plain ¬N) (do
        floatOfInt (← m.world.store.toInt (c.args.headD .none) "int")) := by
      refine ends_bind (m.world.store.ends_toInt first "int") fun i hi => ?_
      exact raises_floatOfInt_of_le (hi.trans (Nat.le_add_right _ 1))
    exact stays_bind (read whole) fun x n hn _ => ⟨hn, native_num x⟩
  | float =>
    refine stays_bind (read (m.world.store.raises_toNumber first "float")) ?_
    exact fun x n hn _ => ⟨hn, native_num x⟩
  | abs =>
    refine stays_bind (read (m.world.store.raises_expectNumber first "abs")) ?_
    exact fun x n hn _ => ⟨hn, native_num _⟩
  | min =>
    refine stays_bind (read (m.world.store.ends_extreme hm.native "min" .lt hc.args)) ?_
    exact fun v n hn hv => ⟨hn, hv⟩
  | max =>
    refine stays_bind (read (m.world.store.ends_extreme hm.native "max" .gt hc.args)) ?_
    exact fun v n hn hv => ⟨hn, hv⟩
  | sum =>
    refine stays_bind (read (m.world.store.raises_sumOf hm.native _)) ?_
    exact fun x n hn _ => ⟨hn, native_num x⟩
  | sorted => exact ⟨hm, native_none⟩

theorem stays_settle (hooks : setup.services.hooks = []) (name : String) {loc : Location}
    (hl : F.Blames loc) {k : Context .value} (hk : k.Fits N F) {r : Reply σ} (hr : r.Fits N)
    (hL : ¬N → L) : Stays N L B keep F (settle setup name loc k r) m (·.Fits N F k) := by
  cases r with
  | fault f => exact hr.elim
  | wait w => exact stays_bind (stays_emit hooks hm _) fun _ n hn _ => ⟨hn, hk⟩
  | value v =>
    have answer {v : Value} {n : Machine σ} (hn : n.Accords N B keep F) (hv : v.Native N) :
        Stays N L B keep F (do
          emit setup (.afterCall name v loc)
          return Reaction.give (σ := σ) (b := .value) v) n (·.Fits N F k) :=
      stays_bind (stays_emit hooks hn _) fun _ n hn _ => ⟨hn, hv, hk⟩
    simp only [settle]
    split
    · next i =>
      -- The host's own whole numbers become floats on their way back to the program.
      have small : Raises (Fault.Plain L) (floatOfInt i) :=
        raises_floatOfInt fun _ => hL fun n => Bool.noConfusion (hr n)
      have made : Stays N L B keep F (Value.num <$> placed loc (floatOfInt i)) m (·.Native N) := by
        rw [← bind_pure_comp]
        exact stays_bind (stays_placed hm hl small) fun x n hn _ => ⟨hn, native_num x⟩
      exact stays_bind made fun v n hn hv => answer hn hv
    · exact answer hm hr

theorem stays_endSort (hooks : setup.services.hooks = []) {loc : Location} (hl : F.Blames loc)
    (reversed : Bool) (keys : List Value) {items : List Value} (hi : ∀ v ∈ items, v.Native N) :
    Stays N L B keep F (endSort setup loc reversed keys items) m (·.Native N) := by
  refine stays_bind (stays_reading hm hl (m.world.store.ends_sortBy reversed keys hi)) ?_
  intro items n hn hi
  refine stays_bind (stays_alloc hn (o := .list items) hi) fun v n hn hv => ?_
  exact stays_bind (stays_emit hooks hn _) fun _ n hn _ => ⟨hn, hv⟩

theorem stays_onlyOnce {c : Call} (hc : c.Fits N F) (key : String) (place : Nat)
    (more : List Value) : Stays N L B keep F (onlyOnce c key place more) m fun _ => True := by
  unfold onlyOnce
  split
  · exact stays_fail hm hc.loc rfl
  · exact ⟨hm, trivial⟩

theorem stays_startSort (hooks : setup.services.hooks = []) {c : Call} (hc : c.Fits N F)
    (ha : 1 ≤ c.args.length) {k : Context .value} (hk : k.Fits N F) :
    Stays N L B keep F (startSort setup c k) m (·.Fits N F k) := by
  unfold startSort
  split
  · next h =>
    rw [h] at ha
    cases ha
  · next x more _ =>
    refine stays_bind (stays_onlyOnce hm hc _ _ _) fun _ n hn _ => ?_
    refine stays_bind (stays_onlyOnce hn hc _ _ _) fun _ n hn _ => ?_
    refine stays_bind (stays_reading hn hc.loc (n.world.store.ends_items hn.native x)) ?_
    intro items n hn hi
    refine stays_bind (stays_isTruthy hn _) fun reversed n hn _ => ?_
    split
    · next i todo _ =>
      obtain ⟨hv, ht⟩ := List.forall_mem_cons.mp hi
      have call : Call.Fits N F ⟨[i], [], c.location⟩ :=
        ⟨hc.loc, List.forall_mem_singleton.mpr hv, List.forall_mem_nil _⟩
      exact ⟨hn, call, ⟨hc.loc, hi, ht⟩, hk⟩
    · refine stays_bind (stays_endSort hn hooks hc.loc reversed _ hi) ?_
      exact fun v n hn hv => ⟨hn, hv, hk⟩

theorem stays_callBuiltin (hooks : setup.services.hooks = []) (f : CoreFunction) {c : Call}
    (hc : c.Fits N F) {k : Context .value} (hk : k.Fits N F) (hL : ¬N → L)
    (hlen : f = .len → m.world.store.Exceeds (c.args.headD .none) → L) :
    Stays N L B keep F (callBuiltin setup f.builtin c k) m (·.Fits N F k) := by
  have accepted := (f.builtin (σ := σ)).ends_accepts (L := L) c
  apply ensures_bind
  cases h : (f.builtin (σ := σ)).accepts c with
  | error e => exact ⟨hm, (accepted.error h).fits hc.loc m⟩
  | ok u =>
    have enough : (f.builtin (σ := σ)).least ≤ c.args.length := accepted.ok h
    apply ensures_bind
    rw [emit_silent hooks]
    have replied : Stays N L B keep F (do
        return Invocation.react (← settle setup f.name c.location k (← f.reply setup c))) m
        (·.Fits N F k) := by
      refine stays_bind (stays_reply hm f hc hL hlen) fun r n hn hr => ?_
      refine stays_bind (stays_settle hn hooks _ hc.loc hk hr hL) fun r n hn hr => ?_
      exact ⟨hn, hr⟩
    cases f with
    | sorted => exact stays_startSort hm hooks hc enough hk
    | _ => exact replied

theorem stays_notCallable {α : Type} {P : α → Prop} (callee : Value) {c : Call} (hc : c.Fits N F) :
    Stays N L B keep F (notCallable callee c) m P :=
  ensures_store ⟨hm, .error rfl hc.loc⟩

end Builtins

section Functions

variable (hooks : setup.services.hooks = []) (hm : m.Accords N B keep F) {c : Call}
  (hc : c.Fits N F) {k : Context .value} (hk : k.Fits N F)

include hooks hm hc hk

theorem leads_callFunction {f : Closure} (hf : Block.Fits N f.body) (label : String)
    (implicit : Nat) :
    Leads N L B keep (callFunction setup f label implicit c k) m
      fun F t => (bodyOf (σ := σ) t).Fits N F k := by
  have bound := ends_bindArguments (L := L) label f.params implicit hc.args hc.named
  refine leads_bind (stays_placed hm hc.loc bound) fun bindings n hn hb => ?_
  refine leads_bind (stays_openScope hn f.scope hb) fun scope n hn _ => ?_
  refine leads_bind (stays_emit hooks hn _) fun _ n hn _ => ?_
  refine ensures_bind ((stays_enter hn f.name scope hc.loc).mono ?_ fun _ _ h => ⟨F, h⟩)
  intro _ n hn
  split
  · refine ensures_bind ((stays_exit hn (List.cons_ne_nil _ _)).mono ?_ fun _ _ h => h.elim)
    intro _ n hn
    exact leads_bind (stays_emit hooks hn _) fun _ n hn _ => ⟨F, hn, native_none, hk⟩
  · next s ss h =>
    have body : Block.Fits N (s :: ss) := h ▸ hf
    exact ⟨[] :: F, hn, exec_fits body scope ⟨trivial, hk⟩⟩

theorem leads_callLambda (params : List String) {body : Expr} (hb : N → body.Clean)
    (scope : ScopeId) :
    Leads N L B keep (callLambda setup params body scope c k) m fun F t => t.Fits N F := by
  have bound := ends_bindArguments (L := L) "<lambda>" params 0 hc.args hc.named
  refine leads_bind (stays_placed hm hc.loc bound) fun bindings n hn hbind => ?_
  refine leads_bind (stays_openScope hn scope hbind) fun scope n hn _ => ?_
  refine leads_bind (stays_emit hooks hn _) fun _ n hn _ => ?_
  refine ensures_bind ((stays_enter hn "<lambda>" scope hc.loc).mono ?_ fun _ _ h => ⟨F, h⟩)
  exact fun _ n hn => ⟨[] :: F, hn, Expr.fits_opened hb, trivial, hk⟩

theorem leads_construct (cls : Addr) (name : String) (methods : Table String Addr) :
    Leads N L B keep (construct setup cls name methods c k) m fun F r => r.Fits N F k := by
  refine leads_bind (stays_alloc hm (o := .instance_ cls []) (List.forall_mem_nil _)) fun object n hn ho => ?_
  apply ensures_store
  split
  · next f h =>
    obtain ⟨a, -, ha⟩ := Option.map_eq_some_iff.mp h
    have body : (Obj.function f).Native N := ha ▸ Store.native_read hn.native a
    split
    · exact ⟨F, hn, .error rfl hc.loc⟩
    · have inner : Call.Fits N F { c with args := object :: c.args } :=
        ⟨hc.loc, List.forall_mem_cons.mpr ⟨ho, hc.args⟩, hc.named⟩
      have outer : Context.Fits N F (.fill (.construct object) k) := ⟨ho, hk⟩
      refine ensures_bind ((leads_callFunction hooks hn inner outer body name 1).mono ?_ fun _ _ h => h)
      rintro t n ⟨G, hn, ht⟩
      cases t with
      | none => exact ⟨G, hn, ht.2.1, ht.2.2⟩
      | some t => exact ⟨G, hn, ht⟩
  · split
    · exact ⟨F, hn, ho, hk⟩
    · exact ⟨F, hn, .error rfl hc.loc⟩

end Functions

theorem leads_invoke (hs : setup.services = .empty) (hm : m.Accords N B keep F) (callee : Value)
    {c : Call} (hc : c.Fits N F) {k : Context .value} (hk : k.Fits N F) (hL : ¬N → L)
    (hlen : (Control.move (.call callee c k)).Strains m → L) :
    Leads N L B keep (invoke setup callee c k) m fun F v => v.Fits N F k := by
  have hooks := Setup.hooks_of_empty hs
  apply ensures_store
  split
  · next name h =>
    split
    · next b hb =>
      obtain ⟨f, rfl, rfl⟩ := builtin?_eq_some hs hb
      refine Stays.leads (stays_callBuiltin hm hooks f hc hk hL ?_)
      rintro rfl long
      exact hlen (.length h long)
    · exact Stays.leads (stays_notCallable hm _ hc)
  · next f h =>
    have body : (Obj.function f).Native N := Store.native_object hm.native h
    exact ensures_bind (leads_callFunction hooks hm hc hk body f.name 0)
  · next r f h =>
    have old := Store.native_read hm.native f
    split
    · next f h =>
      rw [h] at old
      split
      · exact ⟨F, hm, .error rfl hc.loc⟩
      · have inner : Call.Fits N F { c with args := .ref r :: c.args } :=
          ⟨hc.loc, List.forall_mem_cons.mpr ⟨native_ref r, hc.args⟩, hc.named⟩
        exact ensures_bind (leads_callFunction hooks hm inner hk old f.name 1)
    · exact Stays.leads (stays_notCallable hm _ hc)
  · next params body scope h =>
    have clean : (Obj.lambda params body scope).Native N := Store.native_object hm.native h
    exact ensures_bind (leads_callLambda hooks hm hc hk params clean scope)
  · next name methods a h => exact ensures_bind (leads_construct hooks hm hc hk a name methods)
  · exact Stays.leads (stays_notCallable hm _ hc)

section Returns

theorem leads_leaveFunction (hm : m.Accords N B keep F) (hF : F ≠ []) {f : Flow}
    (hf : Awaits.Fits N .flow f) :
    Ensures (leaveFunction f) m (fun v n => n.Accords N B keep F.tail ∧ v.Native N)
      fun e n => n.Accords N B keep F ∧ e.Fits L F n := by
  have left {v : Value} (hv : v.Native N) :
      Ensures (do exit; return v) m (fun v n => n.Accords N B keep F.tail ∧ v.Native N)
        fun e n => n.Accords N B keep F ∧ e.Fits L F n :=
    ensures_bind ((stays_exit hm hF).mono (fun _ _ hn => ⟨hn, hv⟩) fun _ _ h => h.elim)
  cases f with
  | broken | continued => exact ⟨hm, .stray _⟩
  | normal => exact left native_none
  | returned v => exact left hf

/-- What fills the body of a call closes the call. -/
theorem leads_body (hooks : setup.services.hooks = []) (hm : m.Accords N B keep F)
    {a b : Awaits} {h : Hole a b} {x : a.Input} {k : Context b} (hb : h.isBody = true)
    (hk : Context.Fits N F (.fill h k)) (hx : a.Fits N x) :
    Leads N L B keep (react setup h x k) m fun F r => r.Fits N F k := by
  have ne : F ≠ [] := hk.ne_nil
  have answer {name : String} {loc : Location} {v : Value} {k : Context .value} {n : Machine σ}
      (hn : n.Accords N B keep F.tail) (hv : v.Native N) (hk : k.Fits N F.tail) :
      Leads N L B keep (do
        emit setup (.afterCall name v loc)
        return Reaction.give (σ := σ) (b := .value) v) n fun F r => r.Fits N F k :=
    leads_bind (stays_emit hooks hn _) fun _ n hn _ => ⟨F.tail, hn, hv, hk⟩
  cases h with
  | body name loc =>
    refine ensures_bind ((leads_leaveFunction hm ne hx).mono ?_ fun _ _ h => ⟨F, h⟩)
    exact fun v n hn => answer hn.1 hn.2 hk.2
  | lambdaBody loc =>
    refine ensures_bind ((stays_exit hm ne).mono ?_ fun _ _ h => h.elim)
    exact fun _ n hn => answer hn hx hk.2
  | _ => cases hb

end Returns

theorem continueWith_fits {b : Awaits} {k : Context b} {r : Reaction σ b} (h : r.Fits N F k) :
    (continueWith k r).Fits N F := by
  cases r <;> exact h

theorem around_of_not_isBody {a b : Awaits} {h : Hole a b} (hb : h.isBody = false) :
    h.around F = F := by
  cases h with
  | body | lambdaBody => cases hb
  | _ => rfl

theorem leads_giveTo (hs : setup.services = .empty) (hm : m.Accords N B keep F) {a : Awaits}
    {x : a.Input} {k : Context a} (hx : a.Fits N x) (hk : k.Fits N F) (hL : ¬N → L)
    (hstrain : (Control.move (.give x k)).Strains m → L) :
    Leads N L B keep (giveTo setup x k) m fun F v => v.Fits N F := by
  have hooks := Setup.hooks_of_empty hs
  cases k with
  | program => exact ⟨F, hm, hk⟩
  | fill h k =>
    have reacted : Leads N L B keep (react setup h x k) m fun F r => r.Fits N F k := by
      -- The hole of a body alone closes a call; at any other hole the open calls stay as they are.
      by_cases hb : h.isBody = true
      · exact leads_body hooks hm hb hk hx
      · rw [Bool.not_eq_true] at hb
        have around := around_of_not_isBody (F := F) hb ▸ hk.2
        exact Stays.leads (stays_react hm hb hk.1 around hx hL hstrain)
    refine ensures_bind (reacted.mono ?_ fun _ _ h => h)
    rintro r n ⟨G, hn, hr⟩
    exact ⟨G, hn, continueWith_fits hr⟩
  | argument p k =>
    have received := hk.1.receive hx
    simp only [giveTo]
    split
    · exact ⟨F, hm, ⟨received.loc, received.args, received.named⟩, hk.2⟩
    · next key e todo h =>
      have later := received.todo
      rw [h] at later
      obtain ⟨he, ht⟩ := List.forall_mem_cons.mp later
      exact ⟨F, hm, he, ⟨received.loc, received.args, received.named, ht⟩, hk.2⟩
  | sortKey s k =>
    obtain ⟨hsort, hk⟩ := hk
    simp only [giveTo]
    split
    · refine leads_bind (stays_endSort hm hooks hsort.loc s.reversed _ hsort.items) ?_
      exact fun v n hn hv => ⟨F, hn, hv, hk⟩
    · next i todo h =>
      have later := hsort.todo
      rw [h] at later
      obtain ⟨hi, ht⟩ := List.forall_mem_cons.mp later
      refine ⟨F, hm, ⟨hsort.loc, List.forall_mem_singleton.mpr hi, List.forall_mem_nil _⟩, ?_, hk⟩
      exact ⟨hsort.loc, hsort.items, ht⟩
  | mapItem s k => exact hk.elim

theorem leads_advance (hs : setup.services = .empty) (hm : m.Accords N B keep F) {v : Move}
    (hv : v.Fits N F) (hL : ¬N → L) (hstrain : (Control.move v).Strains m → L) :
    Leads N L B keep (advance setup v) m fun F v => v.Fits N F := by
  cases v with
  | give x k => exact leads_giveTo hs hm hv.1 hv.2 hL hstrain
  | call callee c k =>
    refine ensures_bind ((leads_invoke hs hm callee hv.1 hv.2 hL hstrain).mono ?_ fun _ _ h => h)
    rintro v n ⟨G, hn, hv⟩
    cases v with
    | react r => exact ⟨G, hn, continueWith_fits hv⟩
    | again callee c k => exact ⟨G, hn, hv⟩

/-- A step from a control that fits leads to what fits, or it fails: with an error of the language at
a place that the innermost call may blame, or on a whole number that has no float. -/
theorem leads_step (hs : setup.services = .empty) {c : Control}
    (hm : m.Accords N B setup.verbose F) (hc : c.Fits N F)
    (hB : ∀ s scope k b, c = .task (.exec s scope k) → B s (m.entry s.rule s.location b)) :
    Leads N (¬N ∨ c.Strains m) B setup.verbose (c.step setup) m fun F v => v.Fits N F := by
  cases c with
  | task t =>
    rw [Control.step, ← bind_pure_comp]
    have begun := leads_begin (L := ¬N ∨ (Control.task t).Strains m) hs hm hc
      fun s scope k b h => hB s scope k b (congrArg _ h)
    refine ensures_bind (begun.mono ?_ fun _ _ h => h)
    exact fun c n h => h
  | move v => exact leads_advance hs hm hc .inl .inr

end Act

end LoopScript
