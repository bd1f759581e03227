import LoopScript.Proofs.Machine.Begun
import LoopScript.Proofs.Machine.CallStack
import LoopScript.Proofs.Machine.Functions

/-!
What a step of a machine without extensions fails with: an error of the language at a place that the
call may blame, a nesting without end, or a whole number that has no float.
-/

namespace LoopScript

variable {σ : Type}

/-- The controls that come to a whole number without a float: operators that join two numbers bit by
bit, and the length of a value with more items than floats can count. -/
inductive Control.Strains (m : Machine σ) : Control → Prop where
  | operator {loc : Location} {op : BinaryOp} {v w : Value} {k : Context .value}
      (h : m.world.store.Overflows op v w) :
      Strains m (.move (.give (a := .value) w (.fill (.right loc op v) k)))
  | name {loc : Location} {id : String} {op : BinaryOp} {v w : Value} {scope : ScopeId}
      {k : Context .flow} (h : m.world.store.Overflows op v w) :
      Strains m (.move (.give (a := .value) w (.fill (.assignName loc id (some (op, v)) scope) k)))
  | member {loc : Location} {a : Addr} {name : String} {op : BinaryOp} {v w : Value}
      {k : Context .flow} (h : m.world.store.Overflows op v w) :
      Strains m (.move (.give (a := .value) w (.fill (.assignMember loc a name (some (op, v))) k)))
  | item {loc : Location} {base index : Value} {op : BinaryOp} {v w : Value} {k : Context .flow}
      (h : m.world.store.Overflows op v w) :
      Strains m (.move (.give (a := .value) w (.fill (.assignItem loc base index (some (op, v))) k)))
  | length {callee : Value} {c : Call} {k : Context .value}
      (hc : m.world.store.object? callee = some (.builtin CoreFunction.len.name))
      (h : m.world.store.Exceeds (c.args.headD .none)) : Strains m (.move (.call callee c k))

/-- The faults of a step: an error blames a place that the innermost call may blame, or the current
one, and a whole number is too large only if `L`. -/
inductive Fault.Fits (L : Prop) (F : Begun) (m : Machine σ) : Fault → Prop where
  | error {c : Cause} {loc : Location} (h : c.isOwn = true) (hl : F.Blames loc) :
      Fits L F m (.error ⟨c, some loc, none⟩)
  | stray (f : Flow) : Fits L F m (Act.stray f m.current)
  | endless : Fits L F m .endless
  | large (h : L) : Fits L F m tooLarge

theorem Fault.Plain.fits {L : Prop} {F : Begun} {loc : Location} {f : Fault} (h : f.Plain L)
    (hl : F.Blames loc) (m : Machine σ) : (f.attach (some loc)).Fits L F m := by
  cases h with
  | error h => exact .error h hl
  | endless => exact .endless
  | large h => exact .large h

theorem Fault.Fits.mono {L M : Prop} {F : Begun} {m : Machine σ} {f : Fault} (h : f.Fits L F m)
    (hm : L → M) : f.Fits M F m := by
  cases h with
  | error h hl => exact .error h hl
  | stray f => exact .stray f
  | endless => exact .endless
  | large h => exact .large (hm h)

namespace Act

section Stays

variable {α β : Type} {N L : Prop} {B : Stmt → LogEntry → Prop} {keep : Bool} {F : Begun}

/-- How an action ends that neither begins a statement nor opens or closes a call. -/
abbrev Stays (N L : Prop) (B : Stmt → LogEntry → Prop) (keep : Bool) (F : Begun) (x : Act σ α)
    (m : Machine σ) (P : α → Prop) : Prop :=
  Ensures x m (fun a n => n.Accords N B keep F ∧ P a) fun f n => n.Accords N B keep F ∧ f.Fits L F n

variable {P : α → Prop} {m : Machine σ}

theorem stays_bind {Q : β → Prop} {x : Act σ α} {f : α → Act σ β}
    (hx : Stays N L B keep F x m P)
    (hf : ∀ a n, n.Accords N B keep F → P a → Stays N L B keep F (f a) n Q) :
    Stays N L B keep F (x >>= f) m Q := by
  apply ensures_bind
  refine Ensures.mono hx ?_ fun _ _ h => h
  rintro a n ⟨hn, ha⟩
  exact hf a n hn ha

variable (hm : m.Accords N B keep F)

include hm

theorem stays_onStore {f : Store → α × Store} (hs : (f m.world.store).2.Native N)
    (ha : P (f m.world.store).1) : Stays N L B keep F (onStore f) m P :=
  ⟨hm.world hs, ha⟩

theorem stays_modifyStore {f : Store → Store} (hs : (f m.world.store).Native N) :
    Stays N L B keep F (modifyStore f) m fun _ => True :=
  stays_onStore hm hs trivial

theorem stays_placed {loc : Location} {x : Except Fault α} (hl : F.Blames loc)
    (hx : Ends P (Fault.Plain L) x) : Stays N L B keep F (placed loc x) m P := by
  cases x with
  | ok a => exact ⟨hm, hx⟩
  | error f => exact ⟨hm, hx.fits hl m⟩

theorem stays_reading {loc : Location} {f : Store → Except Fault α} (hl : F.Blames loc)
    (hf : Ends P (Fault.Plain L) (f m.world.store)) : Stays N L B keep F (reading loc f) m P :=
  stays_placed hm hl hf

theorem stays_fail {loc : Location} {c : Cause} (hl : F.Blames loc) (hc : c.isOwn = true) :
    Stays N L B keep F (fail loc c) m P :=
  ⟨hm, .error hc hl⟩

theorem stays_alloc {o : Obj} (ho : o.Native N) :
    Stays N L B keep F (alloc o) m (·.Native N) :=
  stays_onStore hm (Store.native_alloc hm.native ho) (native_ref _)

theorem stays_making {loc : Location} {f : Store → Except Fault Made} (hl : F.Blames loc)
    (hf : Ends (Made.Native N) (Fault.Plain L) (f m.world.store)) :
    Stays N L B keep F (making loc f) m (·.Native N) := by
  refine stays_bind (stays_reading hm hl hf) fun made n hn ho => ?_
  cases made with
  | value v => exact ⟨hn, ho⟩
  | object o => exact stays_alloc hn ho

theorem stays_openScope (parent : ScopeId) {bindings : Table String Value}
    (hb : ∀ e ∈ bindings, e.2.Native N) :
    Stays N L B keep F (openScope parent bindings) m fun _ => True :=
  stays_onStore hm (Store.native_openScope hm.native _ hb) trivial

theorem stays_assign (scope : ScopeId) (name : String) {v : Value} (hv : v.Native N) :
    Stays N L B keep F (assign scope name v) m fun _ => True := by
  apply ensures_get
  split
  · exact stays_modifyStore hm (Store.native_setGlobal hm.native scope name hv)
  · exact stays_modifyStore hm (Store.native_assign hm.native scope name hv)

theorem stays_define (scope : ScopeId) (name : String) {v : Value} (hv : v.Native N) :
    Stays N L B keep F (define scope name v) m fun _ => True :=
  stays_modifyStore hm (Store.native_define hm.native scope name hv)

theorem stays_isTruthy (v : Value) : Stays N L B keep F (isTruthy v) m fun _ => True :=
  ⟨hm, trivial⟩

theorem stays_combine {loc : Location} {old : Old} {v : Value} (hl : F.Blames loc)
    (ho : old.Fits N) (hv : v.Native N)
    (hL : ∀ op w, old = some (op, w) → ¬N ∨ m.world.store.Overflows op w v → L) :
    Stays N L B keep F (combine loc old v) m (·.Native N) := by
  cases old with
  | none => exact ⟨hm, hv⟩
  | some o =>
    obtain ⟨op, w⟩ := o
    have joined := m.world.store.ends_binary hm.native op (ho op w rfl) hv
    exact stays_making hm hl (joined.plain (hL op w rfl))

theorem stays_oldValue (op : AssignOp) {read : Act σ Value}
    (hr : Stays N L B keep F read m (·.Native N)) :
    Stays N L B keep F (oldValue op read) m (·.Fits N) := by
  unfold oldValue
  split
  · exact ⟨hm, fun _ _ h => nomatch h⟩
  · refine stays_bind hr fun v n hn hv => ⟨hn, ?_⟩
    rintro _ _ ⟨⟩
    exact hv

theorem stays_defineMethods (scope : ScopeId) {ds : List FunctionDef}
    (hd : ∀ d ∈ ds, Block.Fits N d.body) :
    Stays N L B keep F (defineMethods scope ds) m fun _ => True := by
  induction ds generalizing m with
  | nil => exact ⟨hm, trivial⟩
  | cons d ds ih =>
    obtain ⟨hd, hs⟩ := List.forall_mem_cons.mp hd
    refine stays_bind (stays_alloc hm (o := .function ⟨d.name, d.params, d.body, scope⟩) hd)
      fun v n hn _ => ?_
    split
    · exact stays_bind (ih hn hs) fun _ n hn _ => ⟨hn, trivial⟩
    · exact ih hn hs

theorem stays_forM {f : α → Act σ PUnit} {as : List α}
    (hf : ∀ a ∈ as, ∀ n : Machine σ, n.Accords N B keep F → Stays N L B keep F (f a) n fun _ => True) :
    Stays N L B keep F (as.forM f) m fun _ => True := by
  induction as generalizing m with
  | nil => exact ⟨hm, trivial⟩
  | cons a as ih =>
    obtain ⟨ha, hs⟩ := List.forall_mem_cons.mp hf
    exact stays_bind (ha m hm) fun _ n hn _ => ih hn hs

end Stays

end Act

end LoopScript
