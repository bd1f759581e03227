import LoopScript.Proofs.Program.Parts
import LoopScript.Scope
import LoopScript.Value.Access

/-!
Native values: no whole numbers of the host. A program makes floats only, so that a store without
whole numbers of the host stays without them. The parameter `N` says whether they are excluded.
-/

namespace LoopScript

section Tables

variable {κ ν : Type} [BEq κ] {P : κ → Prop} {Q : ν → Prop}

theorem Table.forall_put {t : Table κ ν} {key : κ} {value : ν} (h : ∀ e ∈ t, P e.1 ∧ Q e.2)
    (hk : P key) (hv : Q value) : ∀ e ∈ t.put key value, P e.1 ∧ Q e.2 := by
  induction t with
  | nil => exact fun e he => List.mem_singleton.mp he ▸ ⟨hk, hv⟩
  | cons d t ih =>
    obtain ⟨hd, ht⟩ := List.forall_mem_cons.mp h
    simp only [put]
    split
    · exact List.forall_mem_cons.mpr ⟨⟨hd.1, hv⟩, ht⟩
    · exact List.forall_mem_cons.mpr ⟨hd, ih ht⟩

theorem Table.values_put {t : Table κ ν} {key : κ} {value : ν} (h : ∀ e ∈ t, Q e.2)
    (hv : Q value) : ∀ e ∈ t.put key value, Q e.2 :=
  fun e he => (forall_put (P := fun _ => True) (fun e he => ⟨trivial, h e he⟩) trivial hv e he).2

theorem Table.values_foldl_put (entries : List (κ × ν)) (h : ∀ e ∈ entries, Q e.2) {t : Table κ ν}
    (ht : ∀ e ∈ t, Q e.2) : ∀ e ∈ entries.foldl (fun t (k, v) => t.put k v) t, Q e.2 := by
  induction entries generalizing t with
  | nil => exact ht
  | cons d entries ih =>
    obtain ⟨hd, hs⟩ := List.forall_mem_cons.mp h
    exact ih hs (values_put ht hd)

theorem Table.values_ofList {entries : List (κ × ν)} (h : ∀ e ∈ entries, Q e.2) :
    ∀ e ∈ Table.ofList entries, Q e.2 :=
  values_foldl_put entries h (List.forall_mem_nil _)

theorem Table.value_of_get? {t : Table κ ν} {key : κ} {value : ν} (h : ∀ e ∈ t, Q e.2)
    (hv : t.get? key = some value) : Q value := by
  obtain ⟨k, hk⟩ := exists_mem_of_get? hv
  exact h _ hk

end Tables

variable {N : Prop}

def Value.isInt : Value → Bool
  | .atom a => a.isInt
  | .ref _ => false

def Value.Native (N : Prop) (v : Value) : Prop := N → v.isInt = false

theorem native_none : Value.none.Native N := fun _ => rfl

theorem native_bool (b : Bool) : (Value.bool b).Native N := fun _ => rfl

theorem native_num (x : Float) : (Value.num x).Native N := fun _ => rfl

theorem native_str (s : String) : (Value.str s).Native N := fun _ => rfl

theorem native_ref (a : Addr) : (Value.ref a).Native N := fun _ => rfl

def Obj.Native (N : Prop) : Obj → Prop
  | .list items => ∀ v ∈ items, v.Native N
  | .dict entries => ∀ e ∈ entries, e.1.Native N ∧ e.2.Native N
  | .function f => N → ∀ s ∈ f.body, s.Clean
  | .lambda _ body _ => N → body.Clean
  | .instance_ _ fields => ∀ e ∈ fields, e.2.Native N
  | .builtin _ | .cls .. | .method .. => True

def Made.Native (N : Prop) : Made → Prop
  | .value v => v.Native N
  | .object o => o.Native N

namespace Store

structure Native (N : Prop) (s : Store) : Prop where
  objects : ∀ o ∈ s.objects, o.Native N
  scopes : ∀ sc ∈ s.scopes, ∀ e ∈ sc.bindings, e.2.Native N

theorem native_empty : Store.empty.Native N :=
  ⟨fun _ h => absurd h (Array.not_mem_empty _), fun _ h => absurd h (Array.not_mem_empty _)⟩

/-- Where whole numbers of the host are not excluded there is nothing to show. -/
theorem native_of_not (h : ¬N) {s : Store} : s.Native N := by
  have value (v : Value) : v.Native N := fun n => (h n).elim
  constructor
  case scopes => exact fun _ _ _ _ => value _
  case objects =>
    intro o _
    cases o with
    | list items => exact fun v _ => value v
    | dict entries => exact fun e _ => ⟨value e.1, value e.2⟩
    | instance_ cls fields => exact fun e _ => value e.2
    | function | lambda => exact fun n => (h n).elim
    | builtin | cls | method => trivial

variable {s : Store} (hs : s.Native N)

include hs

theorem native_read (a : Addr) : (s.read a).Native N := by
  simp only [read, Array.getD]
  split
  · exact hs.objects _ (Array.getElem_mem _)
  · exact fun v hv => absurd hv List.not_mem_nil

theorem native_bindings (i : ScopeId) : ∀ e ∈ (s.scope i).bindings, e.2.Native N := by
  simp only [scope, Array.getD]
  split
  · exact hs.scopes _ (Array.getElem_mem _)
  · exact fun e he => absurd he List.not_mem_nil

theorem native_object {v : Value} {o : Obj} (h : s.object? v = some o) : o.Native N := by
  cases v with
  | atom a => cases h
  | ref a => exact Option.some.inj h ▸ native_read hs a

theorem native_alloc {o : Obj} (ho : o.Native N) : (s.alloc o).2.Native N where
  objects p hp := by
    rcases Array.mem_push.mp hp with hp | rfl
    · exact hs.objects p hp
    · exact ho
  scopes := hs.scopes

theorem native_write (a : Addr) {o : Obj} (ho : o.Native N) : (s.write a o).Native N where
  objects p hp := by
    rcases Array.mem_or_eq_of_mem_setIfInBounds hp with hp | rfl
    · exact hs.objects p hp
    · exact ho
  scopes := hs.scopes

theorem native_openScope (parent : Option ScopeId) {bindings : Table String Value}
    (hb : ∀ e ∈ bindings, e.2.Native N) : (s.openScope parent bindings).2.Native N where
  objects := hs.objects
  scopes sc hsc := by
    rcases Array.mem_push.mp hsc with hsc | rfl
    · exact hs.scopes sc hsc
    · exact hb

theorem native_define (i : ScopeId) (name : String) {v : Value} (hv : v.Native N) :
    (s.define i name v).Native N where
  objects := hs.objects
  scopes sc hsc := by
    obtain ⟨j, hj, rfl⟩ := Array.mem_iff_getElem.mp hsc
    have bound : j < s.scopes.size := by simpa [define] using hj
    have old : ∀ e ∈ s.scopes[j].bindings, e.2.Native N :=
      hs.scopes _ (Array.getElem_mem _)
    simp only [define, Array.getElem_modify]
    split
    · exact Table.values_put old hv
    · exact old

theorem native_assign (i : ScopeId) (name : String) {v : Value} (hv : v.Native N) :
    (s.assign i name v).Native N :=
  native_define hs _ name hv

theorem native_setGlobal (i : ScopeId) (name : String) {v : Value} (hv : v.Native N) :
    (s.setGlobal i name v).Native N :=
  native_define hs _ name hv

theorem native_setField (a : Addr) (name : String) {v : Value} (hv : v.Native N) :
    (s.setField a name v).Native N := by
  have old := native_read hs a
  simp only [setField]
  split
  · next h =>
    rw [h] at old
    exact native_write hs a (Table.values_put old hv)
  · exact hs

end Store

end LoopScript
