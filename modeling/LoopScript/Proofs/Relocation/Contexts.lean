import LoopScript.Proofs.Relocation.Actions

/-!
Controls of two machines in parallel: the same code in corresponding scopes, with moved values.
-/

namespace LoopScript

abbrev Link.Evals (L : Link) (i : ScopeId) (e : Expr) : Prop := e.Within (L.usable i)

inductive Flow.Moved (L : Link) : Flow → Flow → Prop where
  | normal : Moved L .normal .normal
  | broken : Moved L .broken .broken
  | continued : Moved L .continued .continued
  | returned {v w : Value} (h : v.Moved L w) : Moved L (.returned v) (.returned w)

def Awaits.Moved (L : Link) : (a : Awaits) → a.Input → a.Input → Prop
  | .value => Value.Moved L
  | .flow => Flow.Moved L

abbrev Old.Moved (L : Link) : Old → Old → Prop :=
  Option.Rel fun p q => p.1 = q.1 ∧ p.2.Moved L q.2

inductive Comprehension.Moved (L : Link) : Comprehension → Comprehension → Prop where
  | mk {element : Expr} {item : String} {condition : Option Expr} {i j : ScopeId}
      (hs : L.scopes i j) (he : element.Within (L.usable i ∪ {item}))
      (hc : ∀ e ∈ condition, e.Within (L.usable i ∪ {item})) :
      Moved L ⟨element, item, condition, i⟩ ⟨element, item, condition, j⟩

inductive Hole.Moved (L : Link) : {a b : Awaits} → Hole a b → Hole a b → Prop where
  | rest {ss : List Stmt} {i j : ScopeId} (hs : L.scopes i j) (h : L.Runs i ss) :
      Moved L (.rest ss i) (.rest ss j)
  | discard : Moved L .discard .discard
  | branch {body : List Stmt} {otherwise : Option (List Stmt)} {i j : ScopeId} (hs : L.scopes i j)
      (hb : L.Runs i body) (ho : ∀ ss ∈ otherwise, L.Runs i ss) :
      Moved L (.branch body otherwise i) (.branch body otherwise j)
  | loopTest {test : Expr} {body : List Stmt} {i j : ScopeId} (hs : L.scopes i j)
      (ht : L.Evals i test) (hb : L.Runs i body) :
      Moved L (.loopTest test body i) (.loopTest test body j)
  | loopBody {test : Expr} {body : List Stmt} {i j : ScopeId} (hs : L.scopes i j)
      (ht : L.Evals i test) (hb : L.Runs i body) :
      Moved L (.loopBody test body i) (.loopBody test body j)
  | eachOver {item : String} {body : List Stmt} {i j : ScopeId} (loc : Location)
      (hs : L.scopes i j) (hw : item ∈ L.assignable i) (hb : L.Runs i body) :
      Moved L (.eachOver loc item body i) (.eachOver loc item body j)
  | eachBody {item : String} {todo todo' : List Value} {body : List Stmt} {i j : ScopeId}
      (hs : L.scopes i j) (hw : item ∈ L.assignable i)
      (ht : List.Forall₂ (Value.Moved L) todo todo') (hb : L.Runs i body) :
      Moved L (.eachBody item todo body i) (.eachBody item todo' body j)
  | leave : Moved L .leave .leave
  | assignName {id : String} {old old' : Old} {i j : ScopeId} (loc : Location) (hs : L.scopes i j)
      (hw : id ∈ L.assignable i) (ho : Old.Moved L old old') :
      Moved L (.assignName loc id old i) (.assignName loc id old' j)
  | memberBase {value : Expr} {i j : ScopeId} (loc : Location) (name : String) (op : AssignOp)
      (hs : L.scopes i j) (he : L.Evals i value) :
      Moved L (.memberBase loc name op value i) (.memberBase loc name op value j)
  | assignMember {a b : Addr} {old old' : Old} (loc : Location) (name : String)
      (hb : L.objects a b) (ho : Old.Moved L old old') :
      Moved L (.assignMember loc a name old) (.assignMember loc b name old')
  | itemBase {index value : Expr} {i j : ScopeId} (loc : Location) (op : AssignOp)
      (hs : L.scopes i j) (hi : L.Evals i index) (he : L.Evals i value) :
      Moved L (.itemBase loc index op value i) (.itemBase loc index op value j)
  | itemIndex {base base' : Value} {value : Expr} {i j : ScopeId} (loc : Location) (op : AssignOp)
      (hs : L.scopes i j) (hb : base.Moved L base') (he : L.Evals i value) :
      Moved L (.itemIndex loc base op value i) (.itemIndex loc base' op value j)
  | assignItem {base base' index index' : Value} {old old' : Old} (loc : Location)
      (hb : base.Moved L base') (hi : index.Moved L index') (ho : Old.Moved L old old') :
      Moved L (.assignItem loc base index old) (.assignItem loc base' index' old')
  | left {right : Expr} {i j : ScopeId} (loc : Location) (op : BinaryOp) (hs : L.scopes i j)
      (he : L.Evals i right) : Moved L (.left loc op right i) (.left loc op right j)
  | right {v w : Value} (loc : Location) (op : BinaryOp) (hv : v.Moved L w) :
      Moved L (.right loc op v) (.right loc op w)
  | operand (loc : Location) (op : UnaryOp) : Moved L (.operand loc op) (.operand loc op)
  | indexBase {index : Expr} {i j : ScopeId} (loc : Location) (hs : L.scopes i j)
      (hi : L.Evals i index) : Moved L (.indexBase loc index i) (.indexBase loc index j)
  | index {base base' : Value} (loc : Location) (hb : base.Moved L base') :
      Moved L (.index loc base) (.index loc base')
  | sliceBase {bounds : List (Option Expr)} {i j : ScopeId} (loc : Location) (hs : L.scopes i j)
      (he : ∀ e ∈ bounds, ∀ d ∈ e, L.Evals i d) :
      Moved L (.sliceBase loc bounds i) (.sliceBase loc bounds j)
  | sliceBound {base base' : Value} {todo : List (Option Expr)} {i j : ScopeId} (loc : Location)
      (done : List (Option Int)) (hs : L.scopes i j) (hb : base.Moved L base')
      (he : ∀ e ∈ todo, ∀ d ∈ e, L.Evals i d) :
      Moved L (.sliceBound loc base done todo i) (.sliceBound loc base' done todo j)
  | member (loc : Location) (name : String) : Moved L (.member loc name) (.member loc name)
  | listItem {done done' : List Value} {todo : List Expr} {i j : ScopeId} (hs : L.scopes i j)
      (hd : List.Forall₂ (Value.Moved L) done done') (he : ∀ e ∈ todo, L.Evals i e) :
      Moved L (.listItem done todo i) (.listItem done' todo j)
  | dictKey {value : Expr} {done done' : Table Value Value} {todo : List (Expr × Expr)}
      {i j : ScopeId} (loc : Location) (hs : L.scopes i j) (hv : L.Evals i value)
      (hd : Table.Paired (Value.Moved L) (Value.Moved L) done done')
      (he : ∀ e ∈ todo, L.Evals i e.1 ∧ L.Evals i e.2) :
      Moved L (.dictKey loc value done todo i) (.dictKey loc value done' todo j)
  | dictValue {key key' : Value} {done done' : Table Value Value} {todo : List (Expr × Expr)}
      {i j : ScopeId} (hs : L.scopes i j) (hk : key.Moved L key')
      (hd : Table.Paired (Value.Moved L) (Value.Moved L) done done')
      (he : ∀ e ∈ todo, L.Evals i e.1 ∧ L.Evals i e.2) :
      Moved L (.dictValue key done todo i) (.dictValue key' done' todo j)
  | comprehendOver {c c' : Comprehension} (loc : Location) (hc : c.Moved L c') :
      Moved L (.comprehendOver loc c) (.comprehendOver loc c')
  | comprehendTest {c c' : Comprehension} {i j : ScopeId} {todo todo' done done' : List Value}
      (hc : c.Moved L c') (hs : L.scopes i j) (he : L.Evals i c.element)
      (ht : List.Forall₂ (Value.Moved L) todo todo')
      (hd : List.Forall₂ (Value.Moved L) done done') :
      Moved L (.comprehendTest c i todo done) (.comprehendTest c' j todo' done')
  | comprehendItem {c c' : Comprehension} {todo todo' done done' : List Value} (hc : c.Moved L c')
      (ht : List.Forall₂ (Value.Moved L) todo todo')
      (hd : List.Forall₂ (Value.Moved L) done done') :
      Moved L (.comprehendItem c todo done) (.comprehendItem c' todo' done')
  | body (name : String) (loc : Location) : Moved L (.body name loc) (.body name loc)
  | lambdaBody (loc : Location) : Moved L (.lambdaBody loc) (.lambdaBody loc)
  | construct {v w : Value} (h : v.Moved L w) : Moved L (.construct v) (.construct w)
  | forwarded (name : String) (loc : Location) : Moved L (.forwarded name loc) (.forwarded name loc)

structure PendingCall.Moved (L : Link) (p q : PendingCall) : Prop where
  loc : p.loc = q.loc
  callee : Option.Rel (Value.Moved L) p.callee q.callee
  args : List.Forall₂ (Value.Moved L) p.args q.args
  named : Table.Paired Eq (Value.Moved L) p.named q.named
  key : p.key = q.key
  todo : p.todo = q.todo
  scope : L.scopes p.scope q.scope
  evals : ∀ e ∈ p.todo, L.Evals p.scope e.2

structure Sorting.Moved (L : Link) (p q : Sorting) : Prop where
  loc : p.loc = q.loc
  key : p.key.Moved L q.key
  items : List.Forall₂ (Value.Moved L) p.items q.items
  keys : List.Forall₂ (Value.Moved L) p.keys q.keys
  todo : List.Forall₂ (Value.Moved L) p.todo q.todo
  reversed : p.reversed = q.reversed

structure Mapping.Moved (L : Link) (p q : Mapping) : Prop where
  name : p.name = q.name
  loc : p.loc = q.loc
  callee : p.callee.Moved L q.callee
  done : List.Forall₂ (Value.Moved L) p.done q.done
  todo : List.Forall₂ (Value.Moved L) p.todo q.todo

inductive Context.Moved (L : Link) : {a : Awaits} → Context a → Context a → Prop where
  | program : Moved L .program .program
  | fill {a b : Awaits} {h h' : Hole a b} {k k' : Context b} (hh : h.Moved L h') (hk : Moved L k k') :
      Moved L (.fill h k) (.fill h' k')
  | argument {p q : PendingCall} {k k' : Context .value} (hp : p.Moved L q) (hk : Moved L k k') :
      Moved L (.argument p k) (.argument q k')
  | sortKey {s s' : Sorting} {k k' : Context .value} (hs : s.Moved L s') (hk : Moved L k k') :
      Moved L (.sortKey s k) (.sortKey s' k')
  | mapItem {m m' : Mapping} {k k' : Context .value} (hm : m.Moved L m') (hk : Moved L k k') :
      Moved L (.mapItem m k) (.mapItem m' k')

inductive Task.Moved (L : Link) : Task → Task → Prop where
  | exec {s : Stmt} {i j : ScopeId} {k k' : Context .flow} (hs : L.scopes i j)
      (h : s.Within (L.usable i) (L.assignable i)) (hk : k.Moved L k') :
      Moved L (.exec s i k) (.exec s j k')
  | eval {e : Expr} {i j : ScopeId} {k k' : Context .value} (hs : L.scopes i j) (h : L.Evals i e)
      (hk : k.Moved L k') : Moved L (.eval e i k) (.eval e j k')

inductive Resumption.Moved (L : Link) : Resumption → Resumption → Prop where
  | task {t t' : Task} (h : t.Moved L t') : Moved L (.task t) (.task t')
  | waited {k k' : Context .value} (name : String) (loc : Location) (hk : k.Moved L k') :
      Moved L (.waited name loc k) (.waited name loc k')

inductive Move.Moved (L : Link) : Move → Move → Prop where
  | give {a : Awaits} {x y : a.Input} {k k' : Context a} (hx : a.Moved L x y) (hk : k.Moved L k') :
      Moved L (.give x k) (.give y k')
  | call {f g : Value} {c d : Call} {k k' : Context .value} (hf : f.Moved L g) (hc : c.Moved L d)
      (hk : k.Moved L k') : Moved L (.call f c k) (.call g d k')

inductive Control.Moved (L : Link) : Control → Control → Prop where
  | task {t t' : Task} (h : t.Moved L t') : Moved L (.task t) (.task t')
  | move {v w : Move} (h : v.Moved L w) : Moved L (.move v) (.move w)

section Reactions

variable {σ : Type}

inductive Reaction.Moved (L : Link) {b : Awaits} : Reaction σ b → Reaction σ b → Prop where
  | give {x y : b.Input} (h : b.Moved L x y) : Moved L (.give x) (.give y)
  | start {t t' : Task} (h : t.Moved L t') : Moved L (.start t) (.start t')
  | pause {r r' : Resumption} (w : Wait σ) (h : r.Moved L r') : Moved L (.pause w r) (.pause w r')

inductive Invocation.Moved (L : Link) : Invocation σ → Invocation σ → Prop where
  | react {r r' : Reaction σ .value} (h : r.Moved L r') : Moved L (.react r) (.react r')
  | again {f g : Value} {c d : Call} {k k' : Context .value} (hf : f.Moved L g) (hc : c.Moved L d)
      (hk : k.Moved L k') : Moved L (.again f c k) (.again g d k')

inductive Next.Moved (L : Link) : Next σ → Next σ → Prop where
  | go {c c' : Control} (h : c.Moved L c') : Moved L (.go c) (.go c')
  | pause {r r' : Resumption} (w : Wait σ) (h : r.Moved L r') : Moved L (.pause w r) (.pause w r')
  | finished {f g : Flow} (h : f.Moved L g) : Moved L (.finished f) (.finished g)

inductive Reply.Moved (L : Link) : Reply σ → Reply σ → Prop where
  | value {v w : Value} (h : v.Moved L w) : Moved L (.value v) (.value w)
  | wait (w : Wait σ) : Moved L (.wait w) (.wait w)
  | fault (f g : Fault) : Moved L (.fault f) (.fault g)

end Reactions

section Mono

variable {L L' : Link} (hL : L ≤ L')

include hL

theorem Link.Evals.mono {i j : ScopeId} {e : Expr} (h : L.Evals i e) (hs : L.scopes i j) :
    L'.Evals i e := by
  rwa [Link.Evals, hL.usable hs]

theorem Flow.Moved.mono {f g : Flow} (h : f.Moved L g) : f.Moved L' g := by
  cases h with
  | normal => exact .normal
  | broken => exact .broken
  | continued => exact .continued
  | returned h => exact .returned (h.mono hL)

theorem Old.Moved.mono {o o' : Old} (h : Old.Moved L o o') : Old.Moved L' o o' := by
  cases h with
  | none => exact .none
  | some h => exact .some ⟨h.1, h.2.mono hL⟩

theorem Comprehension.Moved.mono {c d : Comprehension} (h : c.Moved L d) : c.Moved L' d := by
  obtain ⟨hs, he, hc⟩ := h
  refine ⟨hL.scopes hs, ?_, ?_⟩
  · rwa [hL.usable hs]
  · rwa [hL.usable hs]

theorem Hole.Moved.mono {a b : Awaits} {h h' : Hole a b} (hm : h.Moved L h') : h.Moved L' h' := by
  have values {xs ys : List Value} (h : List.Forall₂ (Value.Moved L) xs ys) :=
    Value.Moved.mono_list hL h
  cases hm with
  | rest hs h => exact .rest (hL.scopes hs) (h.mono hs hL)
  | discard => exact .discard
  | branch hs hb ho =>
    exact .branch (hL.scopes hs) (hb.mono hs hL) fun ss h => (ho ss h).mono hs hL
  | loopTest hs ht hb => exact .loopTest (hL.scopes hs) (ht.mono hL hs) (hb.mono hs hL)
  | loopBody hs ht hb => exact .loopBody (hL.scopes hs) (ht.mono hL hs) (hb.mono hs hL)
  | eachOver loc hs hw hb =>
    exact .eachOver loc (hL.scopes hs) (hL.assignable hs ▸ hw) (hb.mono hs hL)
  | eachBody hs hw ht hb =>
    exact .eachBody (hL.scopes hs) (hL.assignable hs ▸ hw) (values ht) (hb.mono hs hL)
  | leave => exact .leave
  | assignName loc hs hw ho =>
    exact .assignName loc (hL.scopes hs) (hL.assignable hs ▸ hw) (Old.Moved.mono hL ho)
  | memberBase loc name op hs he => exact .memberBase loc name op (hL.scopes hs) (he.mono hL hs)
  | assignMember loc name hb ho =>
    exact .assignMember loc name (hL.objects hb) (Old.Moved.mono hL ho)
  | itemBase loc op hs hi he => exact .itemBase loc op (hL.scopes hs) (hi.mono hL hs) (he.mono hL hs)
  | itemIndex loc op hs hb he =>
    exact .itemIndex loc op (hL.scopes hs) (hb.mono hL) (he.mono hL hs)
  | assignItem loc hb hi ho =>
    exact .assignItem loc (hb.mono hL) (hi.mono hL) (Old.Moved.mono hL ho)
  | left loc op hs he => exact .left loc op (hL.scopes hs) (he.mono hL hs)
  | right loc op hv => exact .right loc op (hv.mono hL)
  | operand loc op => exact .operand loc op
  | indexBase loc hs hi => exact .indexBase loc (hL.scopes hs) (hi.mono hL hs)
  | index loc hb => exact .index loc (hb.mono hL)
  | sliceBase loc hs he =>
    exact .sliceBase loc (hL.scopes hs) fun e h d hd => (he e h d hd).mono hL hs
  | sliceBound loc done hs hb he =>
    exact .sliceBound loc done (hL.scopes hs) (hb.mono hL) fun e h d hd => (he e h d hd).mono hL hs
  | member loc name => exact .member loc name
  | listItem hs hd he =>
    exact .listItem (hL.scopes hs) (values hd) fun e h => (he e h).mono hL hs
  | dictKey loc hs hv hd he =>
    exact .dictKey loc (hL.scopes hs) (hv.mono hL hs) (Value.Moved.mono_dict hL hd)
      fun e h => ⟨(he e h).1.mono hL hs, (he e h).2.mono hL hs⟩
  | dictValue hs hk hd he =>
    exact .dictValue (hL.scopes hs) (hk.mono hL) (Value.Moved.mono_dict hL hd)
      fun e h => ⟨(he e h).1.mono hL hs, (he e h).2.mono hL hs⟩
  | comprehendOver loc hc => exact .comprehendOver loc (hc.mono hL)
  | comprehendTest hc hs he ht hd =>
    exact .comprehendTest (hc.mono hL) (hL.scopes hs) (he.mono hL hs) (values ht) (values hd)
  | comprehendItem hc ht hd => exact .comprehendItem (hc.mono hL) (values ht) (values hd)
  | body name loc => exact .body name loc
  | lambdaBody loc => exact .lambdaBody loc
  | construct h => exact .construct (h.mono hL)
  | forwarded name loc => exact .forwarded name loc

theorem PendingCall.Moved.mono {p q : PendingCall} (h : p.Moved L q) : p.Moved L' q where
  loc := h.loc
  callee := Value.Moved.mono_option hL h.callee
  args := Value.Moved.mono_list hL h.args
  named := Value.Moved.mono_table hL h.named
  key := h.key
  todo := h.todo
  scope := hL.scopes h.scope
  evals e he := (h.evals e he).mono hL h.scope

theorem Sorting.Moved.mono {p q : Sorting} (h : p.Moved L q) : p.Moved L' q :=
  ⟨h.loc, h.key.mono hL, Value.Moved.mono_list hL h.items, Value.Moved.mono_list hL h.keys,
    Value.Moved.mono_list hL h.todo, h.reversed⟩

theorem Mapping.Moved.mono {p q : Mapping} (h : p.Moved L q) : p.Moved L' q :=
  ⟨h.name, h.loc, h.callee.mono hL, Value.Moved.mono_list hL h.done,
    Value.Moved.mono_list hL h.todo⟩

theorem Context.Moved.mono {a : Awaits} {k k' : Context a} (h : k.Moved L k') : k.Moved L' k' := by
  induction h with
  | program => exact .program
  | fill hh _ ih => exact .fill (hh.mono hL) ih
  | argument hp _ ih => exact .argument (hp.mono hL) ih
  | sortKey hs _ ih => exact .sortKey (hs.mono hL) ih
  | mapItem hm _ ih => exact .mapItem (hm.mono hL) ih

theorem Call.Moved.mono {c d : Call} (h : c.Moved L d) : c.Moved L' d :=
  ⟨Value.Moved.mono_list hL h.args, Value.Moved.mono_table hL h.named, h.location⟩

end Mono

end LoopScript
