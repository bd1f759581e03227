import LoopScript.Machine.Context
import LoopScript.Machine.Core

/-!
The single steps of a machine: a task that begins, a context that receives what it waits for, a
call that is made.
-/

namespace LoopScript

inductive Move where
  | give {a : Awaits} (x : a.Input) (k : Context a)
  | call (callee : Value) (c : Call) (k : Context .value)

inductive Control where
  | task (t : Task)
  | move (v : Move)

/-- What becomes of a filled hole: it gives something to the context around it, a task starts, or
the program has to wait. -/
inductive Reaction (σ : Type) (b : Awaits) where
  | give (x : b.Input)
  | start (t : Task)
  | pause (w : Wait σ) (r : Resumption)

/-- What becomes of a call. A function of the host may make further calls. -/
inductive Invocation (σ : Type) where
  | react (r : Reaction σ .value)
  | again (callee : Value) (c : Call) (k : Context .value)

inductive Next (σ : Type) where
  | go (c : Control)
  | pause (w : Wait σ) (r : Resumption)
  | finished (f : Flow)

namespace Setup

variable {σ : Type}

def builtin? (setup : Setup σ) (name : String) : Option (Builtin σ) :=
  (coreBuiltins.get? name).or (setup.services.builtins.get? name)

end Setup

namespace Builtin

variable {σ : Type}

def accepts (b : Builtin σ) (c : Call) : Except Fault Unit :=
  if c.args.length < b.least then .error (.of (.tooFewArguments b.name b.least c.args.length))
  else match b.most with
    | some most =>
      if most < c.args.length then .error (.of (.tooManyArguments b.name most c.args.length))
      else keywordsOf c.named.keys
    | none => keywordsOf c.named.keys
where
  keywordsOf : List String → Except Fault Unit
    | [] => .ok ()
    | key :: keys =>
      if key ∈ b.keywords then keywordsOf keys
      else .error (.of (.unexpectedKeyword b.name key))

end Builtin

def bindNamed (callee : String) (open_ : List String) (bound : Table String Value) :
    List (String × Value) → Except Fault (Table String Value)
  | [] => .ok bound
  | (key, v) :: named =>
    if key ∉ open_ then .error (.of (.unexpectedKeyword callee key))
    else if bound.has key then .error (.of (.multipleValues callee key))
    else bindNamed callee open_ (bound.put key v) named

/-- Gives every parameter its argument. Of the arguments by position the first `implicit` ones are
not counted in messages, and the parameters for them have no keywords. -/
def bindArguments (callee : String) (params : List String) (args : List Value)
    (named : Table String Value) (implicit : Nat) : Except Fault (Table String Value) :=
  if params.length < args.length ∨ (named.isEmpty ∧ args.length ≠ params.length) then
    .error (.of (.wrongArity callee (params.length - implicit)
      (args.length - implicit + named.length)))
  else do
    let bound ← bindNamed callee (params.drop implicit) (Table.ofList (params.zip args)) named
    match params.find? (!bound.has ·) with
    | some p => .error (.of (.missingArgument callee p))
    | none => .ok bound

/-- The text of an access to an argument that is not there. -/
def missingItem : Fault := .foreign "list index out of range"

namespace Act

variable {σ : Type}

/-- The error of a statement that leaves a loop or a function where there is none. -/
def stray (f : Flow) (loc : Option Location) : Fault :=
  let cause : Cause := match f with
    | .broken => .strayBreak
    | .continued => .strayContinue
    | _ => .strayReturn
  .error ⟨cause, loc, none⟩

/-- The new value of a place: the given one, or its combination with the old. -/
def combine (loc : Location) (old : Old) (v : Value) : Act σ Value :=
  match old with
  | none => pure v
  | some (op, w) => making loc (·.binary op w v)

def oldValue (op : AssignOp) (read : Act σ Value) : Act σ Old :=
  match op.combine? with
  | none => pure none
  | some b => return some (b, ← read)

def defineMethods (scope : ScopeId) : List FunctionDef → Act σ (List (String × Addr))
  | [] => pure []
  | d :: ds => do
    match ← alloc (.function ⟨d.name, d.params, d.body, scope⟩) with
    | .ref a => return (d.name, a) :: (← defineMethods scope ds)
    | .atom _ => defineMethods scope ds

def define (scope : ScopeId) (name : String) (v : Value) : Act σ Unit :=
  modifyStore (·.define scope name v)

def beginStatement (s : Stmt) (scope : ScopeId) (k : Context .flow) : Act σ Control := do
  let ended (f : Flow) : Control := .move (.give (a := .flow) f k)
  match s with
  | .expr _ e => return .task (.eval e scope (.fill .discard k))
  | .assign loc (.name place id) op e =>
    let old ← oldValue op (reading place (·.lookup scope id))
    return .task (.eval e scope (.fill (.assignName loc id old scope) k))
  | .assign loc (.member _ base name) op e =>
    return .task (.eval base scope (.fill (.memberBase loc name op e scope) k))
  | .assign loc (.index _ base index) op e =>
    return .task (.eval base scope (.fill (.itemBase loc index op e scope) k))
  | .cond _ test body otherwise =>
    return .task (.eval test scope (.fill (.branch body otherwise scope) k))
  | .loop _ test body => return .task (.eval test scope (.fill (.loopTest test body scope) k))
  | .each loc item e body => return .task (.eval e scope (.fill (.eachOver loc item body scope) k))
  | .function d =>
    define scope d.name (← alloc (.function ⟨d.name, d.params, d.body, scope⟩))
    return ended .normal
  | .class_ _ name methods =>
    let methods ← defineMethods scope methods
    define scope name (← alloc (.cls name (Table.ofList methods)))
    return ended .normal
  | .return_ _ none => return ended (.returned .none)
  | .return_ _ (some e) => return .task (.eval e scope (.fill .leave k))
  | .break_ _ => return ended .broken
  | .continue_ _ => return ended .continued
  | .pass_ _ => return ended .normal
  | .global_ _ names =>
    modify fun m => { m with forced := names.foldl (fun fs n => fs.insert n) m.forced }
    return ended .normal
  | .import_ loc name member =>
    let v ← reading loc (·.lookup scope name)
    if let some member := member then
      let _ ← making loc (·.getMember v member)
    return ended .normal

def beginExpression (e : Expr) (scope : ScopeId) (k : Context .value) : Act σ Control := do
  let give (v : Value) : Control := .move (.give (a := .value) v k)
  match e with
  | .literal _ a => return give (.atom a)
  | .name loc id => return give (← reading loc (·.lookup scope id))
  | .binary loc op l r => return .task (.eval l scope (.fill (.left loc op r scope) k))
  | .unary loc op e => return .task (.eval e scope (.fill (.operand loc op) k))
  | .call loc f args named =>
    let todo := args.map (none, ·) ++ named.map fun (n, e) => (some n, e)
    return .task (.eval f scope (.argument ⟨loc, none, [], [], none, todo, scope⟩ k))
  | .index loc base index => return .task (.eval base scope (.fill (.indexBase loc index scope) k))
  | .slice loc base start stop step =>
    return .task (.eval base scope (.fill (.sliceBase loc [start, stop, step] scope) k))
  | .list _ [] | .tuple _ [] => return give (← alloc (.list []))
  | .list _ (e :: es) | .tuple _ (e :: es) =>
    return .task (.eval e scope (.fill (.listItem [] es scope) k))
  | .dict _ [] => return give (← alloc (.dict []))
  | .dict _ ((key, value) :: es) =>
    return .task (.eval key scope (.fill (.dictKey key.location value [] es scope) k))
  | .lambda _ params body => return give (← alloc (.lambda params body scope))
  | .comprehension loc element item e condition =>
    return .task (.eval e scope (.fill (.comprehendOver loc ⟨element, item, condition, scope⟩) k))
  | .member loc base name => return .task (.eval base scope (.fill (.member loc name) k))

def begin (setup : Setup σ) : Task → Act σ Control
  | .exec s scope k => do
    modify fun m => { m with current := some s.location }
    emit setup (.beforeStatement s scope)
    logStep setup s.rule s.location
    beginStatement s scope k
  | .eval e scope k => beginExpression e scope k

def block (body : List Stmt) (scope : ScopeId) (k : Context .flow) : Reaction σ .flow :=
  match body with
  | [] => .give .normal
  | s :: ss => .start (.exec s scope (.fill (.rest ss scope) k))

/-- The next round of a loop over items. An empty body leaves nothing to do but to bind them. -/
def nextRound (item : String) (todo : List Value) (body : List Stmt) (scope : ScopeId)
    (k : Context .flow) : Act σ (Reaction σ .flow) := do
  match body, todo with
  | _, [] => return .give .normal
  | [], todo =>
    todo.forM fun v => assign scope item v
    return .give .normal
  | s :: ss, v :: todo =>
    assign scope item v
    return .start (.exec s scope (.fill (.rest ss scope)
      (.fill (.eachBody item todo (s :: ss) scope) k)))

/-- The next round of a comprehension; each has a scope of its own. -/
def nextItem (c : Comprehension) (todo done : List Value) (k : Context .value) :
    Act σ (Reaction σ .value) := do
  match todo with
  | [] => return .give (← alloc (.list done.reverse))
  | v :: todo =>
    let inner ← openScope c.scope [(c.item, v)]
    match c.condition with
    | some test => return .start (.eval test inner (.fill (.comprehendTest c inner todo done) k))
    | none => return .start (.eval c.element inner (.fill (.comprehendItem c todo done) k))

/-- Evaluates the next bound of a slice that is written down; without any the slice is made. -/
def nextBound (loc : Location) (base : Value) (scope : ScopeId) (k : Context .value)
    (done : List (Option Int)) : List (Option Expr) → Act σ (Reaction σ .value)
  | [] => do
    let bound (i : Nat) := (done.reverse[i]?).join
    return .give (← making loc fun s => .ok (s.slice base (bound 0) (bound 1) (bound 2)))
  | none :: todo => nextBound loc base scope k (none :: done) todo
  | some e :: todo =>
    return .start (.eval e scope (.fill (.sliceBound loc base done todo scope) k))

/-- The result of a function whose body has ended. -/
def leaveFunction (f : Flow) : Act σ Value := do
  match f with
  | .broken | .continued => throw (stray f (← get).current)
  | .normal =>
    exit
    return .none
  | .returned v =>
    exit
    return v

/-- Settles a call to a function of the host or the language. -/
def settle (setup : Setup σ) (name : String) (loc : Location) (k : Context .value) :
    Reply σ → Act σ (Reaction σ .value)
  | .fault f => throw f
  | .wait w => do
    emit setup (.onPause w)
    return .pause w (.waited name loc k)
  | .value v => do
    let result ← match v with
      | .int i => .num <$> placed loc (floatOfInt i)
      | v => pure v
    emit setup (.afterCall name result loc)
    return .give result

def isTruthy (v : Value) : Act σ Bool := do
  return (← store).truthy v

def react (setup : Setup σ) : {a b : Awaits} → Hole a b → a.Input → Context b → Act σ (Reaction σ b)
  | _, _, .rest [] _, x, _ => return .give x
  | _, _, .rest (s :: ss) scope, .normal, k =>
    return .start (.exec s scope (.fill (.rest ss scope) k))
  | _, _, .rest (_ :: _) _, f, _ => return .give f
  | _, _, .discard, _, _ => return .give .normal
  | _, _, .branch body otherwise scope, x, k => do
    if ← isTruthy x then return block body scope k
    else return block (otherwise.getD []) scope k
  | _, _, .loopTest test body scope, x, k => do
    if ← isTruthy x then
      match body with
      | [] => return .start (.eval test scope (.fill (.loopTest test body scope) k))
      | s :: ss => return .start (.exec s scope (.fill (.rest ss scope)
          (.fill (.loopBody test body scope) k)))
    else return .give .normal
  | _, _, .loopBody .., .broken, _ => return .give .normal
  | _, _, .loopBody .., .returned v, _ => return .give (.returned v)
  | _, _, .loopBody test body scope, _, k =>
    return .start (.eval test scope (.fill (.loopTest test body scope) k))
  | _, _, .eachOver loc item body scope, x, k => do
    nextRound item (← reading loc (·.items x)) body scope k
  | _, _, .eachBody .., .broken, _ => return .give .normal
  | _, _, .eachBody .., .returned v, _ => return .give (.returned v)
  | _, _, .eachBody item todo body scope, _, k => nextRound item todo body scope k
  | _, _, .leave, x, _ => return .give (.returned x)
  | _, _, .assignName loc id old scope, x, _ => do
    assign scope id (← combine loc old x)
    return .give .normal
  | _, _, .memberBase loc name op e scope, x, k => do
    let base ← reading loc (·.settable x)
    let old ← oldValue op (making loc (·.getMember x name))
    return .start (.eval e scope (.fill (.assignMember loc base name old) k))
  | _, _, .assignMember loc base name old, x, _ => do
    let v ← combine loc old x
    modifyStore (·.setField base name v)
    return .give .normal
  | _, _, .itemBase loc index op e scope, x, k =>
    return .start (.eval index scope (.fill (.itemIndex loc x op e scope) k))
  | _, _, .itemIndex loc base op e scope, x, k => do
    let old ← oldValue op (reading loc (·.getIndex base x))
    return .start (.eval e scope (.fill (.assignItem loc base x old) k))
  | _, _, .assignItem loc base index old, x, _ => do
    let v ← combine loc old x
    let (a, o) ← reading loc (·.setIndex base index v)
    modifyStore (·.write a o)
    return .give .normal
  | _, _, .left loc op right scope, x, k => do
    match op, ← isTruthy x with
    | .and_, false | .or_, true => return .give x
    | .and_, true | .or_, false => return .start (.eval right scope k)
    | op, _ => return .start (.eval right scope (.fill (.right loc op x) k))
  | _, _, .right loc op left, x, _ => return .give (← making loc (·.binary op left x))
  | _, _, .operand loc op, x, _ => return .give (← reading loc (·.unary op x))
  | _, _, .indexBase loc index scope, x, k =>
    return .start (.eval index scope (.fill (.index loc x) k))
  | _, _, .index loc base, x, _ => return .give (← reading loc (·.getIndex base x))
  | _, _, .sliceBase loc bounds scope, x, k => do
    reading loc (·.sliceable x)
    nextBound loc x scope k [] bounds
  | _, _, .sliceBound loc base done todo scope, .none, k =>
    nextBound loc base scope k (none :: done) todo
  | _, _, .sliceBound loc base done todo scope, x, k => do
    nextBound loc base scope k (some (← reading loc (·.toIndex x)) :: done) todo
  | _, _, .member loc name, x, _ => return .give (← making loc (·.getMember x name))
  | _, _, .listItem done [] _, x, _ => return .give (← alloc (.list (x :: done).reverse))
  | _, _, .listItem done (e :: todo) scope, x, k =>
    return .start (.eval e scope (.fill (.listItem (x :: done) todo scope) k))
  | _, _, .dictKey loc value done todo scope, x, k => do
    reading loc (·.requireKey x)
    return .start (.eval value scope (.fill (.dictValue x done todo scope) k))
  | _, _, .dictValue key done [] _, x, _ => return .give (← alloc (.dict (done.put key x)))
  | _, _, .dictValue key done ((e, value) :: todo) scope, x, k =>
    return .start (.eval e scope (.fill (.dictKey e.location value (done.put key x) todo scope) k))
  | _, _, .comprehendOver loc c, x, k => do nextItem c (← reading loc (·.items x)) [] k
  | _, _, .comprehendTest c inner todo done, x, k => do
    if ← isTruthy x then
      return .start (.eval c.element inner (.fill (.comprehendItem c todo done) k))
    else nextItem c todo done k
  | _, _, .comprehendItem c todo done, x, k => nextItem c todo (x :: done) k
  | _, _, .body name loc, x, _ => do
    let result ← leaveFunction x
    emit setup (.afterCall name result loc)
    return .give result
  | _, _, .lambdaBody loc, x, _ => do
    exit
    emit setup (.afterCall "<lambda>" x loc)
    return .give x
  | _, _, .construct object, _, _ => return .give object
  | _, _, .forwarded name loc, x, k => do
    match setup.builtin? name with
    | some ⟨_, _, _, _, _, _, .forward finish⟩ =>
      settle setup name loc k (← onWorld (finish x loc))
    | _ => return .give x

/-- Opens the call of a function. The task is its body; an empty body leaves nothing to do. -/
def callFunction (setup : Setup σ) (f : Closure) (label : String) (implicit : Nat) (c : Call)
    (k : Context .value) : Act σ (Option Task) := do
  let bound ← placed c.location (bindArguments label f.params c.args c.named implicit)
  let scope ← openScope f.scope bound
  emit setup (.beforeCall f.name c.args c.location)
  enter f.name scope c.location
  match f.body with
  | [] =>
    exit
    emit setup (.afterCall f.name .none c.location)
    return none
  | s :: ss =>
    return some (.exec s scope (.fill (.rest ss scope) (.fill (.body f.name c.location) k)))

def callLambda (setup : Setup σ) (params : List String) (body : Expr) (scope : ScopeId) (c : Call)
    (k : Context .value) : Act σ Task := do
  let bound ← placed c.location (bindArguments "<lambda>" params c.args c.named 0)
  let scope ← openScope scope bound
  emit setup (.beforeCall "<lambda>" c.args c.location)
  enter "<lambda>" scope c.location
  return .eval body scope (.fill (.lambdaBody c.location) k)

/-- Makes an object of a class, and initialises it if the class says how. -/
def construct (setup : Setup σ) (cls : Addr) (name : String) (methods : Table String Addr)
    (c : Call) (k : Context .value) : Act σ (Reaction σ .value) := do
  let object ← alloc (.instance_ cls [])
  match (methods.get? "__init__").map (← store).read with
  | some (.function f) =>
    if f.params.isEmpty then fail c.location (.noReceiver (name ++ ".__init__") name)
    else
      let inner := { c with args := object :: c.args }
      match ← callFunction setup f name 1 inner (.fill (.construct object) k) with
      | some t => return .start t
      | none => return .give object
  | _ =>
    if c.arity = 0 then return .give object
    else fail c.location (.wrongArity name 0 c.arity)

def endSort (setup : Setup σ) (loc : Location) (reversed : Bool) (keys items : List Value) :
    Act σ Value := do
  let result ← alloc (.list (← reading loc (·.sortBy reversed keys items)))
  emit setup (.afterCall CoreFunction.sorted.name result loc)
  return result

/-- Refuses an argument that is given by position and by keyword. -/
def onlyOnce (c : Call) (key : String) (place : Nat) (more : List Value) : Act σ Unit :=
  if c.named.has key ∧ place ≤ more.length then
    fail c.location (.multipleValues CoreFunction.sorted.name key)
  else pure ()

/-- The function that computes the keys of a sort, if one is given. -/
def sortingKey? (named : Table String Value) (more : List Value) : Option Value :=
  match more.head?.or (named.get? "key") with
  | some .none => none
  | key => key

def startSort (setup : Setup σ) (c : Call) (k : Context .value) : Act σ (Invocation σ) := do
  let loc := c.location
  match c.args with
  | [] => throw missingItem
  | x :: more =>
    onlyOnce c "key" 1 more
    onlyOnce c "reverse" 2 more
    let items ← reading loc (·.items x)
    let flag := match more with
      | _ :: r :: _ => r
      | _ => (c.named.get? "reverse").getD (.bool false)
    let reversed ← isTruthy flag
    match sortingKey? c.named more, items with
    | some key, i :: todo =>
      return .again key ⟨[i], [], loc⟩ (.sortKey ⟨loc, key, items, [], todo, reversed⟩ k)
    | _, _ => return .react (.give (← endSort setup loc reversed items items))

def endMap (setup : Setup σ) (name : String) (loc : Location) (results : List Value) :
    Act σ Value := do
  let result ← alloc (.list results)
  emit setup (.afterCall name result loc)
  return result

def startMap (setup : Setup σ) (name : String) (c : Call) (k : Context .value) :
    Act σ (Invocation σ) := do
  match c.args with
  | f :: xs :: _ =>
    match ← reading c.location (·.items xs) with
    | [] => return .react (.give (← endMap setup name c.location []))
    | i :: todo =>
      return .again f ⟨[i], [], c.location⟩ (.mapItem ⟨name, c.location, f, [], todo⟩ k)
  | _ => throw missingItem

def callBuiltin (setup : Setup σ) (b : Builtin σ) (c : Call) (k : Context .value) :
    Act σ (Invocation σ) := do
  placed c.location (b.accepts c)
  emit setup (.beforeCall b.name c.args c.location)
  match b.action with
  | .core .sorted => startSort setup c k
  | .core f => return .react (← settle setup b.name c.location k (← f.reply setup c))
  | .host reply =>
    let r := match ← onWorld (reply c) with
      | .fault f => .fault (f.attach (some c.location))
      | r => r
    return .react (← settle setup b.name c.location k r)
  | .forward _ =>
    match c.args with
    | [] => throw missingItem
    | f :: args => return .again f { c with args } (.fill (.forwarded b.name c.location) k)
  | .each => startMap setup b.name c k

/-- A function whose body is empty gives nothing. -/
def bodyOf : Option Task → Reaction σ .value
  | some t => .start t
  | none => .give .none

def notCallable {α : Type} (callee : Value) (c : Call) : Act σ α := do
  fail c.location (.notCallable ((← store).typeName callee))

def invoke (setup : Setup σ) (callee : Value) (c : Call) (k : Context .value) :
    Act σ (Invocation σ) := do
  let s ← store
  match s.object? callee, callee with
  | some (.builtin name), _ =>
    match setup.builtin? name with
    | some b => callBuiltin setup b c k
    | none => notCallable callee c
  | some (.function f), _ => return .react (bodyOf (← callFunction setup f f.name 0 c k))
  | some (.method r f), _ =>
    match s.read f with
    | .function f =>
      if f.params.isEmpty then
        fail c.location (.noReceiver (s.typeName (.ref r) ++ "." ++ f.name) f.name)
      else
        let inner := { c with args := .ref r :: c.args }
        return .react (bodyOf (← callFunction setup f f.name 1 inner k))
    | _ => notCallable callee c
  | some (.lambda params body scope), _ =>
    return .react (.start (← callLambda setup params body scope c k))
  | some (.cls name methods), .ref a => return .react (← construct setup a name methods c k)
  | _, _ => notCallable callee c

/-- What follows a reaction, given the context around it. -/
def continueWith {b : Awaits} (k : Context b) : Reaction σ b → Next σ
  | .give x => .go (.move (.give x k))
  | .start t => .go (.task t)
  | .pause w r => .pause w r

def giveTo (setup : Setup σ) : {a : Awaits} → a.Input → Context a → Act σ (Next σ)
  | _, x, .program => return .finished x
  | _, x, .fill h k => return continueWith k (← react setup h x k)
  | _, x, .argument p k => do
    let p := p.receive x
    match p.todo with
    | [] => return .go (.move (.call (p.callee.getD .none) ⟨p.args, p.named, p.loc⟩ k))
    | (key, e) :: todo =>
      return .go (.task (.eval e p.scope (.argument { p with key, todo } k)))
  | _, x, .sortKey s k => do
    let keys := x :: s.keys
    match s.todo with
    | [] =>
      return continueWith k (.give (← endSort setup s.loc s.reversed keys.reverse s.items))
    | i :: todo =>
      return .go (.move (.call s.key ⟨[i], [], s.loc⟩ (.sortKey { s with keys, todo } k)))
  | _, x, .mapItem m k => do
    let done := x :: m.done
    match m.todo with
    | [] => return continueWith k (.give (← endMap setup m.name m.loc done.reverse))
    | i :: todo =>
      return .go (.move (.call m.callee ⟨[i], [], m.loc⟩ (.mapItem { m with done, todo } k)))

def advance (setup : Setup σ) : Move → Act σ (Next σ)
  | .give x k => giveTo setup x k
  | .call callee c k => do
    match ← invoke setup callee c k with
    | .react r => return continueWith k r
    | .again callee c k => return .go (.move (.call callee c k))

end Act

end LoopScript
