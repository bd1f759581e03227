import LoopScript.Value.Text

/-!
Scopes: each binds names, and what it does not bind is looked up in the scope around it.
-/

namespace LoopScript

namespace Store

def scope (s : Store) (i : ScopeId) : Scope :=
  s.scopes.getD i default

def openScope (s : Store) (parent : Option ScopeId) (bindings : Table String Value) :
    ScopeId × Store :=
  (s.scopes.size, { s with scopes := s.scopes.push ⟨parent, bindings⟩ })

/-- The scope around another one, which was made before it. -/
def parent? (s : Store) (i : ScopeId) : Option { p : ScopeId // p < i } :=
  match (s.scope i).parent with
  | some p => if h : p < i then some ⟨p, h⟩ else none
  | none => none

/-- The nearest scope that binds a name. -/
def owner? (s : Store) (i : ScopeId) (name : String) : Option ScopeId :=
  if (s.scope i).bindings.has name then some i
  else match s.parent? i with
    | some ⟨p, _⟩ => owner? s p name
    | none => none
termination_by i

def root (s : Store) (i : ScopeId) : ScopeId :=
  match s.parent? i with
  | some ⟨p, _⟩ => root s p
  | none => i
termination_by i

def lookup? (s : Store) (i : ScopeId) (name : String) : Option Value :=
  (s.owner? i name).bind fun o => (s.scope o).bindings.get? name

def lookup (s : Store) (i : ScopeId) (name : String) : Except Fault Value :=
  match s.lookup? i name with
  | some v => .ok v
  | none => .error (.of (.undefined name))

/-- Binds a name in the given scope itself. -/
def define (s : Store) (i : ScopeId) (name : String) (v : Value) : Store :=
  { s with scopes := s.scopes.modify i fun sc => { sc with bindings := sc.bindings.put name v } }

/-- Binds a name in the nearest scope that binds it already, or else in the given one. -/
def assign (s : Store) (i : ScopeId) (name : String) (v : Value) : Store :=
  s.define ((s.owner? i name).getD i) name v

def setGlobal (s : Store) (i : ScopeId) (name : String) (v : Value) : Store :=
  s.define (s.root i) name v

def isBuiltin (s : Store) (v : Value) : Bool :=
  match s.object? v with
  | some (.builtin _) => true
  | _ => false

def visible (s : Store) (i : ScopeId) : Table String Value :=
  (s.scope i).bindings.filter fun (_, v) => !s.isBuiltin v

def snapshot (s : Store) (i : ScopeId) : Except Fault (List (String × String)) :=
  (s.visible i).mapM fun (name, v) => do .ok (name, ← s.text v)

end Store

end LoopScript
