import LoopScript.Program

/-!
The parts of programs: the expressions inside an expression or a statement, the places that they
cover, and the literals that stand in them; and where the statements stand, inside a loop of their own
body or not, and inside a function or not.
-/

namespace LoopScript

namespace Expr

/-- The expressions that an expression is put together from. -/
def parts : Expr → List Expr
  | literal .. | name .. => []
  | binary _ _ l r => [l, r]
  | unary _ _ e => [e]
  | call _ f args named => f :: (args ++ named.map (·.2))
  | index _ base i => [base, i]
  | slice _ base start stop step => base :: (start.toList ++ stop.toList ++ step.toList)
  | list _ items | tuple _ items => items
  | dict _ entries => entries.flatMap fun e => [e.1, e.2]
  | lambda _ _ body => [body]
  | comprehension _ element _ iterable condition => element :: iterable :: condition.toList
  | member _ base _ => [base]

inductive Inside (d : Expr) : Expr → Prop where
  | refl : Inside d d
  | part {e f : Expr} (hf : f ∈ e.parts) (h : Inside d f) : Inside d e

/-- A property of an expression and of all expressions inside it. -/
def Holds (Q : Expr → Prop) (e : Expr) : Prop :=
  ∀ d, d.Inside e → Q d

variable {Q R : Expr → Prop} {e f : Expr}

theorem Holds.self (h : e.Holds Q) : Q e := h e .refl

theorem Holds.part (h : e.Holds Q) (hf : f ∈ e.parts) : f.Holds Q :=
  fun d hd => h d (.part hf hd)

theorem Holds.mono (h : e.Holds Q) (hr : ∀ d, Q d → R d) : e.Holds R :=
  fun d hd => hr d (h d hd)

theorem Holds.of_parts (he : Q e) (h : ∀ f ∈ e.parts, f.Holds Q) : e.Holds Q := by
  intro d hd
  cases hd with
  | refl => exact he
  | part hf hd => exact h _ hf d hd

end Expr

namespace Stmt

/-- The expressions of a statement itself. -/
def parts : Stmt → List Expr
  | expr _ e => [e]
  | assign _ target _ e => [target.toExpr, e]
  | cond _ test _ _ | loop _ test _ => [test]
  | each _ _ e _ => [e]
  | return_ _ e => e.toList
  | function _ | class_ .. | break_ _ | continue_ _ | pass_ _ | global_ .. | import_ .. => []

/-- The blocks of a statement, and the bodies of the functions that it defines. -/
def bodies : Stmt → List (List Stmt)
  | cond _ _ body otherwise => body :: otherwise.toList
  | loop _ _ body | each _ _ _ body => [body]
  | function d => [d.body]
  | class_ _ _ methods => methods.map FunctionDef.body
  | expr .. | assign .. | return_ .. | break_ _ | continue_ _ | pass_ _ | global_ .. | import_ .. =>
    []

/-- The functions that a statement defines itself. -/
def definitions : Stmt → List FunctionDef
  | function d => [d]
  | class_ _ _ methods => methods
  | _ => []

theorem definitions_eq_nil {s : Stmt} (h : s.bodies = []) : s.definitions = [] := by
  cases s with
  | function => cases h
  | class_ loc name methods => exact List.map_eq_nil_iff.mp h
  | _ => rfl

/-- The place of a statement, and those of the expressions inside it. -/
def Covers (s : Stmt) (loc : Location) : Prop :=
  loc = s.location ∨ ∃ e ∈ s.parts, ∃ d : Expr, d.Inside e ∧ loc = d.location

theorem covers_part {s : Stmt} {e : Expr} (he : e ∈ s.parts) : e.Holds fun d => s.Covers d.location :=
  fun d hd => .inr ⟨e, he, d, hd, rfl⟩

end Stmt

def Atom.isInt : Atom → Bool
  | .int _ => true
  | _ => false

namespace Expr

def isInt : Expr → Bool
  | literal _ a => a.isInt
  | _ => false

/-- No literal inside an expression is a whole number of the host. -/
abbrev Clean (e : Expr) : Prop := e.Holds (·.isInt = false)

end Expr

namespace Stmt

/-- A property of a statement and of all statements in its bodies, and a property of all expressions
inside them. -/
inductive Holds (R : Stmt → Prop) (Q : Expr → Prop) : Stmt → Prop where
  | intro {s : Stmt} (self : R s) (parts : ∀ e ∈ s.parts, e.Holds Q)
      (bodies : ∀ body ∈ s.bodies, ∀ t ∈ body, t.Holds R Q) : Holds R Q s

variable {R R' : Stmt → Prop} {Q Q' : Expr → Prop} {s : Stmt}

theorem Holds.self (h : s.Holds R Q) : R s := by
  cases h with
  | intro self parts bodies => exact self

theorem Holds.part (h : s.Holds R Q) {e : Expr} (he : e ∈ s.parts) : e.Holds Q := by
  cases h with
  | intro self parts bodies => exact parts e he

theorem Holds.body (h : s.Holds R Q) {body : List Stmt} (hb : body ∈ s.bodies) :
    ∀ t ∈ body, t.Holds R Q := by
  cases h with
  | intro self parts bodies => exact bodies body hb

theorem Holds.mono (h : s.Holds R Q) (hr : ∀ t, R t → R' t) (hq : ∀ e, Q e → Q' e) :
    s.Holds R' Q' := by
  induction h with
  | intro self parts bodies ih =>
    exact .intro (hr _ self) (fun e he => (parts e he).mono hq) ih

abbrev Clean (s : Stmt) : Prop := s.Holds (fun _ => True) (·.isInt = false)

end Stmt

def Program.Clean (p : Program) : Prop :=
  ∀ s ∈ p.statements, s.Clean

/-- The statements that stand inside a statement with no other around them; methods are definitions
of functions. -/
def Stmt.children : Stmt → List Stmt
  | cond _ _ body otherwise => body ++ otherwise.getD []
  | loop _ _ body | each _ _ _ body => body
  | function d => d.body
  | class_ _ _ methods => methods.map function
  | expr .. | assign .. | return_ .. | break_ _ | continue_ _ | pass_ _ | global_ .. | import_ .. =>
    []

theorem Stmt.mem_children {s t : Stmt} {body : List Stmt} (hb : body ∈ s.bodies) (ht : t ∈ body) :
    t ∈ s.children ∨ ∃ d, .function d ∈ s.children ∧ t ∈ d.body := by
  cases s with
  | cond loc test body' otherwise =>
    rcases List.mem_cons.mp hb with rfl | hb
    · exact .inl (List.mem_append_left _ ht)
    · obtain rfl := Option.mem_toList.mp hb
      exact .inl (List.mem_append_right _ ht)
  | loop | each | function =>
    obtain rfl := List.mem_singleton.mp hb
    exact .inl ht
  | class_ loc name methods =>
    obtain ⟨d, hd, rfl⟩ := List.mem_map.mp hb
    exact .inr ⟨d, List.mem_map_of_mem hd, ht⟩
  | _ => cases hb

theorem Stmt.children_eq_nil {s : Stmt} (h : s.bodies = []) : s.children = [] := by
  cases s with
  | class_ loc name methods => rw [children, List.map_eq_nil_iff.mp h, List.map_nil]
  | cond | loop | each | function => cases h
  | _ => rfl

mutual

/-- A statement and all statements inside it, each before those inside it. -/
def Stmt.preorder : Stmt → List Stmt
  | .cond loc test body none => .cond loc test body none :: Stmt.preorders body
  | .cond loc test body (some otherwise) =>
    .cond loc test body (some otherwise) :: (Stmt.preorders body ++ Stmt.preorders otherwise)
  | .loop loc test body => .loop loc test body :: Stmt.preorders body
  | .each loc item e body => .each loc item e body :: Stmt.preorders body
  | .function d => d.preorder
  | .class_ loc name methods => .class_ loc name methods :: FunctionDef.preorders methods
  | s => [s]

def Stmt.preorders : List Stmt → List Stmt
  | [] => []
  | s :: ss => s.preorder ++ Stmt.preorders ss

def FunctionDef.preorder : FunctionDef → List Stmt
  | .mk loc name params body => .function (.mk loc name params body) :: Stmt.preorders body

def FunctionDef.preorders : List FunctionDef → List Stmt
  | [] => []
  | d :: ds => d.preorder ++ FunctionDef.preorders ds

end

theorem Stmt.preorders_eq (ss : List Stmt) : preorders ss = ss.flatMap preorder := by
  induction ss with
  | nil => rfl
  | cons s ss ih => rw [preorders, ih, List.flatMap_cons]

theorem FunctionDef.preorders_eq (ds : List FunctionDef) :
    preorders ds = (ds.map Stmt.function).flatMap Stmt.preorder := by
  induction ds with
  | nil => rfl
  | cons d ds ih => rw [preorders, ih, List.map_cons, List.flatMap_cons]; rfl

theorem Stmt.preorder_eq (s : Stmt) : s.preorder = s :: s.children.flatMap preorder := by
  cases s with
  | cond loc test body otherwise =>
    cases otherwise with
    | none => simp [preorder, children, preorders_eq]
    | some ss => simp [preorder, children, preorders_eq]
  | loop | each => simp [preorder, children, preorders_eq]
  | function d =>
    cases d
    simp [preorder, children, FunctionDef.preorder, FunctionDef.body, preorders_eq]
  | class_ => simp [preorder, children, FunctionDef.preorders_eq]
  | _ => rfl

namespace Program

/-- A statement stands in a program, `looped` if a loop of the same body is around it and `inside` if a
function is. -/
inductive Has (p : Program) : Bool → Bool → Stmt → Prop where
  | top {s : Stmt} (h : s ∈ p.statements) : Has p false false s
  | branch {looped inside : Bool} {loc : Location} {test : Expr} {body : List Stmt}
      {otherwise : Option (List Stmt)} {s : Stmt}
      (h : Has p looped inside (.cond loc test body otherwise)) (hs : s ∈ body) : Has p looped inside s
  | otherwise {looped inside : Bool} {loc : Location} {test : Expr} {body ss : List Stmt} {s : Stmt}
      (h : Has p looped inside (.cond loc test body (some ss))) (hs : s ∈ ss) : Has p looped inside s
  | loop {looped inside : Bool} {loc : Location} {test : Expr} {body : List Stmt} {s : Stmt}
      (h : Has p looped inside (.loop loc test body)) (hs : s ∈ body) : Has p true inside s
  | each {looped inside : Bool} {loc : Location} {item : String} {e : Expr} {body : List Stmt}
      {s : Stmt} (h : Has p looped inside (.each loc item e body)) (hs : s ∈ body) : Has p true inside s
  | function {looped inside : Bool} {d : FunctionDef} {s : Stmt} (h : Has p looped inside (.function d))
      (hs : s ∈ d.body) : Has p false true s
  | method {looped inside : Bool} {loc : Location} {name : String} {methods : List FunctionDef}
      {d : FunctionDef} {s : Stmt} (h : Has p looped inside (.class_ loc name methods))
      (hd : d ∈ methods) (hs : s ∈ d.body) : Has p false true s

/-- The expressions of a program. -/
inductive Says (p : Program) : Expr → Prop where
  | part {looped inside : Bool} {s : Stmt} {e : Expr} (h : p.Has looped inside s) (he : e ∈ s.parts) :
      Says p e
  | inner {e f : Expr} (h : Says p e) (hf : f ∈ e.parts) : Says p f

end Program

/-- Whether a statement may stand inside a loop or not, and inside a function or not. -/
def Stmt.mayStand (looped inside : Bool) : Stmt → Bool
  | break_ _ | continue_ _ => looped
  | return_ .. => inside
  | _ => true

namespace Program

/-- Each statement that leaves a loop or a function stands inside one. -/
def Orderly (p : Program) : Prop :=
  ∀ looped inside s, p.Has looped inside s → s.mayStand looped inside = true

/-- A statement leaves a loop or a function, wherever it stands in a program, where there is none. -/
def Misplaces (p : Program) (s : Stmt) : Prop :=
  ∀ looped inside, p.Has looped inside s → s.mayStand looped inside = false

variable {p : Program} {R : Stmt → Prop} {Q : Expr → Prop}

theorem Has.holds (h : ∀ s ∈ p.statements, s.Holds R Q) {looped inside : Bool} {s : Stmt}
    (hs : p.Has looped inside s) : s.Holds R Q := by
  induction hs with
  | top hs => exact h _ hs
  | branch _ hs ih | loop _ hs ih | each _ hs ih | function _ hs ih =>
    exact ih.body List.mem_cons_self _ hs
  | otherwise _ hs ih => exact ih.body (List.mem_cons_of_mem _ (List.mem_singleton.mpr rfl)) _ hs
  | method _ hd hs ih => exact ih.body (List.mem_map_of_mem hd) _ hs

theorem Says.holds (h : ∀ s ∈ p.statements, s.Holds R Q) {e : Expr} (he : p.Says e) : e.Holds Q := by
  induction he with
  | part hs he => exact (hs.holds h).part he
  | inner _ hf ih => exact ih.part hf

end Program

end LoopScript
