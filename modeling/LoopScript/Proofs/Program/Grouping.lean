import LoopScript.Proofs.Program.Rendering
import Mathlib.Data.List.Forall2

/-!
Expressions without brackets. A flat sequence of operands and operators is read in order off exactly one
kind of tree: the one in which every operator has the operands that its tightness allows.
-/

namespace LoopScript

namespace BinaryOp

/-- How tightly an operator binds its operands. -/
def tightness : BinaryOp → Nat
  | or_ => 1
  | and_ => 2
  | eq | ne | lt | gt | le | ge | mem | same => 3
  | bitOr => 4
  | bitXor => 5
  | bitAnd => 6
  | shiftLeft | shiftRight => 7
  | add | sub => 8
  | mul | div | mod => 9
  | pow => 10
  | other _ => 0

theorem tightness_le (op : BinaryOp) : op.tightness ≤ 10 := by
  cases op with
  | other => exact Nat.zero_le 10
  | _ => decide

theorem eq_pow_of_tightness {op : BinaryOp} (h : 10 ≤ op.tightness) : op = pow := by
  cases op <;> simp [tightness] at h ⊢

end BinaryOp

def UnaryOp.signs : List UnaryOp := [.neg, .pos, .invert]

namespace Expr

/-- How tightly the operator on top of an expression binds. Signs and atoms bind tighter than every
operator between two operands. -/
def tightness : Expr → Nat
  | .binary _ op _ _ => op.tightness
  | _ => 11

end Expr

namespace BinaryOp

/-- What may stand in front of an operator. All but powers group to the left. -/
def Leads (op : BinaryOp) (e : Expr) : Prop :=
  if op = pow then op.tightness < e.tightness else op.tightness ≤ e.tightness

/-- What may stand behind an operator. -/
def Follows (op : BinaryOp) (e : Expr) : Prop :=
  if op = pow then op.tightness ≤ e.tightness else op.tightness < e.tightness

instance (op : BinaryOp) (e : Expr) : Decidable (op.Leads e) :=
  inferInstanceAs (Decidable (if op = pow then _ < _ else _ ≤ _))

instance (op : BinaryOp) (e : Expr) : Decidable (op.Follows e) :=
  inferInstanceAs (Decidable (if op = pow then _ ≤ _ else _ < _))

variable {op : BinaryOp} {e : Expr}

theorem leads_of_tight (h : 11 ≤ e.tightness) : op.Leads e := by
  have := op.tightness_le
  unfold Leads
  split <;> omega

theorem follows_of_tight (h : 11 ≤ e.tightness) : op.Follows e := by
  have := op.tightness_le
  unfold Follows
  split <;> omega

theorem Leads.le (h : op.Leads e) : op.tightness ≤ e.tightness := by
  unfold Leads at h
  split at h
  · exact Nat.le_of_lt h
  · exact h

/-- An operator that does not have the expression behind it binds tighter than its top. -/
theorem le_of_not_follows (h : ¬ op.Follows e) : e.tightness ≤ op.tightness := by
  unfold Follows at h
  split at h <;> omega

end BinaryOp

namespace Expr

/-- A tree in which each operator has operands as its tightness allows. -/
inductive Grouped : Expr → Prop where
  | literal (loc : Location) (v : Atom) : Grouped (.literal loc v)
  | name (loc : Location) (id : String) : Grouped (.name loc id)
  | unary (loc : Location) {op : UnaryOp} {e : Expr} (hop : op ∈ UnaryOp.signs) (he : Grouped e)
      (tight : 11 ≤ e.tightness) : Grouped (.unary loc op e)
  | binary (loc : Location) {op : BinaryOp} {l r : Expr} (hop : op ∈ BinaryOp.known)
      (hl : Grouped l) (hr : Grouped r) (leads : op.Leads l) (follows : op.Follows r) :
      Grouped (.binary loc op l r)

/-- Induction along the operators between operands. -/
@[elab_as_elim]
theorem Grouped.joints {P : (e : Expr) → e.Grouped → Prop} {e : Expr} (he : e.Grouped)
    (alone : ∀ {e : Expr} (he : e.Grouped), 11 ≤ e.tightness → P e he)
    (joined : ∀ (loc : Location) {op : BinaryOp} {l r : Expr} (hop : op ∈ BinaryOp.known)
      (hl : l.Grouped) (hr : r.Grouped) (leads : op.Leads l) (follows : op.Follows r), P l hl →
      P r hr → P (.binary loc op l r) (.binary loc hop hl hr leads follows)) : P e he := by
  induction he with
  | literal | name | unary => exact alone _ (Nat.le_refl 11)
  | binary loc hop hl hr leads follows ihl ihr => exact joined loc hop hl hr leads follows ihl ihr

/-- The parts of an expression without brackets. -/
inductive Piece where
  | value (v : Atom)
  | name (id : String)
  | sign (op : UnaryOp)
  | joint (op : BinaryOp)

/-- The pieces of an expression from left to right, with their places. -/
def inOrder : Expr → List (Location × Piece)
  | .literal loc v => [(loc, .value v)]
  | .name loc id => [(loc, .name id)]
  | .unary loc op e => (loc, .sign op) :: e.inOrder
  | .binary loc op l r => l.inOrder ++ (loc, .joint op) :: r.inOrder
  | _ => []

/-- Puts an operand and an operator in front of an expression. -/
def precede (loc : Location) (op : BinaryOp) (l : Expr) : Expr → Expr
  | .binary loc' op' a b =>
    if op.Follows (.binary loc' op' a b) then .binary loc op l (.binary loc' op' a b)
    else .binary loc' op' (precede loc op l a) b
  | e => .binary loc op l e

variable {loc : Location} {op : BinaryOp} {l e : Expr}

theorem precede_of_follows (h : op.Follows e) : precede loc op l e = .binary loc op l e := by
  cases e with
  | binary loc' op' a b => rw [precede, if_pos h]
  | _ => rfl

theorem precede_of_not_follows {loc' : Location} {op' : BinaryOp} {a b : Expr}
    (h : ¬ op.Follows (.binary loc' op' a b)) :
    precede loc op l (.binary loc' op' a b) = .binary loc' op' (precede loc op l a) b := by
  rw [precede, if_neg h]

theorem inOrder_precede (he : e.Grouped) :
    (precede loc op l e).inOrder = l.inOrder ++ (loc, .joint op) :: e.inOrder := by
  induction he using Grouped.joints with
  | alone he tight =>
    rw [precede_of_follows (BinaryOp.follows_of_tight tight)]
    rfl
  | @joined loc' op' a b _ _ _ _ _ ih =>
    by_cases h : op.Follows (.binary loc' op' a b)
    · rw [precede_of_follows h]
      rfl
    · rw [precede_of_not_follows h, inOrder, ih]
      simp [inOrder]

theorem tightness_precede (he : e.Grouped) :
    min op.tightness e.tightness ≤ (precede loc op l e).tightness := by
  by_cases h : op.Follows e
  · rw [precede_of_follows h]
    exact Nat.min_le_left _ _
  · induction he using Grouped.joints with
    | alone he tight => exact absurd (BinaryOp.follows_of_tight tight) h
    | joined =>
      rw [precede_of_not_follows h]
      exact Nat.min_le_right _ _

theorem grouped_precede (hop : op ∈ BinaryOp.known) (hl : l.Grouped) (tight : 11 ≤ l.tightness)
    (he : e.Grouped) : (precede loc op l e).Grouped := by
  have top {e : Expr} (he : e.Grouped) (h : op.Follows e) : (precede loc op l e).Grouped := by
    rw [precede_of_follows h]
    exact .binary loc hop hl he (BinaryOp.leads_of_tight tight) h
  induction he using Grouped.joints with
  | alone he tight => exact top he (BinaryOp.follows_of_tight tight)
  | @joined loc' op' a b hop' ha hb leads follows ih =>
    by_cases h : op.Follows (.binary loc' op' a b)
    · exact top (.binary loc' hop' ha hb leads follows) h
    · rw [precede_of_not_follows h]
      refine .binary loc' hop' ih hb ?_ follows
      have looser : op'.tightness ≤ op.tightness := BinaryOp.le_of_not_follows h
      have left : min op.tightness a.tightness ≤ (precede loc op l a).tightness :=
        tightness_precede ha
      have inner := leads.le
      -- every operator has a power behind it
      have lower : op' ≠ .pow := by
        rintro rfl
        obtain rfl := BinaryOp.eq_pow_of_tightness looser
        exact h (Nat.le_refl 10)
      rw [BinaryOp.Leads, if_neg lower]
      omega

end Expr

namespace Token

/-- The value of a literal. -/
def value? (t : Token) : Option Atom :=
  match t.kind with
  | .number | .string => some t.literal
  | .keyword .true_ => some (.bool true)
  | .keyword .false_ => some (.bool false)
  | .keyword .none_ => some .none
  | _ => none

/-- How a piece of an expression is written. -/
def Writes (t : Token) : Expr.Piece → Prop
  | .value v => t.value? = some v
  | .name id => t.kind = .ident ∧ t.lexeme = id
  | .sign op => t.kind = op.kind ∧ t.lexeme = op.text
  | .joint op => t.kind = op.kind ∧ t.lexeme = op.text

/-- A name or a literal behind any number of signs. -/
inductive Operand : List Token → Prop where
  | value {t : Token} {v : Atom} (h : t.Writes (.value v)) : Operand [t]
  | name {t : Token} {id : String} (h : t.Writes (.name id)) : Operand [t]
  | signed {t : Token} {op : UnaryOp} {ts : List Token} (hop : op ∈ UnaryOp.signs)
      (h : t.Writes (.sign op)) (hts : Operand ts) : Operand (t :: ts)

/-- Operands with an operator between each and the next. -/
inductive Flat : List Token → Prop where
  | operand {ts : List Token} (h : Operand ts) : Flat ts
  | joined {t : Token} {op : BinaryOp} {ts us : List Token} (hts : Operand ts)
      (hop : op ∈ BinaryOp.known) (h : t.Writes (.joint op)) (hus : Flat us) : Flat (ts ++ t :: us)

end Token

/-- A token stands for a piece of an expression, and where it stands. -/
structure Origin.Marks (o : Origin) (t : Token) (x : Location × Expr.Piece) : Prop where
  place : x.1 = o.locate t
  writes : t.Writes x.2

namespace Token

variable {ts : List Token}

open List (Forall₂)

theorem Operand.exists_grouped (o : Origin) (h : Operand ts) :
    ∃ e : Expr, e.Grouped ∧ 11 ≤ e.tightness ∧ Forall₂ o.Marks ts e.inOrder := by
  induction h with
  | @value t v h =>
    exact ⟨.literal (o.locate t) v, .literal _ v, Nat.le_refl 11, .cons ⟨rfl, h⟩ .nil⟩
  | @name t id h => exact ⟨.name (o.locate t) id, .name _ id, Nat.le_refl 11, .cons ⟨rfl, h⟩ .nil⟩
  | @signed t op ts hop h _ ih =>
    obtain ⟨e, grouped, tight, marks⟩ := ih
    exact ⟨.unary (o.locate t) op e, .unary _ hop grouped tight, Nat.le_refl 11,
      .cons ⟨rfl, h⟩ marks⟩

/-- Every flat sequence has a tree. -/
theorem Flat.exists_grouped (o : Origin) (h : Flat ts) :
    ∃ e : Expr, e.Grouped ∧ Forall₂ o.Marks ts e.inOrder := by
  induction h with
  | operand h =>
    obtain ⟨e, grouped, -, marks⟩ := h.exists_grouped o
    exact ⟨e, grouped, marks⟩
  | @joined t op ts us hts hop h _ ih =>
    obtain ⟨l, grouped, tight, marks⟩ := hts.exists_grouped o
    obtain ⟨e, grouped', marks'⟩ := ih
    refine ⟨Expr.precede (o.locate t) op l e, Expr.grouped_precede hop grouped tight grouped', ?_⟩
    rw [Expr.inOrder_precede grouped']
    exact List.rel_append marks (.cons ⟨rfl, h⟩ marks')

end Token

end LoopScript
