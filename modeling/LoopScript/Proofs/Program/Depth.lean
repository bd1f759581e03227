import LoopScript.Program.Parser
import LoopScript.Proofs.Program.Reading

/-!
The depth of reading: a reader that does not run out of its depth reads the same at every greater
one.
-/

namespace LoopScript

open Token (Kind)

namespace Reader

/-- Wherever the first of two readers does not run out, the other one does as it does. -/
def Deepens {α : Type} (x y : Reader α) : Prop :=
  ∀ ts, x ts = .error .ranOut ∨ y ts = x ts

section Rules

variable {α β : Type} {x y : Reader α} {f g : α → Reader β}

theorem deepens_refl (x : Reader α) : Deepens x x := fun _ => .inr rfl

theorem deepens_tooDeep : Deepens tooDeep x := fun _ => .inl rfl

theorem Deepens.bind (hx : Deepens x y) (hf : ∀ a, Deepens (f a) (g a)) :
    Deepens (x >>= f) (y >>= g) := by
  intro ts
  simp only [Bind.bind, StateT.bind, Except.bind]
  rcases hx ts with h | h
  · exact .inl (by rw [h])
  · rw [h]
    split
    · exact .inr rfl
    · exact hf _ _

theorem deepens_bind (x : Reader α) (hf : ∀ a, Deepens (f a) (g a)) :
    Deepens (x >>= f) (x >>= g) :=
  (deepens_refl x).bind hf

theorem Deepens.pure (hx : Deepens x y) (h : α → β) :
    Deepens (x >>= fun a => Pure.pure (h a)) (y >>= fun a => Pure.pure (h a)) :=
  hx.bind fun _ => deepens_refl _

theorem Deepens.map (hx : Deepens x y) (h : α → β) : Deepens (h <$> x) (h <$> y) := by
  rw [← bind_pure_comp, ← bind_pure_comp]
  exact hx.pure h

theorem deepens_ite {c : Prop} [Decidable c] {x' y' : Reader α} (hx : Deepens x x')
    (hy : Deepens y y') : Deepens (if c then x else y) (if c then x' else y') := by
  split
  · exact hx
  · exact hy

theorem deepens_names (what : String) (n : Nat) : Deepens (names what n) (names what (n + 1)) := by
  induction n with
  | zero => exact deepens_tooDeep
  | succ n ih =>
    refine deepens_bind _ fun _ => deepens_bind _ fun _ => ?_
    exact deepens_ite (ih.pure _) (deepens_refl _)

theorem deepens_parameters (seen : List String) (n : Nat) :
    Deepens (parameters seen n) (parameters seen (n + 1)) := by
  induction n generalizing seen with
  | zero => exact deepens_tooDeep
  | succ n ih =>
    refine deepens_bind _ fun _ => deepens_ite (deepens_refl _) (deepens_bind _ fun _ => ?_)
    refine deepens_ite (deepens_bind _ fun _ => ?_) (deepens_refl _)
    exact deepens_ite (deepens_refl _) ((ih _).pure _)

end Rules

section Expressions

variable (o : Origin) (n : Nat)

/-- One level more changes nothing for the readers of expressions. -/
structure DeepensExpressions : Prop where
  expression : Deepens (expression o n) (expression o (n + 1))
  chain (level : Level) : Deepens (chain o n level) (chain o (n + 1) level)
  links (level : Level) (left : Expr) : Deepens (links o n level left) (links o (n + 1) level left)
  operand (level : Level) : Deepens (operand o n level) (operand o (n + 1) level)
  negation : Deepens (negation o n) (negation o (n + 1))
  power : Deepens (power o n) (power o (n + 1))
  signed : Deepens (signed o n) (signed o (n + 1))
  postfixed (base : Expr) : Deepens (postfixed o n base) (postfixed o (n + 1) base)
  arguments (seen : List String) : Deepens (arguments o n seen) (arguments o (n + 1) seen)
  moreArguments (seen : List String) :
    Deepens (moreArguments o n seen) (moreArguments o (n + 1) seen)
  subscript (loc : Location) (base : Expr) :
    Deepens (subscript o n loc base) (subscript o (n + 1) loc base)
  slice (loc : Location) (base : Expr) (start : Option Expr) :
    Deepens (slice o n loc base start) (slice o (n + 1) loc base start)
  atom : Deepens (atom o n) (atom o (n + 1))
  parenthesized (loc : Location) : Deepens (parenthesized o n loc) (parenthesized o (n + 1) loc)
  items (closer : Kind) : Deepens (items o n closer) (items o (n + 1) closer)
  bracketed (loc : Location) : Deepens (bracketed o n loc) (bracketed o (n + 1) loc)
  dictEntries : Deepens (dictEntries o n) (dictEntries o (n + 1))

variable {o n} (ih : DeepensExpressions o n)

include ih

theorem deepens_expression : Deepens (expression o (n + 1)) (expression o (n + 2)) := by
  refine deepens_bind _ fun t => deepens_ite ?_ (ih.chain _)
  refine deepens_bind _ fun _ => deepens_bind _ fun _ => ?_
  have body (params : List String) : Deepens
      (do let _ ← expect (sign .colon) "':' after lambda parameters"
          pure (Expr.lambda (o.locate t) params (← chain o n .disjunction)))
      (do let _ ← expect (sign .colon) "':' after lambda parameters"
          pure (Expr.lambda (o.locate t) params (← chain o (n + 1) .disjunction))) :=
    deepens_bind _ fun _ => (ih.chain _).pure _
  dsimp only
  exact deepens_ite (body []) ((deepens_names _ n).bind body)

theorem deepens_chain (level : Level) : Deepens (chain o (n + 1) level) (chain o (n + 2) level) :=
  (ih.operand level).bind fun left => ih.links level left

theorem deepens_links (level : Level) (left : Expr) :
    Deepens (links o (n + 1) level left) (links o (n + 2) level left) := by
  refine deepens_bind _ fun t => deepens_ite (deepens_bind _ fun _ => ?_) (deepens_refl _)
  exact (ih.operand level).bind fun right => ih.links level _

theorem deepens_operand (level : Level) :
    Deepens (operand o (n + 1) level) (operand o (n + 2) level) := by
  cases level with
  | conjunction => exact ih.negation
  | product => exact ih.power
  | _ => exact ih.chain _

theorem deepens_negation : Deepens (negation o (n + 1)) (negation o (n + 2)) := by
  refine deepens_bind _ fun t => deepens_ite (deepens_bind _ fun _ => ?_) (ih.chain _)
  exact ih.negation.pure _

theorem deepens_power : Deepens (power o (n + 1)) (power o (n + 2)) := by
  refine ih.signed.bind fun base => deepens_bind _ fun t => ?_
  exact deepens_ite (deepens_bind _ fun _ => ih.power.pure _) (deepens_refl _)

theorem deepens_signed : Deepens (signed o (n + 1)) (signed o (n + 2)) := by
  refine deepens_bind _ fun t => deepens_ite (deepens_bind _ fun _ => ih.signed.pure _) ?_
  exact ih.atom.bind fun base => ih.postfixed base

theorem deepens_postfixed (base : Expr) :
    Deepens (postfixed o (n + 1) base) (postfixed o (n + 2) base) := by
  refine deepens_bind _ fun t => deepens_ite (deepens_bind _ fun _ => ?_) ?_
  · exact (ih.arguments []).bind fun _ => ih.postfixed _
  refine deepens_ite (deepens_bind _ fun _ => ?_) ?_
  · exact (ih.subscript _ _).bind fun _ => ih.postfixed _
  refine deepens_ite (deepens_bind _ fun _ => ?_) (deepens_refl _)
  exact deepens_bind _ fun _ => ih.postfixed _

theorem deepens_arguments (seen : List String) :
    Deepens (arguments o (n + 1) seen) (arguments o (n + 2) seen) := by
  refine deepens_bind _ fun t => deepens_ite (deepens_refl _) (deepens_bind _ fun _ => ?_)
  refine deepens_ite (deepens_bind _ fun _ => deepens_bind _ fun _ => ?_) ?_
  · refine deepens_ite (deepens_refl _) (ih.expression.bind fun _ => ?_)
    exact (ih.moreArguments _).bind fun _ => deepens_refl _
  · refine deepens_ite (deepens_refl _) (ih.expression.bind fun _ => ?_)
    exact (ih.moreArguments _).bind fun _ => deepens_refl _

theorem deepens_moreArguments (seen : List String) :
    Deepens (moreArguments o (n + 1) seen) (moreArguments o (n + 2) seen) :=
  deepens_bind _ fun _ => deepens_ite (ih.arguments seen) (deepens_refl _)

theorem deepens_subscript (loc : Location) (base : Expr) :
    Deepens (subscript o (n + 1) loc base) (subscript o (n + 2) loc base) := by
  refine deepens_bind _ fun _ => deepens_ite (ih.slice _ _ _) (ih.expression.bind fun _ => ?_)
  exact deepens_bind _ fun _ => deepens_ite (ih.slice _ _ _) (deepens_refl _)

theorem deepens_slice (loc : Location) (base : Expr) (start : Option Expr) :
    Deepens (slice o (n + 1) loc base start) (slice o (n + 2) loc base start) := by
  refine deepens_bind _ fun _ => ?_
  dsimp only
  have rest (stop : Option Expr) := deepens_bind (accept (sign .colon)) fun b =>
    deepens_ite (c := b = true)
      (deepens_bind peekKind fun k => deepens_ite (c := k = sign .rbracket)
        (deepens_refl (do
          let _ ← expect (sign .rbracket) "']'"
          pure (Expr.slice loc base start stop none)))
        ((ih.expression.map some).bind fun step => deepens_refl (do
          let _ ← expect (sign .rbracket) "']'"
          pure (Expr.slice loc base start stop step))))
      (deepens_refl (do
        let _ ← expect (sign .rbracket) "']'"
        pure (Expr.slice loc base start stop none)))
  exact deepens_ite (rest none) ((ih.expression.map some).bind rest)

theorem deepens_atom : Deepens (atom o (n + 1)) (atom o (n + 2)) := by
  refine deepens_bind _ fun t => ?_
  dsimp only
  split
  case h_7 => exact deepens_bind _ fun _ => ih.parenthesized _
  case h_8 => exact deepens_bind _ fun _ => ih.bracketed _
  case h_9 => exact deepens_bind _ fun _ => ih.dictEntries.bind fun _ => deepens_refl _
  all_goals exact deepens_refl _

theorem deepens_parenthesized (loc : Location) :
    Deepens (parenthesized o (n + 1) loc) (parenthesized o (n + 2) loc) := by
  refine deepens_bind _ fun _ => deepens_ite (deepens_refl _) (ih.expression.bind fun _ => ?_)
  refine deepens_bind _ fun _ => deepens_ite ?_ (deepens_refl _)
  exact (ih.items _).bind fun _ => deepens_refl _

theorem deepens_items (closer : Kind) :
    Deepens (items o (n + 1) closer) (items o (n + 2) closer) := by
  refine deepens_bind _ fun _ => deepens_ite (deepens_refl _) (ih.expression.bind fun _ => ?_)
  exact deepens_bind _ fun _ => deepens_ite ((ih.items closer).pure _) (deepens_refl _)

theorem deepens_bracketed (loc : Location) :
    Deepens (bracketed o (n + 1) loc) (bracketed o (n + 2) loc) := by
  refine deepens_bind _ fun _ => deepens_ite (deepens_refl _) (ih.expression.bind fun _ => ?_)
  refine deepens_bind _ fun _ => deepens_ite ?_ (deepens_bind _ fun _ => ?_)
  · refine deepens_bind _ fun _ => deepens_bind _ fun _ => ih.expression.bind fun _ => ?_
    refine deepens_bind _ fun _ => ?_
    dsimp only
    exact deepens_ite ((ih.expression.map some).bind fun _ => deepens_refl _) (deepens_refl _)
  · dsimp only
    exact deepens_ite ((ih.items _).bind fun _ => deepens_refl _) (deepens_refl _)

theorem deepens_dictEntries : Deepens (dictEntries o (n + 1)) (dictEntries o (n + 2)) := by
  refine deepens_bind _ fun _ => deepens_ite (deepens_refl _) (ih.expression.bind fun _ => ?_)
  refine deepens_bind _ fun _ => ih.expression.bind fun _ => deepens_bind _ fun _ => ?_
  exact deepens_ite (ih.dictEntries.pure _) (deepens_refl _)

omit ih

theorem deepensExpressions : DeepensExpressions o n := by
  induction n with
  | zero => constructor <;> intros <;> exact deepens_tooDeep
  | succ n ih =>
    exact ⟨deepens_expression ih, deepens_chain ih, deepens_links ih, deepens_operand ih,
      deepens_negation ih, deepens_power ih, deepens_signed ih, deepens_postfixed ih,
      deepens_arguments ih, deepens_moreArguments ih, deepens_subscript ih, deepens_slice ih,
      deepens_atom ih, deepens_parenthesized ih, deepens_items ih, deepens_bracketed ih,
      deepens_dictEntries ih⟩

end Expressions

section Statements

variable {o : Origin} {n : Nat}

theorem deepens_newlines : Deepens (newlines n) (newlines (n + 1)) := by
  induction n with
  | zero => exact deepens_tooDeep
  | succ n ih => exact deepens_bind _ fun _ => deepens_ite ih (deepens_refl _)

theorem deepens_statementEnd : Deepens (statementEnd n) (statementEnd (n + 1)) :=
  deepens_bind _ fun _ => deepens_ite (deepens_refl _) (deepens_ite deepens_newlines (deepens_refl _))

theorem deepens_assignmentOrExpression (loc : Location) :
    Deepens (assignmentOrExpression o n loc) (assignmentOrExpression o (n + 1) loc) := by
  refine deepensExpressions.expression.bind fun e => deepens_bind _ fun t => ?_
  refine deepens_ite (deepens_bind _ fun _ => ?_) (deepens_refl _)
  split
  · exact deepens_refl _
  · exact deepensExpressions.expression.pure _

theorem deepens_simpleBody : Deepens (simpleBody o n) (simpleBody o (n + 1)) := by
  refine deepens_bind _ fun t => ?_
  dsimp only
  split
  case h_1 =>
    refine deepens_bind _ fun _ => deepens_bind _ fun _ => deepens_ite (deepens_refl _) ?_
    exact deepensExpressions.expression.pure _
  case h_5 =>
    refine deepens_bind _ fun _ => deepens_bind _ fun _ => deepens_bind _ fun _ => ?_
    exact deepens_ite ((deepens_names _ n).pure _) (deepens_refl _)
  case h_7 => exact deepens_assignmentOrExpression _
  all_goals exact deepens_refl _

theorem deepens_simple : Deepens (simple o n) (simple o (n + 1)) :=
  deepens_simpleBody.bind fun _ => deepens_statementEnd.pure _

variable (o n) in
/-- One level more changes nothing for the readers of statements. -/
structure DeepensStatements : Prop where
  statement : Deepens (statement o n) (statement o (n + 1))
  alternative : Deepens (alternative o n) (alternative o (n + 1))
  functionDef : Deepens (functionDef o n) (functionDef o (n + 1))
  classDef : Deepens (classDef o n) (classDef o (n + 1))
  methodDefs : Deepens (methodDefs o n) (methodDefs o (n + 1))
  suite : Deepens (suite o n) (suite o (n + 1))
  statements : Deepens (statements o n) (statements o (n + 1))

variable (ih : DeepensStatements o n)

include ih

theorem deepens_statement : Deepens (statement o (n + 1)) (statement o (n + 2)) := by
  refine deepens_bind _ fun t => ?_
  dsimp only
  split
  case h_1 =>
    refine deepens_bind _ fun _ => deepensExpressions.expression.bind fun _ => ?_
    exact deepens_bind _ fun _ => ih.suite.bind fun _ => ih.alternative.pure _
  case h_2 =>
    refine deepens_bind _ fun _ => deepensExpressions.expression.bind fun _ => ?_
    exact deepens_bind _ fun _ => ih.suite.pure _
  case h_3 =>
    refine deepens_bind _ fun _ => deepens_bind _ fun _ => deepens_bind _ fun _ => ?_
    exact deepensExpressions.expression.bind fun _ => deepens_bind _ fun _ => ih.suite.pure _
  case h_4 => exact ih.functionDef.map _
  case h_5 => exact ih.classDef
  case h_6 => exact deepens_simple

theorem deepens_alternative : Deepens (alternative o (n + 1)) (alternative o (n + 2)) := by
  refine deepens_bind _ fun t => deepens_ite ?_ ?_
  · refine deepens_bind _ fun _ => deepensExpressions.expression.bind fun _ => ?_
    exact deepens_bind _ fun _ => ih.suite.bind fun _ => ih.alternative.pure _
  · refine deepens_bind _ fun _ => deepens_ite ?_ (deepens_refl _)
    exact deepens_bind _ fun _ => ih.suite.map _

theorem deepens_functionDef : Deepens (functionDef o (n + 1)) (functionDef o (n + 2)) := by
  refine deepens_bind _ fun t => deepens_bind _ fun name => deepens_bind _ fun _ => ?_
  refine deepens_bind _ fun _ => ?_
  dsimp only
  have rest (params : List String) := deepens_bind (expect (sign .rparen) "')' after parameters")
    fun _ => deepens_bind (expect (sign .colon) "':' after function signature") fun _ =>
      ih.suite.pure (FunctionDef.mk (o.locate t) name.lexeme params)
  exact deepens_ite (rest []) ((deepens_parameters _ n).bind rest)

theorem deepens_classDef : Deepens (classDef o (n + 1)) (classDef o (n + 2)) := by
  refine deepens_bind _ fun _ => deepens_bind _ fun _ => deepens_bind _ fun _ => ?_
  refine deepens_bind _ fun _ => deepens_ite ?_ (deepens_ite ?_ (deepens_refl _))
  · refine deepens_bind _ fun _ => deepens_bind _ fun _ => ih.methodDefs.bind fun _ => ?_
    exact deepens_refl _
  · exact deepens_bind _ fun _ => deepens_statementEnd.bind fun _ => deepens_refl _

theorem deepens_methodDefs : Deepens (methodDefs o (n + 1)) (methodDefs o (n + 2)) := by
  refine deepens_bind _ fun _ => deepens_ite (deepens_refl _) (deepens_bind _ fun _ => ?_)
  refine deepens_ite ih.methodDefs (deepens_ite ?_ (deepens_bind _ fun _ => ?_))
  · exact ih.functionDef.bind fun _ => ih.methodDefs.pure _
  · exact deepens_ite (deepens_statementEnd.bind fun _ => ih.methodDefs) (deepens_refl _)

theorem deepens_suite : Deepens (suite o (n + 1)) (suite o (n + 2)) := by
  refine deepens_bind _ fun _ => deepens_ite (deepens_bind _ fun _ => ?_) (deepens_simple.pure _)
  exact ih.statements.bind fun _ => deepens_refl _

theorem deepens_statements : Deepens (statements o (n + 1)) (statements o (n + 2)) := by
  refine deepens_bind _ fun _ => deepens_ite (deepens_refl _) (deepens_bind _ fun _ => ?_)
  exact deepens_ite ih.statements (ih.statement.bind fun _ => ih.statements.pure _)

omit ih

theorem deepensStatements : DeepensStatements o n := by
  induction n with
  | zero => constructor <;> exact deepens_tooDeep
  | succ n ih =>
    exact ⟨deepens_statement ih, deepens_alternative ih, deepens_functionDef ih, deepens_classDef ih,
      deepens_methodDefs ih, deepens_suite ih, deepens_statements ih⟩

theorem deepens_topLevel : Deepens (topLevel o n) (topLevel o (n + 1)) := by
  induction n with
  | zero => exact deepens_tooDeep
  | succ n ih =>
    refine deepens_bind _ fun _ => deepens_ite (deepens_refl _) (deepens_bind _ fun _ => ?_)
    exact deepens_ite ih (deepensStatements.statement.bind fun _ => ih.pure _)

theorem deepens_program : Deepens (program o n) (program o (n + 1)) :=
  deepens_topLevel.bind fun _ => deepens_refl _

end Statements

/-- A program that is read, or refused, at some depth is so at every greater depth. -/
theorem program_of_le {o : Origin} {m n : Nat} {ts : List Token} (h : m ≤ n)
    (hm : program o m ts ≠ .error .ranOut) : program o n ts = program o m ts := by
  induction h with
  | refl => rfl
  | step _ ih => exact ((deepens_program ts).resolve_left (by rwa [ih])).trans ih

end Reader

end LoopScript
