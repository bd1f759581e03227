import LoopScript.Proofs.Program.Settling

/-!
The loops of the parser, round by round: each round takes a token before the end mark, or it is the
last one.
-/

namespace LoopScript

open Token (Kind)

namespace Reader

/-- What a round of a loop comes to: the end of the loop, or a further round whose result is
completed by what this one has read. -/
inductive Round (σ α : Type) where
  | done (result : α)
  | again (state : σ) (complete : α → α)

/-- The tokens that a round must have taken. -/
def Round.took {σ α : Type} : Round σ α → Nat
  | done _ => 0
  | again _ _ => 1

/-- A reader that is a loop: it begins with a round, and goes on as the round says. -/
structure Loop where
  State : Type
  Result : Type
  read : Nat → State → Reader Result
  round : Nat → State → Reader (Round State Result)
  /-- How much of its depth a round takes. -/
  stride : Nat
  read_add : ∀ n s, read (n + stride) s = round n s >>= fun
    | .done result => pure result
    | .again next complete => complete <$> read n next

/-- With the depth that so many tokens allow, each round ends the loop or takes a token, or a token is
refused; and no token behind the end mark has a part in it. -/
def Loop.Advances (l : Loop) : Prop :=
  ∀ (e : Token) (ts : List Token) (n : Nat) (s : l.State), e.kind = .eof →
    40 * (ts.length + 1) ≤ n → Outcome (ts ++ [e]) e Round.took (l.round n s) ts

theorem ite_bind {α β : Type} {c : Prop} [Decidable c] (x y : Reader α) (f : α → Reader β) :
    (if c then x else y) >>= f = if c then x >>= f else y >>= f := by
  split <;> rfl

theorem refuse_bind {α β : Type} (fault : ParseFault) (line : Nat) (f : α → Reader β) :
    (refuse fault line : Reader α) >>= f = refuse fault line := rfl

namespace Loop

def names : Loop where
  State := String
  Result := List String
  read n what := Reader.names what n
  round _ what := do
    let t ← expect .ident what
    if ← accept (sign .comma) then pure (.again what (t.lexeme :: ·))
    else pure (.done [t.lexeme])
  stride := 1
  read_add n what := by
    simp only [Reader.names, bind_assoc, ite_bind, pure_bind, bind_pure_comp]

def parameters : Loop where
  State := List String
  Result := List String
  read n seen := Reader.parameters seen n
  round _ seen := do
    let t ← expect .ident "parameter name"
    if t.lexeme ∈ seen then refuse (.duplicateParameter t.lexeme) t.line
    else if ← accept (sign .comma) then
      if (← peekKind) = sign .rparen then pure (.done [t.lexeme])
      else pure (.again (t.lexeme :: seen) (t.lexeme :: ·))
    else pure (.done [t.lexeme])
  stride := 1
  read_add n seen := by
    simp only [Reader.parameters, bind_assoc, ite_bind, pure_bind, ← bind_pure_comp, refuse_bind]

def newlines : Loop where
  State := Unit
  Result := Unit
  read n _ := Reader.newlines n
  round _ _ := do
    if ← accept .newline then pure (.again () id) else pure (.done ())
  stride := 1
  read_add n _ := by
    simp only [Reader.newlines, bind_assoc, ite_bind, pure_bind, id_map]

variable (o : Origin)

def links : Loop where
  State := Level × Expr
  Result := Expr
  read n s := Reader.links o n s.1 s.2
  round n s := do
    let t ← peek
    if t.kind ∈ s.1.operators then
      skip
      let right ← operand o n s.1
      pure (.again (s.1, .binary (o.locate t) (s.1.operator t) s.2 right) id)
    else pure (.done s.2)
  stride := 1
  read_add n s := by
    simp only [Reader.links, bind_assoc, ite_bind, pure_bind, id_map]

def postfixed : Loop where
  State := Expr
  Result := Expr
  read n base := Reader.postfixed o n base
  round n base := do
    let t ← peek
    if t.kind = sign .lparen then
      skip
      let (args, named) ← Reader.arguments o n []
      pure (.again (.call (o.locate t) base args named) id)
    else if t.kind = sign .lbracket then
      skip
      pure (.again (← subscript o n (o.locate t) base) id)
    else if t.kind = sign .dot then
      skip
      let name ← expect .ident "member name after '.'"
      pure (.again (.member (o.locate t) base name.lexeme) id)
    else pure (.done base)
  stride := 1
  read_add n base := by
    simp only [Reader.postfixed, bind_assoc, ite_bind, pure_bind, id_map]

/-- The arguments of a call; what stands between two of them is read one level below them. -/
def arguments : Loop where
  State := List String
  Result := List Expr × List (String × Expr)
  read n seen := Reader.arguments o n seen
  round n seen := do
    let t ← peek
    if t.kind = sign .rparen then
      skip
      pure (.done ([], []))
    else if t.kind = .ident ∧ (← peekSecond) = sign .equal then
      skip
      skip
      if t.lexeme ∈ seen then refuse (.duplicateKeyword t.lexeme) t.line
      else
        let value ← expression o (n + 1)
        if ← accept (sign .comma) then
          pure (.again (t.lexeme :: seen) fun (args, named) => (args, (t.lexeme, value) :: named))
        else
          let _ ← expect (sign .rparen) "')' after arguments"
          pure (.done ([], [(t.lexeme, value)]))
    else if seen ≠ [] then refuse .positionalAfterKeyword t.line
    else
      let value ← expression o (n + 1)
      if ← accept (sign .comma) then
        pure (.again seen fun (args, named) => (value :: args, named))
      else
        let _ ← expect (sign .rparen) "')' after arguments"
        pure (.done ([value], []))
  stride := 2
  read_add n seen := by
    simp only [Reader.arguments, moreArguments, bind_assoc, ite_bind, pure_bind, ← bind_pure_comp,
      refuse_bind]

def items : Loop where
  State := Kind
  Result := List Expr
  read n closer := Reader.items o n closer
  round n closer := do
    if (← peekKind) = closer then pure (.done [])
    else
      let item ← expression o n
      if ← accept (sign .comma) then pure (.again closer (item :: ·))
      else pure (.done [item])
  stride := 1
  read_add n closer := by
    simp only [Reader.items, bind_assoc, ite_bind, pure_bind, bind_pure_comp]

def dictEntries : Loop where
  State := Unit
  Result := List (Expr × Expr)
  read n _ := Reader.dictEntries o n
  round n _ := do
    if (← peekKind) = sign .rbrace then pure (.done [])
    else
      let key ← expression o n
      let _ ← expect (sign .colon) "':' in dictionary literal"
      let value ← expression o n
      if ← accept (sign .comma) then pure (.again () ((key, value) :: ·))
      else pure (.done [(key, value)])
  stride := 1
  read_add n _ := by
    simp only [Reader.dictEntries, bind_assoc, ite_bind, pure_bind, bind_pure_comp]

def alternative : Loop where
  State := Unit
  Result := Option (List Stmt)
  read n _ := Reader.alternative o n
  round n _ := do
    let t ← peek
    if t.kind = word .elif_ then
      skip
      let test ← expression o n
      let _ ← expect (sign .colon) "':' after elif condition"
      let body ← suite o n
      pure (.again () fun rest => some [.cond (o.locate t) test body rest])
    else if ← accept (word .else_) then
      let _ ← expect (sign .colon) "':' after else"
      pure (.done (some (← suite o n)))
    else pure (.done none)
  stride := 1
  read_add n _ := by
    simp only [Reader.alternative, bind_assoc, ite_bind, pure_bind, ← bind_pure_comp]

def methodDefs : Loop where
  State := Unit
  Result := List FunctionDef
  read n _ := Reader.methodDefs o n
  round n _ := do
    let t ← peek
    if t.kind = .dedent ∨ t.kind = .eof then pure (.done [])
    else if ← accept .newline then pure (.again () id)
    else if t.kind = word .def_ then
      let method ← functionDef o n
      pure (.again () (method :: ·))
    else if ← accept (word .pass_) then
      statementEnd n
      pure (.again () id)
    else refuse .onlyMethods t.line
  stride := 1
  read_add n _ := by
    simp only [Reader.methodDefs, bind_assoc, ite_bind, pure_bind, ← bind_pure_comp, id_eq,
      bind_pure, refuse_bind]

def statements : Loop where
  State := Unit
  Result := List Stmt
  read n _ := Reader.statements o n
  round n _ := do
    let t ← peek
    if t.kind = .dedent ∨ t.kind = .eof then pure (.done [])
    else if ← accept .newline then pure (.again () id)
    else
      let s ← statement o n
      pure (.again () (s :: ·))
  stride := 1
  read_add n _ := by
    simp only [Reader.statements, bind_assoc, ite_bind, pure_bind, ← bind_pure_comp, id_eq,
      bind_pure]

def topLevel : Loop where
  State := Unit
  Result := List Stmt
  read n _ := Reader.topLevel o n
  round n _ := do
    let t ← peek
    if t.kind = .eof then pure (.done [])
    else if ← accept .newline then pure (.again () id)
    else
      let s ← statement o n
      pure (.again () (s :: ·))
  stride := 1
  read_add n _ := by
    simp only [Reader.topLevel, bind_assoc, ite_bind, pure_bind, ← bind_pure_comp, id_eq,
      bind_pure]

end Loop

/-- Every loop of the parser. -/
def loops (o : Origin) : List Loop :=
  [.names, .parameters, .newlines, .links o, .postfixed o, .arguments o, .items o, .dictEntries o,
    .alternative o, .methodDefs o, .statements o, .topLevel o]

namespace Loop

section Advances

variable {T : List Token} {e : Token} {ts : List Token} {n : Nat} (he : e.kind = .eof) (heT : e ∈ T)
  (hn : 40 * (ts.length + 1) ≤ n) {o : Origin}

include he heT

theorem names_round (what : String) : Settles T e Round.took (names.round n what) ts := by
  refine settles_expect he heT (by nofun) fun t _ us hus => ?_
  exact settles_accept he heT (by nofun) (fun vs hvs => settles_pure rfl) (settles_pure rfl)

theorem parameters_round (seen : List String) :
    Settles T e Round.took (parameters.round n seen) ts := by
  refine settles_expect he heT (by nofun) fun t ht us hus => ?_
  split
  · exact settles_refuse _ ht
  refine settles_accept he heT (by nofun) (fun vs hvs => ?_) (settles_pure rfl)
  refine settles_peekKind heT fun u _ _ => ?_
  split <;> exact settles_pure rfl

theorem newlines_round : Settles T e Round.took (newlines.round n ()) ts :=
  settles_accept he heT (by nofun) (fun us hus => settles_pure rfl) (settles_pure rfl)

include hn

theorem links_round (s : Level × Expr) : Settles T e Round.took ((links o).round n s) ts := by
  obtain ⟨-, reach⟩ := s.1.reach_bounds
  refine settles_peek heT fun t _ ht => ?_
  split
  next operator =>
    refine settles_skip he ht (Level.ne_eof operator) fun us hus => ?_
    exact ((takesExpressions he heT).operand s.1 (by omega)).seq fun _ _ _ => settles_pure rfl
  next => exact settles_pure rfl

theorem postfixed_round (base : Expr) :
    Settles T e Round.took ((postfixed o).round n base) ts := by
  refine settles_peek heT fun t _ ht => ?_
  split
  next paren =>
    refine settles_skip he ht (by rw [paren]; nofun) fun us hus => ?_
    exact ((takesExpressions he heT).arguments [] (by omega)).seq fun _ _ _ => settles_pure rfl
  split
  next bracket =>
    refine settles_skip he ht (by rw [bracket]; nofun) fun us hus => ?_
    exact ((takesExpressions he heT).subscript _ _ (by omega)).seq fun _ _ _ => settles_pure rfl
  split
  next dot =>
    refine settles_skip he ht (by rw [dot]; nofun) fun us hus => ?_
    exact settles_expect he heT (by nofun) fun _ _ _ _ => settles_pure rfl
  next => exact settles_pure rfl

theorem arguments_round (seen : List String) :
    Settles T e Round.took ((arguments o).round n seen) ts := by
  -- A value is followed by a further round or by the bracket that ends the loop.
  have value (next : Expr → Round (List String) (List Expr × List (String × Expr)))
      (last : Expr → List Expr × List (String × Expr))
      {took : Round (List String) (List Expr × List (String × Expr)) → Nat}
      (few : ∀ r, took r ≤ 1) {us : List Token} (hus : us.length ≤ ts.length) :
      Settles T e took (do
        let value ← expression o (n + 1)
        if ← accept (sign .comma) then pure (next value)
        else
          let _ ← expect (sign .rparen) "')' after arguments"
          pure (.done (last value))) us := by
    refine ((takesExpressions he heT).expression (by omega)).bind fun v vs hvs => ?_
    refine settles_accept he heT (by nofun) (fun ws hws => settles_pure ?_) ?_
    · have one := few (next v)
      omega
    · refine settles_expect he heT (by nofun) fun _ _ _ _ => settles_pure ?_
      have one := few (.done (last v))
      omega
  have few (r : Round (List String) (List Expr × List (String × Expr))) : r.took ≤ 1 := by
    cases r <;> simp [Round.took]
  refine settles_peek heT fun t hm ht => ?_
  split
  next paren =>
    exact settles_skip he ht (by rw [paren]; nofun) fun us hus => settles_pure rfl
  refine settles_peekSecond ?_ fun second hsecond => ?_
  · rintro rfl a b
    have other : t.kind ≠ .ident := by
      rw [← ht, List.headD_nil, he]
      nofun
    have out (a : Kind) : ¬(t.kind = .ident ∧ a = sign .equal) := fun h => other h.1
    rw [if_neg (out a), if_neg (out b)]
  split
  next named =>
    refine settles_skip_cons he ht (by rw [named.1]; nofun) fun us hus => ?_
    have equal : (us.headD e).kind = sign .equal := by rw [← hsecond t us hus, named.2]
    have hus : us.length + 1 = ts.length := by rw [hus, List.length_cons]
    refine settles_skip he rfl (by rw [equal]; nofun) fun vs hvs => ?_
    split
    · exact settles_refuse _ hm
    · refine value (fun v => .again _ fun (args, named) => (args, (t.lexeme, v) :: named)) _ ?_ ?_
      · exact fun r => Nat.le_trans (Nat.sub_le _ 1) (Nat.le_trans (Nat.sub_le _ 1) (few r))
      · omega
  split
  · exact settles_refuse _ hm
  · exact value (fun v => .again seen fun (args, named) => (v :: args, named)) _ few (Nat.le_refl _)

theorem items_round (closer : Kind) : Settles T e Round.took ((items o).round n closer) ts := by
  refine settles_peekKind heT fun u _ _ => ?_
  split
  · exact settles_pure rfl
  refine ((takesExpressions he heT).expression (by omega)).seq fun item us hus => ?_
  exact settles_accept he heT (by nofun) (fun _ _ => settles_pure rfl) (settles_pure rfl)

theorem dictEntries_round : Settles T e Round.took ((dictEntries o).round n ()) ts := by
  refine settles_peekKind heT fun u _ _ => ?_
  split
  · exact settles_pure rfl
  refine ((takesExpressions he heT).expression (by omega)).seq fun key us hus => ?_
  refine settles_expect he heT (by nofun) fun _ _ vs hvs => ?_
  refine ((takesExpressions he heT).expression (by omega)).seq fun value ws hws => ?_
  exact settles_accept he heT (by nofun) (fun _ _ => settles_pure rfl) (settles_pure rfl)

theorem alternative_round : Settles T e Round.took ((alternative o).round n ()) ts := by
  refine settles_peek heT fun t hm ht => ?_
  split
  next kind =>
    refine settles_skip he ht (by rw [kind]; nofun) fun us hus => ?_
    refine ((takesExpressions he heT).expression (by omega)).seq fun test vs hvs => ?_
    refine settles_expect he heT (by nofun) fun _ _ ws hws => ?_
    exact ((takesStatements he heT).suite (by omega)).seq fun _ _ _ => settles_pure rfl
  next =>
    refine settles_accept he heT (by nofun) (fun us hus => ?_) (settles_pure rfl)
    refine settles_expect he heT (by nofun) fun _ _ vs hvs => ?_
    exact ((takesStatements he heT).suite (by omega)).seq fun _ _ _ => settles_pure rfl

theorem methodDefs_round : Settles T e Round.took ((methodDefs o).round n ()) ts := by
  refine settles_peek heT fun t hm ht => ?_
  split
  · exact settles_pure rfl
  refine settles_accept he heT (by nofun) (fun us hus => settles_pure rfl) ?_
  split
  · exact ((takesStatements he heT).functionDef (by omega)).bind fun _ _ _ => settles_pure rfl
  refine settles_accept he heT (by nofun) (fun us hus => ?_) (settles_refuse _ hm)
  exact (takes_statementEnd he heT (by omega)).seq fun _ _ _ => settles_pure rfl

theorem statements_round : Settles T e Round.took ((statements o).round n ()) ts := by
  refine settles_peek heT fun t hm ht => ?_
  split
  · exact settles_pure rfl
  refine settles_accept he heT (by nofun) (fun us hus => settles_pure rfl) ?_
  exact ((takesStatements he heT).statement (by omega)).bind fun _ _ _ => settles_pure rfl

theorem topLevel_round : Settles T e Round.took ((topLevel o).round n ()) ts := by
  refine settles_peek heT fun t hm ht => ?_
  split
  · exact settles_pure rfl
  refine settles_accept he heT (by nofun) (fun us hus => settles_pure rfl) ?_
  exact ((takesStatements he heT).statement (by omega)).bind fun _ _ _ => settles_pure rfl

end Advances

theorem advances (o : Origin) : ∀ l ∈ loops o, l.Advances := by
  intro l hl e ts n s he hn
  have heT : e ∈ ts ++ [e] := by simp
  suffices h : Settles (ts ++ [e]) e Round.took (l.round n s) ts from
    h (List.subset_append_left ts [e])
  simp only [loops, List.mem_cons, List.not_mem_nil, or_false] at hl
  rcases hl with rfl | rfl | rfl | rfl | rfl | rfl | rfl | rfl | rfl | rfl | rfl | rfl
  · exact names_round he heT s
  · exact parameters_round he heT s
  · exact newlines_round he heT
  · exact links_round he heT hn s
  · exact postfixed_round he heT hn s
  · exact arguments_round he heT hn s
  · exact items_round he heT hn s
  · exact dictEntries_round he heT hn
  · exact alternative_round he heT hn
  · exact methodDefs_round he heT hn
  · exact statements_round he heT hn
  · exact topLevel_round he heT hn

end Loop

end Reader

end LoopScript
