import LoopScript.Proofs.Program.Expressions

/-!
Statements and programs that were written as tokens are read back as they were.
-/

namespace LoopScript

open Token (Kind)

namespace Reader

/-- What can stand behind a statement: nothing that would go on with it. -/
def Follows (ts : List Token) : Prop :=
  ∃ t us, ts = t :: us ∧ t.kind ∉ [Kind.newline, word .elif_, word .else_]

section Simple

variable {o : Origin} {loc : Location} {d : Nat} {ts rest : List Token} {s : Stmt}

theorem loose_newline (loc : Location) (ts : List Token) : Loose 1 (loc.newline :: ts) :=
  ⟨_, _, rfl, Nat.one_pos⟩

theorem statementEnd_newline (hr : Follows rest) {n : Nat} (hn : 2 ≤ n) :
    statementEnd n (loc.newline :: rest) = .ok ((), rest) := by
  obtain ⟨t, us, rfl, ht⟩ := hr
  have last : t.kind ≠ .newline := fun hk => ht (hk ▸ List.mem_cons_self)
  obtain ⟨n, rfl⟩ : ∃ m, n = m + 2 := ⟨n - 2, by omega⟩
  rw [statementEnd, bind_ok peek_cons, if_neg (by rintro (h | h) <;> cases h),
    if_pos (show loc.newline.kind = .newline from rfl), newlines, accept_newline,
    newlines, accept_else last]
  rfl

theorem reads_simple (h : Reads (simpleBody o) d (ts ++ loc.newline :: rest) s
    (loc.newline :: rest)) (hr : Follows rest) :
    Reads (simple o) (d + 2) (loc.ended ts ++ rest) s rest := by
  intro n hn
  have body := h n (by omega)
  rw [Location.ended, List.append_assoc, List.cons_append, List.nil_append, simple, bind_ok body,
    bind_ok (statementEnd_newline hr (by omega))]
  rfl

end Simple

end Reader

namespace Target

theorem ofExpr?_relocated (f : Location → Location) (t : Target) :
    ofExpr? (t.toExpr.relocated f) = some (t.relocated f) := by
  cases t <;> simp [toExpr, Expr.relocated, ofExpr?, relocated]

end Target

namespace Stmt

open Reader

variable {o : Origin} {loc : Location} {e : Expr}

/-- A statement is read back, whatever follows it that does not go on with it. -/
structure ReadBack (o : Origin) (s : Stmt) : Prop where
  head : ∃ t us, s.tokens = t :: us ∧
    t.kind ∉ [Kind.newline, word .elif_, word .else_, .dedent, .eof]
  reads {rest : List Token} (hr : Follows rest) :
    Reads (statement o) (40 * s.tokens.length) (s.tokens ++ rest) (s.relocated o.place) rest

theorem ReadBack.first {s : Stmt} (h : s.ReadBack o) : ∃ t us, s.tokens = t :: us ∧
    t.kind ≠ .newline ∧ t.kind ≠ .dedent ∧ t.kind ≠ .eof := by
  obtain ⟨t, us, hs, ht⟩ := h.head
  simp only [List.mem_cons, List.not_mem_nil, or_false, not_or] at ht
  exact ⟨t, us, hs, ht.1, ht.2.2.2⟩

theorem readBack_simple {d : Nat} {ts : List Token} {s : Stmt} (hs : s.tokens = loc.ended ts)
    (hts : ∃ t us, ts = t :: us ∧ t.kind ∉ [Kind.newline, word .elif_, word .else_, .dedent, .eof])
    (hd : d + 3 ≤ 40 * (ts.length + 1))
    (hb : ∀ n us, statement o (n + 1) (ts ++ us) = simple o n (ts ++ us))
    (h : ∀ rest, Reads (simpleBody o) d (ts ++ loc.newline :: rest) (s.relocated o.place)
      (loc.newline :: rest)) : ReadBack o s where
  head := by
    obtain ⟨t, us, rfl, ht⟩ := hts
    exact ⟨t, us ++ [loc.newline], hs, ht⟩
  reads {rest} hr := by
    have line := reads_simple (h rest) hr
    rw [hs]
    refine Reads.mono (reads_succ (d := d + 2) fun n hn => ?_) ?_
    · rw [← line n hn, Location.ended, List.append_assoc]
      exact hb n _
    · rw [Location.ended, List.length_append]
      exact hd

theorem readBack_expr (he : e.Spoken) : ReadBack o (.expr loc e) := by
  refine readBack_simple (d := 40 * e.tokens.length + 40) rfl ⟨_, _, rfl, of_decide_eq_true rfl⟩
    (by rw [Location.length_bracketed]; omega) (fun _ _ => rfl) fun rest n hn => ?_
  have read := expression_bracketed loc (he.readBack (o := o)) (loose_newline loc rest)
  rw [simpleBody, bind_ok (peek_bracketed _ _)]
  change assignmentOrExpression o n (o.place loc) _ = _
  rw [assignmentOrExpression, bind_ok (read n hn), bind_ok peek_cons,
    if_neg (show loc.newline.kind ∉ assignments from of_decide_eq_true rfl)]
  rfl

theorem readBack_assign {target : Target} {op : AssignOp} (ht : target.toExpr.Spoken)
    (hop : op ∈ AssignOp.known) (he : e.Spoken) : ReadBack o (.assign loc target op e) := by
  have assigns : (loc.token op.kind op.text).kind ∈ assignments := by
    cases op with
    | other s => simp [AssignOp.known] at hop
    | _ => exact of_decide_eq_true rfl
  have named : AssignOp.ofText op.text = op := by
    cases op with
    | other s => simp [AssignOp.known] at hop
    | _ => rfl
  have loose (us : List Token) : Loose 1 (loc.token op.kind op.text :: us) := by
    refine ⟨_, _, rfl, ?_⟩
    cases op <;> exact Nat.one_pos
  refine readBack_simple (d := 40 * (target.toExpr.tokens.length + e.tokens.length) + 40) rfl
    ⟨_, _, rfl, of_decide_eq_true rfl⟩ ?_ (fun _ _ => rfl) fun rest n hn => ?_
  · simp [Target.tokens, Location.length_bracketed]
    omega
  · have place (us : List Token) := expression_bracketed loc (ht.readBack (o := o)) (loose us)
    have value := expression_bracketed loc (he.readBack (o := o)) (loose_newline loc rest)
    rw [Target.tokens, List.append_assoc, List.cons_append, simpleBody,
      bind_ok (peek_bracketed _ _)]
    change assignmentOrExpression o n (o.place loc) _ = _
    rw [assignmentOrExpression, bind_ok (place _ n (by omega)), bind_ok peek_cons, if_pos assigns,
      bind_ok skip_cons, Target.ofExpr?_relocated]
    change (expression o n >>= fun e =>
      pure (Stmt.assign (o.place loc) _ (.ofText op.text) e)) _ = _
    rw [bind_ok (value n (by omega)), named]
    rfl

theorem readBack_return {e : Option Expr} (h : ∀ x ∈ e, x.Spoken) :
    ReadBack o (.return_ loc e) := by
  cases e with
  | none =>
    refine readBack_simple (d := 0) rfl ⟨_, _, rfl, of_decide_eq_true rfl⟩ (by simp)
      (fun _ _ => rfl) fun rest n _ => ?_
    rfl
  | some e =>
    refine readBack_simple (d := 40 * e.tokens.length + 40) rfl ⟨_, _, rfl, of_decide_eq_true rfl⟩
      (by rw [List.length_cons, Location.length_bracketed]; omega) (fun _ _ => rfl)
      fun rest n hn => ?_
    have value := expression_bracketed loc ((h e rfl).readBack (o := o))
      (loose_newline loc rest)
    rw [List.cons_append, simpleBody, bind_ok peek_cons]
    change (skip >>= fun _ => peekKind >>= fun kind =>
      if kind ∈ [Kind.newline, .dedent, .eof] then _
      else expression o n >>= fun e => pure (Stmt.return_ (o.place loc) (some e))) _ = _
    rw [bind_ok skip_cons, bind_ok (peekKind_bracketed _ _), if_neg (by decide),
      bind_ok (value n hn)]
    rfl

theorem readBack_global {names : List String} (h : names ≠ []) :
    ReadBack o (.global_ loc names) := by
  obtain ⟨x, xs, rfl⟩ := List.exists_cons_of_ne_nil h
  refine readBack_simple (d := xs.length + 1) rfl ⟨_, _, rfl, of_decide_eq_true rfl⟩ ?_
    (fun _ _ => rfl) fun rest n hn => ?_
  · have := loc.length_names (x :: xs)
    simp only [List.length_cons] at this ⊢
    omega
  · cases xs with
    | nil => rfl
    | cons y xs =>
      have read : Reads (Reader.names "variable name after ','") (xs.length + 1)
          (loc.names (y :: xs) ++ loc.newline :: rest) (y :: xs) (loc.newline :: rest) :=
        reads_names loc _ y xs ⟨_, _, rfl, nofun⟩
      change (skip >>= fun _ => expect .ident "variable name after 'global'" >>= fun first =>
        accept (sign .comma) >>= fun more =>
          if more = true then Reader.names "variable name after ','" n >>= fun others =>
            pure (Stmt.global_ (o.place loc) (first.lexeme :: others))
          else pure [] >>= fun others => pure (Stmt.global_ (o.place loc) (first.lexeme :: others)))
        (loc.word .global_ :: loc.ident x :: loc.sign .comma ::
          (loc.names (y :: xs) ++ loc.newline :: rest)) = _
      rw [List.length_cons] at hn
      rw [bind_ok skip_cons, bind_ok (expect_ident _ _ _), accept_sign, bind_ok (read n (by omega))]
      rfl

theorem readBack_break : ReadBack o (.break_ loc) :=
  readBack_simple (d := 0) rfl ⟨_, _, rfl, of_decide_eq_true rfl⟩ (by simp) (fun _ _ => rfl)
    fun _ _ _ => rfl

theorem readBack_continue : ReadBack o (.continue_ loc) :=
  readBack_simple (d := 0) rfl ⟨_, _, rfl, of_decide_eq_true rfl⟩ (by simp) (fun _ _ => rfl)
    fun _ _ _ => rfl

theorem readBack_pass : ReadBack o (.pass_ loc) :=
  readBack_simple (d := 0) rfl ⟨_, _, rfl, of_decide_eq_true rfl⟩ (by simp) (fun _ _ => rfl)
    fun _ _ _ => rfl

theorem readBack_import (name : String) (member : Option String) :
    ReadBack o (.import_ loc name member) := by
  cases member with
  | none =>
    exact readBack_simple (d := 0) rfl ⟨_, _, rfl, of_decide_eq_true rfl⟩ (by simp)
      (fun _ _ => rfl) fun rest n _ => rfl
  | some member =>
    exact readBack_simple (d := 0) rfl ⟨_, _, rfl, of_decide_eq_true rfl⟩ (by simp)
      (fun _ _ => rfl) fun rest n _ => rfl

end Stmt

namespace Reader

section Blocks

variable {o : Origin} {loc : Location} {t : Token} {rest : List Token}

theorem follows_block {ss : List Stmt} (h : ∀ s ∈ ss, s.ReadBack o)
    (ht : t.kind = .dedent ∨ t.kind = .eof) (rest : List Token) :
    Follows (Stmt.blockTokens ss ++ t :: rest) := by
  cases ss with
  | nil =>
    refine ⟨t, rest, rfl, ?_⟩
    rcases ht with hk | hk
    · rw [hk]
      decide
    · rw [hk]
      decide
  | cons s ss =>
    obtain ⟨u, us, hs, hu⟩ := (h s List.mem_cons_self).head
    refine ⟨u, us ++ (Stmt.blockTokens ss ++ t :: rest), ?_, fun hk => hu ?_⟩
    · rw [Stmt.blockTokens, hs, List.append_assoc, List.cons_append]
    · exact List.mem_append_left [.dedent, .eof] hk

/-- Statements are read one by one by any reader that ends at a given token and otherwise takes a
statement and goes on. -/
theorem reads_block {r : Nat → Reader (List Stmt)} (ht : t.kind = .dedent ∨ t.kind = .eof)
    (stop : ∀ n rest, r (n + 1) (t :: rest) = .ok ([], t :: rest))
    (go : ∀ n u us, u.kind ≠ .newline → u.kind ≠ .dedent → u.kind ≠ .eof →
      r (n + 1) (u :: us) = (statement o n >>= fun s => r n >>= fun ss => pure (s :: ss)) (u :: us))
    (ss : List Stmt) (h : ∀ s ∈ ss, s.ReadBack o) (rest : List Token) :
    Reads r (40 * (Stmt.blockTokens ss).length + 1) (Stmt.blockTokens ss ++ t :: rest)
      (Stmt.relocatedBlock o.place ss) (t :: rest) := by
  induction ss with
  | nil => exact reads_succ (d := 0) fun n _ => stop n rest
  | cons s ss ih =>
    have hs := h s List.mem_cons_self
    have hss : ∀ s ∈ ss, s.ReadBack o := fun s hs => h s (List.mem_cons_of_mem _ hs)
    obtain ⟨u, us, first, line, dedent, eof⟩ := hs.first
    rw [Stmt.blockTokens, List.append_assoc]
    refine Reads.mono (reads_succ (d := 40 * s.tokens.length +
      40 * (Stmt.blockTokens ss).length) fun n hn => ?_) ?_
    · have long : 0 < s.tokens.length := by simp [first]
      have body := hs.reads (follows_block hss ht rest) n (by omega)
      have others := ih hss n (by omega)
      rw [first, List.cons_append] at body ⊢
      rw [go n u _ line dedent eof, bind_ok body, bind_ok others]
      rfl
    · rw [List.length_append]
      omega

theorem reads_statements (ht : t.kind = .dedent) (ss : List Stmt) (h : ∀ s ∈ ss, s.ReadBack o)
    (rest : List Token) :
    Reads (statements o) (40 * (Stmt.blockTokens ss).length + 1)
      (Stmt.blockTokens ss ++ t :: rest) (Stmt.relocatedBlock o.place ss) (t :: rest) := by
  refine reads_block (.inl ht) (fun n rest => ?_) (fun n u us line dedent eof => ?_) ss h rest
  · rw [statements, bind_ok peek_cons, if_pos (.inl ht)]
    rfl
  · rw [statements, bind_ok peek_cons, if_neg (not_or.mpr ⟨dedent, eof⟩), accept_else line]

theorem reads_topLevel (ht : t.kind = .eof) (ss : List Stmt) (h : ∀ s ∈ ss, s.ReadBack o)
    (rest : List Token) :
    Reads (topLevel o) (40 * (Stmt.blockTokens ss).length + 1)
      (Stmt.blockTokens ss ++ t :: rest) (Stmt.relocatedBlock o.place ss) (t :: rest) := by
  refine reads_block (.inr ht) (fun n rest => ?_) (fun n u us line dedent eof => ?_) ss h rest
  · rw [topLevel, bind_ok peek_cons, if_pos ht]
    rfl
  · rw [topLevel, bind_ok peek_cons, if_neg eof, accept_else line]

theorem reads_suite (loc : Location) (ss : List Stmt) (h : ∀ s ∈ ss, s.ReadBack o)
    (rest : List Token) :
    Reads (suite o) (40 * (Stmt.blockTokens ss).length + 2)
      (loc.suite (Stmt.blockTokens ss) ++ rest) (Stmt.relocatedBlock o.place ss) rest := by
  refine reads_succ fun n hn => ?_
  have body := reads_statements (t := loc.token .dedent "") rfl ss h rest n hn
  rw [Location.suite_append, suite, accept_newline, bind_ok (expect_token _ _ _ _), bind_ok body,
    bind_ok (expect_token _ _ _ _)]
  rfl

theorem reads_otherwise (loc : Location) (ss : List Stmt) (h : ∀ s ∈ ss, s.ReadBack o)
    (rest : List Token) :
    Reads (alternative o) (40 * (Stmt.blockTokens ss).length + 3)
      (loc.word .else_ :: loc.sign .colon :: (loc.suite (Stmt.blockTokens ss) ++ rest))
      (some (Stmt.relocatedBlock o.place ss)) rest := by
  refine reads_succ fun n hn => ?_
  rw [alternative, bind_ok peek_cons, if_neg (by simp [Location.word, Location.token, word]), accept_word, bind_ok (expect_sign _ _ _)]
  exact map_ok some (reads_suite loc ss h rest n hn)

theorem reads_noAlternative (hr : Follows rest) : Reads (alternative o) 1 rest none rest := by
  obtain ⟨t, us, rfl, ht⟩ := hr
  simp only [List.mem_cons, List.not_mem_nil, or_false, not_or] at ht
  refine reads_succ fun n _ => ?_
  rw [alternative, bind_ok peek_cons, if_neg ht.2.1, accept_else ht.2.2]
  rfl

theorem function_head (d : FunctionDef) : ∃ t us, d.tokens = t :: us ∧ t.kind = word .def_ := by
  cases d
  exact ⟨_, _, rfl, rfl⟩

theorem function_depth (d : FunctionDef) :
    40 * (Stmt.blockTokens d.body).length + d.params.length + 4 ≤ 40 * d.tokens.length := by
  obtain ⟨loc, name, params, ss⟩ := d
  have := loc.length_names params
  simp only [FunctionDef.tokens, FunctionDef.body, FunctionDef.params, List.length_cons,
    List.length_append, Location.length_suite]
  omega

theorem reads_function (d : FunctionDef) (hp : d.params.Nodup) (h : ∀ s ∈ d.body, s.ReadBack o)
    (rest : List Token) :
    Reads (functionDef o) (40 * (Stmt.blockTokens d.body).length + d.params.length + 3)
      (d.tokens ++ rest) (d.relocated o.place) rest := by
  obtain ⟨loc, name, params, ss⟩ := d
  refine reads_succ fun n hn => ?_
  dsimp only [FunctionDef.params, FunctionDef.body] at hn
  have body := reads_suite loc ss h rest n (by omega)
  rw [FunctionDef.tokens, functionDef, List.cons_append, List.cons_append, List.cons_append,
    List.append_assoc, List.cons_append, List.cons_append, bind_ok (expect_word _ _ _),
    bind_ok (expect_ident _ _ _), bind_ok (expect_sign _ _ _)]
  cases params with
  | nil =>
    change (peekKind >>= _) (loc.sign .rparen :: _) = _
    rw [bind_ok peekKind_cons]
    dsimp only
    rw [if_pos (show (loc.sign .rparen).kind = sign .rparen from rfl), bind_ok (pure_ok _),
      bind_ok (expect_sign _ _ _), bind_ok (expect_sign _ _ _), bind_ok body]
    rfl
  | cons x xs =>
    have read := reads_parameters loc x xs [] hp nofun
    have next (us : List Token) : peekKind (loc.names (x :: xs) ++ us) =
      .ok (.ident, loc.names (x :: xs) ++ us) := rfl
    rw [List.length_cons] at hn
    rw [bind_ok (next _)]
    dsimp only
    rw [if_neg nofun, bind_ok (read _ n (by omega)), bind_ok (expect_sign _ _ _),
      bind_ok (expect_sign _ _ _), bind_ok body]
    rfl

end Blocks

end Reader

end LoopScript
