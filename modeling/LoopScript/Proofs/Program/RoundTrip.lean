import LoopScript.Proofs.Program.Statements

/-!
What was written as tokens is read back as the program it was.
-/

namespace LoopScript

open Token (Kind)

namespace Reader

variable {o : Origin} {rest : List Token}

theorem reads_methods (loc : Location) (ds : List FunctionDef) (hp : ∀ d ∈ ds, d.params.Nodup)
    (h : ∀ d ∈ ds, ∀ s ∈ d.body, s.ReadBack o) (rest : List Token) :
    Reads (methodDefs o) (40 * (FunctionDef.blockTokens ds).length + 1)
      (FunctionDef.blockTokens ds ++ loc.token .dedent "" :: rest)
      (FunctionDef.relocatedBlock o.place ds) (loc.token .dedent "" :: rest) := by
  induction ds with
  | nil =>
    refine reads_succ (d := 0) fun n _ => ?_
    rfl
  | cons d ds ih =>
    have others := ih (fun d hd => hp d (List.mem_cons_of_mem _ hd))
      fun d hd => h d (List.mem_cons_of_mem _ hd)
    obtain ⟨t, us, first, ht⟩ := function_head d
    rw [FunctionDef.blockTokens, List.append_assoc]
    refine Reads.mono (reads_succ (d := 40 * d.tokens.length +
      40 * (FunctionDef.blockTokens ds).length) fun n hn => ?_) ?_
    · have long : 0 < d.tokens.length := by simp [first]
      have method := reads_function d (hp d List.mem_cons_self) (h d List.mem_cons_self)
        (FunctionDef.blockTokens ds ++ loc.token .dedent "" :: rest) n
        (by have := function_depth d; omega)
      have goes : ¬(t.kind = .dedent ∨ t.kind = .eof) := by
        rw [ht]
        rintro (hk | hk) <;> cases hk
      rw [first, List.cons_append] at method ⊢
      rw [methodDefs, bind_ok peek_cons, if_neg goes, accept_else (by rw [ht]; decide),
        if_pos ht, bind_ok method, bind_ok (others n (by omega))]
      rfl
    · rw [List.length_append]
      omega

end Reader

namespace Stmt

open Reader

variable {o : Origin} {loc : Location} {test e : Expr} {body : List Stmt}

theorem loose_colon (loc : Location) (ts : List Token) : Loose 1 (loc.sign .colon :: ts) :=
  loose_sign loc .colon rfl ts

theorem readBack_loop (ht : test.Spoken) (hb : ∀ s ∈ body, s.ReadBack o) :
    ReadBack o (.loop loc test body) where
  head := ⟨_, _, rfl, of_decide_eq_true rfl⟩
  reads {rest} _ := by
    refine Reads.mono (reads_succ (d := 40 * test.tokens.length + 40 +
      40 * (blockTokens body).length) fun n hn => ?_) ?_
    · have condition := expression_bracketed loc (ht.readBack (o := o))
        (loose_colon loc (loc.suite (blockTokens body) ++ rest)) n (by omega)
      have block := reads_suite loc body hb rest n (by omega)
      rw [tokens, List.cons_append, List.append_assoc, List.cons_append, statement,
        bind_ok peek_cons]
      change (skip >>= _) _ = _
      rw [bind_ok skip_cons, bind_ok condition, bind_ok (expect_sign _ _ _), bind_ok block]
      rfl
    · simp only [tokens, List.length_cons, List.length_append, Location.length_bracketed,
        Location.length_suite]
      omega

theorem readBack_each (item : String) (he : e.Spoken) (hb : ∀ s ∈ body, s.ReadBack o) :
    ReadBack o (.each loc item e body) where
  head := ⟨_, _, rfl, of_decide_eq_true rfl⟩
  reads {rest} _ := by
    refine Reads.mono (reads_succ (d := 40 * e.tokens.length + 40 +
      40 * (blockTokens body).length) fun n hn => ?_) ?_
    · have iterable := expression_bracketed loc (he.readBack (o := o))
        (loose_colon loc (loc.suite (blockTokens body) ++ rest)) n (by omega)
      have block := reads_suite loc body hb rest n (by omega)
      rw [tokens, List.cons_append, List.cons_append, List.cons_append, List.append_assoc,
        List.cons_append, statement, bind_ok peek_cons]
      change (skip >>= _) _ = _
      rw [bind_ok skip_cons, bind_ok (expect_ident _ _ _), bind_ok (expect_word _ _ _),
        bind_ok iterable, bind_ok (expect_sign _ _ _), bind_ok block]
      rfl
    · simp only [tokens, List.length_cons, List.length_append, Location.length_bracketed,
        Location.length_suite]
      omega

/-- A conditional is read back when its other branch is. -/
theorem reads_cond (loc : Location) {d : Nat} {ts rest : List Token}
    {otherwise : Option (List Stmt)} (ht : test.Spoken) (hb : ∀ s ∈ body, s.ReadBack o)
    (ho : Reads (alternative o) d ts otherwise rest) :
    Reads (statement o) (40 * test.tokens.length + 40 * (blockTokens body).length + d + 41)
      (loc.word .if_ :: (loc.bracketed test.tokens ++ loc.sign .colon ::
        (loc.suite (blockTokens body) ++ ts)))
      (.cond (o.place loc) (test.relocated o.place) (relocatedBlock o.place body) otherwise)
      rest := by
  refine reads_succ fun n hn => ?_
  have condition := expression_bracketed loc (ht.readBack (o := o))
    (loose_colon loc (loc.suite (blockTokens body) ++ ts)) n (by omega)
  have block := reads_suite loc body hb ts n (by omega)
  rw [statement, bind_ok peek_cons]
  change (skip >>= _) _ = _
  rw [bind_ok skip_cons, bind_ok condition, bind_ok (expect_sign _ _ _), bind_ok block,
    bind_ok (ho n (by omega))]
  rfl

theorem readBack_cond {otherwise : Option (List Stmt)} (ht : test.Spoken)
    (hb : ∀ s ∈ body, s.ReadBack o) (ho : ∀ ss ∈ otherwise, ∀ s ∈ ss, s.ReadBack o) :
    ReadBack o (.cond loc test body otherwise) := by
  cases otherwise with
  | none =>
    refine ⟨⟨_, _, rfl, of_decide_eq_true rfl⟩, fun {rest} hr => ?_⟩
    have read := reads_cond loc ht hb (reads_noAlternative (o := o) hr)
    rw [tokens, List.cons_append, List.append_assoc, List.cons_append]
    refine read.mono ?_
    simp only [List.length_cons, List.length_append, Location.length_bracketed,
      Location.length_suite]
    omega
  | some ss =>
    refine ⟨⟨_, _, rfl, of_decide_eq_true rfl⟩, fun {rest} hr => ?_⟩
    have read := reads_cond loc ht hb (reads_otherwise loc ss (ho ss rfl) rest)
    rw [tokens, List.cons_append, List.append_assoc, List.cons_append, List.append_assoc,
      List.cons_append, List.cons_append]
    refine read.mono ?_
    simp only [List.length_cons, List.length_append, Location.length_bracketed,
      Location.length_suite]
    omega

theorem readBack_function {d : FunctionDef} (hp : d.params.Nodup)
    (hb : ∀ s ∈ d.body, s.ReadBack o) : ReadBack o (.function d) where
  head := by
    obtain ⟨t, us, first, ht⟩ := function_head d
    exact ⟨t, us, first, by rw [ht]; decide⟩
  reads {rest} _ := by
    have depth := function_depth d
    obtain ⟨t, us, first, ht⟩ := function_head d
    refine Reads.mono (reads_succ (d := 40 * d.tokens.length - 1) fun n hn => ?_) ?_
    · have whole := reads_function d hp hb rest n (by omega)
      rw [tokens, first, List.cons_append] at *
      rw [statement, bind_ok peek_cons]
      obtain ⟨kind, lexeme, v, line, column⟩ := t
      obtain rfl : kind = word .def_ := ht
      exact map_ok Stmt.function whole
    · rw [tokens]
      omega

theorem readBack_class (name : String) {methods : List FunctionDef}
    (hp : ∀ d ∈ methods, d.params.Nodup) (hb : ∀ d ∈ methods, ∀ s ∈ d.body, s.ReadBack o) :
    ReadBack o (.class_ loc name methods) where
  head := ⟨_, _, rfl, of_decide_eq_true rfl⟩
  reads {rest} _ := by
    refine Reads.mono (reads_succ (reads_succ (d := 40 * (FunctionDef.blockTokens methods).length +
      1) fun n hn => ?_)) ?_
    · have block := reads_methods loc methods hp hb rest n hn
      rw [tokens, List.cons_append, List.cons_append, List.cons_append, Location.suite_append,
        statement, bind_ok peek_cons]
      change classDef o (n + 1) _ = _
      rw [classDef, bind_ok (expect_word _ _ _), bind_ok (expect_ident _ _ _),
        bind_ok (expect_sign _ _ _), bind_ok peek_cons,
        if_pos (show loc.newline.kind = .newline from rfl), bind_ok skip_cons,
        bind_ok (expect_token _ _ _ _), bind_ok block, bind_ok (expect_token _ _ _ _)]
      rfl
    · simp only [tokens, List.length_cons, Location.length_suite]
      omega

theorem Spoken.readBack {s : Stmt} (h : s.Spoken) : s.ReadBack o := by
  induction h with
  | expr loc he => exact readBack_expr he
  | assign loc ht hop he => exact readBack_assign ht hop he
  | cond loc ht _ _ hb ho => exact readBack_cond ht hb ho
  | loop loc ht _ hb => exact readBack_loop ht hb
  | each loc item he _ hb => exact readBack_each item he hb
  | function hp _ hb => exact readBack_function hp hb
  | class_ loc name hp _ hb => exact readBack_class name hp hb
  | return_ loc h => exact readBack_return h
  | break_ loc => exact readBack_break
  | continue_ loc => exact readBack_continue
  | pass_ loc => exact readBack_pass
  | global_ loc h => exact readBack_global h
  | import_ loc name member => exact readBack_import name member

end Stmt

namespace Program

open Reader

/-- A program written as tokens is read back as itself, with places in the terms of the origin. -/
theorem ofTokens_tokens (o : Origin) (p : Program) (h : p.Spoken) :
    ofTokens o p.tokens = .ok (p.relocated o.place) := by
  have body := reads_topLevel (o := o) (t := p.location.token .eof "") rfl p.statements
    (fun s hs => (h s hs).readBack) [] (depthPerToken * (p.tokens.length + 1)) (by
      rw [depthPerToken, tokens, List.length_append]
      omega)
  change Except.map Prod.fst (program o _ p.tokens) = _
  rw [program, tokens] at *
  rw [bind_ok body]
  rfl

/-- A loop over the parts of a list that ends at the first one that a function rejects. -/
def rejecting : Program :=
  let here : Location := ⟨"rejecting", 1, 1, ""⟩
  let name (x : String) : Expr := .name here x
  let kept : Expr := .call here (name "keep") [name "x"] [("twice", name "x")]
  let parts : Expr := .slice here (.tuple here [name "x"]) none (some (name "n")) none
  ⟨here,
    [.function (.mk here "keep" ["x", "twice"] [.return_ here (some (name "x"))]),
      .each here "x" parts
        [.cond here (.unary here .not_ kept) [.break_ here] (some [.pass_ here])]]⟩

theorem spoken_rejecting : rejecting.Spoken := by
  have name (x : String) : (Expr.name ⟨"rejecting", 1, 1, ""⟩ x).Spoken := .name _ x
  have names : ∀ e ∈ [Expr.name ⟨"rejecting", 1, 1, ""⟩ "x"], e.Spoken :=
    List.forall_mem_singleton.mpr (name "x")
  refine List.forall_mem_cons.mpr ⟨?_, List.forall_mem_singleton.mpr ?_⟩
  · refine .function (by decide) (List.forall_mem_singleton.mpr (.return_ _ ?_))
    rintro _ ⟨⟩
    exact name "x"
  · refine .each _ "x" (.slice _ (.tuple _ names) nofun ?_ nofun)
      (List.forall_mem_singleton.mpr (.cond _ (.unary _ (by decide) ?_) ?_ ?_))
    · rintro _ ⟨⟩
      exact name "n"
    · exact .call _ (name "keep") names (List.forall_mem_singleton.mpr (name "x")) (by decide)
    · exact List.forall_mem_singleton.mpr (.break_ _)
    · rintro _ ⟨⟩
      exact List.forall_mem_singleton.mpr (.pass_ _)

theorem ofTokens_tokens_rejecting : rejecting.Spoken ∧
    ofTokens ⟨"rejecting", #[]⟩ rejecting.tokens =
      .ok (rejecting.relocated (Origin.place ⟨"rejecting", #[]⟩)) :=
  ⟨spoken_rejecting, ofTokens_tokens _ _ spoken_rejecting⟩

end Program

end LoopScript
