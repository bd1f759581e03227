import LoopScript.Proofs.Program.Origins
import LoopScript.Proofs.Program.Parts
import LoopScript.Proofs.Token.Coverage
import LoopScript.Proofs.Token.Lines
import Mathlib.Data.List.Chain

/-!
Where statements come from: what the readers build stands at the places of the tokens they read, in
their order, with the operators and the names that they spell and with no body that is empty. Numbers
are read as floating-point numbers, so that there is no whole number of the host among the literals.
Statements and the arguments of calls stand in the order of the text.
-/

namespace LoopScript

/-- Behind the mark of a deeper line there is more on that line. -/
def Token.Opened (w : List Token) : Prop :=
  w.IsChain fun t u => t.kind = .indent → u.kind.isLayout = false

theorem Token.Opened.part {v w : List Token} (h : Opened w) (hs : v <:+: w) : Opened v := h.infix hs

namespace Stmt

variable {o : Origin} {v w : List Token} {s : Stmt}

/-- An assignment is spelled by a token, and the names of functions and classes are tokens, too. -/
def Spelled (w : List Token) : Stmt → Prop
  | assign _ _ op _ => ∃ t ∈ w, t.kind ∈ Reader.assignments ∧ op = .ofText t.lexeme
  | function d => ∃ t ∈ w, t.kind = .ident ∧ d.name = t.lexeme
  | class_ _ name methods => ∀ n ∈ name :: methods.map FunctionDef.name,
    ∃ t ∈ w, t.kind = .ident ∧ n = t.lexeme
  | _ => True

/-- A statement at the place of a token of a word, spelled by such tokens, with no body that is empty
and no parameter that is repeated. -/
structure Stems (o : Origin) (w : List Token) (s : Stmt) : Prop where
  place : s.location ∈ o.trail w
  filled : Token.Opened w → [] ∉ s.bodies
  spelled : s.Spelled w
  distinct : ∀ d ∈ s.definitions, d.params.Nodup

theorem Stems.mono (h : s.Stems o v) (hs : v <:+: w) : s.Stems o w where
  place := (o.trail_sublist hs.sublist).subset h.place
  filled hw := h.filled (hw.part hs)
  spelled := by
    have spelled := h.spelled
    cases s with
    | assign | function => exact spelled.imp fun t ht => ⟨hs.subset ht.1, ht.2⟩
    | class_ => exact fun n hn => (spelled n hn).imp fun t ht => ⟨hs.subset ht.1, ht.2⟩
    | _ => trivial
  distinct := h.distinct

abbrev Origins (o : Origin) (w : List Token) (s : Stmt) : Prop :=
  s.Holds (·.Stems o w) (·.Stems o w)

theorem Origins.mono (h : s.Origins o v) (hs : v <:+: w) : s.Origins o w :=
  Holds.mono h (fun _ ht => ht.mono hs) fun _ he => he.mono hs.sublist

end Stmt

namespace Reader

section Statements

variable {o : Origin} {n : Nat} {ts : List Token}

/-- Statements read from a word: they stem from it, and in preorder they stand at its tokens in their
order. -/
structure Spans (o : Origin) (w : List Token) (ss : List Stmt) : Prop where
  origins : ∀ s ∈ ss, s.Origins o w
  places : ((ss.flatMap Stmt.preorder).map Stmt.location).Sublist (o.trail w)

section Spans

variable {v w : List Token} {s : Stmt} {ss ss' : List Stmt} {t : Token}

theorem Spans.nil : Spans o w [] := ⟨nofun, List.nil_sublist _⟩

theorem Spans.mono (h : Spans o v ss) (hs : v <:+: w) : Spans o w ss :=
  ⟨fun s hm => (h.origins s hm).mono hs, h.places.trans (o.trail_sublist hs.sublist)⟩

theorem Spans.append (h : Spans o v ss) (h' : Spans o w ss') : Spans o (v ++ w) (ss ++ ss') where
  origins := by
    have left := h.mono (List.prefix_append v w).isInfix
    have right := h'.mono (List.suffix_append v w).isInfix
    exact List.forall_mem_append.mpr ⟨left.origins, right.origins⟩
  places := by simpa using h.places.append h'.places

theorem Spans.of (ht : t.kind.isMark = false) (hl : s.location = o.locate t)
    (stems : s.Stems o (t :: v)) (parts : ∀ e ∈ s.parts, e.Origins o (t :: v))
    (children : Spans o v s.children) : Spans o (t :: v) [s] where
  origins := by
    have inner := (children.mono (List.suffix_cons t v).isInfix).origins
    refine List.forall_mem_singleton.mpr (.intro stems parts fun body hb u hu => ?_)
    rcases Stmt.mem_children hb hu with hc | ⟨d, hd, hu⟩
    · exact inner u hc
    · exact (inner _ hd).body (List.mem_singleton.mpr rfl) u hu
  places := by
    rw [List.flatMap_singleton, s.preorder_eq, List.map_cons, hl, o.trail_cons ht]
    exact children.places.cons_cons _

theorem Spans.of_plain (ht : t.kind.isMark = false) (hl : s.location = o.locate t)
    (spelled : s.Spelled (t :: v)) (bodies : s.bodies = [])
    (parts : ∀ e ∈ s.parts, e.Origins o (t :: v)) : Spans o (t :: v) [s] := by
  refine .of ht hl ⟨?_, ?_, spelled, ?_⟩ parts (s.children_eq_nil bodies ▸ .nil)
  · exact hl ▸ o.mem_trail ht List.mem_cons_self
  · exact fun _ => bodies ▸ List.not_mem_nil
  · exact Stmt.definitions_eq_nil bodies ▸ nofun

theorem Spans.of_body {b : List Token} {body : List Stmt} (ht : t.kind.isMark = false)
    (hl : s.location = o.locate t) (spelled : s.Spelled (t :: (v ++ b))) (bodies : s.bodies = [body])
    (distinct : ∀ d ∈ s.definitions, d.params.Nodup) (children : s.children = body)
    (parts : ∀ e ∈ s.parts, e.Origins o (t :: (v ++ b)))
    (hb : Spans o b body ∧ (Token.Opened b → [] ≠ body)) : Spans o (t :: (v ++ b)) [s] := by
  have place : s.location ∈ o.trail (t :: (v ++ b)) := hl ▸ o.mem_trail ht List.mem_cons_self
  refine .of ht hl ⟨place, fun hw empty => ?_, spelled, distinct⟩ parts ?_
  · rw [bodies, List.mem_singleton] at empty
    exact hb.2 (hw.part (List.suffix_append (t :: v) b).isInfix) empty
  · exact children ▸ hb.1.mono (List.suffix_append v b).isInfix

end Spans

theorem gives_newlines : Gives ts (fun _ _ => True) (newlines n) := by
  induction n generalizing ts with
  | zero => exact gives_tooDeep
  | succ n ih => exact gives_accept (fun _ _ _ _ => ih) (gives_pure trivial)

theorem gives_statementEnd : Gives ts (fun _ _ => True) (statementEnd n) := by
  refine gives_peek fun t us _ => ?_
  split
  · exact gives_pure trivial
  split
  · exact gives_newlines
  · exact gives_refuse _ _

theorem toExpr_of_ofExpr? {e : Expr} {target : Target} (h : Target.ofExpr? e = some target) :
    target.toExpr = e := by
  cases e <;> cases h <;> rfl

theorem gives_assignmentOrExpression (t : Token) (us : List Token) :
    Gives (t :: us) (fun w s => Spans o w [s]) (assignmentOrExpression o n (o.locate t)) := by
  refine (readsExpressions.expression (t :: us)).bind fun w _ e split he => ?_
  -- The statement stands where its first expression starts.
  obtain ⟨⟨_, v, rfl, ht⟩, he⟩ := he
  cases split
  refine gives_peek fun a us ea => ?_
  split
  · next hk =>
    subst ea
    refine gives_skip ?_
    split
    · exact gives_refuse _ _
    · next target htarget =>
      refine (readsExpressions.expression us).bind fun w us d _ hd => gives_pure ?_
      have first := he.mono (w := t :: (v ++ a :: (w ++ []))) (by grind)
      have second := hd.2.mono (w := t :: (v ++ a :: (w ++ []))) (by grind)
      refine .of_plain ht rfl ⟨a, by simp, hk, rfl⟩ rfl ?_
      simpa only [Stmt.parts, toExpr_of_ofExpr? htarget, List.forall_mem_cons, List.not_mem_nil,
        false_implies, implies_true, and_true] using ⟨first, second⟩
  · have inner := he.mono (w := t :: (v ++ [])) (by simp)
    exact gives_pure (.of_plain ht rfl trivial rfl (List.forall_mem_singleton.mpr inner))

theorem gives_simpleBody : Gives ts (fun w s => Spans o w [s]) (simpleBody o n) := by
  refine gives_peek fun t us e => ?_
  subst e
  dsimp only
  split
  case h_1 hk =>
    have ht : t.kind.isMark = false := congrArg Token.Kind.isMark hk
    refine gives_skip (gives_peekKind fun _ _ _ => ?_)
    split
    · exact gives_pure (.of_plain ht rfl trivial rfl nofun)
    · refine (readsExpressions.expression us).bind fun w us e _ he => gives_pure ?_
      refine .of_plain ht rfl trivial rfl (List.forall_mem_singleton.mpr (he.2.mono ?_))
      grind
  case h_2 hk | h_3 hk | h_4 hk =>
    have ht : t.kind.isMark = false := congrArg Token.Kind.isMark hk
    exact gives_skip (gives_pure (.of_plain ht rfl trivial rfl nofun))
  case h_5 hk =>
    have ht : t.kind.isMark = false := congrArg Token.Kind.isMark hk
    refine gives_skip (gives_expect fun first us _ _ => gives_accept_bind (fun c us _ _ => ?_) ?_)
    · refine (gives_names _ _).bind fun _ _ _ _ _ => gives_pure ?_
      exact .of_plain ht rfl trivial rfl nofun
    · exact gives_pure (.of_plain ht rfl trivial rfl nofun)
  case h_6 hk =>
    have ht : t.kind.isMark = false := congrArg Token.Kind.isMark hk
    refine gives_skip (gives_expect fun name us _ _ => gives_accept (fun c us _ _ => ?_) ?_)
    · exact gives_expect fun member us _ _ => gives_pure (.of_plain ht rfl trivial rfl nofun)
    · exact gives_pure (.of_plain ht rfl trivial rfl nofun)
  case h_7 => exact gives_assignmentOrExpression t us

theorem gives_simple : Gives ts (fun w s => Spans o w [s]) (simple o n) :=
  gives_simpleBody.bind fun w _ _ _ hs => gives_statementEnd.bind fun _ _ _ _ _ =>
    gives_pure (hs.mono (List.prefix_append w _).isInfix)

variable (o n)

/-- What the readers of statements give at a depth. -/
structure ReadsStatements : Prop where
  statement (ts : List Token) : Gives ts (fun w s => Spans o w [s]) (statement o n)
  alternative (ts : List Token) :
    Gives ts (fun w b => Spans o w (b.getD []) ∧ (Token.Opened w → some [] ≠ b)) (alternative o n)
  functionDef (ts : List Token) : Gives ts (fun w d => Spans o w [.function d]) (functionDef o n)
  classDef (ts : List Token) : Gives ts (fun w s => Spans o w [s]) (classDef o n)
  methodDefs (ts : List Token) :
    Gives ts (fun w ds => Spans o w (ds.map Stmt.function)) (methodDefs o n)
  suite (ts : List Token) : Gives ts (fun w ss => Spans o w ss ∧ (Token.Opened w → [] ≠ ss)) (suite o n)
  statements (ts : List Token) : Gives ts
    (fun w ss => Spans o w ss ∧ ([] = ss → ∀ t ∈ ts.head?, t.kind.isLayout = true)) (statements o n)

variable {o n}

theorem Spans.cond {t c : Token} {w b a : List Token} {test : Expr} {body : List Stmt}
    {otherwise : Option (List Stmt)} (ht : t.kind.isMark = false) (he : test.Origins o w)
    (hb : Spans o b body ∧ (Token.Opened b → [] ≠ body))
    (ha : Spans o a (otherwise.getD []) ∧ (Token.Opened a → some [] ≠ otherwise)) :
    Spans o (t :: (w ++ c :: (b ++ a))) [.cond (o.locate t) test body otherwise] := by
  refine .of ht rfl ⟨o.mem_trail ht List.mem_cons_self, fun hw => ?_, trivial, nofun⟩ ?_ ?_
  · have body := hb.2 (hw.part ⟨t :: (w ++ [c]), a, by simp⟩)
    have otherwise := ha.2 (hw.part ⟨t :: (w ++ c :: b), [], by simp⟩)
    simpa [Stmt.bodies, eq_comm] using And.intro body.symm otherwise
  · exact List.forall_mem_singleton.mpr (he.mono (by grind))
  · exact (hb.1.append ha.1).mono ⟨w ++ [c], [], by simp⟩

variable (ih : ReadsStatements o n)

include ih

theorem gives_statement : Gives ts (fun w s => Spans o w [s]) (statement o (n + 1)) := by
  refine gives_peek fun t us e => ?_
  subst e
  dsimp only
  split
  case h_1 hk =>
    have ht : t.kind.isMark = false := congrArg Token.Kind.isMark hk
    refine gives_skip ((readsExpressions.expression us).bind fun w us test _ he => ?_)
    refine gives_expect fun c us _ _ => (ih.suite us).bind fun b us body _ hb => ?_
    refine (ih.alternative us).bind fun a us otherwise _ ha => gives_pure ?_
    simpa using Spans.cond ht he.2 hb ha
  case h_2 hk =>
    have ht : t.kind.isMark = false := congrArg Token.Kind.isMark hk
    refine gives_skip ((readsExpressions.expression us).bind fun w us test _ he => ?_)
    refine gives_expect fun c us _ _ => (ih.suite us).bind fun b us body _ hb => gives_pure ?_
    have inner := he.2.mono (w := t :: ((w ++ [c]) ++ b)) (by grind)
    simpa using Spans.of_body (s := .loop (o.locate t) test body) ht rfl trivial rfl nofun rfl
      (List.forall_mem_singleton.mpr inner) hb
  case h_3 hk =>
    have ht : t.kind.isMark = false := congrArg Token.Kind.isMark hk
    refine gives_skip (gives_expect fun item us _ _ => gives_expect fun i us _ _ => ?_)
    refine (readsExpressions.expression us).bind fun w us e _ he => gives_expect fun c us _ _ => ?_
    refine (ih.suite us).bind fun b us body _ hb => gives_pure ?_
    have inner := he.2.mono (w := t :: ((item :: i :: (w ++ [c])) ++ b)) (by grind)
    simpa using Spans.of_body (s := .each (o.locate t) item.lexeme e body) ht rfl trivial rfl nofun rfl
      (List.forall_mem_singleton.mpr inner) hb
  case h_4 => exact (ih.functionDef _).map fun _ _ hd => hd
  case h_5 => exact ih.classDef _
  case h_6 => exact gives_simple

theorem gives_alternative :
    Gives ts (fun w b => Spans o w (b.getD []) ∧ (Token.Opened w → some [] ≠ b))
      (alternative o (n + 1)) := by
  refine gives_peek fun t us e => ?_
  split
  · next hk =>
    subst e
    have ht : t.kind.isMark = false := congrArg Token.Kind.isMark hk
    refine gives_skip ((readsExpressions.expression us).bind fun w us test _ he => ?_)
    refine gives_expect fun c us _ _ => (ih.suite us).bind fun b us body _ hb => ?_
    refine (ih.alternative us).bind fun a us otherwise _ ha => gives_pure ⟨?_, fun _ => nofun⟩
    simpa using Spans.cond ht he.2 hb ha
  · refine gives_accept (fun t us _ _ => ?_) (gives_pure ⟨.nil, fun _ => nofun⟩)
    refine gives_expect fun c us _ _ => (ih.suite us).map fun w ss h => ?_
    refine ⟨h.1.mono ⟨[t, c], [], by simp⟩, fun hw e => ?_⟩
    exact h.2 (hw.part ⟨[t, c], [], by simp⟩) (Option.some.inj e)

theorem gives_functionDef : Gives ts (fun w d => Spans o w [.function d]) (functionDef o (n + 1)) := by
  refine gives_expect fun t us _ hk => gives_expect fun name us _ hn => ?_
  have ht : t.kind.isMark = false := congrArg Token.Kind.isMark hk
  refine gives_expect fun l us _ _ => gives_peekKind fun _ _ _ => ?_
  dsimp only
  refine gives_ite_bind (gives_pure ⟨.nil, nofun⟩) (gives_parameters _ _) fun w us params _ hp => ?_
  refine gives_expect fun r us _ _ => gives_expect fun c us _ _ => ?_
  refine (ih.suite us).bind fun b us body _ hb => gives_pure ?_
  have spelled : (Stmt.function (.mk (o.locate t) name.lexeme params body)).Spelled
      (t :: ((name :: l :: (w ++ [r, c])) ++ b)) := ⟨name, by simp, hn, rfl⟩
  simpa using Spans.of_body ht rfl spelled rfl (List.forall_mem_singleton.mpr hp.1) rfl nofun hb

theorem gives_classDef : Gives ts (fun w s => Spans o w [s]) (classDef o (n + 1)) := by
  refine gives_expect fun t us _ hk => gives_expect fun name us _ hn => ?_
  have ht : t.kind.isMark = false := congrArg Token.Kind.isMark hk
  refine gives_expect fun c us _ _ => gives_peek fun next us e => ?_
  subst e
  split
  · refine gives_skip (gives_expect fun i us _ _ => (ih.methodDefs us).bind fun w us methods _ hm => ?_)
    refine gives_expect fun d us _ _ => gives_pure ?_
    have inner : w <:+: t :: name :: c :: next :: i :: (w ++ [d]) :=
      ⟨[t, name, c, next, i], [d], by simp⟩
    have method {d : FunctionDef} (hd : d ∈ methods) : (Stmt.function d).Stems o w :=
      (hm.origins _ (List.mem_map_of_mem hd)).self
    refine .of ht rfl ⟨o.mem_trail ht List.mem_cons_self, fun hw empty => ?_, ?_, ?_⟩ nofun ?_
    · obtain ⟨d, hd, body⟩ := List.mem_map.mp empty
      exact (method hd).filled (hw.part inner) (List.mem_singleton.mpr body.symm)
    · refine List.forall_mem_cons.mpr ⟨⟨name, by simp, hn, rfl⟩, ?_⟩
      refine List.forall_mem_map.mpr fun d hd => ?_
      exact (method hd).spelled.imp fun u hu => ⟨inner.subset hu.1, hu.2⟩
    · exact fun d hd => (method hd).distinct d (List.mem_singleton.mpr rfl)
    · exact hm.mono ⟨[name, c, next, i], [d], by simp⟩
  split
  · refine gives_skip (gives_statementEnd.bind fun w us _ _ _ => gives_pure ?_)
    refine .of_plain ht rfl (List.forall_mem_singleton.mpr ?_) rfl nofun
    exact ⟨name, by simp, hn, rfl⟩
  · exact gives_refuse _ _

theorem gives_methodDefs :
    Gives ts (fun w ds => Spans o w (ds.map Stmt.function)) (methodDefs o (n + 1)) := by
  refine gives_peek fun t us _ => ?_
  split
  · exact gives_pure .nil
  refine gives_accept (fun l us _ _ => ?_) ?_
  · exact (ih.methodDefs us).mono fun w ds h => h.mono (List.suffix_cons l w).isInfix
  split
  · refine (ih.functionDef ts).bind fun w us d _ hd => (ih.methodDefs us).bind fun v us ds _ hds => ?_
    exact gives_pure (by simpa using hd.append hds)
  · refine gives_accept (fun c us _ _ => ?_) (gives_refuse _ _)
    refine gives_statementEnd.bind fun w us _ _ _ => (ih.methodDefs us).mono fun v ds h => ?_
    exact h.mono ⟨c :: w, [], by simp⟩

theorem gives_suite :
    Gives ts (fun w ss => Spans o w ss ∧ (Token.Opened w → [] ≠ ss)) (suite o (n + 1)) := by
  refine gives_accept (fun l us _ _ => gives_expect fun i us _ hi => ?_) ?_
  · refine (ih.statements us).bind fun w vs body e hb => gives_expect fun d vs e' hd => gives_pure ?_
    refine ⟨hb.1.mono ⟨[l, i], [d], by simp⟩, fun hw empty => ?_⟩
    -- What stands behind the mark that opens the block is in the word, at least as the dedent.
    obtain ⟨u, v, next⟩ : ∃ u v, w ++ [d] = u :: v := List.exists_cons_of_ne_nil (by simp)
    have opened := List.isChain_pair.mp (hw.part (v := [i, u]) ⟨[l], v, by simp [next]⟩) hi
    have first : us.head? = some u := by
      have : us = (w ++ [d]) ++ vs := by simp [e, e']
      rw [this, next]
      rfl
    rw [hb.2 empty u first] at opened
    cases opened
  · exact gives_simple.bind fun w us s _ hs => gives_pure ⟨by simpa using hs, fun _ => nofun⟩

theorem gives_statements : Gives ts
    (fun w ss => Spans o w ss ∧ ([] = ss → ∀ t ∈ ts.head?, t.kind.isLayout = true))
    (statements o (n + 1)) := by
  refine gives_peek fun t us e => ?_
  subst e
  split
  · next hk =>
    refine gives_pure ⟨.nil, fun _ u hu => ?_⟩
    obtain rfl : t = u := Option.some.inj hu
    rcases hk with hk | hk <;> rw [hk] <;> rfl
  refine gives_accept (fun l us e hl => ?_) ?_
  · cases e
    refine (ih.statements us).mono fun w ss h => ?_
    refine ⟨h.1.mono (List.suffix_cons t w).isInfix, fun _ u hu => ?_⟩
    obtain rfl : t = u := Option.some.inj hu
    rw [hl]
    rfl
  · refine (ih.statement (t :: us)).bind fun w us s _ hs => ?_
    refine (ih.statements us).bind fun v us ss _ hss => gives_pure ⟨?_, nofun⟩
    simpa using hs.append hss.1

omit ih

theorem readsStatements : ReadsStatements o n := by
  induction n with
  | zero => constructor <;> intro <;> exact gives_tooDeep
  | succ n ih =>
    exact ⟨fun _ => gives_statement ih, fun _ => gives_alternative ih, fun _ => gives_functionDef ih,
      fun _ => gives_classDef ih, fun _ => gives_methodDefs ih, fun _ => gives_suite ih,
      fun _ => gives_statements ih⟩

theorem gives_topLevel : Gives ts (Spans o) (topLevel o n) := by
  induction n generalizing ts with
  | zero => exact gives_tooDeep
  | succ n ih =>
    refine gives_peek fun t us _ => ?_
    split
    · exact gives_pure .nil
    refine gives_accept (fun l us _ _ => ?_) ?_
    · exact ih.mono fun w ss h => h.mono (List.suffix_cons l w).isInfix
    · refine (readsStatements.statement ts).bind fun w us s _ hs => ih.bind fun v us ss _ hss => ?_
      exact gives_pure (by simpa using hs.append hss)

theorem gives_program : Gives ts
    (fun w p => Spans o w p.statements ∧ ∃ t ∈ ts, p.location = o.locate t) (program o n) := by
  refine gives_topLevel.bind fun w us body e hb => gives_peek fun t vs e' => gives_pure ⟨?_, t, ?_, rfl⟩
  · exact hb.mono (List.prefix_append w []).isInfix
  · simp [e, e']

end Statements

end Reader

theorem Program.spans_ofTokens {o : Origin} {tokens : List Token} {p : Program}
    (h : ofTokens o tokens = .ok p) :
    Reader.Spans o tokens p.statements ∧ ∃ t ∈ tokens, p.location = o.locate t := by
  unfold ofTokens StateT.run' at h
  generalize hr : Reader.program o _ tokens = r at h
  cases r with
  | error e => cases h
  | ok x =>
    cases h
    obtain ⟨w, split, spans, place⟩ := Reader.gives_program _ _ hr
    exact ⟨spans.mono (split ▸ (List.prefix_append w _).isInfix), place⟩

theorem Program.spans_ofSource {text file : String} {p : Program} (h : ofSource text file = .ok p) :
    ∃ o tokens, Token.scan text = .ok tokens ∧ Reader.Spans o tokens p.statements := by
  unfold ofSource at h
  split at h
  next => cases h
  next tokens scanned =>
    split at h
    next => cases h
    next q hq =>
      cases h
      exact ⟨_, tokens, scanned, (spans_ofTokens hq).1⟩

namespace Token

variable {t : Token} {ts : List Token}

theorem munch_literal {c : Char} {cs : List Char} {m : Munch} (h : munch c cs = .ok m) :
    m.literal.isInt = false := by
  unfold munch at h
  split at h
  · split at h <;> cases h
    rfl
  split at h
  · cases h
    rfl
  split at h
  · cases h
    rfl
  split at h
  · cases h
    rfl
  · split at h <;> cases h
    rfl

theorem IsMark.literal {kind : Kind} (h : t.IsMark kind) : t.literal.isInt = false := by
  have none : t.literal = .none := congrArg (·.2.2) h
  rw [none]
  rfl

theorem IsNewline.literal (h : t.IsNewline) : t.literal.isInt = false := by
  have none : t.literal = .none := congrArg (·.2.2) h
  rw [none]
  rfl

theorem IsWord.literal (h : t.IsWord) : t.literal.isInt = false := by
  obtain ⟨c, w, -, word⟩ := h
  have read : munch c (w ++ [' ']) = .ok ⟨t.kind, w.length, t.literal⟩ := word.read (.inl rfl)
  exact munch_literal read

theorem scan_literal {text : String} (h : scan text = .ok ts) :
    ∀ t ∈ ts, t.literal.isInt = false :=
  (scan_laid h).forall_mem (fun _ _ _ _ ht => ht.literal) (fun _ ht => ht.literal)
    fun _ ht => ht.literal

end Token

theorem Expr.Stems.isInt {o : Origin} {T : List Token} {e : Expr} (h : e.Stems o T)
    (ht : ∀ t ∈ T, t.literal.isInt = false) : e.isInt = false := by
  cases e with
  | literal loc a =>
    rcases h.2 with ha | ⟨t, hm, rfl⟩
    · simp only [List.mem_cons, List.not_mem_nil, or_false] at ha
      rcases ha with rfl | rfl | rfl <;> rfl
    · exact ht t hm
  | _ => rfl

theorem Program.clean_ofSource {text file : String} {p : Program} (h : ofSource text file = .ok p) :
    p.Clean := by
  obtain ⟨o, tokens, scanned, spans⟩ := spans_ofSource h
  have literals := Token.scan_literal scanned
  exact fun s hs =>
    Stmt.Holds.mono (spans.origins s hs) (fun _ _ => trivial) fun _ he => he.isInt literals

/-- The order of places in one text. -/
def Location.Before (l m : Location) : Prop :=
  l.line < m.line ∨ l.line = m.line ∧ l.column < m.column

instance (l m : Location) : Decidable (l.Before m) := inferInstanceAs (Decidable (_ ∨ _))

namespace Token

variable {t : Token} {ms ts : List Token}

theorem Opened.cons (ht : t.kind ≠ .indent) (h : Opened ts) : Opened (t :: ts) :=
  List.isChain_cons.mpr ⟨fun _ _ hk => absurd hk ht, h⟩

theorem Opened.append (hms : ∀ m ∈ ms, m.kind ≠ .indent) (h : Opened ts) : Opened (ms ++ ts) := by
  induction ms with
  | nil => exact h
  | cons m ms ih =>
    obtain ⟨hm, hms⟩ := List.forall_mem_cons.mp hms
    exact .cons hm (ih hms)

theorem Laid.opened {depth : Nat} {brackets : List Symbol} {fresh : Bool}
    (h : Laid depth brackets fresh ts) : Opened ts := by
  have dedents {ms : List Token} (hms : ∀ m ∈ ms, m.IsMark .dedent) : ∀ m ∈ ms, m.kind ≠ .indent := by
    intro m hm
    rw [(hms m hm).kind]
    nofun
  induction h with
  | finish hms _ => exact .append (dedents hms) (List.isChain_singleton _)
  | indent _ ht _ ih => exact List.isChain_cons_cons.mpr ⟨fun _ => ht.kind_isLayout, ih⟩
  | dedent hms _ _ ih => exact .append (dedents hms) ih
  | newline ht _ ih =>
    refine .cons ?_ ih
    rw [ht.kind]
    nofun
  | word ht _ _ ih =>
    refine .cons (fun hk => ?_) ih
    have word := ht.kind_isLayout
    rw [hk] at word
    cases word

theorem scan_ordered {text : String} (o : Origin) (h : scan text = .ok ts) :
    (o.trail ts).Pairwise Location.Before := by
  have covers := scanFrom_covers (.inr (Source.getLast?_cleanList text.toList)) h
  exact List.pairwise_map.mpr (covers.pairwise.imp fun ordered => ordered.1)

end Token

theorem Target.toExpr_form (target : Target) :
    (∃ l id, target.toExpr = .name l id) ∨ (∃ l base name, target.toExpr = .member l base name) ∨
      ∃ l base i, target.toExpr = .index l base i := by
  cases target with
  | name l id => exact .inl ⟨l, id, rfl⟩
  | member l base name => exact .inr (.inl ⟨l, base, name, rfl⟩)
  | index l base i => exact .inr (.inr ⟨l, base, i, rfl⟩)

/-- Each block has a statement, targets can be assigned to, the arguments of a call stand in their
order with keywords that differ, and so do the statements in preorder. -/
structure Program.Regular (p : Program) : Prop where
  filled {looped inside : Bool} {s : Stmt} (h : p.Has looped inside s) : [] ∉ s.bodies
  target {looped inside : Bool} {loc : Location} {target : Target} {op : AssignOp} {e : Expr}
    (h : p.Has looped inside (.assign loc target op e)) :
    (∃ l id, target.toExpr = .name l id) ∨ (∃ l base name, target.toExpr = .member l base name) ∨
      ∃ l base i, target.toExpr = .index l base i
  keywords {loc : Location} {f : Expr} {args : List Expr} {named : List (String × Expr)}
    (h : p.Says (.call loc f args named)) : (named.map (·.1)).Nodup
  arguments {loc : Location} {f : Expr} {args : List Expr} {named : List (String × Expr)}
    (h : p.Says (.call loc f args named)) {a d : Expr} (ha : a ∈ args) (hd : d.Inside a)
    {b : String × Expr} {e : Expr} (hb : b ∈ named) (he : e.Inside b.2) : d.location.Before e.location
  ordered : ((p.statements.flatMap Stmt.preorder).map Stmt.location).Pairwise Location.Before

theorem Program.regular_ofSource {text file : String} {p : Program} (h : ofSource text file = .ok p) :
    p.Regular := by
  obtain ⟨o, tokens, scanned, spans⟩ := spans_ofSource h
  have ordered := Token.scan_ordered o scanned
  have opened := (Token.scan_laid scanned).opened
  refine ⟨fun hs => ?_, fun _ => ?_, fun he => ?_, fun he a d ha hd b e hb hin => ?_, ?_⟩
  · exact (hs.holds spans.origins).self.filled opened
  · exact Target.toExpr_form _
  · exact (he.holds spans.origins).self.2.1
  · obtain ⟨-, -, u, v, split, args, named⟩ := (he.holds spans.origins).self
    have behind := ordered.sublist (o.trail_sublist split)
    rw [o.trail_append, List.pairwise_append] at behind
    exact behind.2.2 _ (args a ha d hd) _ (named b hb e hin)
  · exact ordered.sublist spans.places

end LoopScript
