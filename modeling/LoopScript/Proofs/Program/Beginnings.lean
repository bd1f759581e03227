import LoopScript.Proofs.Program.Spans
import LoopScript.Proofs.Source.Lines

/-!
Where the words of statements begin. Each statement of a program is read from a word of its own, and
its place is that of the first token of the word, with the text of the line that has its number.
-/

namespace LoopScript

namespace Reader

open Token (Kind)

variable {o : Origin} {n : Nat} {ts us v w : List Token} {t : Token} {s : Stmt} {ss ss' : List Stmt}

theorem Gives.run {α : Type} {P Q : List Token → α → Prop} {x : Reader α} (hx : Gives ts P x)
    (h : ∀ w us a, ts = w ++ us → x ts = .ok (a, us) → P w a → Q w a) : Gives ts Q x := by
  intro a us e
  obtain ⟨w, split, ha⟩ := hx a us e
  exact ⟨w, split, h w us a split e ha⟩

/-- Read from this word, before some rest, a statement is given: as a statement of any form, as one
that fits on a line, as a method, or as a further condition. -/
inductive Forms (o : Origin) (w rest : List Token) : Stmt → Prop where
  | statement {n : Nat} {s : Stmt} (h : statement o n (w ++ rest) = .ok (s, rest)) : Forms o w rest s
  | simple {n : Nat} {s : Stmt} (h : simple o n (w ++ rest) = .ok (s, rest)) : Forms o w rest s
  | method {n : Nat} {d : FunctionDef} (h : functionDef o n (w ++ rest) = .ok (d, rest)) :
    Forms o w rest (.function d)
  | condition {n : Nat} {s : Stmt} (first : ∀ t ∈ w.head?, t.kind = word .elif_)
    (h : alternative o n (w ++ rest) = .ok (some [s], rest)) : Forms o w rest s

/-- A statement at the place of the first token of a word. -/
def Leads (o : Origin) (w : List Token) (s : Stmt) : Prop :=
  ∃ t v, w = t :: v ∧ t.kind.isMark = false ∧ s.location = o.locate t

/-- A statement is read from some of the tokens, and stands at the place of the first. -/
def Begins (o : Origin) (ts : List Token) (s : Stmt) : Prop :=
  ∃ w rest, w ++ rest <:+ ts ∧ Forms o w rest s ∧ Leads o w s

def Begun (o : Origin) (ts : List Token) (ss : List Stmt) : Prop :=
  ∀ s ∈ ss.flatMap Stmt.preorder, Begins o ts s

theorem Begun.nil : Begun o ts [] := List.forall_mem_nil _

theorem Begun.append (h : Begun o ts ss) (h' : Begun o ts ss') : Begun o ts (ss ++ ss') := by
  rw [Begun, List.flatMap_append]
  exact List.forall_mem_append.mpr ⟨h, h'⟩

theorem Begun.suffix (h : Begun o us ss) (hs : us <:+ ts) : Begun o ts ss := by
  intro s hm
  obtain ⟨w, rest, inner, forms⟩ := h s hm
  exact ⟨w, rest, inner.trans hs, forms⟩

theorem Begun.rest (h : Begun o us ss) (hs : ts = w ++ us) : Begun o ts ss :=
  h.suffix ⟨w, hs.symm⟩

theorem Begun.of (hs : ts = w ++ us) (forms : Forms o w us s) (leads : Leads o w s)
    (children : Begun o ts s.children) : Begun o ts [s] := by
  rw [Begun, List.flatMap_singleton, s.preorder_eq]
  exact List.forall_mem_cons.mpr ⟨⟨w, us, ⟨[], hs.symm⟩, forms, leads⟩, children⟩

theorem Leads.append (h : Leads o v s) (w : List Token) : Leads o (v ++ w) s := by
  obtain ⟨t, u, rfl, place⟩ := h
  exact ⟨t, u ++ w, rfl, place⟩

section Statements

/-- A statement of its own, with no others inside. -/
abbrev Alone (o : Origin) (w : List Token) (s : Stmt) : Prop := Leads o w s ∧ s.children = []

theorem assignmentOrExpression_alone (t : Token) (us : List Token) :
    Gives (t :: us) (Alone o) (assignmentOrExpression o n (o.locate t)) := by
  refine (readsExpressions.expression (t :: us)).bind fun w _ e split he => ?_
  obtain ⟨⟨_, v, rfl, ht⟩, -⟩ := he
  cases split
  have lead (v : List Token) (s : Stmt) (hl : s.location = o.locate t) : Leads o (t :: v) s :=
    ⟨t, v, rfl, ht, hl⟩
  refine gives_peek fun a us ea => ?_
  split
  · subst ea
    refine gives_skip ?_
    split
    · exact gives_refuse _ _
    · exact (readsExpressions.expression us).bind fun _ _ _ _ _ =>
        gives_pure ⟨lead _ _ rfl, rfl⟩
  · exact gives_pure ⟨lead _ _ rfl, rfl⟩

theorem simpleBody_alone : Gives ts (Alone o) (simpleBody o n) := by
  refine gives_peek fun t us e => ?_
  subst e
  have lead (hk : t.kind.isMark = false) (v : List Token) (s : Stmt) (hl : s.location = o.locate t) :
      Leads o (t :: v) s := ⟨t, v, rfl, hk, hl⟩
  dsimp only
  split
  case h_1 hk =>
    have ht : t.kind.isMark = false := congrArg Token.Kind.isMark hk
    refine gives_skip (gives_peekKind fun _ _ _ => ?_)
    split
    · exact gives_pure ⟨lead ht _ _ rfl, rfl⟩
    · exact (readsExpressions.expression us).bind fun _ _ _ _ _ =>
        gives_pure ⟨lead ht _ _ rfl, rfl⟩
  case h_2 hk | h_3 hk | h_4 hk =>
    have ht : t.kind.isMark = false := congrArg Token.Kind.isMark hk
    exact gives_skip (gives_pure ⟨lead ht _ _ rfl, rfl⟩)
  case h_5 hk =>
    have ht : t.kind.isMark = false := congrArg Token.Kind.isMark hk
    refine gives_skip (gives_expect fun first us _ _ => gives_accept_bind (fun c us _ _ => ?_) ?_)
    · exact (gives_names _ _).bind fun _ _ _ _ _ => gives_pure ⟨lead ht _ _ rfl, rfl⟩
    · exact gives_pure ⟨lead ht _ _ rfl, rfl⟩
  case h_6 hk =>
    have ht : t.kind.isMark = false := congrArg Token.Kind.isMark hk
    refine gives_skip (gives_expect fun name us _ _ => gives_accept (fun c us _ _ => ?_) ?_)
    · exact gives_expect fun member us _ _ => gives_pure ⟨lead ht _ _ rfl, rfl⟩
    · exact gives_pure ⟨lead ht _ _ rfl, rfl⟩
  case h_7 => exact assignmentOrExpression_alone t us

theorem simple_alone : Gives ts (Alone o) (simple o n) :=
  simpleBody_alone.bind fun _ _ _ _ hs => gives_statementEnd.bind fun _ _ _ _ _ =>
    gives_pure ⟨hs.1.append _, hs.2⟩

/-- A statement that leads its word, and with it all statements inside. -/
abbrev Headed (o : Origin) (ts w : List Token) (s : Stmt) : Prop := Leads o w s ∧ Begun o ts s.children

theorem simple_begun : Gives ts (fun _ s => Begun o ts [s]) (simple o n) :=
  simple_alone.run fun _ _ _ split read hs =>
    .of split (.simple (split ▸ read)) hs.1 (hs.2 ▸ .nil)

variable (o n)

/-- What the readers of statements give at a depth. -/
structure BeginsStatements : Prop where
  statement (ts : List Token) : Gives ts (fun _ s => Begun o ts [s]) (statement o n)
  alternative (ts : List Token) : Gives ts (fun _ b => Begun o ts (b.getD [])) (alternative o n)
  functionDef (ts : List Token) : Gives ts (fun w d => Headed o ts w (.function d)) (functionDef o n)
  classDef (ts : List Token) : Gives ts (Headed o ts) (classDef o n)
  methodDefs (ts : List Token) :
    Gives ts (fun _ ds => Begun o ts (ds.map Stmt.function)) (methodDefs o n)
  suite (ts : List Token) : Gives ts (fun _ ss => Begun o ts ss) (suite o n)
  statements (ts : List Token) : Gives ts (fun _ ss => Begun o ts ss) (statements o n)

variable {o n} (ih : BeginsStatements o n)

include ih

theorem statement_headed : Gives ts (Headed o ts) (statement o (n + 1)) := by
  refine gives_peek fun t us e => ?_
  subst e
  have lead (hk : t.kind.isMark = false) (v : List Token) (s : Stmt) (hl : s.location = o.locate t) :
      Leads o (t :: v) s := ⟨t, v, rfl, hk, hl⟩
  dsimp only
  split
  case h_1 hk =>
    have ht : t.kind.isMark = false := congrArg Token.Kind.isMark hk
    refine gives_skip ((readsExpressions.expression us).bind fun w us test e₁ _ => ?_)
    refine gives_expect fun c us e₂ _ => (ih.suite us).bind fun b us body e₃ hb => ?_
    refine (ih.alternative us).bind fun a us otherwise e₄ ha => gives_pure ⟨lead ht _ _ rfl, ?_⟩
    subst e₁ e₂ e₃
    exact (hb.suffix ⟨t :: (w ++ [c]), by simp⟩).append (ha.suffix ⟨t :: (w ++ c :: b), by simp⟩)
  case h_2 hk =>
    have ht : t.kind.isMark = false := congrArg Token.Kind.isMark hk
    refine gives_skip ((readsExpressions.expression us).bind fun w us test e₁ _ => ?_)
    refine gives_expect fun c us e₂ _ => (ih.suite us).bind fun b us body e₃ hb => ?_
    subst e₁ e₂
    exact gives_pure ⟨lead ht _ _ rfl, hb.suffix ⟨t :: (w ++ [c]), by simp⟩⟩
  case h_3 hk =>
    have ht : t.kind.isMark = false := congrArg Token.Kind.isMark hk
    refine gives_skip (gives_expect fun item us e₁ _ => gives_expect fun i us e₂ _ => ?_)
    refine (readsExpressions.expression us).bind fun w us e e₃ _ => gives_expect fun c us e₄ _ => ?_
    refine (ih.suite us).bind fun b us body e₅ hb => gives_pure ⟨lead ht _ _ rfl, ?_⟩
    subst e₁ e₂ e₃ e₄
    exact hb.suffix ⟨t :: item :: i :: (w ++ [c]), by simp⟩
  case h_4 => exact (ih.functionDef _).map fun _ _ hd => hd
  case h_5 => exact ih.classDef _
  case h_6 => exact simple_alone.mono fun _ s hs => ⟨hs.1, hs.2 ▸ .nil⟩

theorem statement_begun : Gives ts (fun _ s => Begun o ts [s]) (statement o (n + 1)) :=
  (statement_headed ih).run fun _ _ _ split read hs =>
    .of split (.statement (split ▸ read)) hs.1 hs.2

theorem alternative_begun : Gives ts (fun _ b => Begun o ts (b.getD [])) (alternative o (n + 1)) := by
  have headed : Gives ts (fun w b => Begun o ts (b.getD []) ∨
      ∃ s, b = some [s] ∧ Headed o ts w s ∧ ∀ t ∈ w.head?, t.kind = word .elif_)
      (alternative o (n + 1)) := by
    refine gives_peek fun t us e => ?_
    split
    · next hk =>
      subst e
      have ht : t.kind.isMark = false := congrArg Token.Kind.isMark hk
      refine gives_skip ((readsExpressions.expression us).bind fun w us test e₁ _ => ?_)
      refine gives_expect fun c us e₂ _ => (ih.suite us).bind fun b us body e₃ hb => ?_
      refine (ih.alternative us).bind fun a us otherwise e₄ ha => gives_pure (.inr ⟨_, rfl, ?_, ?_⟩)
      · subst e₁ e₂ e₃
        refine ⟨⟨t, _, rfl, ht, rfl⟩, ?_⟩
        exact (hb.suffix ⟨t :: (w ++ [c]), by simp⟩).append
          (ha.suffix ⟨t :: (w ++ c :: b), by simp⟩)
      · rintro _ ⟨⟩
        exact hk
    · refine gives_accept (fun c us e₁ _ => ?_) (gives_pure (.inl .nil))
      refine gives_expect fun d us e₂ _ => (ih.suite us).map fun w ss h => .inl ?_
      subst e₁ e₂
      exact h.suffix ⟨[c, d], rfl⟩
  refine headed.run fun w us b split read h => ?_
  rcases h with h | ⟨s, rfl, h, first⟩
  · exact h
  · exact .of split (.condition first (split ▸ read)) h.1 h.2

theorem functionDef_headed :
    Gives ts (fun w d => Headed o ts w (.function d)) (functionDef o (n + 1)) := by
  refine gives_expect fun t us e₁ hk => gives_expect fun name us e₂ _ => ?_
  have ht : t.kind.isMark = false := congrArg Token.Kind.isMark hk
  refine gives_expect fun l us e₃ _ => gives_peekKind fun _ _ _ => ?_
  dsimp only
  refine gives_ite_bind (gives_pure ⟨.nil, nofun⟩) (gives_parameters _ _) fun w us params e₄ _ => ?_
  refine gives_expect fun r us e₅ _ => gives_expect fun c us e₆ _ => ?_
  refine (ih.suite us).bind fun b us body e₇ hb => gives_pure ⟨⟨t, _, rfl, ht, rfl⟩, ?_⟩
  subst e₁ e₂ e₃ e₄ e₅ e₆
  exact hb.suffix ⟨t :: name :: l :: (w ++ [r, c]), by simp⟩

theorem classDef_headed : Gives ts (Headed o ts) (classDef o (n + 1)) := by
  refine gives_expect fun t us e₁ hk => gives_expect fun name us e₂ _ => ?_
  have ht : t.kind.isMark = false := congrArg Token.Kind.isMark hk
  refine gives_expect fun c us e₃ _ => gives_peek fun next us e₄ => ?_
  subst e₁ e₂ e₃ e₄
  split
  · refine gives_skip (gives_expect fun i us e₅ _ => (ih.methodDefs us).bind fun w us ds e₆ hm => ?_)
    refine gives_expect fun d us _ _ => gives_pure ⟨⟨t, _, rfl, ht, rfl⟩, ?_⟩
    subst e₅
    exact hm.suffix ⟨[t, name, c, next, i], rfl⟩
  split
  · exact gives_skip (gives_statementEnd.bind fun w us _ _ _ =>
      gives_pure ⟨⟨t, _, rfl, ht, rfl⟩, .nil⟩)
  · exact gives_refuse _ _

theorem methodDefs_begun :
    Gives ts (fun _ ds => Begun o ts (ds.map Stmt.function)) (methodDefs o (n + 1)) := by
  have method : Gives ts (fun _ d => Begun o ts [.function d]) (functionDef o n) :=
    (ih.functionDef ts).run fun _ _ _ split read hd =>
      .of split (.method (split ▸ read)) hd.1 hd.2
  refine gives_peek fun t us _ => ?_
  split
  · exact gives_pure .nil
  refine gives_accept (fun l us e _ => ?_) ?_
  · exact (ih.methodDefs us).mono fun w ds h => h.suffix ⟨[l], e.symm⟩
  split
  · refine method.bind fun w us d e hd => (ih.methodDefs us).bind fun v us ds _ hds => ?_
    exact gives_pure (hd.append (hds.rest e))
  · refine gives_accept (fun c us e _ => ?_) (gives_refuse _ _)
    refine gives_statementEnd.bind fun w us _ e' _ => (ih.methodDefs us).mono fun v ds h => ?_
    subst e e'
    exact h.suffix ⟨c :: w, rfl⟩

theorem suite_begun : Gives ts (fun _ ss => Begun o ts ss) (suite o (n + 1)) := by
  refine gives_accept (fun l us e₁ _ => gives_expect fun i us e₂ _ => ?_) ?_
  · refine (ih.statements us).bind fun w vs body _ hb => gives_expect fun d vs _ _ => gives_pure ?_
    subst e₁ e₂
    exact hb.suffix ⟨[l, i], rfl⟩
  · exact simple_begun.bind fun w us s _ hs => gives_pure hs

theorem statements_begun : Gives ts (fun _ ss => Begun o ts ss) (statements o (n + 1)) := by
  refine gives_peek fun t us _ => ?_
  split
  · exact gives_pure .nil
  refine gives_accept (fun l us e _ => ?_) ?_
  · exact (ih.statements us).mono fun w ss h => h.suffix ⟨[l], e.symm⟩
  · refine (ih.statement ts).bind fun w us s e hs => (ih.statements us).bind fun v us ss _ hss => ?_
    exact gives_pure (hs.append (hss.rest e))

omit ih

theorem beginsStatements : BeginsStatements o n := by
  induction n with
  | zero => constructor <;> intro <;> exact gives_tooDeep
  | succ n ih =>
    exact ⟨fun _ => statement_begun ih, fun _ => alternative_begun ih, fun _ => functionDef_headed ih,
      fun _ => classDef_headed ih, fun _ => methodDefs_begun ih, fun _ => suite_begun ih,
      fun _ => statements_begun ih⟩

theorem topLevel_begun : Gives ts (fun _ ss => Begun o ts ss) (topLevel o n) := by
  induction n generalizing ts with
  | zero => exact gives_tooDeep
  | succ n ih =>
    refine gives_peek fun t us _ => ?_
    split
    · exact gives_pure .nil
    refine gives_accept (fun l us e _ => ?_) ?_
    · exact ih.mono fun w ss h => h.suffix ⟨[l], e.symm⟩
    · refine (beginsStatements.statement ts).bind fun w us s e hs => ih.bind fun v us ss _ hss => ?_
      exact gives_pure (hs.append (hss.rest e))

theorem program_begun : Gives ts (fun _ p => Begun o ts p.statements) (program o n) :=
  topLevel_begun.bind fun _ _ _ _ hb => gives_peek fun _ _ _ => gives_pure hb

end Statements

end Reader

theorem Program.begun_ofTokens {o : Origin} {tokens : List Token} {p : Program}
    (h : ofTokens o tokens = .ok p) : Reader.Begun o tokens p.statements := by
  unfold ofTokens StateT.run' at h
  generalize hr : Reader.program o _ tokens = r at h
  cases r with
  | error e => cases h
  | ok x =>
    cases h
    obtain ⟨-, -, begun⟩ := Reader.program_begun _ _ hr
    exact begun

namespace Token

theorem Laid.spelled {depth : Nat} {brackets : List Symbol} {fresh : Bool} {ts : List Token}
    (h : Laid depth brackets fresh ts) : ∀ t ∈ spelled ts, t.IsNewline ∨ t.IsWord := by
  have skip {kind : Kind} {ms ts : List Token} (hk : kind.isMark = true)
      (hms : ∀ m ∈ ms, m.IsMark kind) : Token.spelled (ms ++ ts) = Token.spelled ts :=
    spelled_marks fun m hm => by rw [(hms m hm).kind, hk]
  induction h with
  | finish hms ht =>
    rw [skip rfl hms]
    exact fun u hu => absurd hu (by simp [Token.spelled, ht.kind, Kind.isMark])
  | @indent depth m t ts hm _ _ ih =>
    rw [← List.singleton_append, skip rfl (List.forall_mem_singleton.mpr hm)]
    exact ih
  | dedent hms _ _ ih =>
    rw [skip rfl hms]
    exact ih
  | newline ht _ ih =>
    rw [spelled_cons (by rw [ht.kind]; rfl)]
    exact List.forall_mem_cons.mpr ⟨.inl ht, ih⟩
  | word ht _ _ ih =>
    rw [spelled_cons (Kind.isMark_of_word ht.kind_isLayout)]
    exact List.forall_mem_cons.mpr ⟨.inr ht, ih⟩

/-- Every token that characters spell stands on the raw line of its number. -/
theorem scan_rawLine {text : String} {ts : List Token} (h : scan text = .ok ts) {t : Token}
    (ht : t ∈ spelled ts) : 1 ≤ t.line ∧ ∃ raw, (Source.rawLines text.toList)[t.line - 1]? = some raw ∧
      Source.WordAt raw t.column t.lexeme.toList := by
  obtain ⟨rest, reads⟩ := (scan_covers h).1 t ht
  have lexeme : t.lexeme.toList ≠ [] ∧ ('\n' ∉ t.lexeme.toList ∨ t.lexeme.toList = ['\n']) := by
    rcases (scan_laid h).spelled t ht with newline | ⟨c, w, lexeme, word⟩
    · have lexeme : t.lexeme = "\n" := congrArg (fun b => b.2.1) newline
      rw [lexeme]
      exact ⟨by decide, .inr rfl⟩
    · rw [lexeme, String.toList_ofList]
      exact ⟨List.cons_ne_nil _ _, .inl word.line⟩
  refine ⟨?_, reads.rawLine lexeme.2 lexeme.1⟩
  obtain ⟨above, before, -, -, -, line, -⟩ := reads
  rw [line]
  exact Nat.le_add_left 1 _

end Token

theorem Text.getElem?_lines (text : String) (i : Nat) :
    ((Text.lines text)[i]?).getD "" = String.ofList (((Text.splitLines text.toList)[i]?).getD []) := by
  rw [Text.lines, List.getElem?_map]
  cases (Text.splitLines text.toList)[i]? <;> rfl

/-- Each statement is read from a word of its own, and says where the first token of the word stands.
Its text is that of the line with this number, which is the raw line on which the token stands unless
a boundary of another kind comes up to there. -/
theorem Program.statement_texts {text file : String} {p : Program} (h : ofSource text file = .ok p) :
    ∃ tokens, Token.scan text = .ok tokens ∧ ∀ s ∈ p.statements.flatMap Stmt.preorder,
      ∃ t v rest, t :: v ++ rest <:+ tokens ∧
        Reader.Forms ⟨file, (Text.lines text).toArray⟩ (t :: v) rest s ∧
        s.location = ⟨file, t.line, t.column, Text.trim ((Text.lines text)[t.line - 1]?.getD "")⟩ ∧
        ∃ raw, (Source.rawLines text.toList)[t.line - 1]? = some raw ∧
          Source.WordAt raw t.column t.lexeme.toList ∧
          ((∀ line ∈ (Source.rawLines text.toList).take t.line, ∀ c ∈ line,
              Text.isLineBoundary c = false) →
            s.location.statement = Text.trim (String.ofList raw)) := by
  unfold ofSource at h
  split at h
  next => cases h
  next tokens scanned =>
    split at h
    next => cases h
    next q hq =>
      cases h
      refine ⟨tokens, scanned, fun s hs => ?_⟩
      obtain ⟨_, rest, inner, forms, t, v, rfl, ht, place⟩ := begun_ofTokens hq s hs
      have mem : t ∈ tokens := inner.subset List.mem_cons_self
      have spelled : t ∈ Token.spelled tokens := List.mem_filter.mpr ⟨mem, by rw [ht]; rfl⟩
      obtain ⟨positive, raw, found, stands⟩ := Token.scan_rawLine scanned spelled
      have located : s.location =
          ⟨file, t.line, t.column, Text.trim ((Text.lines text)[t.line - 1]?.getD "")⟩ := by
        rw [place, Origin.locate, if_neg (Nat.ne_of_gt positive)]
        simp
      refine ⟨t, v, rest, inner, forms, located, raw, found, stands, fun plain => ?_⟩
      have same := Text.getElem?_splitLines text.toList (t.line - 1)
        (by rwa [Nat.sub_add_cancel positive])
      rw [found] at same
      rw [located, Text.getElem?_lines, same]
      rfl

theorem Program.statement_texts_tabbed :
    ∃ p, ofSource "if x:\r\n\tpass # a\r" "tabbed" = .ok p ∧
      ∀ s ∈ p.statements.flatMap Stmt.preorder,
        ∃ raw ∈ Source.rawLines "if x:\r\n\tpass # a\r".toList,
          s.location.statement = Text.trim (String.ofList raw) := by
  have read : (ofSource "if x:\r\n\tpass # a\r" "tabbed").toBool = true := by cbv
  have plain : (Source.rawLines "if x:\r\n\tpass # a\r".toList).all
      (·.all fun c => !Text.isLineBoundary c) = true := by cbv
  simp only [List.all_eq_true, Bool.not_eq_true'] at plain
  cases h : ofSource "if x:\r\n\tpass # a\r" "tabbed" with
  | error e =>
    rw [h] at read
    cases read
  | ok p =>
    refine ⟨p, rfl, fun s hs => ?_⟩
    obtain ⟨tokens, -, texts⟩ := statement_texts h
    obtain ⟨t, v, rest, -, -, -, raw, found, -, text⟩ := texts s hs
    exact ⟨raw, List.mem_of_getElem? found, text fun line hl => plain line (List.mem_of_mem_take hl)⟩

example : (Program.ofSource "# \x0c\nx = a\n" "").map (·.statements.map (·.location)) =
    .ok [⟨"", 2, 1, ""⟩] := by cbv

end LoopScript
