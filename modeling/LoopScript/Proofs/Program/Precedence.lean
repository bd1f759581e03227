import LoopScript.Proofs.Program.FrontEnd
import LoopScript.Proofs.Program.Grouping
import LoopScript.Proofs.Program.Statements

/-!
Precedence and associativity of operators: the parser makes of a flat sequence the tree that is grouped
as the tightness of its operators says.
-/

namespace LoopScript

open Token (Kind)
open List (Forall₂)

namespace Token

variable {t : Token}

/-- What an expression without brackets can begin with. -/
structure Kind.Starts (k : Kind) : Prop where
  opens : k.opens = true
  unnegated : k ≠ Reader.word .not_
  unbound : k ≠ Reader.word .lambda_

theorem starts_value {v : Atom} (h : t.Writes (.value v)) :
    t.kind.Starts ∧ t.kind ∉ Reader.prefixes := by
  obtain ⟨kind, lexeme, literal, line, column⟩ := t
  simp only [Writes, value?] at h
  split at h
  all_goals
    cases h
    try exact ⟨⟨rfl, nofun, nofun⟩, of_decide_eq_true rfl⟩

theorem starts_name {id : String} (h : t.Writes (.name id)) :
    t.kind.Starts ∧ t.kind ∉ Reader.prefixes := by
  rw [h.1]
  exact ⟨⟨rfl, nofun, nofun⟩, by decide⟩

theorem starts_sign {op : UnaryOp} (hop : op ∈ UnaryOp.signs) (h : t.Writes (.sign op)) :
    t.kind.Starts := by
  rw [h.1]
  cases op with
  | neg | pos | invert => exact ⟨rfl, nofun, nofun⟩
  | not_ | other => simp [UnaryOp.signs] at hop

theorem ne_eof_of_writes {x : Expr.Piece} (h : t.Writes x) : t.kind ≠ .eof := by
  cases x with
  | value v => exact fun hk => by simp [Writes, value?, hk] at h
  | name id => exact fun hk => by simp [Writes, hk] at h
  | sign op => rw [h.1]; cases op <;> exact nofun
  | joint op => rw [h.1]; cases op <;> exact nofun

end Token

/-- Where an operator is read. -/
theorem BinaryOp.read_at_level {op : BinaryOp} {t : Token} (hop : op ∈ known) (h : t.Writes (.joint op))
    (lower : op ≠ pow) : t.kind ∈ op.level.operators ∧ op.level.operator t = op ∧
      op.level.grip = op.tightness := by
  obtain ⟨hk, hl⟩ := h
  cases op with
  | pow => exact absurd rfl lower
  | other s => simp [known] at hop
  | or_ | and_ => exact ⟨by rw [hk]; decide, rfl, rfl⟩
  | _ => exact ⟨by rw [hk]; decide, by simp only [level, Reader.Level.operator, hl]; rfl, rfl⟩

theorem split_of_forall₂ {α β : Type} {R : α → β → Prop} {as : List α} {b : β} {bs cs : List β}
    (h : Forall₂ R as (bs ++ b :: cs)) :
    ∃ xs x ys, as = xs ++ x :: ys ∧ Forall₂ R xs bs ∧ R x b ∧ Forall₂ R ys cs := by
  induction bs generalizing as with
  | nil =>
    cases h with
    | @cons x _ ys _ here later => exact ⟨[], x, ys, rfl, .nil, here, later⟩
  | cons b' bs ih =>
    cases h with
    | @cons a _ as _ first h =>
      obtain ⟨xs, x, ys, rfl, left, here, later⟩ := ih h
      exact ⟨a :: xs, x, ys, rfl, .cons first left, here, later⟩

namespace Reader

variable {o : Origin} {t : Token} {ts us rest : List Token} {e l r : Expr} {level : Level}

theorem head_of_marks (he : e.Grouped) (h : Forall₂ o.Marks ts e.inOrder) :
    ∃ t us, ts = t :: us ∧ t.kind.Starts := by
  induction he generalizing ts with
  | literal =>
    cases h with
    | cons mark rest => exact ⟨_, _, rfl, (Token.starts_value mark.writes).1⟩
  | name =>
    cases h with
    | cons mark rest => exact ⟨_, _, rfl, (Token.starts_name mark.writes).1⟩
  | unary loc hop =>
    cases h with
    | cons mark rest => exact ⟨_, _, rfl, Token.starts_sign hop mark.writes⟩
  | binary loc hop hl hr _ _ ih _ =>
    obtain ⟨xs, x, ys, rfl, left, -, -⟩ := split_of_forall₂ h
    obtain ⟨t, us, rfl, starts⟩ := ih left
    exact ⟨t, us ++ x :: ys, rfl, starts⟩

theorem atom_value {v : Atom} (h : t.Writes (.value v)) :
    Reads (atom o) 1 (t :: rest) (.literal (o.locate t) v) rest := by
  refine reads_succ (d := 0) fun n _ => ?_
  obtain ⟨kind, lexeme, literal, line, column⟩ := t
  simp only [Token.Writes, Token.value?] at h
  split at h
  all_goals
    cases h
    try rfl

theorem atom_name {id : String} (h : t.Writes (.name id)) :
    Reads (atom o) 1 (t :: rest) (.name (o.locate t) id) rest := by
  refine reads_succ (d := 0) fun n _ => ?_
  obtain ⟨kind, lexeme, literal, line, column⟩ := t
  obtain ⟨rfl, rfl⟩ := h
  rfl

/-- An expression that binds tighter than every operator between operands. -/
theorem signed_of_grouped (he : e.Grouped) (tight : 11 ≤ e.tightness)
    (h : Forall₂ o.Marks ts e.inOrder) (hr : Loose 11 rest) :
    ∃ d, Reads (signed o) d (ts ++ rest) e rest := by
  induction he generalizing ts with
  | literal =>
    cases h with
    | cons mark none =>
      cases none
      obtain ⟨rfl, writes⟩ := mark
      exact ⟨2, reads_alone (atom_value writes) (Nat.le_refl 1) hr
        ⟨_, rest, rfl, (Token.starts_value writes).2⟩⟩
  | name =>
    cases h with
    | cons mark none =>
      cases none
      obtain ⟨rfl, writes⟩ := mark
      exact ⟨2, reads_alone (atom_name writes) (Nat.le_refl 1) hr
        ⟨_, rest, rfl, (Token.starts_name writes).2⟩⟩
  | @unary loc op e hop _ inner ih =>
    cases h with
    | @cons t _ us _ mark marks =>
      obtain ⟨d, operand⟩ := ih inner marks
      obtain ⟨rfl, hk, hl⟩ := mark
      have signs : t.kind ∈ [sign .minus, sign .plus, sign .tilde, word .not_] ∧
          UnaryOp.ofText t.lexeme = op := by
        rw [hk, hl]
        cases op with
        | neg | pos | invert => exact ⟨by decide, rfl⟩
        | not_ | other => simp [UnaryOp.signs] at hop
      refine ⟨d + 1, reads_succ fun n hn => ?_⟩
      rw [List.cons_append, signed, bind_ok peek_cons, if_pos signs.1, bind_ok skip_cons,
        bind_ok (operand n hn), signs.2]
      rfl
  | @binary loc op l r =>
    have := op.tightness_le
    exact absurd tight (by simp only [Expr.tightness]; omega)

theorem power_of_grouped (he : e.Grouped) (tight : 10 ≤ e.tightness)
    (h : Forall₂ o.Marks ts e.inOrder) (hr : Loose 10 rest) :
    ∃ d, Reads (power o) d (ts ++ rest) e rest := by
  induction he using Expr.Grouped.joints generalizing ts with
  | alone he alone =>
    obtain ⟨d, read⟩ := signed_of_grouped he alone h (hr.mono (by omega))
    exact ⟨d + 1, reads_power read hr⟩
  | @joined loc op l r hop hl hr' leads follows _ ih =>
    obtain rfl := BinaryOp.eq_pow_of_tightness tight
    obtain ⟨xs, x, ys, rfl, left, mark, right⟩ := split_of_forall₂ h
    obtain ⟨rfl, hk, -⟩ := mark
    rw [BinaryOp.Leads, if_pos rfl] at leads
    rw [BinaryOp.Follows, if_pos rfl] at follows
    have grips : Loose 11 (x :: (ys ++ rest)) := ⟨x, _, rfl, by rw [hk]; decide⟩
    obtain ⟨d, base⟩ := signed_of_grouped hl leads left grips
    obtain ⟨d', exponent⟩ := ih follows right
    refine ⟨max d d' + 1, ?_⟩
    rw [List.append_assoc, List.cons_append]
    exact reads_raised (base.mono (Nat.le_max_left d d')) hk (exponent.mono (Nat.le_max_right d d'))

/-- Behind what is read of a chain so far, its links go on. -/
def Continues (o : Origin) (level : Level) (ts : List Token) (e : Expr) (rest : List Token) : Prop :=
  ∃ d j, ∀ n, d ≤ n → chain o (n + j) level ts = links o n level e rest

theorem continues_of_operand {d : Nat} (h : Reads (operand o · level) d ts e rest) :
    Continues o level ts e rest := by
  refine ⟨d, 1, fun n hn => ?_⟩
  rw [chain, bind_ok (h n hn)]

theorem Continues.joined {d : Nat} (h : Continues o level ts l (t :: us))
    (ht : t.kind ∈ level.operators) (hr : Reads (operand o · level) d us r rest) :
    Continues o level ts (.binary (o.locate t) (level.operator t) l r) rest := by
  obtain ⟨d', j, goes⟩ := h
  refine ⟨max d d', j + 1, fun n hn => ?_⟩
  have first : n + (j + 1) = n + 1 + j := by omega
  rw [first, goes (n + 1) (by omega), links, bind_ok peek_cons, if_pos ht, bind_ok skip_cons,
    bind_ok (hr n (by omega))]

theorem Continues.stop (h : Continues o level ts e rest) (hr : Loose level.grip rest) :
    ∃ d, Reads (chain o · level) d ts e rest := by
  obtain ⟨d, j, goes⟩ := h
  refine ⟨max d 1 + j, fun n hn => ?_⟩
  obtain ⟨n, rfl⟩ : ∃ m, n = m + j := ⟨n - j, by omega⟩
  exact (goes n (by omega)).trans (links_stop e hr n (by omega))

/-- An operand of a level is an expression of the next tighter one. -/
theorem operand_of_grouped (he : e.Grouped) (tight : level.grip < e.tightness)
    (h : Forall₂ o.Marks ts e.inOrder) (hr : Loose (level.grip + 1) rest)
    (next : ∀ inner : Level, inner.grip = level.grip + 1 → Continues o inner (ts ++ rest) e rest) :
    ∃ d, Reads (operand o · level) d (ts ++ rest) e rest := by
  by_cases hl : level = .product
  · subst hl
    obtain ⟨d, read⟩ := power_of_grouped he tight h hr
    exact ⟨d + 1, reads_product read⟩
  · obtain ⟨inner, ho, hi⟩ := Level.exists_inner hl
    obtain ⟨d, read⟩ := (next inner hi).stop (hi ▸ hr)
    obtain ⟨t, us, rfl, starts⟩ := head_of_marks he h
    exact ⟨d + 2, reads_operand_of_outer ho read ⟨t, us ++ rest, rfl, starts.unnegated⟩⟩

/-- The descent along the levels to the one at which an expression is joined. -/
theorem continues_inward (he : e.Grouped) (h : Forall₂ o.Marks ts e.inOrder)
    (top : ∀ (level : Level) (rest : List Token), level.grip = e.tightness →
      Loose (level.grip + 1) rest → Continues o level (ts ++ rest) e rest)
    (level : Level) {rest : List Token} (tight : level.grip ≤ e.tightness)
    (hr : Loose (level.grip + 1) rest) : Continues o level (ts ++ rest) e rest := by
  -- by the levels that are tighter: nine is the tightest grip between operands
  generalize hk : 9 - level.grip = k
  induction k generalizing level with
  | zero =>
    by_cases here : level.grip = e.tightness
    · exact top level rest here hr
    · obtain ⟨d, read⟩ := operand_of_grouped he (by omega) h hr fun inner hi => by
        have := inner.grip_bounds
        omega
      exact continues_of_operand read
  | succ k ih =>
    by_cases here : level.grip = e.tightness
    · exact top level rest here hr
    · obtain ⟨d, read⟩ := operand_of_grouped he (by omega) h hr fun inner hi =>
        ih inner (by omega) (hr.mono (by omega)) (by omega)
      exact continues_of_operand read

theorem continues_of_grouped (he : e.Grouped) (h : Forall₂ o.Marks ts e.inOrder)
    (tight : level.grip ≤ e.tightness) (hr : Loose (level.grip + 1) rest) :
    Continues o level (ts ++ rest) e rest := by
  induction he using Expr.Grouped.joints generalizing ts level rest with
  | alone he alone =>
    refine continues_inward he h (fun level rest top _ => ?_) level tight hr
    have := level.grip_bounds
    omega
  | @joined loc op l r hop hl hr' leads follows ihl ihr =>
    refine continues_inward (.binary loc hop hl hr' leads follows) h (fun level rest top hr => ?_)
      level tight hr
    have bound := level.grip_bounds
    have lower : op ≠ .pow := by
      rintro rfl
      change level.grip = 10 at top
      omega
    obtain ⟨xs, x, ys, rfl, left, mark, right⟩ := split_of_forall₂ h
    obtain ⟨rfl, writes⟩ := mark
    obtain ⟨operators, same, grip⟩ := BinaryOp.read_at_level hop writes lower
    obtain rfl : level = op.level := Level.grip_injective (top.trans grip.symm)
    rw [BinaryOp.Leads, if_neg lower] at leads
    rw [BinaryOp.Follows, if_neg lower] at follows
    have grips : Loose (op.level.grip + 1) (x :: (ys ++ rest)) :=
      ⟨x, _, rfl, by rw [Level.grip_of_mem operators]; omega⟩
    obtain ⟨d, behind⟩ := operand_of_grouped hr' (by omega) right hr fun inner hi =>
      ihr right (by omega) (hr.mono (by omega))
    have joined := (ihl left (by omega) grips).joined operators behind
    rw [same] at joined
    rw [List.append_assoc, List.cons_append]
    exact joined

theorem one_le_tightness (he : e.Grouped) : 1 ≤ e.tightness := by
  cases he with
  | @binary loc op l r hop =>
    cases op with
    | other s => simp [BinaryOp.known] at hop
    | _ => simp only [Expr.tightness, BinaryOp.tightness]; decide
  | _ => simp only [Expr.tightness]; decide

/-- Wherever an expression is read, a flat sequence is read as its tree. -/
theorem expression_of_grouped (he : e.Grouped) (h : Forall₂ o.Marks ts e.inOrder)
    (hr : Loose 1 rest) : ∃ d, Reads (expression o) d (ts ++ rest) e rest := by
  have whole : Continues o .disjunction (ts ++ rest) e rest :=
    continues_of_grouped he h (one_le_tightness he) (hr.mono (by decide))
  obtain ⟨d, read⟩ := whole.stop hr
  obtain ⟨t, us, rfl, starts⟩ := head_of_marks he h
  exact ⟨d + 1, reads_expression read ⟨t, us ++ rest, rfl, starts.unbound⟩⟩

/-- What an expression begins with begins no other statement. -/
theorem line_of_starts (starts : t.kind.Starts) (n : Nat) :
    statement o (n + 1) (t :: us) = simple o n (t :: us) ∧
      simpleBody o n (t :: us) = assignmentOrExpression o n (o.locate t) (t :: us) := by
  obtain ⟨kind, lexeme, literal, line, column⟩ := t
  have opens := starts.opens
  cases kind with
  | keyword k => cases k <;> first | exact ⟨rfl, rfl⟩ | exact absurd opens Bool.false_ne_true
  | newline | indent | dedent | eof | other => cases opens
  | number | string | ident | symbol => exact ⟨rfl, rfl⟩

section Programs

variable {eof : Token} {ns : List Token} (hn : ∀ t ∈ ns, t.kind = .newline) (heof : eof.kind = .eof)

include hn heof

theorem loose_ends : Loose 1 (ns ++ [eof]) := by
  cases ns with
  | nil => exact ⟨eof, [], rfl, by rw [heof]; decide⟩
  | cons t ns => exact ⟨t, ns ++ [eof], rfl, by rw [hn t List.mem_cons_self]; decide⟩

theorem reads_newlines : Reads newlines (ns.length + 1) (ns ++ [eof]) () [eof] := by
  induction ns with
  | nil =>
    refine reads_succ (d := 0) fun n _ => ?_
    rw [newlines, List.nil_append, accept_else (by rw [heof]; nofun)]
    rfl
  | cons t ns ih =>
    refine reads_succ fun n hn' => ?_
    rw [newlines, List.cons_append, accept_then (hn t List.mem_cons_self)]
    exact ih (fun u hu => hn u (List.mem_cons_of_mem t hu)) n hn'

theorem reads_statementEnd : Reads statementEnd (ns.length + 1) (ns ++ [eof]) () [eof] := by
  intro n hn'
  cases ns with
  | nil =>
    rw [statementEnd, List.nil_append, bind_ok peek_cons, if_pos (.inr heof)]
    rfl
  | cons t ns =>
    have newline := hn t List.mem_cons_self
    have ends : ¬(t.kind = .dedent ∨ t.kind = .eof) := by
      rw [newline]
      rintro (h | h) <;> cases h
    have read := reads_newlines hn heof n hn'
    rw [List.cons_append] at read ⊢
    rw [statementEnd, bind_ok peek_cons, if_neg ends, if_pos newline]
    exact read

theorem statement_of_grouped (he : e.Grouped) (h : Forall₂ o.Marks (t :: ts) e.inOrder)
    (starts : t.kind.Starts) :
    ∃ d, Reads (statement o) d (t :: (ts ++ (ns ++ [eof]))) (.expr (o.locate t) e) [eof] := by
  obtain ⟨d, read⟩ := expression_of_grouped he h (loose_ends hn heof)
  refine ⟨max d (ns.length + 1) + 1, reads_succ fun n hn' => ?_⟩
  obtain ⟨u, us, ends, hu⟩ : ∃ u us, ns ++ [eof] = u :: us ∧ u.kind ∉ assignments := by
    cases ns with
    | nil => exact ⟨eof, [], rfl, by rw [heof]; decide⟩
    | cons u ns => exact ⟨u, ns ++ [eof], rfl, by rw [hn u List.mem_cons_self]; decide⟩
  have line := reads_statementEnd hn heof n (by omega)
  have whole := read n (by omega)
  rw [List.cons_append] at whole
  rw [ends] at whole line ⊢
  have body : simpleBody o n (t :: (ts ++ u :: us)) = .ok (.expr (o.locate t) e, u :: us) := by
    rw [(line_of_starts starts n).2, assignmentOrExpression, bind_ok whole, bind_ok peek_cons,
      if_neg hu]
    rfl
  rw [(line_of_starts starts n).1, simple, bind_ok body, bind_ok line]
  rfl

theorem program_of_grouped (he : e.Grouped) (h : Forall₂ o.Marks (t :: ts) e.inOrder)
    (starts : t.kind.Starts) : ∃ d, Reads (program o) d (t :: (ts ++ (ns ++ [eof])))
      ⟨o.locate eof, [.expr (o.locate t) e]⟩ [eof] := by
  obtain ⟨d, read⟩ := statement_of_grouped hn heof he h starts
  refine ⟨d + 2, reads_succ fun n hn' => ?_⟩
  have opens := starts.opens
  have goes : t.kind ≠ .eof := fun hk => by rw [hk] at opens; cases opens
  have line : t.kind ≠ .newline := fun hk => by rw [hk] at opens; cases opens
  obtain ⟨n, rfl⟩ : ∃ m, n = m + 1 := ⟨n - 1, by omega⟩
  have done : topLevel o (n + 1) [eof] = .ok ([], [eof]) := by
    rw [topLevel, bind_ok peek_cons, if_pos heof]
    rfl
  have body : topLevel o (n + 2) (t :: (ts ++ (ns ++ [eof]))) =
      .ok ([.expr (o.locate t) e], [eof]) := by
    rw [topLevel, bind_ok peek_cons, if_neg goes, accept_else line, bind_ok (read (n + 1) (by omega)),
      bind_ok done]
    rfl
  rw [program, bind_ok body]
  rfl

end Programs

end Reader

namespace Program

variable {o : Origin} {ts ns : List Token} {eof : Token}

/-- What is read at some depth is read at the depth that the parser allows. -/
theorem ofTokens_of_reads {p : Program} {d : Nat} {us : List Token} (heof : eof.kind = .eof)
    (hts : ∀ t ∈ ts, t.kind ≠ .eof) (h : Reader.Reads (Reader.program o) d (ts ++ [eof]) p us) :
    ofTokens o (ts ++ [eof]) = .ok p := by
  have enough : 40 * (ts.length + 1) ≤ depthPerToken * ((ts ++ [eof]).length + 1) := by
    rw [depthPerToken, List.length_append]
    omega
  have settled : Reader.program o (depthPerToken * ((ts ++ [eof]).length + 1)) (ts ++ [eof]) ≠
      .error .ranOut := by
    rcases Reader.program_outcome (o := o) heof hts enough with ⟨p', read⟩ | ⟨fault, t, -, read⟩
    · rw [read []]
      simp
    · rw [read []]
      simp
  have same := Reader.program_of_le (Nat.le_max_left _ d) settled
  rw [h _ (Nat.le_max_right _ d)] at same
  rw [ofTokens, StateT.run', ← same]
  rfl

/-- The parser makes of a flat sequence the only tree that reads back in order as the sequence and is
grouped as the tightness of its operators says. It does so wherever an expression is read. -/
theorem ofTokens_flat (o : Origin) (h : Token.Flat ts) (hn : ∀ t ∈ ns, t.kind = .newline)
    (heof : eof.kind = .eof) : ∃ e : Expr, e.Grouped ∧ Forall₂ o.Marks ts e.inOrder ∧
      ofTokens o (ts ++ ns ++ [eof]) = .ok ⟨o.locate eof, [.expr (o.locate (ts.headD eof)) e]⟩ ∧
      (∀ rest, Reader.Loose 1 rest →
        ∃ d, Reader.Reads (Reader.expression o) d (ts ++ rest) e rest) ∧
      ∀ e' : Expr, e'.Grouped → Forall₂ o.Marks ts e'.inOrder → e' = e := by
  obtain ⟨e, grouped, marks⟩ := h.exists_grouped o
  obtain ⟨t, us, rfl, starts⟩ := Reader.head_of_marks grouped marks
  have words : ∀ u ∈ t :: us ++ ns, u.kind ≠ .eof := by
    have marked : Forall₂ (fun u x => u.kind ≠ .eof ∧ o.Marks u x) (t :: us) e.inOrder :=
      marks.imp fun u x mark => ⟨Token.ne_eof_of_writes mark.writes, mark⟩
    intro u hu
    rcases List.mem_append.mp hu with hu | hu
    · exact ((List.forall₂_and_left _ _).mp marked).1 u hu
    · rw [hn u hu]
      nofun
  have parsed {e' : Expr} (grouped : e'.Grouped) (marks : Forall₂ o.Marks (t :: us) e'.inOrder) :
      ofTokens o (t :: us ++ ns ++ [eof]) = .ok ⟨o.locate eof, [.expr (o.locate t) e']⟩ := by
    obtain ⟨d, read⟩ := Reader.program_of_grouped hn heof grouped marks starts
    exact ofTokens_of_reads heof words (by simpa using read)
  refine ⟨e, grouped, marks, parsed grouped marks, fun rest hr => ?_, fun e' grouped' marks' => ?_⟩
  · exact Reader.expression_of_grouped grouped marks hr
  · have same := (parsed grouped' marks').symm.trans (parsed grouped marks)
    simpa using same

def mixedPlace (column : Nat) : Location := ⟨"mixed", 1, column, ""⟩

/-- The tokens of `a - ~b ** c ** d - e in None`. -/
def mixedTokens : List Token :=
  let joint (column : Nat) (op : BinaryOp) : Token := (mixedPlace column).token op.kind op.text
  [(mixedPlace 1).ident "a", joint 3 .sub, (mixedPlace 5).token UnaryOp.invert.kind "~",
    (mixedPlace 6).ident "b", joint 8 .pow, (mixedPlace 11).ident "c", joint 13 .pow,
    (mixedPlace 16).ident "d", joint 18 .sub, (mixedPlace 20).ident "e", joint 22 .mem,
    (mixedPlace 25).word .none_]

/-- It is read as `((a - ((~b) ** (c ** d))) - e) in None`. -/
def mixed : Expr :=
  let name (column : Nat) (id : String) : Expr := .name (mixedPlace column) id
  let powers : Expr := .binary (mixedPlace 8) .pow (.unary (mixedPlace 5) .invert (name 6 "b"))
    (.binary (mixedPlace 13) .pow (name 11 "c") (name 16 "d"))
  .binary (mixedPlace 22) .mem (.binary (mixedPlace 18) .sub
    (.binary (mixedPlace 3) .sub (name 1 "a") powers) (name 20 "e"))
    (.literal (mixedPlace 25) .none)

def mixedEnds : List Token := [(mixedPlace 29).newline]

def mixedEof : Token := ⟨.eof, "", .none, 2, 1⟩

theorem flat_mixed : Token.Flat mixedTokens := by
  refine @Token.Flat.joined _ .sub [_] _ (.name ⟨rfl, rfl⟩) (by decide) ⟨rfl, rfl⟩ ?_
  have signed := @Token.Operand.signed ((mixedPlace 5).token UnaryOp.invert.kind "~") .invert
    [(mixedPlace 6).ident "b"] (by decide) ⟨rfl, rfl⟩ (.name ⟨rfl, rfl⟩)
  refine @Token.Flat.joined _ .pow [_, _] _ signed (by decide) ⟨rfl, rfl⟩ ?_
  refine @Token.Flat.joined _ .pow [_] _ (.name ⟨rfl, rfl⟩) (by decide) ⟨rfl, rfl⟩ ?_
  refine @Token.Flat.joined _ .sub [_] _ (.name ⟨rfl, rfl⟩) (by decide) ⟨rfl, rfl⟩ ?_
  refine @Token.Flat.joined _ .mem [_] _ (.name ⟨rfl, rfl⟩) (by decide) ⟨rfl, rfl⟩ ?_
  exact .operand (.value rfl)

theorem grouped_mixed : mixed.Grouped := by
  have name (column : Nat) (id : String) : Expr.Grouped (.name (mixedPlace column) id) := .name _ id
  have signed := @Expr.Grouped.unary (mixedPlace 5) .invert _ (by decide) (name 6 "b") (by decide)
  have power := @Expr.Grouped.binary (mixedPlace 13) .pow _ _ (by decide) (name 11 "c")
    (name 16 "d") (by decide) (by decide)
  have powers := @Expr.Grouped.binary (mixedPlace 8) .pow _ _ (by decide) signed power (by decide)
    (by decide)
  have difference := @Expr.Grouped.binary (mixedPlace 3) .sub _ _ (by decide) (name 1 "a") powers
    (by decide) (by decide)
  have differences := @Expr.Grouped.binary (mixedPlace 18) .sub _ _ (by decide) difference
    (name 20 "e") (by decide) (by decide)
  exact .binary _ (by decide) differences (.literal _ _) (by decide) (by decide)

theorem ofTokens_flat_mixed :
    Token.scan "a - ~b ** c ** d - e in None\n" = .ok (mixedTokens ++ mixedEnds ++ [mixedEof]) ∧
    Token.Flat mixedTokens ∧ mixed.Grouped ∧
    ofTokens ⟨"mixed", #[]⟩ (mixedTokens ++ mixedEnds ++ [mixedEof]) =
      .ok ⟨⟨"mixed", 2, 1, ""⟩, [.expr (mixedPlace 1) mixed]⟩ := by
  have scanned : Token.scan "a - ~b ** c ** d - e in None\n" =
      .ok (mixedTokens ++ mixedEnds ++ [mixedEof]) := by cbv
  have ends : ∀ t ∈ mixedEnds, t.kind = .newline := List.forall_mem_singleton.mpr rfl
  have last : mixedEof.kind = .eof := rfl
  obtain ⟨e, -, -, read, -, unique⟩ := ofTokens_flat ⟨"mixed", #[]⟩ flat_mixed ends last
  have marks : Forall₂ (Origin.Marks ⟨"mixed", #[]⟩) mixedTokens mixed.inOrder := by
    repeat' constructor
  obtain rfl := unique mixed grouped_mixed marks
  exact ⟨scanned, flat_mixed, grouped_mixed, read⟩

end Program

end LoopScript
