import LoopScript.Proofs.Program.Rendering

/-!
How readers take expressions from the head of a list of tokens, from the tightest level of the
grammar to the loosest. A reader that is allowed enough depth reads the same at every greater depth.
-/

namespace LoopScript

open Token (Kind)

namespace Reader

variable {α β : Type}

/-- From a depth on a reader takes the head of a list of tokens for a value, and leaves the rest. -/
def Reads (r : Nat → Reader α) (depth : Nat) (ts : List Token) (a : α) (rest : List Token) : Prop :=
  ∀ n, depth ≤ n → r n ts = .ok (a, rest)

section Steps

variable {ts us rest : List Token} {t : Token} {kind : Kind} {a : α}

theorem Reads.mono {r : Nat → Reader α} {d d' : Nat} (h : Reads r d ts a rest) (hd : d ≤ d') :
    Reads r d' ts a rest :=
  fun n hn => h n (Nat.le_trans hd hn)

theorem reads_succ {r : Nat → Reader α} {d : Nat} (h : ∀ n, d ≤ n → r (n + 1) ts = .ok (a, rest)) :
    Reads r (d + 1) ts a rest := by
  intro n hn
  obtain ⟨n, rfl⟩ : ∃ m, n = m + 1 := ⟨n - 1, by omega⟩
  exact h n (Nat.le_of_succ_le_succ hn)

theorem bind_ok {x : Reader α} {f : α → Reader β} (h : x ts = .ok (a, us)) :
    (x >>= f) ts = f a us := by
  simp only [bind, StateT.bind, h, Except.bind]

theorem map_ok {x : Reader α} (f : α → β) (h : x ts = .ok (a, us)) :
    (f <$> x) ts = .ok (f a, us) := by
  simp only [Functor.map, StateT.map, h, bind, Except.bind, pure, Except.pure]

theorem pure_ok (a : α) : (pure a : Reader α) ts = .ok (a, ts) := rfl

theorem peek_cons : peek (t :: ts) = .ok (t, t :: ts) := rfl

theorem peekKind_cons : peekKind (t :: ts) = .ok (t.kind, t :: ts) := rfl

theorem peekSecond_cons (u : Token) : peekSecond (t :: u :: ts) = .ok (u.kind, t :: u :: ts) := rfl

theorem skip_cons : skip (t :: ts) = .ok ((), ts) := rfl

theorem accept_then (h : t.kind = kind) (x y : Reader α) :
    (accept kind >>= fun b => if b = true then x else y) (t :: ts) = x ts := by
  have same : accept kind (t :: ts) = .ok (true, ts) := by
    rw [accept, bind_ok peekKind_cons, if_pos h]
    rfl
  rw [bind_ok same, if_pos rfl]

theorem accept_sign (loc : Location) (s : Symbol) (x y : Reader α) :
    (accept (sign s) >>= fun b => if b = true then x else y) (loc.sign s :: ts) = x ts :=
  accept_then rfl x y

theorem accept_word (loc : Location) (k : Keyword) (x y : Reader α) :
    (accept (word k) >>= fun b => if b = true then x else y) (loc.word k :: ts) = x ts :=
  accept_then rfl x y

theorem accept_newline (loc : Location) (x y : Reader α) :
    (accept .newline >>= fun b => if b = true then x else y) (loc.newline :: ts) = x ts :=
  accept_then rfl x y

theorem accept_else (h : t.kind ≠ kind) (x y : Reader α) :
    (accept kind >>= fun b => if b = true then x else y) (t :: ts) = y (t :: ts) := by
  have other : accept kind (t :: ts) = .ok (false, t :: ts) := by
    rw [accept, bind_ok peekKind_cons, if_neg h]
    rfl
  rw [bind_ok other, if_neg Bool.false_ne_true]

theorem sign_ne_word (loc : Location) (s : Symbol) (k : Keyword) : (loc.sign s).kind ≠ word k := nofun

theorem sign_ne_sign (loc : Location) {s t : Symbol} (h : s ≠ t) : (loc.sign s).kind ≠ sign t :=
  fun e => h (Kind.symbol.inj e)

theorem expect_same (what : String) (h : t.kind = kind) :
    expect kind what (t :: ts) = .ok (t, ts) := by
  rw [expect, bind_ok peek_cons, if_pos h]
  rfl

theorem expect_token (loc : Location) (kind : Kind) (lexeme what : String) :
    expect kind what (loc.token kind lexeme :: ts) = .ok (loc.token kind lexeme, ts) :=
  expect_same what rfl

theorem expect_sign (loc : Location) (s : Symbol) (what : String) :
    expect (sign s) what (loc.sign s :: ts) = .ok (loc.sign s, ts) := expect_same what rfl

theorem expect_word (loc : Location) (k : Keyword) (what : String) :
    expect (word k) what (loc.word k :: ts) = .ok (loc.word k, ts) := expect_same what rfl

theorem expect_ident (loc : Location) (name what : String) :
    expect .ident what (loc.ident name :: ts) = .ok (loc.ident name, ts) := expect_same what rfl

end Steps

end Reader

/-- How tightly a token holds on to an expression that stands before it. -/
def Token.Kind.grip : Kind → Nat
  | .keyword .or_ => 1
  | .keyword .and_ => 2
  | .keyword .in_ | .keyword .is_ => 3
  | .symbol s =>
    match s with
    | .equalEqual | .bangEqual | .less | .greater | .lessEqual | .greaterEqual => 3
    | .pipe => 4
    | .caret => 5
    | .ampersand => 6
    | .leftShift | .rightShift => 7
    | .plus | .minus => 8
    | .star | .slash | .percent => 9
    | .doubleStar => 10
    | .lparen | .lbracket | .dot => 11
    | _ => 0
  | _ => 0

namespace Reader

namespace Level

def grip : Level → Nat
  | disjunction => 1
  | conjunction => 2
  | comparison => 3
  | bitOr => 4
  | bitXor => 5
  | bitAnd => 6
  | shift => 7
  | sum => 8
  | product => 9

/-- The next looser level. -/
def outer : Level → Option Level
  | disjunction => none
  | conjunction => some disjunction
  | comparison => some conjunction
  | bitOr => some comparison
  | bitXor => some bitOr
  | bitAnd => some bitXor
  | shift => some bitAnd
  | sum => some shift
  | product => some sum

theorem grip_of_mem {kind : Kind} {level : Level} (h : kind ∈ level.operators) :
    kind.grip = level.grip := by
  revert kind
  cases level <;> decide

theorem grip_injective {l m : Level} (h : l.grip = m.grip) : l = m := by
  cases l <;> cases m <;> first | rfl | cases h

theorem grip_bounds (l : Level) : 1 ≤ l.grip ∧ l.grip ≤ 9 := by
  cases l <;> decide

theorem exists_inner {l : Level} (h : l ≠ product) :
    ∃ inner : Level, inner.outer = some l ∧ inner.grip = l.grip + 1 := by
  cases l with
  | product => exact absurd rfl h
  | disjunction => exact ⟨conjunction, rfl, rfl⟩
  | conjunction => exact ⟨comparison, rfl, rfl⟩
  | comparison => exact ⟨bitOr, rfl, rfl⟩
  | bitOr => exact ⟨bitXor, rfl, rfl⟩
  | bitXor => exact ⟨bitAnd, rfl, rfl⟩
  | bitAnd => exact ⟨shift, rfl, rfl⟩
  | shift => exact ⟨sum, rfl, rfl⟩
  | sum => exact ⟨product, rfl, rfl⟩

theorem exists_outer {l m : Level} (h : m.grip < l.grip) :
    ∃ l', l.outer = some l' ∧ l.grip = l'.grip + 1 := by
  cases l with
  | disjunction => cases m <;> simp [grip] at h
  | _ => exact ⟨_, rfl, rfl⟩

end Level

/-- The rest of a text does not hold on to what stands before it as tightly as that. -/
def Loose (grip : Nat) (ts : List Token) : Prop :=
  ∃ t us, ts = t :: us ∧ t.kind.grip < grip

theorem Loose.mono {g g' : Nat} {ts : List Token} (h : Loose g ts) (hg : g ≤ g') : Loose g' ts := by
  obtain ⟨t, us, rfl, ht⟩ := h
  exact ⟨t, us, rfl, Nat.lt_of_lt_of_le ht hg⟩

section Levels

variable {o : Origin} {d : Nat} {t : Token} {ts us rest : List Token} {e l r : Expr}

theorem links_stop {level : Level} (e : Expr) (hr : Loose level.grip rest) :
    Reads (links o · level e) 1 rest e rest := by
  obtain ⟨t, us, rfl, ht⟩ := hr
  refine reads_succ (d := 0) fun n _ => ?_
  rw [links, bind_ok peek_cons, if_neg]
  · rfl
  · intro h
    rw [Level.grip_of_mem h] at ht
    exact Nat.lt_irrefl _ ht

theorem reads_chain {level : Level} (h : Reads (operand o · level) d ts e rest)
    (hr : Loose level.grip rest) : Reads (chain o · level) (d + 2) ts e rest := by
  refine reads_succ fun n hn => ?_
  rw [chain, bind_ok (h n (by omega))]
  exact links_stop e hr n (by omega)

/-- Two operands of a level, joined by one of its operators. -/
theorem reads_joined {level : Level} (hl : Reads (operand o · level) d ts l (t :: us))
    (ht : t.kind ∈ level.operators) (hr : Reads (operand o · level) d us r rest)
    (hrest : Loose level.grip rest) :
    Reads (chain o · level) (d + 3) ts (.binary (o.locate t) (level.operator t) l r) rest := by
  refine reads_succ fun n hn => ?_
  rw [chain, bind_ok (hl n (by omega))]
  obtain ⟨n, rfl⟩ : ∃ m, n = m + 1 := ⟨n - 1, by omega⟩
  rw [links, bind_ok peek_cons, if_pos ht, bind_ok skip_cons, bind_ok (hr n (by omega))]
  exact links_stop _ hrest n (by omega)

theorem reads_power (h : Reads (signed o) d ts e rest) (hr : Loose 10 rest) :
    Reads (power o) (d + 1) ts e rest := by
  obtain ⟨t, us, rfl, ht⟩ := hr
  refine reads_succ fun n hn => ?_
  rw [power, bind_ok (h n hn), bind_ok peek_cons, if_neg]
  · rfl
  · intro hk
    rw [hk] at ht
    exact absurd ht (by decide)

theorem reads_raised (hl : Reads (signed o) d ts l (t :: us)) (ht : t.kind = sign .doubleStar)
    (hr : Reads (power o) d us r rest) :
    Reads (power o) (d + 1) ts (.binary (o.locate t) .pow l r) rest := by
  refine reads_succ fun n hn => ?_
  rw [power, bind_ok (hl n hn), bind_ok peek_cons, if_pos ht, bind_ok skip_cons, bind_ok (hr n hn)]
  rfl

theorem reads_product (h : Reads (power o) d ts e rest) :
    Reads (operand o · .product) (d + 1) ts e rest :=
  reads_succ fun n hn => h n hn

theorem reads_negation (h : Reads (chain o · .comparison) d ts e rest)
    (hts : ∃ t us, ts = t :: us ∧ t.kind ≠ word .not_) : Reads (negation o) (d + 1) ts e rest := by
  obtain ⟨t, us, rfl, ht⟩ := hts
  refine reads_succ fun n hn => ?_
  rw [negation, bind_ok peek_cons, if_neg ht]
  exact h n hn

theorem reads_not (h : Reads (negation o) d us e rest) (ht : t.kind = word .not_) :
    Reads (negation o) (d + 1) (t :: us) (.unary (o.locate t) .not_ e) rest := by
  refine reads_succ fun n hn => ?_
  rw [negation, bind_ok peek_cons, if_pos ht, bind_ok skip_cons, bind_ok (h n hn)]
  rfl

/-- An operand of a level, read at the next tighter one. -/
theorem reads_operand_of_outer {level inner : Level} (hl : inner.outer = some level)
    (h : Reads (chain o · inner) d ts e rest) (hts : ∃ t us, ts = t :: us ∧ t.kind ≠ word .not_) :
    Reads (operand o · level) (d + 2) ts e rest := by
  cases inner with
  | disjunction => cases hl
  | comparison =>
    cases hl
    exact reads_succ fun n hn => reads_negation h hts n hn
  | _ =>
    cases hl
    exact reads_succ fun n hn => h n (by omega)

theorem reads_outward (level : Level) {inner : Level} (hl : level.grip ≤ inner.grip)
    (h : Reads (chain o · inner) d ts e rest) (hts : ∃ t us, ts = t :: us ∧ t.kind ≠ word .not_)
    (hr : Loose level.grip rest) :
    Reads (chain o · level) (d + 4 * (inner.grip - level.grip)) ts e rest := by
  generalize hk : inner.grip - level.grip = k
  induction k generalizing inner d with
  | zero =>
    obtain rfl := Level.grip_injective (Nat.le_antisymm hl (Nat.sub_eq_zero_iff_le.mp hk))
    exact h
  | succ k ih =>
    obtain ⟨next, ho, hn⟩ := Level.exists_outer (l := inner) (m := level) (by omega)
    have step := reads_chain (reads_operand_of_outer ho h hts) (hr.mono (by omega))
    have looser : level.grip ≤ next.grip := by omega
    exact (ih looser step (by omega)).mono (by omega)

theorem reads_tight (level : Level) (h : Reads (signed o) d ts e rest)
    (hts : ∃ t us, ts = t :: us ∧ t.kind ≠ word .not_) (hr : Loose level.grip rest) :
    Reads (chain o · level) (d + 36) ts e rest := by
  obtain ⟨low, high⟩ := level.grip_bounds
  have product := reads_chain (reads_product (reads_power h (hr.mono (by omega)))) (hr.mono high)
  have bound : d + 1 + 1 + 2 + 4 * (9 - level.grip) ≤ d + 36 := by omega
  have inward : level.grip ≤ Level.product.grip := high
  exact (reads_outward level inward product hts hr).mono bound

theorem reads_operand (level : Level) (h : Reads (signed o) d ts e rest)
    (hts : ∃ t us, ts = t :: us ∧ t.kind ≠ word .not_) (hr : Loose (level.grip + 1) rest) :
    Reads (operand o · level) (d + 38) ts e rest := by
  by_cases hl : level = .product
  · subst hl
    exact (reads_product (reads_power h hr)).mono (by omega)
  · obtain ⟨inner, ho, hi⟩ := Level.exists_inner hl
    exact reads_operand_of_outer ho (reads_tight inner h hts (hi ▸ hr)) hts

theorem reads_expression (h : Reads (chain o · .disjunction) d ts e rest)
    (hts : ∃ t us, ts = t :: us ∧ t.kind ≠ word .lambda_) :
    Reads (expression o) (d + 1) ts e rest := by
  obtain ⟨t, us, rfl, ht⟩ := hts
  refine reads_succ fun n hn => ?_
  rw [expression, bind_ok peek_cons, if_neg ht]
  exact h n hn

end Levels

end Reader

end LoopScript
