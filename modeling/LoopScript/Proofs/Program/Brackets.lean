import LoopScript.Proofs.Program.Reading

/-!
Reading what stands in brackets: expressions, and lists of pieces separated by commas.
-/

namespace LoopScript

open Token (Kind)

namespace Location

variable (loc : Location)

theorem length_bracketed (ts : List Token) : (loc.bracketed ts).length = ts.length + 2 := by
  simp [bracketed]

theorem bracketed_append (ts us : List Token) :
    loc.bracketed ts ++ us = loc.sign .lparen :: (ts ++ loc.sign .rparen :: us) := by
  simp [bracketed]

theorem suite_append (ts us : List Token) : loc.suite ts ++ us =
    loc.newline :: loc.token .indent "" :: (ts ++ loc.token .dedent "" :: us) := by
  simp [suite]

theorem length_suite (ts : List Token) : (loc.suite ts).length = ts.length + 3 := by
  simp [suite]

theorem length_names (xs : List String) : xs.length ≤ (loc.names xs).length := by
  cases xs with
  | nil => exact Nat.zero_le _
  | cons x xs =>
    induction xs generalizing x with
    | nil => exact Nat.le_refl _
    | cons y xs ih =>
      change xs.length + 2 ≤ (loc.names (y :: xs)).length + 2
      exact Nat.le_succ_of_le (Nat.succ_le_succ (ih y))

theorem lexeme_ident (name : String) : (loc.ident name).lexeme = name := rfl

theorem more_cons (ts : List Token) (pieces : List (List Token)) :
    loc.more (ts :: pieces) = loc.sign .comma :: loc.joined (ts :: pieces) := rfl

end Location

/-- Where a reader finds a token that belongs to a place. -/
def Origin.place (o : Origin) (loc : Location) : Location := o.locate (loc.token .eof "")

/-- The tokens with which an expression can begin. -/
def Token.Kind.opens : Kind → Bool
  | .number | .string | .ident => true
  | .keyword k => k ∈ [Keyword.true_, .false_, .none_, .not_, .lambda_]
  | .symbol s => s ∈ [Symbol.lparen, .lbracket, .lbrace, .minus, .plus, .tilde]
  | _ => false

namespace Expr

theorem tokens_head {e : Expr} (h : e.Spoken) :
    ∃ t us, e.tokens = t :: us ∧ t.kind.opens = true := by
  cases h with
  | literal loc v =>
    cases v with
    | bool b => cases b <;> exact ⟨_, _, rfl, rfl⟩
    | _ => exact ⟨_, _, rfl, rfl⟩
  | @unary loc op e hop =>
    cases op with
    | other s => simp [UnaryOp.known] at hop
    | _ => exact ⟨_, _, rfl, rfl⟩
  | _ => exact ⟨_, _, rfl, rfl⟩

/-- An expression is read back, whatever follows it that does not hold on to it. -/
structure ReadBack (o : Origin) (e : Expr) : Prop where
  head : ∃ t us, e.tokens = t :: us ∧ t.kind.opens = true
  reads {rest : List Token} (hr : Reader.Loose 1 rest) :
    Reader.Reads (Reader.expression o) (40 * e.tokens.length) (e.tokens ++ rest)
      (e.relocated o.place) rest

end Expr

namespace Reader

/-- The tokens that stand before an expression and belong to it. -/
def prefixes : List Kind := [sign .minus, sign .plus, sign .tilde, word .not_, word .lambda_]

section Postfix

variable {o : Origin} {d : Nat} {loc : Location} {t : Token} {ts us rest : List Token}
  {e l : Expr} {name : String}

theorem postfixed_stop (e : Expr) (hr : Loose 11 rest) : Reads (postfixed o · e) 1 rest e rest := by
  obtain ⟨t, us, rfl, ht⟩ := hr
  have other {s : Symbol} (hs : (Kind.symbol s).grip = 11) : t.kind ≠ sign s := by
    intro h
    rw [h] at ht
    exact absurd hs (Nat.ne_of_lt ht)
  refine reads_succ (d := 0) fun n _ => ?_
  rw [postfixed, bind_ok peek_cons, if_neg (other rfl), if_neg (other rfl), if_neg (other rfl)]
  rfl

theorem reads_signed (h : Reads (atom o) d ts e us) (hp : Reads (postfixed o · e) d us l rest)
    (hts : ∃ t us, ts = t :: us ∧ t.kind ∉ prefixes) : Reads (signed o) (d + 1) ts l rest := by
  obtain ⟨t, us, rfl, ht⟩ := hts
  have unsigned : t.kind ∉ [sign .minus, sign .plus, sign .tilde, word .not_] :=
    fun hk => ht (List.mem_append_left [word .lambda_] hk)
  refine reads_succ fun n hn => ?_
  rw [signed, bind_ok peek_cons, if_neg unsigned, bind_ok (h n hn)]
  exact hp n hn

/-- An atom to which nothing is attached. -/
theorem reads_alone (h : Reads (atom o) d ts e rest) (hd : 1 ≤ d) (hr : Loose 11 rest)
    (hts : ∃ t us, ts = t :: us ∧ t.kind ∉ prefixes) : Reads (signed o) (d + 1) ts e rest :=
  reads_signed h ((postfixed_stop e hr).mono hd) hts

theorem reads_whole (h : Reads (signed o) d ts e rest)
    (hts : ∃ t us, ts = t :: us ∧ t.kind ≠ word .not_ ∧ t.kind ≠ word .lambda_)
    (hr : Loose 1 rest) : Reads (expression o) (d + 37) ts e rest := by
  obtain ⟨t, us, rfl, hn, hl⟩ := hts
  exact reads_expression (reads_tight .disjunction h ⟨t, us, rfl, hn⟩ hr) ⟨t, us, rfl, hl⟩

theorem reads_atomic (h : Reads (signed o) d ts e rest)
    (hts : ∃ t us, ts = t :: us ∧ t.kind ∉ prefixes) (hr : Loose 1 rest) :
    Reads (expression o) (d + 37) ts e rest := by
  obtain ⟨t, us, rfl, ht⟩ := hts
  refine reads_whole h ⟨t, us, rfl, ?_, ?_⟩ hr
  · rintro hk
    exact ht (hk ▸ by decide)
  · rintro hk
    exact ht (hk ▸ by decide)

theorem postfixed_call {args : List Expr} {named : List (String × Expr)}
    (h : Reads (arguments o · []) d us (args, named) rest) (hd : 1 ≤ d) (hr : Loose 11 rest) :
    Reads (postfixed o · e) (d + 1) (loc.sign .lparen :: us) (.call (o.place loc) e args named)
      rest := by
  refine reads_succ fun n hn => ?_
  rw [postfixed, bind_ok peek_cons, if_pos (show (loc.sign .lparen).kind = sign .lparen from rfl),
    bind_ok skip_cons, bind_ok (h n hn)]
  exact postfixed_stop _ hr n (by omega)

theorem postfixed_subscript (h : Reads (subscript o · (o.place loc) e) d us l rest) (hd : 1 ≤ d)
    (hr : Loose 11 rest) : Reads (postfixed o · e) (d + 1) (loc.sign .lbracket :: us) l rest := by
  refine reads_succ fun n hn => ?_
  rw [postfixed, bind_ok peek_cons, if_neg nofun,
    if_pos (show (loc.sign .lbracket).kind = sign .lbracket from rfl), bind_ok skip_cons]
  change (subscript o n (o.place loc) e >>= _) us = _
  rw [bind_ok (h n hn)]
  exact postfixed_stop _ hr n (by omega)

theorem postfixed_member (hr : Loose 11 rest) :
    Reads (postfixed o · e) 2 (loc.sign .dot :: loc.ident name :: rest)
      (.member (o.place loc) e name) rest := by
  refine reads_succ fun n hn => ?_
  rw [postfixed, bind_ok peek_cons, if_neg nofun, if_neg nofun,
    if_pos (show (loc.sign .dot).kind = sign .dot from rfl), bind_ok skip_cons,
    bind_ok (expect_ident _ _ _)]
  exact postfixed_stop _ hr n hn

end Postfix

theorem sign_inj {s s' : Symbol} (h : sign s = sign s') : s = s' := Kind.symbol.inj h

theorem loose_sign (loc : Location) (s : Symbol) (h : (Kind.symbol s).grip = 0) (ts : List Token) :
    Loose 1 (loc.sign s :: ts) :=
  ⟨_, _, rfl, Nat.lt_of_le_of_lt (Nat.le_of_eq h) Nat.one_pos⟩

theorem loose_word (loc : Location) (k : Keyword) (h : (Kind.keyword k).grip = 0)
    (ts : List Token) : Loose 1 (loc.word k :: ts) :=
  ⟨_, _, rfl, Nat.lt_of_le_of_lt (Nat.le_of_eq h) Nat.one_pos⟩

theorem loose_closed (loc : Location) (pieces : List (List Token)) (s : Symbol)
    (h : (Kind.symbol s).grip = 0) (ts : List Token) :
    Loose 1 (loc.more pieces ++ loc.sign s :: ts) := by
  cases pieces with
  | nil => exact loose_sign loc s h ts
  | cons us pieces => exact loose_sign loc .comma rfl _

theorem length_joined_le (loc : Location) (pieces : List (List Token)) :
    (loc.joined pieces).length ≤ (loc.more pieces).length := by
  cases pieces with
  | nil => exact Nat.le_refl _
  | cons ts pieces => rw [Location.more_cons]; exact Nat.le_succ _

section Bracketed

variable {o : Origin} (loc : Location) {e : Expr} {rest : List Token}

theorem reads_bracketed (h : e.ReadBack o) (rest : List Token) :
    Reads (atom o) (40 * e.tokens.length + 2) (loc.bracketed e.tokens ++ rest)
      (e.relocated o.place) rest := by
  obtain ⟨t, us, he, ht⟩ := h.head
  have first : t.kind ≠ sign .rparen := by
    intro hk
    rw [hk] at ht
    cases ht
  have inner := h.reads (loose_sign loc .rparen rfl rest)
  rw [Location.bracketed_append]
  refine reads_succ fun n hn => ?_
  rw [atom, bind_ok peek_cons]
  change (skip >>= fun _ => parenthesized o n _) _ = _
  rw [bind_ok skip_cons]
  obtain ⟨n, rfl⟩ : ∃ m, n = m + 1 := ⟨n - 1, by omega⟩
  rw [parenthesized, he, List.cons_append, accept_else first, ← List.cons_append, ← he,
    bind_ok (inner n (by omega)), accept_else, bind_ok (expect_sign _ _ _)]
  · rfl
  · nofun

theorem bracketed_head {P : Kind → Prop} (h : P (sign .lparen)) (ts rest : List Token) :
    ∃ t us, loc.bracketed ts ++ rest = t :: us ∧ P t.kind :=
  ⟨_, _, loc.bracketed_append ts rest, h⟩

theorem peek_bracketed {loc : Location} (ts rest : List Token) :
    peek (loc.bracketed ts ++ rest) = .ok (loc.sign .lparen, loc.bracketed ts ++ rest) := by
  rw [Location.bracketed_append]
  rfl

theorem peekKind_bracketed {loc : Location} (ts rest : List Token) :
    peekKind (loc.bracketed ts ++ rest) = .ok (sign .lparen, loc.bracketed ts ++ rest) := by
  rw [Location.bracketed_append]
  rfl

theorem accept_bracketed {α : Type} {loc : Location} {kind : Kind} (h : sign .lparen ≠ kind)
    (x y : Reader α) (ts rest : List Token) :
    (accept kind >>= fun b => if b = true then x else y) (loc.bracketed ts ++ rest) =
      y (loc.bracketed ts ++ rest) := by
  rw [Location.bracketed_append]
  exact accept_else h x y

theorem signed_bracketed (h : e.ReadBack o) (hr : Loose 11 rest) :
    Reads (signed o) (40 * e.tokens.length + 3) (loc.bracketed e.tokens ++ rest)
      (e.relocated o.place) rest :=
  reads_alone (reads_bracketed loc h rest) (by omega) hr
    (bracketed_head loc (P := (· ∉ prefixes)) (by decide) _ _)

theorem operand_bracketed (h : e.ReadBack o) (level : Level) (hr : Loose (level.grip + 1) rest) :
    Reads (operand o · level) (40 * e.tokens.length + 41) (loc.bracketed e.tokens ++ rest)
      (e.relocated o.place) rest :=
  reads_operand level (signed_bracketed loc h (hr.mono (by have := level.grip_bounds; omega)))
    (bracketed_head loc (P := (· ≠ word .not_)) nofun _ _) hr

theorem expression_bracketed (h : e.ReadBack o) (hr : Loose 1 rest) :
    Reads (expression o) (40 * e.tokens.length + 40) (loc.bracketed e.tokens ++ rest)
      (e.relocated o.place) rest :=
  reads_whole (signed_bracketed loc h (hr.mono (by omega)))
    (bracketed_head loc (P := fun k => k ≠ word .not_ ∧ k ≠ word .lambda_) ⟨nofun, nofun⟩ _ _) hr

end Bracketed

section Lists

variable {o : Origin} {loc : Location} {rest : List Token}

theorem length_pieces (pieces : List (List Token)) (ts : List Token) :
    (loc.joined (ts :: pieces)).length = ts.length + (loc.more pieces).length := by
  simp [Location.joined]

/-- Items up to a bracket that closes them. -/
theorem reads_items (loc : Location) (closer : Symbol) (hc : (Kind.symbol closer).grip = 0)
    (hn : closer ≠ .lparen) (hm : closer ≠ .comma) (es : List Expr) (h : ∀ e ∈ es, e.ReadBack o)
    (rest : List Token) :
    Reads (items o · (sign closer)) (40 * (loc.joined (Expr.pieces loc es)).length + 1)
      (loc.joined (Expr.pieces loc es) ++ loc.sign closer :: rest)
      (Expr.relocatedItems o.place es) (loc.sign closer :: rest) := by
  induction es with
  | nil =>
    refine reads_succ (d := 0) fun n _ => ?_
    change items o (n + 1) (sign closer) (loc.sign closer :: rest) = _
    rw [items, bind_ok peekKind_cons, if_pos (show (loc.sign closer).kind = sign closer from rfl)]
    rfl
  | cons e es ih =>
    have first := h e List.mem_cons_self
    have others := ih fun x hx => h x (List.mem_cons_of_mem e hx)
    have read := expression_bracketed loc first
      (loose_closed loc (Expr.pieces loc es) closer hc rest)
    refine reads_succ fun n hn' => ?_
    rw [Expr.pieces, length_pieces, Location.length_bracketed] at hn'
    rw [Expr.pieces, Location.joined, List.append_assoc, items]
    rw [bind_ok (peekKind_bracketed _ _), if_neg fun hk => hn (sign_inj hk).symm,
      bind_ok (read n (by omega))]
    cases es with
    | nil =>
      change (accept _ >>= _) (loc.sign closer :: rest) = _
      rw [accept_else fun hk => hm (sign_inj hk)]
      rfl
    | cons e' es =>
      rw [Expr.pieces, Location.more_cons, List.length_cons] at hn'
      rw [Expr.pieces] at others
      rw [Expr.pieces, Location.more_cons, List.cons_append, accept_sign,
        bind_ok (others n (by omega))]
      rfl

/-- Entries of a dictionary up to its closing bracket. -/
theorem reads_entries (es : List (Expr × Expr))
    (h : ∀ x ∈ es, x.1.ReadBack o ∧ x.2.ReadBack o) :
    Reads (dictEntries o) (40 * (loc.joined (Expr.entryPieces loc es)).length + 1)
      (loc.joined (Expr.entryPieces loc es) ++ loc.sign .rbrace :: rest)
      (Expr.relocatedEntries o.place es) (loc.sign .rbrace :: rest) := by
  induction es with
  | nil =>
    refine reads_succ (d := 0) fun n _ => ?_
    change dictEntries o (n + 1) (loc.sign .rbrace :: rest) = _
    rw [dictEntries, bind_ok peekKind_cons,
      if_pos (show (loc.sign .rbrace).kind = sign .rbrace from rfl)]
    rfl
  | cons entry es ih =>
    obtain ⟨key, e⟩ := entry
    obtain ⟨hkey, he⟩ : key.ReadBack o ∧ e.ReadBack o := h _ List.mem_cons_self
    have others := ih fun x hx => h x (List.mem_cons_of_mem _ hx)
    have readKey := expression_bracketed loc hkey (loose_sign loc .colon rfl
      (loc.bracketed e.tokens ++ (loc.more (Expr.entryPieces loc es) ++ loc.sign .rbrace :: rest)))
    have read := expression_bracketed loc he
      (loose_closed loc (Expr.entryPieces loc es) .rbrace rfl rest)
    refine reads_succ fun n hn => ?_
    simp only [Expr.entryPieces, length_pieces, List.length_append, List.length_cons,
      Location.length_bracketed] at hn
    simp only [Expr.entryPieces, Location.joined, List.append_assoc, List.cons_append]
    rw [dictEntries, bind_ok (peekKind_bracketed _ _), if_neg nofun, bind_ok (readKey n (by omega)),
      bind_ok (expect_sign _ _ _), bind_ok (read n (by omega))]
    cases es with
    | nil =>
      change (accept _ >>= _) (loc.sign .rbrace :: rest) = _
      rw [accept_else]
      · rfl
      · nofun
    | cons entry' es =>
      rw [Expr.entryPieces, Location.more_cons, List.length_cons] at hn
      rw [Expr.entryPieces] at others
      rw [Expr.entryPieces, Location.more_cons, List.cons_append, accept_sign,
        bind_ok (others n (by omega))]
      rfl

theorem reads_moreArguments {d : Nat} {seen : List String} {pieces : List (List Token)}
    {a : List Expr × List (String × Expr)}
    (h : Reads (arguments o · seen) d (loc.joined pieces ++ loc.sign .rparen :: rest) a rest) :
    Reads (moreArguments o · seen) (d + 1) (loc.more pieces ++ loc.sign .rparen :: rest) a
      rest := by
  refine reads_succ fun n hn => ?_
  cases pieces with
  | nil =>
    have none := h (n + 1) (by omega)
    change arguments o (n + 1) seen (loc.sign .rparen :: rest) = _ at none
    rw [arguments, bind_ok peek_cons, if_pos (show (loc.sign .rparen).kind = sign .rparen from rfl),
      bind_ok skip_cons] at none
    change moreArguments o (n + 1) seen (loc.sign .rparen :: rest) = _
    rw [moreArguments, accept_else, bind_ok (expect_sign _ _ _)]
    · exact none
    · nofun
  | cons ts pieces =>
    rw [Location.more_cons, List.cons_append, moreArguments, accept_sign]
    exact h n hn

theorem reads_named (named : List (String × Expr)) (seen : List String)
    (hkeys : (named.map (·.1)).Nodup) (hseen : ∀ x ∈ named, x.1 ∉ seen)
    (h : ∀ x ∈ named, x.2.ReadBack o) :
    Reads (arguments o · seen) (40 * (loc.joined (Expr.namedPieces loc named)).length + 2)
      (loc.joined (Expr.namedPieces loc named) ++ loc.sign .rparen :: rest)
      ([], Expr.relocatedNamed o.place named) rest := by
  induction named generalizing seen with
  | nil =>
    refine reads_succ (d := 1) fun n _ => ?_
    change arguments o (n + 1) seen (loc.sign .rparen :: rest) = _
    rw [arguments, bind_ok peek_cons, if_pos (show (loc.sign .rparen).kind = sign .rparen from rfl),
      bind_ok skip_cons]
    rfl
  | cons entry named ih =>
    obtain ⟨x, e⟩ := entry
    have he : e.ReadBack o := h _ List.mem_cons_self
    obtain ⟨hx, hnodup⟩ := List.nodup_cons.mp hkeys
    have fresh : x ∉ seen := hseen _ List.mem_cons_self
    have apart (y : String × Expr) (hy : y ∈ named) : y.1 ∉ x :: seen := by
      rw [List.mem_cons, not_or]
      exact ⟨fun hxy => hx (List.mem_map.mpr ⟨y, hy, hxy⟩), hseen y (List.mem_cons_of_mem _ hy)⟩
    have others := reads_moreArguments
      (ih (x :: seen) hnodup apart fun y hy => h y (List.mem_cons_of_mem _ hy))
    have read := expression_bracketed loc he
      (loose_closed loc (Expr.namedPieces loc named) .rparen rfl rest)
    have shorter := length_joined_le loc (Expr.namedPieces loc named)
    refine reads_succ fun n hn => ?_
    simp only [Expr.namedPieces, length_pieces, List.length_cons, Location.length_bracketed] at hn
    simp only [Expr.namedPieces, Location.joined, List.append_assoc, List.cons_append]
    rw [arguments, bind_ok peek_cons, if_neg nofun, bind_ok (peekSecond_cons _),
      if_pos ⟨rfl, rfl⟩, bind_ok skip_cons, bind_ok skip_cons, Location.lexeme_ident,
      if_neg fresh, bind_ok (read n (by omega)), bind_ok (others n (by omega))]
    rfl

theorem peekSecond_bracketed (loc : Location) {e : Expr} (h : e.ReadBack o) (rest : List Token) :
    ∃ kind, peekSecond (loc.bracketed e.tokens ++ rest) =
      .ok (kind, loc.bracketed e.tokens ++ rest) := by
  obtain ⟨t, us, he, -⟩ := h.head
  rw [Location.bracketed_append, he]
  exact ⟨_, rfl⟩

theorem reads_arguments (args : List Expr) (named : List (String × Expr))
    (hkeys : (named.map (·.1)).Nodup) (hargs : ∀ e ∈ args, e.ReadBack o)
    (hnamed : ∀ x ∈ named, x.2.ReadBack o) :
    Reads (arguments o · [])
      (40 * (loc.joined (Expr.pieces loc args ++ Expr.namedPieces loc named)).length + 2)
      (loc.joined (Expr.pieces loc args ++ Expr.namedPieces loc named) ++ loc.sign .rparen :: rest)
      (Expr.relocatedItems o.place args, Expr.relocatedNamed o.place named) rest := by
  induction args with
  | nil => exact reads_named named [] hkeys (fun _ _ => List.not_mem_nil) hnamed
  | cons e args ih =>
    have he := hargs e List.mem_cons_self
    have others := reads_moreArguments (ih fun x hx => hargs x (List.mem_cons_of_mem e hx))
    have read := expression_bracketed loc he
      (loose_closed loc (Expr.pieces loc args ++ Expr.namedPieces loc named) .rparen rfl rest)
    have shorter := length_joined_le loc
      (Expr.pieces loc args ++ Expr.namedPieces loc named)
    refine reads_succ fun n hn => ?_
    simp only [Expr.pieces, List.cons_append, length_pieces, Location.length_bracketed] at hn
    simp only [Expr.pieces, List.cons_append, Location.joined, List.append_assoc]
    obtain ⟨kind, second⟩ := peekSecond_bracketed loc he
      (loc.more (Expr.pieces loc args ++ Expr.namedPieces loc named) ++ loc.sign .rparen :: rest)
    rw [arguments, bind_ok (peek_bracketed _ _), if_neg nofun, bind_ok second, if_neg nofun,
      if_neg (fun h => h rfl), bind_ok (read n (by omega)), bind_ok (others n (by omega))]
    rfl

theorem reads_names (loc : Location) (what : String) (x : String) (xs : List String)
    (hr : ∃ t us, rest = t :: us ∧ t.kind ≠ sign .comma) :
    Reads (names what) (xs.length + 1) (loc.names (x :: xs) ++ rest) (x :: xs) rest := by
  induction xs generalizing x with
  | nil =>
    obtain ⟨t, us, rfl, ht⟩ := hr
    refine reads_succ (d := 0) fun n _ => ?_
    change names what (n + 1) (loc.ident x :: t :: us) = _
    rw [names, bind_ok (expect_ident _ _ _), accept_else ht]
    rfl
  | cons y xs ih =>
    refine reads_succ fun n hn => ?_
    change names what (n + 1) (loc.ident x :: loc.sign .comma :: (loc.names (y :: xs) ++ rest)) = _
    rw [names, bind_ok (expect_ident _ _ _), accept_sign, bind_ok (ih y n hn)]
    rfl

theorem reads_parameters (loc : Location) (x : String) (xs seen : List String)
    (hxs : (x :: xs).Nodup) (hseen : ∀ y ∈ x :: xs, y ∉ seen) (rest : List Token) :
    Reads (parameters seen) (xs.length + 1) (loc.names (x :: xs) ++ loc.sign .rparen :: rest)
      (x :: xs) (loc.sign .rparen :: rest) := by
  induction xs generalizing x seen with
  | nil =>
    have fresh : x ∉ seen := hseen x List.mem_cons_self
    refine reads_succ (d := 0) fun n _ => ?_
    change parameters seen (n + 1) (loc.ident x :: loc.sign .rparen :: rest) = _
    rw [parameters, bind_ok (expect_ident _ _ _), Location.lexeme_ident, if_neg fresh, accept_else]
    · rfl
    · nofun
  | cons y xs ih =>
    have fresh : x ∉ seen := hseen x List.mem_cons_self
    obtain ⟨hx, hnodup⟩ := List.nodup_cons.mp hxs
    have apart (z : String) (hz : z ∈ y :: xs) : z ∉ x :: seen := by
      rw [List.mem_cons, not_or]
      exact ⟨fun hzx => hx (hzx ▸ hz), hseen z (List.mem_cons_of_mem x hz)⟩
    refine reads_succ fun n hn => ?_
    change parameters seen (n + 1)
      (loc.ident x :: loc.sign .comma :: (loc.names (y :: xs) ++ loc.sign .rparen :: rest)) = _
    have next : peekKind (loc.names (y :: xs) ++ loc.sign .rparen :: rest) =
      .ok (.ident, loc.names (y :: xs) ++ loc.sign .rparen :: rest) := rfl
    rw [parameters, bind_ok (expect_ident _ _ _), Location.lexeme_ident, if_neg fresh, accept_sign,
      bind_ok next, if_neg nofun, bind_ok (ih y (x :: seen) hnodup apart n hn)]
    rfl

end Lists

end Reader

end LoopScript
