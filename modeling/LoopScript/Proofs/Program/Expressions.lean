import LoopScript.Proofs.Program.Brackets

/-!
Expressions that were written as tokens are read back as they were: one lemma for each form, and an
induction over what the grammar can say.
-/

namespace LoopScript

open Token (Kind)

namespace Expr

open Reader

variable {o : Origin} {loc : Location} {e l r base : Expr}

/-- An expression that is read as an atom, with what may be attached to it. -/
theorem readBack_of_signed {d : Nat} (hs : e.Spoken)
    (hp : ∃ t us, e.tokens = t :: us ∧ t.kind ∉ prefixes) (hd : d + 37 ≤ 40 * e.tokens.length)
    (h : ∀ rest, Loose 11 rest → Reads (signed o) d (e.tokens ++ rest) (e.relocated o.place) rest) :
    e.ReadBack o where
  head := tokens_head hs
  reads {rest} hr := by
    obtain ⟨t, us, he, ht⟩ := hp
    refine (reads_atomic (h rest (hr.mono (by omega))) ⟨t, us ++ rest, ?_, ht⟩ hr).mono hd
    rw [he, List.cons_append]

theorem readBack_of_atom {d : Nat} (hs : e.Spoken)
    (hp : ∃ t us, e.tokens = t :: us ∧ t.kind ∉ prefixes) (hd : d + 38 ≤ 40 * e.tokens.length)
    (h1 : 1 ≤ d)
    (h : ∀ rest, Reads (atom o) d (e.tokens ++ rest) (e.relocated o.place) rest) :
    e.ReadBack o := by
  refine readBack_of_signed hs hp hd fun rest hr => reads_alone (h rest) h1 hr ?_
  obtain ⟨t, us, he, ht⟩ := hp
  exact ⟨t, us ++ rest, by rw [he, List.cons_append], ht⟩

theorem readBack_literal (loc : Location) (v : Atom) : ReadBack o (.literal loc v) := by
  have head : (v.token loc).kind ∉ prefixes := by
    cases v with
    | bool b => cases b <;> exact of_decide_eq_true rfl
    | _ => exact of_decide_eq_true rfl
  refine readBack_of_atom (d := 1) (.literal loc v) ⟨v.token loc, [], rfl, head⟩ (by simp [tokens])
    (Nat.le_refl _) fun rest => reads_succ (d := 0) fun n _ => ?_
  cases v with
  | bool b => cases b <;> rfl
  | _ => rfl

theorem readBack_name (loc : Location) (id : String) : ReadBack o (.name loc id) :=
  readBack_of_atom (d := 1) (.name loc id) ⟨loc.ident id, [], rfl, of_decide_eq_true rfl⟩
    (by simp [tokens]) (Nat.le_refl _) fun _ => reads_succ (d := 0) fun _ _ => rfl

theorem readBack_list {items : List Expr} (hs : (Expr.list loc items).Spoken)
    (h : ∀ e ∈ items, e.ReadBack o) : ReadBack o (.list loc items) := by
  refine readBack_of_atom (d := 40 * (loc.joined (pieces loc items)).length + 3) hs
    ⟨loc.sign .lbracket, _, rfl, of_decide_eq_true rfl⟩ (by simp [tokens]; omega) (by omega)
    fun rest => reads_succ fun n hn => ?_
  simp only [tokens, List.cons_append, List.append_assoc, List.nil_append]
  change (skip >>= fun _ => Reader.bracketed o n (o.place loc)) _ = _
  rw [bind_ok skip_cons]
  obtain ⟨n, rfl⟩ : ∃ m, n = m + 1 := ⟨n - 1, by omega⟩
  cases items with
  | nil =>
    change Reader.bracketed o (n + 1) (o.place loc) (loc.sign .rbracket :: rest) = _
    rw [Reader.bracketed, accept_sign]
    rfl
  | cons e es =>
    have read := expression_bracketed loc (h e List.mem_cons_self)
      (loose_closed loc (pieces loc es) .rbracket rfl rest)
    simp only [pieces, length_pieces, Location.length_bracketed] at hn
    simp only [pieces, Location.joined, List.append_assoc]
    rw [Reader.bracketed, accept_bracketed (show sign .lparen ≠ sign .rbracket by decide),
      bind_ok (read n (by omega))]
    cases es with
    | nil =>
      change (accept (word .for_) >>= _) (loc.sign .rbracket :: rest) = _
      rw [accept_else (sign_ne_word loc .rbracket .for_)]
      dsimp only
      rw [accept_else (sign_ne_sign loc (s := .rbracket) (by decide))]
      rfl
    | cons e' es =>
      have others := reads_items loc .rbracket rfl (by decide) (by decide) (e' :: es)
        (fun x hx => h x (List.mem_cons_of_mem e hx)) rest
      have shorter := length_joined_le loc (pieces loc (e' :: es))
      rw [pieces] at others shorter hn ⊢
      rw [Location.more_cons, List.cons_append,
        accept_else (sign_ne_word loc .comma .for_)]
      dsimp only
      rw [accept_sign, bind_ok (others n (by omega)), bind_ok (expect_sign _ _ _)]
      rfl

theorem readBack_tuple {items : List Expr} (hs : (Expr.tuple loc items).Spoken)
    (h : ∀ e ∈ items, e.ReadBack o) : ReadBack o (.tuple loc items) := by
  refine readBack_of_atom (d := 40 * (loc.joined (pieces loc items)).length + 3) hs
    ⟨loc.sign .lparen, _, rfl, of_decide_eq_true rfl⟩ (by simp [tokens]; omega) (by omega)
    fun rest => reads_succ fun n hn => ?_
  simp only [tokens, List.cons_append, List.append_assoc, List.nil_append]
  change (skip >>= fun _ => parenthesized o n (o.place loc)) _ = _
  rw [bind_ok skip_cons]
  obtain ⟨n, rfl⟩ : ∃ m, n = m + 1 := ⟨n - 1, by omega⟩
  cases items with
  | nil =>
    change parenthesized o (n + 1) (o.place loc) (loc.sign .rparen :: rest) = _
    rw [parenthesized, accept_sign]
    rfl
  | cons e es =>
    -- a tuple of one item has the comma that a longer one has before its second item
    have lone : ∃ us, loc.more (pieces loc es) ++ ((if (e :: es).length = 1 then [loc.sign .comma]
        else []) ++ loc.sign .rparen :: rest) = loc.sign .comma :: us ∧
        us = loc.joined (pieces loc es) ++ loc.sign .rparen :: rest := by
      cases es with
      | nil => exact ⟨_, rfl, rfl⟩
      | cons e' es => exact ⟨_, rfl, rfl⟩
    obtain ⟨us, hus, rfl⟩ := lone
    have read := expression_bracketed loc (h e List.mem_cons_self)
      (loose_sign loc .comma rfl (loc.joined (pieces loc es) ++ loc.sign .rparen :: rest))
    have others := reads_items loc .rparen rfl (by decide) (by decide) es
      (fun x hx => h x (List.mem_cons_of_mem e hx)) rest
    have shorter := length_joined_le loc (pieces loc es)
    simp only [pieces, length_pieces, Location.length_bracketed] at hn
    rw [pieces, Location.joined, List.append_assoc, hus, parenthesized,
      accept_bracketed (show sign .lparen ≠ sign .rparen by decide), bind_ok (read n (by omega)),
      accept_sign, bind_ok (others n (by omega)), bind_ok (expect_sign _ _ _)]
    rfl

theorem readBack_dict {entries : List (Expr × Expr)} (hs : (Expr.dict loc entries).Spoken)
    (h : ∀ x ∈ entries, x.1.ReadBack o ∧ x.2.ReadBack o) : ReadBack o (.dict loc entries) := by
  refine readBack_of_atom (d := 40 * (loc.joined (entryPieces loc entries)).length + 2) hs
    ⟨loc.sign .lbrace, _, rfl, of_decide_eq_true rfl⟩ (by simp [tokens]; omega) (by omega)
    fun rest => reads_succ fun n hn => ?_
  simp only [tokens, List.cons_append, List.append_assoc, List.nil_append]
  change (skip >>= fun _ => dictEntries o n >>= fun entries => expect (sign .rbrace) _ >>= fun _ =>
    pure (Expr.dict (o.place loc) entries)) _ = _
  rw [bind_ok skip_cons, bind_ok (reads_entries entries h n hn), bind_ok (expect_sign _ _ _)]
  rfl

theorem readBack_comprehension {item : String} {condition : Option Expr}
    (hs : (Expr.comprehension loc e item l condition).Spoken) (he : e.ReadBack o)
    (hl : l.ReadBack o) (hc : ∀ c ∈ condition, c.ReadBack o) :
    ReadBack o (.comprehension loc e item l condition) := by
  refine readBack_of_atom
    (d := 40 * (e.tokens.length + l.tokens.length + (optional loc [] condition).length) + 120) hs
    ⟨loc.sign .lbracket, _, rfl, of_decide_eq_true rfl⟩ ?_ (by omega)
    fun rest => reads_succ fun n hn => ?_
  · cases condition <;> simp [tokens, optional, Location.length_bracketed] <;> omega
  · simp only [tokens, List.cons_append, List.append_assoc, List.nil_append]
    change (skip >>= fun _ => Reader.bracketed o n (o.place loc)) _ = _
    rw [bind_ok skip_cons]
    obtain ⟨n, rfl⟩ : ∃ m, n = m + 1 := ⟨n - 1, by omega⟩
    have first (us : List Token) := expression_bracketed loc he
      (loose_word loc .for_ rfl us)
    rw [Reader.bracketed, accept_bracketed (show sign .lparen ≠ sign .rbracket by decide),
      bind_ok (first _ n (by omega)), accept_word, bind_ok (expect_ident _ _ _),
      bind_ok (expect_word _ _ _)]
    cases condition with
    | none =>
      have second := expression_bracketed loc hl
        (loose_sign loc .rbracket rfl rest)
      rw [optional, List.nil_append, bind_ok (second n (by omega))]
      dsimp only
      rw [accept_else (show (loc.sign .rbracket).kind ≠ word .if_ from nofun),
        bind_ok (pure_ok _), bind_ok (expect_sign _ _ _)]
      rfl
    | some c =>
      have second (us : List Token) := expression_bracketed loc hl
        (loose_word loc .if_ rfl us)
      have third := expression_bracketed loc
        (hc c rfl) (loose_sign loc .rbracket rfl rest)
      simp only [optional, List.nil_append, Location.length_bracketed] at hn
      simp only [optional, List.cons_append, List.nil_append]
      rw [bind_ok (second _ n (by omega)), accept_word, bind_ok (map_ok some (third n (by omega))),
        bind_ok (expect_sign _ _ _)]
      rfl

theorem readBack_call {args : List Expr} {named : List (String × Expr)}
    (hs : (Expr.call loc base args named).Spoken) (hb : base.ReadBack o)
    (hkeys : (named.map (·.1)).Nodup) (hargs : ∀ e ∈ args, e.ReadBack o)
    (hnamed : ∀ x ∈ named, x.2.ReadBack o) : ReadBack o (.call loc base args named) := by
  refine readBack_of_signed (d := 40 * (base.tokens.length +
      (loc.joined (pieces loc args ++ namedPieces loc named)).length) + 4) hs
    ⟨loc.sign .lparen, _, rfl, of_decide_eq_true rfl⟩ ?_ fun rest hr => ?_
  · simp [tokens, Location.length_bracketed]
    omega
  · simp only [tokens, List.append_assoc, List.cons_append, List.nil_append]
    refine reads_signed ((reads_bracketed loc hb _).mono (by omega)) ?_
      (bracketed_head loc (P := (· ∉ prefixes)) (by decide) _ _)
    exact (postfixed_call (reads_arguments args named hkeys hargs hnamed) (by omega) hr).mono
      (by omega)

/-- Whatever is done with an index or a slice, once its base is known. -/
theorem readBack_subscript {d : Nat} {us : List Token} (hs : e.Spoken) (hb : base.ReadBack o)
    (he : e.tokens = loc.bracketed base.tokens ++ loc.sign .lbracket :: us)
    (hd : d ≤ 40 * us.length) (h1 : 1 ≤ d)
    (h : ∀ rest, Reads (subscript o · (o.place loc) (base.relocated o.place)) d (us ++ rest)
      (e.relocated o.place) rest) : ReadBack o e := by
  refine readBack_of_signed (d := 40 * (base.tokens.length + us.length) + 4) hs
    ⟨loc.sign .lparen, _, he, of_decide_eq_true rfl⟩ ?_ fun rest hr => ?_
  · rw [he, List.length_append, List.length_cons, Location.length_bracketed]
    omega
  · rw [he, List.append_assoc, List.cons_append]
    refine reads_signed ((reads_bracketed loc hb _).mono (by omega)) ?_
      (bracketed_head loc (P := (· ∉ prefixes)) (by decide) _ _)
    exact (postfixed_subscript (h rest) h1 hr).mono (by omega)

theorem readBack_index (hs : (Expr.index loc base e).Spoken) (hb : base.ReadBack o)
    (he : e.ReadBack o) : ReadBack o (.index loc base e) := by
  refine readBack_subscript (d := 40 * e.tokens.length + 41) hs hb rfl ?_ (by omega) fun rest => ?_
  · simp [Location.length_bracketed]
    omega
  · have read := expression_bracketed loc he
      (loose_sign loc .rbracket rfl rest)
    refine reads_succ fun n hn => ?_
    rw [List.append_assoc, List.cons_append, List.nil_append, subscript,
      accept_bracketed (show sign .lparen ≠ sign .colon from nofun), bind_ok (read n hn),
      accept_else (show (loc.sign .rbracket).kind ≠ sign .colon from nofun),
      bind_ok (expect_sign _ _ _)]
    rfl

section Slices

variable {α : Type} {rest : List Token} {n : Nat}

theorem reads_stop (stop : Option Expr) (h : ∀ e ∈ stop, e.ReadBack o)
    (hn : 40 * (optional loc [] stop).length ≤ n) (f : Option Expr → Reader α)
    (hr : ∃ t us, rest = t :: us ∧ t.kind ∈ [sign .colon, sign .rbracket]) :
    (peekKind >>= fun kind =>
      if kind ∈ [sign .colon, sign .rbracket] then pure none >>= f
      else some <$> expression o n >>= f) (optional loc [] stop ++ rest) =
      f (relocatedOption o.place stop) rest := by
  obtain ⟨t, us, rfl, ht⟩ := hr
  cases stop with
  | none =>
    change (peekKind >>= _) (t :: us) = _
    rw [bind_ok peekKind_cons, if_pos ht]
    rfl
  | some e =>
    have loose : Loose 1 (t :: us) := by
      refine ⟨t, us, rfl, ?_⟩
      rcases List.mem_cons.mp ht with hk | hk
      · rw [hk]
        exact Nat.one_pos
      · rw [List.mem_singleton.mp hk]
        exact Nat.one_pos
    have read := expression_bracketed loc (h e rfl) loose
    simp only [optional, List.nil_append, Location.length_bracketed] at hn
    rw [optional, List.nil_append, bind_ok (peekKind_bracketed _ _), if_neg (by decide),
      bind_ok (map_ok some (read n (by omega)))]
    rfl

theorem reads_step (step : Option Expr) (h : ∀ e ∈ step, e.ReadBack o)
    (hn : 40 * (optional loc [] step).length ≤ n) (f : Option Expr → Reader α) :
    (accept (sign .colon) >>= fun b =>
      if b = true then peekKind >>= fun kind =>
        if kind = sign .rbracket then pure none >>= f else some <$> expression o n >>= f
      else pure none >>= f) (optional loc [loc.sign .colon] step ++ loc.sign .rbracket :: rest) =
      f (relocatedOption o.place step) (loc.sign .rbracket :: rest) := by
  cases step with
  | none =>
    change (accept _ >>= _) (loc.sign .rbracket :: rest) = _
    rw [accept_else (show (loc.sign .rbracket).kind ≠ sign .colon from nofun)]
    rfl
  | some e =>
    have read := expression_bracketed loc (h e rfl)
      (loose_sign loc .rbracket rfl rest)
    simp only [optional, List.nil_append, Location.length_bracketed] at hn
    simp only [optional, List.cons_append, List.nil_append]
    rw [accept_sign, bind_ok (peekKind_bracketed _ _), if_neg (by decide),
      bind_ok (map_ok some (read n (by omega)))]
    rfl

theorem reads_slice (loc : Location) {stop step : Option Expr} (e : Expr)
    (start : Option Expr)
    (hstop : ∀ e ∈ stop, e.ReadBack o) (hstep : ∀ e ∈ step, e.ReadBack o) (rest : List Token) :
    Reads (Reader.slice o · (o.place loc) e start)
      (40 * ((optional loc [] stop).length + (optional loc [] step).length) + 1)
      (optional loc [] stop ++ (optional loc [loc.sign .colon] step ++ loc.sign .rbracket :: rest))
      (Expr.slice (o.place loc) e start (relocatedOption o.place stop)
        (relocatedOption o.place step)) rest := by
  have next : ∃ t us, optional loc [loc.sign .colon] step ++ loc.sign .rbracket :: rest = t :: us ∧
      t.kind ∈ [sign .colon, sign .rbracket] := by
    cases step with
    | none => exact ⟨_, _, rfl, List.mem_cons_of_mem _ List.mem_cons_self⟩
    | some e => exact ⟨_, _, rfl, List.mem_cons_self⟩
  refine reads_succ fun n hn => ?_
  rw [Reader.slice]
  dsimp only
  rw [reads_stop stop hstop (by omega) _ next, reads_step step hstep (by omega),
    bind_ok (expect_sign _ _ _)]
  rfl

end Slices

theorem readBack_slice {start stop step : Option Expr}
    (hs : (Expr.slice loc base start stop step).Spoken) (hb : base.ReadBack o)
    (hstart : ∀ e ∈ start, e.ReadBack o) (hstop : ∀ e ∈ stop, e.ReadBack o)
    (hstep : ∀ e ∈ step, e.ReadBack o) : ReadBack o (.slice loc base start stop step) := by
  refine readBack_subscript (d := 40 * ((optional loc [] start).length +
    (optional loc [] stop).length + (optional loc [] step).length) + 2) hs hb rfl ?_ (by omega)
    fun rest => reads_succ fun n hn => ?_
  · cases step <;> simp [optional] <;> omega
  · have sliced (first : Option Expr) := reads_slice loc (base.relocated o.place) first
      hstop hstep rest
    simp only [List.append_assoc, List.cons_append, List.nil_append]
    rw [subscript]
    cases start with
    | none =>
      rw [optional, List.nil_append, accept_sign]
      exact sliced none n (by omega)
    | some e =>
      have read (us : List Token) := expression_bracketed loc
        (hstart e rfl) (loose_sign loc .colon rfl us)
      simp only [optional, List.nil_append, Location.length_bracketed] at hn
      rw [optional, List.nil_append, accept_bracketed (show sign .lparen ≠ sign .colon from nofun),
        bind_ok (read _ n (by omega)), accept_sign]
      exact sliced (some _) n (by omega)

theorem readBack_member {id : String} (hs : (Expr.member loc base id).Spoken)
    (hb : base.ReadBack o) : ReadBack o (.member loc base id) := by
  refine readBack_of_signed (d := 40 * base.tokens.length + 3) hs
    ⟨loc.sign .lparen, _, rfl, of_decide_eq_true rfl⟩ ?_ fun rest hr => ?_
  · simp [tokens, Location.length_bracketed]
    omega
  · simp only [tokens, List.append_assoc, List.cons_append, List.nil_append]
    exact reads_signed (reads_bracketed loc hb _) ((postfixed_member hr).mono (by omega))
      (bracketed_head loc (P := (· ∉ prefixes)) (by decide) _ _)

theorem readBack_lambda {params : List String} (hs : (Expr.lambda loc params e).Spoken)
    (he : e.ReadBack o) : ReadBack o (.lambda loc params e) where
  head := tokens_head hs
  reads {rest} hr := by
    have body : Reads (chain o · .disjunction) (40 * e.tokens.length + 39)
        (loc.bracketed e.tokens ++ rest) (e.relocated o.place) rest :=
      reads_tight .disjunction (signed_bracketed loc he (hr.mono (by omega)))
        (bracketed_head loc (P := (· ≠ word .not_)) (by decide) _ _) hr
    have depth : 40 * e.tokens.length + params.length + 40 ≤
        40 * (Expr.lambda loc params e).tokens.length := by
      have := loc.length_names params
      simp [tokens, Location.length_bracketed]
      omega
    refine Reads.mono (reads_succ fun n hn => ?_) depth
    simp only [tokens, List.append_assoc, List.cons_append]
    rw [expression, bind_ok peek_cons,
      if_pos (show (loc.word .lambda_).kind = word .lambda_ from rfl), bind_ok skip_cons]
    cases params with
    | nil =>
      change (peekKind >>= _) (loc.sign .colon :: _) = _
      rw [bind_ok peekKind_cons]
      dsimp only
      rw [if_pos (show (loc.sign .colon).kind = sign .colon from rfl), bind_ok (pure_ok _),
        bind_ok (expect_sign _ _ _), bind_ok (body n (by omega))]
      rfl
    | cons x xs =>
      have read (us : List Token) : Reads (names "parameter name") (xs.length + 1)
          (loc.names (x :: xs) ++ loc.sign .colon :: us) (x :: xs) (loc.sign .colon :: us) :=
        reads_names loc _ x xs ⟨_, _, rfl, sign_ne_sign loc (by decide)⟩
      have next (us : List Token) : peekKind (loc.names (x :: xs) ++ us) =
        .ok (.ident, loc.names (x :: xs) ++ us) := rfl
      rw [List.length_cons] at hn
      rw [bind_ok (next _)]
      dsimp only
      rw [if_neg (show Kind.ident ≠ sign .colon by decide), bind_ok (read _ n (by omega)), bind_ok (expect_sign _ _ _),
        bind_ok (body n (by omega))]
      rfl

theorem readBack_not (hs : (Expr.unary loc .not_ e).Spoken) (he : e.ReadBack o) :
    ReadBack o (.unary loc .not_ e) where
  head := tokens_head hs
  reads {rest} hr := by
    have inner : Reads (negation o) (40 * e.tokens.length + 40) (loc.bracketed e.tokens ++ rest)
        (e.relocated o.place) rest :=
      reads_negation (reads_tight .comparison (signed_bracketed loc he (hr.mono (by omega)))
        (bracketed_head loc (P := (· ≠ word .not_)) nofun _ _) (hr.mono (by decide)))
        (bracketed_head loc (P := (· ≠ word .not_)) nofun _ _)
    have negated := reads_not (t := loc.token (word .not_) UnaryOp.not_.text) inner rfl
    have conjunct : Reads (operand o · .conjunction) _ _ _ rest :=
      reads_succ fun n hn => negated n hn
    have disjunct : Reads (operand o · .disjunction) _ _ _ rest :=
      reads_succ fun n hn => reads_chain conjunct (hr.mono (by decide)) n hn
    refine (reads_expression (reads_chain disjunct hr) ⟨_, _, rfl, nofun⟩).mono ?_
    simp [tokens, Location.length_bracketed]
    omega

theorem readBack_sign {op : UnaryOp} (hs : (Expr.unary loc op e).Spoken) (he : e.ReadBack o)
    (hop : op.kind ∈ [sign .minus, sign .plus, sign .tilde]) (ht : UnaryOp.ofText op.text = op) :
    ReadBack o (.unary loc op e) where
  head := tokens_head hs
  reads {rest} hr := by
    have inner := signed_bracketed loc he (hr.mono (show 1 ≤ 11 by decide))
    have outer : Reads (signed o) (40 * e.tokens.length + 4)
        (loc.token op.kind op.text :: (loc.bracketed e.tokens ++ rest))
        (.unary (o.place loc) op (e.relocated o.place)) rest := by
      have signs : (loc.token op.kind op.text).kind ∈
        [sign .minus, sign .plus, sign .tilde, word .not_] := List.mem_append_left [word .not_] hop
      refine reads_succ fun n hn => ?_
      rw [signed, bind_ok peek_cons, if_pos signs, bind_ok skip_cons, bind_ok (inner n hn)]
      exact congrArg (fun u => Except.ok (Expr.unary (o.place loc) u (e.relocated o.place), rest)) ht
    refine (reads_whole outer ⟨_, _, rfl, ?_, ?_⟩ hr).mono ?_
    · rintro (hk : op.kind = _)
      rw [hk] at hop
      exact absurd hop (by decide)
    · rintro (hk : op.kind = _)
      rw [hk] at hop
      exact absurd hop (by decide)
    · simp [tokens, Location.length_bracketed]
      omega

theorem readBack_unary {op : UnaryOp} (hs : (Expr.unary loc op e).Spoken)
    (hop : op ∈ UnaryOp.known) (he : e.ReadBack o) : ReadBack o (.unary loc op e) := by
  cases op with
  | not_ => exact readBack_not hs he
  | neg | pos | invert => exact readBack_sign hs he (by decide) (by decide)
  | other s => simp [UnaryOp.known] at hop

end Expr

/-- The level at which an operator joins two operands; for a power, the tightest. -/
def BinaryOp.level : BinaryOp → Reader.Level
  | or_ => .disjunction
  | and_ => .conjunction
  | eq | ne | lt | gt | le | ge | mem | same => .comparison
  | bitOr => .bitOr
  | bitXor => .bitXor
  | bitAnd => .bitAnd
  | shiftLeft | shiftRight => .shift
  | add | sub => .sum
  | mul | div | mod | pow | other _ => .product

namespace Expr

open Reader

variable {o : Origin} {loc : Location} {l r : Expr}

/-- What a level reads is a whole expression if nothing behind it is joined to it. -/
theorem reads_joint {d : Nat} {level : Level} {e : Expr} {ts us rest : List Token}
    (h : Reads (chain o · level) d (loc.bracketed ts ++ us) e rest) (hr : Loose 1 rest) :
    Reads (expression o) (d + 33) (loc.bracketed ts ++ us) e rest := by
  have outward := reads_outward .disjunction level.grip_bounds.1 h
    (bracketed_head loc (P := (· ≠ word .not_)) nofun _ _) hr
  have high := level.grip_bounds.2
  have low : Level.disjunction.grip = 1 := rfl
  refine (reads_expression outward (bracketed_head loc (P := (· ≠ word .lambda_)) nofun _ _)).mono ?_
  omega

theorem readBack_power (hs : (Expr.binary loc .pow l r).Spoken) (hl : l.ReadBack o)
    (hr : r.ReadBack o) : ReadBack o (.binary loc .pow l r) where
  head := tokens_head hs
  reads {rest} hrest := by
    have grips : Loose 11 (loc.token (sign .doubleStar) BinaryOp.pow.text ::
        (loc.bracketed r.tokens ++ rest)) := ⟨_, _, rfl, Nat.lt_succ_self 10⟩
    have left := signed_bracketed loc hl grips
    have right := reads_power (signed_bracketed loc hr (hrest.mono (by decide)))
      (hrest.mono (by decide))
    have raised := reads_product (reads_raised (d := 40 * (l.tokens.length + r.tokens.length) + 4)
      (left.mono (by omega)) rfl (right.mono (by omega)))
    have read := reads_joint (reads_chain raised (hrest.mono (by decide))) hrest
    simp only [tokens, List.append_assoc, List.cons_append]
    refine read.mono ?_
    simp [Location.length_bracketed]
    omega

theorem readBack_joined {op : BinaryOp} (hs : (Expr.binary loc op l r).Spoken) (hl : l.ReadBack o)
    (hr : r.ReadBack o) (hop : op.kind ∈ op.level.operators)
    (ht : op.level.operator (loc.token op.kind op.text) = op) : ReadBack o (.binary loc op l r) where
  head := tokens_head hs
  reads {rest} hrest := by
    have low := op.level.grip_bounds.1
    have loose : Loose (op.level.grip + 1) (loc.token op.kind op.text ::
        (loc.bracketed r.tokens ++ rest)) :=
      ⟨_, _, rfl, Nat.lt_succ_of_le (Nat.le_of_eq (Level.grip_of_mem hop))⟩
    have left := operand_bracketed loc hl op.level loose
    have right := operand_bracketed loc hr op.level (hrest.mono (by omega))
    have joined := reads_joined (d := 40 * (l.tokens.length + r.tokens.length) + 41)
      (left.mono (by omega)) hop (right.mono (by omega)) (hrest.mono low)
    rw [ht] at joined
    simp only [tokens, List.append_assoc, List.cons_append]
    refine (reads_joint joined hrest).mono ?_
    simp [Location.length_bracketed]
    omega

theorem readBack_binary {op : BinaryOp} (hs : (Expr.binary loc op l r).Spoken)
    (hop : op ∈ BinaryOp.known) (hl : l.ReadBack o) (hr : r.ReadBack o) :
    ReadBack o (.binary loc op l r) := by
  cases op with
  | pow => exact readBack_power hs hl hr
  | other s => simp [BinaryOp.known] at hop
  | _ => exact readBack_joined hs hl hr (by decide) rfl

/-- Every expression of the grammar is read back. -/
theorem Spoken.readBack {e : Expr} (h : e.Spoken) : e.ReadBack o := by
  have hs := h
  induction h with
  | literal loc v => exact readBack_literal loc v
  | name loc id => exact readBack_name loc id
  | binary loc hop hl hr ihl ihr => exact readBack_binary hs hop (ihl hl) (ihr hr)
  | unary loc hop he ih => exact readBack_unary hs hop (ih he)
  | call loc hf hargs hnamed hkeys ihf ihargs ihnamed =>
    exact readBack_call hs (ihf hf) hkeys (fun e he => ihargs e he (hargs e he))
      fun x hx => ihnamed x hx (hnamed x hx)
  | index loc hb hi ihb ihi => exact readBack_index hs (ihb hb) (ihi hi)
  | slice loc hb hstart hstop hstep ihb ihstart ihstop ihstep =>
    exact readBack_slice hs (ihb hb) (fun e he => ihstart e he (hstart e he))
      (fun e he => ihstop e he (hstop e he)) fun e he => ihstep e he (hstep e he)
  | list loc h ih => exact readBack_list hs fun e he => ih e he (h e he)
  | tuple loc h ih => exact readBack_tuple hs fun e he => ih e he (h e he)
  | dict loc hk hv ihk ihv =>
    exact readBack_dict hs fun x hx => ⟨ihk x hx (hk x hx), ihv x hx (hv x hx)⟩
  | lambda loc params h ih => exact readBack_lambda hs (ih h)
  | comprehension loc item helement he hc ihelement ihe ihc =>
    exact readBack_comprehension hs (ihelement helement) (ihe he) fun c h => ihc c h (hc c h)
  | member loc id h ih => exact readBack_member hs (ih h)

end Expr

end LoopScript
