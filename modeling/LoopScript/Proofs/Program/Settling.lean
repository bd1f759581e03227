import LoopScript.Program.Parser
import LoopScript.Proofs.Program.Reading

/-!
Readers in front of an end mark. With a depth that the number of tokens before the mark allows, each
of them comes to a value or refuses a token, and no token behind the mark has a part in it.
-/

namespace LoopScript

open Token (Kind)

namespace Reader

/-- How the tokens before an end mark are read, whatever follows the mark: for a value, after as many
tokens as that value tells at least, or not at all, because of one of the tokens of a list. -/
inductive Outcome {α : Type} (T : List Token) (e : Token) (took : α → Nat) (r : Reader α)
    (ts : List Token) : Prop where
  | value {a : α} {us : List Token} (left : us <:+ ts) (taken : us.length + took a ≤ ts.length)
      (read : ∀ rest, r (ts ++ e :: rest) = .ok (a, us ++ e :: rest))
  | refusal {fault : ParseFault} {t : Token} (here : t ∈ T)
      (read : ∀ rest, r (ts ++ e :: rest) = .error (.refused fault t.line))

def Settles {α : Type} (T : List Token) (e : Token) (took : α → Nat) (r : Reader α)
    (ts : List Token) : Prop :=
  ts ⊆ T → Outcome T e took r ts

/-- A reader that takes so many tokens at least, whatever it reads. -/
abbrev Takes {α : Type} (T : List Token) (e : Token) (k : Nat) (r : Reader α) (ts : List Token) :
    Prop :=
  Settles T e (fun _ => k) r ts

section Rules

variable {α β : Type} {T : List Token} {e : Token} {took : β → Nat} {m k : Nat} {x : Reader α}
  {y z : Reader β} {f : α → Reader β} {ts us : List Token}

theorem bind_error {err : ParseError} (h : x ts = .error err) : (x >>= f) ts = .error err := by
  simp only [bind, StateT.bind, h, Except.bind]

theorem settles_pure {b : β} (h : took b = 0) : Settles T e took (pure b) ts :=
  fun _ => .value (List.suffix_refl ts) (Nat.le_of_eq (by rw [h, Nat.add_zero])) fun _ => rfl

theorem takes_pure (b : β) : Takes T e 0 (pure b) ts := settles_pure rfl

theorem settles_refuse (fault : ParseFault) {t : Token} (ht : t ∈ T) :
    Settles T e took (refuse fault t.line) ts :=
  fun _ => .refusal ht fun _ => rfl

theorem Outcome.after (h : Outcome T e (fun b => took b - m) y us) (left : us <:+ ts)
    (taken : us.length + m ≤ ts.length)
    (same : ∀ rest, z (ts ++ e :: rest) = y (us ++ e :: rest)) : Outcome T e took z ts := by
  cases h with
  | value left' taken' read =>
    exact .value (left'.trans left) (by omega) fun rest => (same rest).trans (read rest)
  | refusal here read => exact .refusal here fun rest => (same rest).trans (read rest)

theorem Outcome.congr (h : Outcome T e took y ts)
    (same : ∀ rest, z (ts ++ e :: rest) = y (ts ++ e :: rest)) : Outcome T e took z ts :=
  Outcome.after (m := 0) h (List.suffix_refl ts) (Nat.le_refl _) same

theorem Settles.bind (hx : Takes T e m x ts)
    (hf : ∀ a us, us.length + m ≤ ts.length → Settles T e (fun b => took b - m) (f a) us) :
    Settles T e took (x >>= f) ts := by
  intro hT
  cases hx hT with
  | @value a us left taken read =>
    have outcome := hf a us taken (List.Subset.trans left.subset hT)
    exact outcome.after left taken fun rest => bind_ok (read rest)
  | refusal here read => exact .refusal here fun rest => by rw [bind_error (read rest)]

theorem Settles.mono (hx : Takes T e m y ts) (h : ∀ b, took b ≤ m) : Settles T e took y ts := by
  intro hT
  cases hx hT with
  | value left taken read => exact .value left (by have := h; grind) read
  | refusal here read => exact .refusal here read

theorem Takes.any (hx : Takes T e m y ts) : Takes T e 0 y ts :=
  Settles.mono hx fun _ => Nat.zero_le m

/-- A reader whose tokens nobody counts. -/
theorem Takes.seq (hx : Takes T e m x ts)
    (hf : ∀ a us, us.length ≤ ts.length → Settles T e took (f a) us) :
    Settles T e took (x >>= f) ts :=
  Settles.bind hx.any hf

theorem Takes.map {g : α → β} (hx : Takes T e k x ts) : Takes T e k (g <$> x) ts := by
  rw [← bind_pure_comp]
  exact Settles.bind hx fun a us h => settles_pure (Nat.sub_self k)

variable (he : e.kind = .eof) (heT : e ∈ T)

include heT in
/-- The next token is the end mark if no token stands before it. -/
theorem settles_peek {f : Token → Reader β}
    (h : ∀ t ∈ T, ts.headD e = t → Settles T e took (f t) ts) :
    Settles T e took (peek >>= f) ts := by
  intro hT
  have next (rest : List Token) :
      peek (ts ++ e :: rest) = .ok (ts.headD e, ts ++ e :: rest) := by cases ts <;> rfl
  have ht : ts.headD e ∈ T := by
    cases ts with
    | nil => exact heT
    | cons t ts => exact hT List.mem_cons_self
  exact (h _ ht rfl hT).congr fun rest => bind_ok (next rest)

include heT in
theorem settles_peekKind {f : Kind → Reader β}
    (h : ∀ t ∈ T, ts.headD e = t → Settles T e took (f t.kind) ts) :
    Settles T e took (peekKind >>= f) ts := by
  rw [peekKind, bind_assoc]
  exact settles_peek heT fun t hm ht => by simpa using h t hm ht

include he in
theorem settles_skip_cons {t : Token} {f : Unit → Reader β} (ht : ts.headD e = t)
    (hk : t.kind ≠ .eof) (h : ∀ us, ts = t :: us → Settles T e (fun b => took b - 1) (f ()) us) :
    Settles T e took (skip >>= f) ts := by
  intro hT
  cases ts with
  | nil =>
    subst ht
    exact absurd he hk
  | cons t us =>
    subst ht
    have outcome := h us rfl (List.Subset.trans (List.subset_cons_self t us) hT)
    exact outcome.after (List.suffix_cons t us) (Nat.le_refl _) fun _ => bind_ok rfl

include he in
theorem settles_skip {t : Token} {f : Unit → Reader β} (ht : ts.headD e = t) (hk : t.kind ≠ .eof)
    (h : ∀ us, us.length + 1 = ts.length → Settles T e (fun b => took b - 1) (f ()) us) :
    Settles T e took (skip >>= f) ts :=
  settles_skip_cons he ht hk fun us hus => h us (by rw [hus, List.length_cons])

/-- What stands behind the end mark is seen there, but must have no part in what follows. -/
theorem settles_peekSecond {f : Kind → Reader β} (hend : ts = [] → ∀ a b, f a = f b)
    (h : ∀ a, (∀ t us, ts = t :: us → a = (us.headD e).kind) → Settles T e took (f a) ts) :
    Settles T e took (peekSecond >>= f) ts := by
  intro hT
  match ts with
  | [] =>
    refine (h e.kind nofun hT).congr fun rest => ?_
    obtain ⟨a, ha⟩ : ∃ a, peekSecond ([] ++ e :: rest) = .ok (a, [] ++ e :: rest) := by
      cases rest <;> exact ⟨_, rfl⟩
    rw [bind_ok ha, hend rfl a e.kind]
  | t :: us =>
    have next (rest : List Token) : peekSecond (t :: us ++ e :: rest) =
        .ok ((us.headD e).kind, t :: us ++ e :: rest) := by cases us <;> rfl
    exact (h _ (by rintro _ _ ⟨⟩; rfl) hT).congr fun rest => bind_ok (next rest)

include he heT

theorem settles_accept {kind : Kind} (hk : kind ≠ .eof)
    (hy : ∀ us, us.length + 1 = ts.length → Settles T e (fun b => took b - 1) y us)
    (hz : Settles T e took z ts) :
    Settles T e took (accept kind >>= fun b => if b = true then y else z) ts := by
  rw [accept, bind_assoc]
  refine settles_peekKind heT fun t _ ht => ?_
  split
  next same =>
    rw [bind_assoc]
    refine settles_skip he ht (by rwa [same]) fun us hus => ?_
    rw [pure_bind, if_pos rfl]
    exact hy us hus
  next => rwa [pure_bind, if_neg Bool.false_ne_true]

theorem settles_expect {kind : Kind} (hk : kind ≠ .eof) {what : String} {f : Token → Reader β}
    (h : ∀ t ∈ T, ∀ us, us.length + 1 = ts.length → Settles T e (fun b => took b - 1) (f t) us) :
    Settles T e took (expect kind what >>= f) ts := by
  rw [expect, bind_assoc]
  refine settles_peek heT fun t hm ht => ?_
  split
  next same =>
    rw [bind_assoc]
    refine settles_skip he ht (by rwa [same]) fun us hus => ?_
    rw [pure_bind]
    exact h t hm us hus
  next =>
    intro _
    exact .refusal hm fun _ => rfl

theorem takes_names (what : String) {n : Nat} (hn : 40 * ts.length + 1 ≤ n) :
    Takes T e 1 (names what n) ts := by
  induction n generalizing ts with
  | zero => omega
  | succ n ih =>
    refine settles_expect he heT (by nofun) fun t _ us hus => ?_
    refine settles_accept he heT (by nofun) (fun vs hvs => ?_) (takes_pure _)
    exact (ih (by omega)).bind fun _ _ _ => by simpa using takes_pure _

theorem takes_parameters (seen : List String) {n : Nat} (hn : 40 * ts.length + 1 ≤ n) :
    Takes T e 1 (parameters seen n) ts := by
  induction n generalizing seen ts with
  | zero => omega
  | succ n ih =>
    refine settles_expect he heT (by nofun) fun t ht us hus => ?_
    split
    · exact settles_refuse _ ht
    refine settles_accept he heT (by nofun) (fun vs hvs => ?_) (takes_pure _)
    refine settles_peekKind heT fun u _ _ => ?_
    split
    · exact takes_pure _
    · exact (ih _ (by omega)).seq fun _ _ _ => takes_pure _

end Rules

section Expressions

/-- How deep the readers of a level go before they take a token. -/
def Level.reach : Level → Nat
  | disjunction => 22
  | conjunction => 20
  | comparison => 17
  | bitOr => 15
  | bitXor => 13
  | bitAnd => 11
  | shift => 9
  | sum => 7
  | product => 5

theorem Level.reach_bounds (level : Level) : 5 ≤ level.reach ∧ level.reach ≤ 22 := by
  cases level <;> decide

theorem Level.ne_eof {level : Level} {kind : Kind} (h : kind ∈ level.operators) : kind ≠ .eof := by
  rintro rfl
  cases level <;> exact absurd h (by decide)

variable (o : Origin) (T : List Token) (e : Token) (n : Nat)

/-- What the readers of expressions come to at a depth, each with the number of tokens it takes at
least and how deep it goes before it takes one. -/
structure TakesExpressions : Prop where
  expression {ts : List Token} (hn : 40 * ts.length + 23 ≤ n) : Takes T e 1 (expression o n) ts
  chain {ts : List Token} (level : Level) (hn : 40 * ts.length + level.reach ≤ n) :
    Takes T e 1 (chain o n level) ts
  links {ts : List Token} (level : Level) (left : Expr) (hn : 40 * ts.length + 1 ≤ n) :
    Takes T e 0 (links o n level left) ts
  operand {ts : List Token} (level : Level) (hn : 40 * ts.length + level.reach ≤ n + 1) :
    Takes T e 1 (operand o n level) ts
  negation {ts : List Token} (hn : 40 * ts.length + 18 ≤ n) : Takes T e 1 (negation o n) ts
  power {ts : List Token} (hn : 40 * ts.length + 3 ≤ n) : Takes T e 1 (power o n) ts
  signed {ts : List Token} (hn : 40 * ts.length + 2 ≤ n) : Takes T e 1 (signed o n) ts
  postfixed {ts : List Token} (base : Expr) (hn : 40 * ts.length + 1 ≤ n) :
    Takes T e 0 (postfixed o n base) ts
  arguments {ts : List Token} (seen : List String) (hn : 40 * ts.length + 24 ≤ n) :
    Takes T e 1 (arguments o n seen) ts
  moreArguments {ts : List Token} (seen : List String) (hn : 40 * ts.length + 1 ≤ n) :
    Takes T e 1 (moreArguments o n seen) ts
  subscript {ts : List Token} (loc : Location) (base : Expr) (hn : 40 * ts.length + 24 ≤ n) :
    Takes T e 1 (subscript o n loc base) ts
  slice {ts : List Token} (loc : Location) (base : Expr) (start : Option Expr)
    (hn : 40 * ts.length + 24 ≤ n) : Takes T e 1 (slice o n loc base start) ts
  atom {ts : List Token} (hn : 40 * ts.length + 1 ≤ n) : Takes T e 1 (atom o n) ts
  parenthesized {ts : List Token} (loc : Location) (hn : 40 * ts.length + 24 ≤ n) :
    Takes T e 1 (parenthesized o n loc) ts
  items {ts : List Token} (closer : Kind) (hn : 40 * ts.length + 24 ≤ n) :
    Takes T e 0 (items o n closer) ts
  bracketed {ts : List Token} (loc : Location) (hn : 40 * ts.length + 24 ≤ n) :
    Takes T e 1 (bracketed o n loc) ts
  dictEntries {ts : List Token} (hn : 40 * ts.length + 24 ≤ n) : Takes T e 0 (dictEntries o n) ts

variable {o T e n} (he : e.kind = .eof) (heT : e ∈ T) (ih : TakesExpressions o T e n)
  {ts : List Token}

include he heT ih

theorem takes_expression (hn : 40 * ts.length + 23 ≤ n + 1) :
    Takes T e 1 (expression o (n + 1)) ts := by
  refine settles_peek heT fun t _ ht => ?_
  split
  next lambda =>
    refine settles_skip he ht (by rw [lambda]; nofun) fun us hus => ?_
    refine settles_peekKind heT fun u _ _ => ?_
    dsimp only
    have body (params : List String) {us : List Token} (hus : us.length + 1 ≤ ts.length) :
        Takes T e 0 (do
          let _ ← expect (sign .colon) "':' after lambda parameters"
          pure (Expr.lambda (o.locate t) params (← chain o n .disjunction))) us := by
      refine settles_expect he heT (by nofun) fun _ _ vs hvs => ?_
      refine (ih.chain .disjunction ?_).seq fun _ _ _ => takes_pure _
      rw [Level.reach]
      omega
    split
    · exact body [] (by omega)
    · refine (takes_names he heT _ ?_).seq fun params vs hvs => ?_
      · omega
      · exact body params (by omega)
  next => exact ih.chain _ (by rw [Level.reach]; omega)

omit he heT in
theorem takes_chain (level : Level) (hn : 40 * ts.length + level.reach ≤ n + 1) :
    Takes T e 1 (chain o (n + 1) level) ts :=
  (ih.operand level hn).bind fun left us hus => ih.links level left (by omega)

theorem takes_links (level : Level) (left : Expr) (hn : 40 * ts.length + 1 ≤ n + 1) :
    Takes T e 0 (links o (n + 1) level left) ts := by
  obtain ⟨-, reach⟩ := level.reach_bounds
  refine settles_peek heT fun t _ ht => ?_
  split
  next operator =>
    refine settles_skip he ht (Level.ne_eof operator) fun us hus => ?_
    refine (ih.operand level ?_).seq fun right vs hvs => ?_
    · omega
    · exact ih.links level _ (by omega)
  next => exact takes_pure _

omit he heT in
theorem takes_operand (level : Level) (hn : 40 * ts.length + level.reach ≤ n + 1 + 1) :
    Takes T e 1 (operand o (n + 1) level) ts := by
  cases level with
  | conjunction => exact ih.negation (by rw [Level.reach] at hn; omega)
  | product => exact ih.power (by rw [Level.reach] at hn; omega)
  | _ => exact ih.chain _ (by simp only [Level.reach] at hn ⊢; omega)

theorem takes_negation (hn : 40 * ts.length + 18 ≤ n + 1) :
    Takes T e 1 (negation o (n + 1)) ts := by
  refine settles_peek heT fun t _ ht => ?_
  split
  next not_ =>
    refine settles_skip he ht (by rw [not_]; nofun) fun us hus => ?_
    exact (ih.negation (by omega)).seq fun _ _ _ => takes_pure _
  next => exact ih.chain _ (by rw [Level.reach]; omega)

theorem takes_power (hn : 40 * ts.length + 3 ≤ n + 1) : Takes T e 1 (power o (n + 1)) ts := by
  refine (ih.signed (by omega)).bind fun base us hus => settles_peek heT fun t _ ht => ?_
  split
  next stars =>
    refine settles_skip he ht (by rw [stars]; nofun) fun vs hvs => ?_
    exact (ih.power (by omega)).seq fun _ _ _ => takes_pure _
  next => exact takes_pure _

theorem takes_signed (hn : 40 * ts.length + 2 ≤ n + 1) : Takes T e 1 (signed o (n + 1)) ts := by
  refine settles_peek heT fun t _ ht => ?_
  split
  next operator =>
    have other : t.kind ≠ .eof := by
      rintro end_
      rw [end_] at operator
      exact absurd operator (by decide)
    refine settles_skip he ht other fun us hus => ?_
    exact (ih.signed (by omega)).seq fun _ _ _ => takes_pure _
  next => exact (ih.atom (by omega)).bind fun base us hus => ih.postfixed base (by omega)

theorem takes_postfixed (base : Expr) (hn : 40 * ts.length + 1 ≤ n + 1) :
    Takes T e 0 (postfixed o (n + 1) base) ts := by
  refine settles_peek heT fun t _ ht => ?_
  split
  next paren =>
    refine settles_skip he ht (by rw [paren]; nofun) fun us hus => ?_
    refine (ih.arguments [] ?_).seq fun _ vs hvs => ?_
    · omega
    · exact ih.postfixed _ (by omega)
  split
  next bracket =>
    refine settles_skip he ht (by rw [bracket]; nofun) fun us hus => ?_
    refine (ih.subscript _ _ ?_).seq fun _ vs hvs => ?_
    · omega
    · exact ih.postfixed _ (by omega)
  split
  next dot =>
    refine settles_skip he ht (by rw [dot]; nofun) fun us hus => ?_
    exact settles_expect he heT (by nofun) fun _ _ vs hvs => ih.postfixed _ (by omega)
  next => exact takes_pure _

theorem takes_arguments (seen : List String) (hn : 40 * ts.length + 24 ≤ n + 1) :
    Takes T e 1 (arguments o (n + 1) seen) ts := by
  refine settles_peek heT fun t hm ht => ?_
  split
  next paren =>
    exact settles_skip he ht (by rw [paren]; nofun) fun us hus => takes_pure _
  refine settles_peekSecond ?_ fun second hsecond => ?_
  · rintro rfl a b
    have other : t.kind ≠ .ident := by
      rw [← ht, List.headD_nil, he]
      nofun
    have out (a : Kind) : ¬(t.kind = .ident ∧ a = sign .equal) := fun h => other h.1
    rw [if_neg (out a), if_neg (out b)]
  split
  next named =>
    refine settles_skip_cons he ht (by rw [named.1]; nofun) fun us hus => ?_
    have equal : (us.headD e).kind = sign .equal := by rw [← hsecond t us hus, named.2]
    have hus : us.length + 1 = ts.length := by rw [hus, List.length_cons]
    refine settles_skip he rfl (by rw [equal]; nofun) fun vs hvs => ?_
    split
    · exact settles_refuse _ hm
    · refine (ih.expression (by omega)).seq fun value ws hws => ?_
      exact (ih.moreArguments _ (by omega)).seq fun _ _ _ => takes_pure _
  split
  · exact settles_refuse _ hm
  · refine (ih.expression (by omega)).bind fun value us hus => ?_
    exact (ih.moreArguments _ (by omega)).seq fun _ _ _ => takes_pure _

theorem takes_moreArguments (seen : List String) (hn : 40 * ts.length + 1 ≤ n + 1) :
    Takes T e 1 (moreArguments o (n + 1) seen) ts := by
  refine settles_accept he heT (by nofun) (fun us hus => ?_) ?_
  · exact (ih.arguments seen (by omega)).any
  · exact settles_expect he heT (by nofun) fun _ _ _ _ => takes_pure _

theorem takes_subscript (loc : Location) (base : Expr) (hn : 40 * ts.length + 24 ≤ n + 1) :
    Takes T e 1 (subscript o (n + 1) loc base) ts := by
  refine settles_accept he heT (by nofun) (fun us hus => ?_) ?_
  · exact (ih.slice loc base _ (by omega)).any
  refine (ih.expression (by omega)).bind fun start us hus => ?_
  refine settles_accept he heT (by nofun) (fun vs hvs => ?_) ?_
  · exact (ih.slice loc base _ (by omega)).any
  · exact settles_expect he heT (by nofun) fun _ _ _ _ => takes_pure _

theorem takes_slice (loc : Location) (base : Expr) (start : Option Expr)
    (hn : 40 * ts.length + 24 ≤ n + 1) : Takes T e 1 (slice o (n + 1) loc base start) ts := by
  -- Stop and step may be missing, so what follows each of them is settled first.
  have close (stop step : Option Expr) (us : List Token) : Takes T e 1 (do
      let _ ← expect (sign .rbracket) "']'"
      pure (Expr.slice loc base start stop step)) us :=
    settles_expect he heT (by nofun) fun _ _ _ _ => takes_pure _
  have rest (stop : Option Expr) {us : List Token} (hus : us.length ≤ ts.length) :
      Takes T e 1 (do
        let step ←
          if ← accept (sign .colon) then
            if (← peekKind) = sign .rbracket then pure none else some <$> expression o n
          else pure none
        let _ ← expect (sign .rbracket) "']'"
        pure (Expr.slice loc base start stop step)) us := by
    refine settles_accept he heT (by nofun) (fun vs hvs => ?_) (close stop none us)
    refine settles_peekKind heT fun u _ _ => ?_
    dsimp only
    split
    · exact (close stop none vs).any
    · refine (Takes.map (ih.expression ?_)).seq fun step ws _ =>
        (close stop step ws).any
      omega
  refine settles_peekKind heT fun u _ _ => ?_
  dsimp only
  split
  · exact rest none (Nat.le_refl _)
  · exact (Takes.map (ih.expression (by omega))).seq fun stop us hus => rest stop hus

theorem takes_atom (hn : 40 * ts.length + 1 ≤ n + 1) : Takes T e 1 (atom o (n + 1)) ts := by
  refine settles_peek heT fun t hm ht => ?_
  dsimp only
  split
  case h_1 kind | h_2 kind | h_3 kind | h_4 kind | h_5 kind | h_6 kind =>
    exact settles_skip he ht (by rw [kind]; nofun) fun us hus => takes_pure _
  case h_7 kind =>
    refine settles_skip he ht (by rw [kind]; nofun) fun us hus => ?_
    exact (ih.parenthesized _ (by omega)).any
  case h_8 kind =>
    refine settles_skip he ht (by rw [kind]; nofun) fun us hus => ?_
    exact (ih.bracketed _ (by omega)).any
  case h_9 kind =>
    refine settles_skip he ht (by rw [kind]; nofun) fun us hus => ?_
    refine (ih.dictEntries (by omega)).seq fun entries vs hvs => ?_
    exact settles_expect he heT (by nofun) fun _ _ _ _ => takes_pure _
  case h_10 | h_11 => exact settles_refuse _ hm

theorem takes_parenthesized (loc : Location) (hn : 40 * ts.length + 24 ≤ n + 1) :
    Takes T e 1 (parenthesized o (n + 1) loc) ts := by
  refine settles_accept he heT (by nofun) (fun _ _ => takes_pure _) ?_
  refine (ih.expression (by omega)).seq fun first us hus => ?_
  refine settles_accept he heT (by nofun) (fun vs hvs => ?_) ?_
  · refine (ih.items _ (by omega)).seq fun rest ws hws => ?_
    exact settles_expect he heT (by nofun) fun _ _ _ _ => takes_pure _
  · exact settles_expect he heT (by nofun) fun _ _ _ _ => takes_pure _

theorem takes_items (closer : Kind) (hn : 40 * ts.length + 24 ≤ n + 1) :
    Takes T e 0 (items o (n + 1) closer) ts := by
  refine settles_peekKind heT fun u _ _ => ?_
  split
  · exact takes_pure _
  refine (ih.expression (by omega)).seq fun item us hus => ?_
  refine settles_accept he heT (by nofun) (fun vs hvs => ?_) (takes_pure _)
  exact (ih.items closer (by omega)).seq fun _ _ _ => takes_pure _

theorem takes_bracketed (loc : Location) (hn : 40 * ts.length + 24 ≤ n + 1) :
    Takes T e 1 (bracketed o (n + 1) loc) ts := by
  refine settles_accept he heT (by nofun) (fun _ _ => takes_pure _) ?_
  refine (ih.expression (by omega)).seq fun first us hus => ?_
  refine settles_accept he heT (by nofun) (fun vs hvs => ?_) ?_
  · refine settles_expect he heT (by nofun) fun item _ ws hws => ?_
    refine settles_expect he heT (by nofun) fun _ _ ws' hws' => ?_
    refine (ih.expression (by omega)).seq fun iterable xs hxs => ?_
    have close (condition : Option Expr) (ys : List Token) : Takes T e 0 (do
        let _ ← expect (sign .rbracket) "']' after list comprehension"
        pure (Expr.comprehension loc first item.lexeme iterable condition)) ys :=
      settles_expect he heT (by nofun) fun _ _ _ _ => takes_pure _
    refine settles_accept he heT (by nofun) (fun ys hys => ?_) (close none xs)
    exact (Takes.map (ih.expression (by omega))).seq fun condition zs _ => close condition zs
  · have close (rest : List Expr) (ys : List Token) : Takes T e 1 (do
        let _ ← expect (sign .rbracket) "']'"
        pure (Expr.list loc (first :: rest))) ys :=
      settles_expect he heT (by nofun) fun _ _ _ _ => takes_pure _
    refine settles_accept he heT (by nofun) (fun ys hys => ?_) (close [] us)
    exact (ih.items _ (by omega)).seq fun rest zs _ => (close rest zs).any

theorem takes_dictEntries (hn : 40 * ts.length + 24 ≤ n + 1) :
    Takes T e 0 (dictEntries o (n + 1)) ts := by
  refine settles_peekKind heT fun u _ _ => ?_
  split
  · exact takes_pure _
  refine (ih.expression (by omega)).seq fun key us hus => ?_
  refine settles_expect he heT (by nofun) fun _ _ vs hvs => ?_
  refine (ih.expression (by omega)).seq fun value ws hws => ?_
  refine settles_accept he heT (by nofun) (fun xs hxs => ?_) (takes_pure _)
  exact (ih.dictEntries (by omega)).seq fun _ _ _ => takes_pure _

omit ih

theorem takesExpressions : TakesExpressions o T e n := by
  -- Each reader calls the others with a depth less, so one induction serves all of them.
  induction n with
  | zero =>
    constructor
    case chain | operand =>
      intro ts level hn
      have reach := level.reach_bounds
      omega
    all_goals
      intros
      omega
  | succ n ih =>
    exact ⟨takes_expression he heT ih, takes_chain ih, takes_links he heT ih,
      takes_operand ih, takes_negation he heT ih, takes_power he heT ih,
      takes_signed he heT ih, takes_postfixed he heT ih, takes_arguments he heT ih,
      takes_moreArguments he heT ih, takes_subscript he heT ih, takes_slice he heT ih,
      takes_atom he heT ih, takes_parenthesized he heT ih, takes_items he heT ih,
      takes_bracketed he heT ih, takes_dictEntries he heT ih⟩

end Expressions

section Statements

variable {o : Origin} {T : List Token} {e : Token} {n : Nat} (he : e.kind = .eof) (heT : e ∈ T)
  {ts : List Token}

include he heT

theorem takes_newlines (hn : 40 * ts.length + 1 ≤ n) : Takes T e 0 (newlines n) ts := by
  induction n generalizing ts with
  | zero => omega
  | succ n ih => exact settles_accept he heT (by nofun) (fun us hus => ih (by omega)) (takes_pure _)

theorem takes_statementEnd (hn : 40 * ts.length + 1 ≤ n) :
    Takes T e 0 (statementEnd n) ts := by
  refine settles_peek heT fun t hm _ => ?_
  split
  · exact takes_pure _
  split
  · exact takes_newlines he heT hn
  · exact settles_refuse _ hm

theorem takes_assignmentOrExpression (loc : Location) (hn : 40 * ts.length + 23 ≤ n) :
    Takes T e 1 (assignmentOrExpression o n loc) ts := by
  refine ((takesExpressions he heT).expression hn).bind fun target us hus => ?_
  refine settles_peek heT fun t hm ht => ?_
  split
  next operator =>
    have other : t.kind ≠ .eof := by
      rintro end_
      rw [end_] at operator
      exact absurd operator (by decide)
    refine settles_skip he ht other fun vs hvs => ?_
    split
    · exact settles_refuse _ hm
    · exact ((takesExpressions he heT).expression (by omega)).seq fun _ _ _ => takes_pure _
  next => exact takes_pure _

theorem takes_simpleBody (hn : 40 * ts.length + 23 ≤ n) :
    Takes T e 1 (simpleBody o n) ts := by
  refine settles_peek heT fun t hm ht => ?_
  dsimp only
  split
  case h_1 kind =>
    refine settles_skip he ht (by rw [kind]; nofun) fun us hus => ?_
    refine settles_peekKind heT fun u _ _ => ?_
    split
    · exact takes_pure _
    · exact ((takesExpressions he heT).expression (by omega)).seq fun _ _ _ => takes_pure _
  case h_2 kind | h_3 kind | h_4 kind =>
    exact settles_skip he ht (by rw [kind]; nofun) fun us hus => takes_pure _
  case h_5 kind =>
    refine settles_skip he ht (by rw [kind]; nofun) fun us hus => ?_
    refine settles_expect he heT (by nofun) fun first _ vs hvs => ?_
    refine settles_accept he heT (by nofun) (fun ws hws => ?_) (takes_pure _)
    exact (takes_names he heT _ (by omega)).seq fun _ _ _ => takes_pure _
  case h_6 kind =>
    refine settles_skip he ht (by rw [kind]; nofun) fun us hus => ?_
    refine settles_expect he heT (by nofun) fun name _ vs hvs => ?_
    refine settles_accept he heT (by nofun) (fun ws hws => ?_) (takes_pure _)
    exact settles_expect he heT (by nofun) fun _ _ _ _ => takes_pure _
  case h_7 => exact takes_assignmentOrExpression he heT _ hn

theorem takes_simple (hn : 40 * ts.length + 23 ≤ n) : Takes T e 1 (simple o n) ts := by
  refine (takes_simpleBody he heT hn).bind fun s us hus => ?_
  exact (takes_statementEnd he heT (by omega)).seq fun _ _ _ => takes_pure _

omit he heT

variable (o T e n) in
/-- What the readers of statements come to at a depth, each with the number of tokens it takes at
least and how deep it goes before it takes one. -/
structure TakesStatements : Prop where
  statement {ts : List Token} (hn : 40 * ts.length + 24 ≤ n) : Takes T e 1 (statement o n) ts
  alternative {ts : List Token} (hn : 40 * ts.length + 1 ≤ n) : Takes T e 0 (alternative o n) ts
  functionDef {ts : List Token} (hn : 40 * ts.length + 1 ≤ n) : Takes T e 1 (functionDef o n) ts
  classDef {ts : List Token} (hn : 40 * ts.length + 1 ≤ n) : Takes T e 1 (classDef o n) ts
  methodDefs {ts : List Token} (hn : 40 * ts.length + 2 ≤ n) : Takes T e 0 (methodDefs o n) ts
  suite {ts : List Token} (hn : 40 * ts.length + 24 ≤ n) : Takes T e 1 (suite o n) ts
  statements {ts : List Token} (hn : 40 * ts.length + 25 ≤ n) : Takes T e 0 (statements o n) ts

variable (ih : TakesStatements o T e n)

include he heT ih

theorem takes_statement (hn : 40 * ts.length + 24 ≤ n + 1) :
    Takes T e 1 (statement o (n + 1)) ts := by
  refine settles_peek heT fun t hm ht => ?_
  dsimp only
  split
  case h_1 kind =>
    refine settles_skip he ht (by rw [kind]; nofun) fun us hus => ?_
    refine ((takesExpressions he heT).expression (by omega)).seq fun test vs hvs => ?_
    refine settles_expect he heT (by nofun) fun _ _ ws hws => ?_
    refine (ih.suite (by omega)).seq fun body xs hxs => ?_
    exact (ih.alternative (by omega)).seq fun _ _ _ => takes_pure _
  case h_2 kind =>
    refine settles_skip he ht (by rw [kind]; nofun) fun us hus => ?_
    refine ((takesExpressions he heT).expression (by omega)).seq fun test vs hvs => ?_
    refine settles_expect he heT (by nofun) fun _ _ ws hws => ?_
    exact (ih.suite (by omega)).seq fun _ _ _ => takes_pure _
  case h_3 kind =>
    refine settles_skip he ht (by rw [kind]; nofun) fun us hus => ?_
    refine settles_expect he heT (by nofun) fun item _ vs hvs => ?_
    refine settles_expect he heT (by nofun) fun _ _ ws hws => ?_
    refine ((takesExpressions he heT).expression (by omega)).seq fun iterable xs hxs => ?_
    refine settles_expect he heT (by nofun) fun _ _ ys hys => ?_
    exact (ih.suite (by omega)).seq fun _ _ _ => takes_pure _
  case h_4 => exact (ih.functionDef (by omega)).map
  case h_5 => exact ih.classDef (by omega)
  case h_6 => exact takes_simple he heT (by omega)

theorem takes_alternative (hn : 40 * ts.length + 1 ≤ n + 1) :
    Takes T e 0 (alternative o (n + 1)) ts := by
  refine settles_peek heT fun t hm ht => ?_
  split
  next kind =>
    refine settles_skip he ht (by rw [kind]; nofun) fun us hus => ?_
    refine ((takesExpressions he heT).expression (by omega)).seq fun test vs hvs => ?_
    refine settles_expect he heT (by nofun) fun _ _ ws hws => ?_
    refine (ih.suite (by omega)).seq fun body xs hxs => ?_
    exact (ih.alternative (by omega)).seq fun _ _ _ => takes_pure _
  next =>
    refine settles_accept he heT (by nofun) (fun us hus => ?_) (takes_pure _)
    refine settles_expect he heT (by nofun) fun _ _ vs hvs => ?_
    exact (ih.suite (by omega)).map.any

theorem takes_functionDef (hn : 40 * ts.length + 1 ≤ n + 1) :
    Takes T e 1 (functionDef o (n + 1)) ts := by
  refine settles_expect he heT (by nofun) fun t _ us hus => ?_
  refine settles_expect he heT (by nofun) fun name _ vs hvs => ?_
  refine settles_expect he heT (by nofun) fun _ _ ws hws => ?_
  refine settles_peekKind heT fun u _ _ => ?_
  dsimp only
  have rest (params : List String) {xs : List Token} (hxs : xs.length ≤ ws.length) :
      Takes T e 0 (do
        let _ ← expect (sign .rparen) "')' after parameters"
        let _ ← expect (sign .colon) "':' after function signature"
        pure (FunctionDef.mk (o.locate t) name.lexeme params (← suite o n))) xs := by
    refine settles_expect he heT (by nofun) fun _ _ ys hys => ?_
    refine settles_expect he heT (by nofun) fun _ _ zs hzs => ?_
    exact (ih.suite (by omega)).seq fun _ _ _ => takes_pure _
  split
  · exact rest [] (Nat.le_refl _)
  · exact (takes_parameters he heT [] (by omega)).seq fun params xs hxs => rest params hxs

theorem takes_classDef (hn : 40 * ts.length + 1 ≤ n + 1) :
    Takes T e 1 (classDef o (n + 1)) ts := by
  refine settles_expect he heT (by nofun) fun t _ us hus => ?_
  refine settles_expect he heT (by nofun) fun name _ vs hvs => ?_
  refine settles_expect he heT (by nofun) fun _ _ ws hws => ?_
  refine settles_peek heT fun u hm hu => ?_
  split
  next kind =>
    refine settles_skip he hu (by rw [kind]; nofun) fun xs hxs => ?_
    refine settles_expect he heT (by nofun) fun _ _ ys hys => ?_
    refine (ih.methodDefs (by omega)).seq fun methods zs hzs => ?_
    exact settles_expect he heT (by nofun) fun _ _ _ _ => takes_pure _
  split
  next kind =>
    refine settles_skip he hu (by rw [kind]; nofun) fun xs hxs => ?_
    exact (takes_statementEnd he heT (by omega)).seq fun _ _ _ => takes_pure _
  next => exact settles_refuse _ hm

theorem takes_methodDefs (hn : 40 * ts.length + 2 ≤ n + 1) :
    Takes T e 0 (methodDefs o (n + 1)) ts := by
  refine settles_peek heT fun t hm ht => ?_
  split
  · exact takes_pure _
  refine settles_accept he heT (by nofun) (fun us hus => ih.methodDefs (by omega)) ?_
  split
  · refine (ih.functionDef (by omega)).bind fun method us hus => ?_
    exact (ih.methodDefs (by omega)).seq fun _ _ _ => takes_pure _
  refine settles_accept he heT (by nofun) (fun us hus => ?_) (settles_refuse _ hm)
  exact (takes_statementEnd he heT (by omega)).seq fun _ vs hvs => ih.methodDefs (by omega)

theorem takes_suite (hn : 40 * ts.length + 24 ≤ n + 1) : Takes T e 1 (suite o (n + 1)) ts := by
  refine settles_accept he heT (by nofun) (fun us hus => ?_) ?_
  · refine settles_expect he heT (by nofun) fun _ _ vs hvs => ?_
    refine (ih.statements (by omega)).seq fun body ws hws => ?_
    exact settles_expect he heT (by nofun) fun _ _ _ _ => takes_pure _
  · exact (takes_simple he heT (by omega)).bind fun _ _ _ => takes_pure _

theorem takes_statements (hn : 40 * ts.length + 25 ≤ n + 1) :
    Takes T e 0 (statements o (n + 1)) ts := by
  refine settles_peek heT fun t hm ht => ?_
  split
  · exact takes_pure _
  refine settles_accept he heT (by nofun) (fun us hus => ih.statements (by omega)) ?_
  refine (ih.statement (by omega)).bind fun s us hus => ?_
  exact (ih.statements (by omega)).seq fun _ _ _ => takes_pure _

omit ih

theorem takesStatements : TakesStatements o T e n := by
  induction n with
  | zero => constructor <;> intros <;> omega
  | succ n ih =>
    exact ⟨takes_statement he heT ih, takes_alternative he heT ih, takes_functionDef he heT ih,
      takes_classDef he heT ih, takes_methodDefs he heT ih, takes_suite he heT ih,
      takes_statements he heT ih⟩

theorem takes_topLevel (hn : 40 * ts.length + 25 ≤ n) : Takes T e 0 (topLevel o n) ts := by
  induction n generalizing ts with
  | zero => omega
  | succ n ih =>
    refine settles_peek heT fun t hm ht => ?_
    split
    · exact takes_pure _
    refine settles_accept he heT (by nofun) (fun us hus => ih (by omega)) ?_
    refine ((takesStatements he heT).statement (by omega)).bind fun s us hus => ?_
    exact (ih (by omega)).seq fun _ _ _ => takes_pure _

end Statements

end Reader

end LoopScript
