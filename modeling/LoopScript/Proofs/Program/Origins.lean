import LoopScript.Program.Parser
import LoopScript.Proofs.Program.Parts
import LoopScript.Proofs.Token.Coverage

/-!
Where expressions come from: a reader that succeeds has read a word and leaves the tokens behind it,
what the readers build stands at the places of the tokens they read, and its literals and operators are
those of the tokens. The arguments of a call come from tokens in their order.
-/

namespace LoopScript

namespace Reader

open Token (Kind)

variable {α β : Type} {t : Token} {ts us : List Token} {P : List Token → α → Prop}
  {Q : List Token → β → Prop} {x : Reader α}

/-- From some tokens a reader takes a word, if any, and what it gives is related to that word. -/
def Gives (ts : List Token) (P : List Token → α → Prop) (x : Reader α) : Prop :=
  ∀ a us, x ts = .ok (a, us) → ∃ w, ts = w ++ us ∧ P w a

theorem gives_pure {a : α} (h : P [] a) : Gives ts P (pure a) := by
  rintro _ _ ⟨⟩
  exact ⟨[], rfl, h⟩

theorem Gives.mono {P' : List Token → α → Prop} (hx : Gives ts P x) (h : ∀ w a, P w a → P' w a) :
    Gives ts P' x := by
  intro a us e
  obtain ⟨w, split, ha⟩ := hx a us e
  exact ⟨w, split, h w a ha⟩

theorem Gives.bind (hx : Gives ts P x) {f : α → Reader β}
    (hf : ∀ w us a, ts = w ++ us → P w a → Gives us (fun v b => Q (w ++ v) b) (f a)) :
    Gives ts Q (x >>= f) := by
  intro b vs h
  simp only [Bind.bind, StateT.bind, Except.bind] at h
  split at h
  next => cases h
  next v hv =>
    obtain ⟨w, split, ha⟩ := hx _ _ hv
    obtain ⟨w', split', hb⟩ := hf w v.2 v.1 split ha _ _ h
    exact ⟨w ++ w', by rw [split, split', List.append_assoc], hb⟩

theorem Gives.map (hx : Gives ts P x) {f : α → β} (hf : ∀ w a, P w a → Q w (f a)) :
    Gives ts Q (f <$> x) := by
  rw [← bind_pure_comp]
  exact hx.bind fun w _ a _ ha => gives_pure (by simpa using hf w a ha)

theorem gives_refuse (fault : ParseFault) (line : Nat) : Gives ts P (refuse fault line) := nofun

theorem gives_tooDeep : Gives ts P tooDeep := nofun

section Tokens

variable {y z : Reader β} {kind : Kind} {what : String}

theorem gives_peek {f : Token → Reader β} (h : ∀ t us, ts = t :: us → Gives ts Q (f t)) :
    Gives ts Q (peek >>= f) := by
  cases ts with
  | nil => exact nofun
  | cons t us => exact h t us rfl

theorem gives_peekKind {f : Kind → Reader β} (h : ∀ t us, ts = t :: us → Gives ts Q (f t.kind)) :
    Gives ts Q (peekKind >>= f) := by
  cases ts with
  | nil => exact nofun
  | cons t us => exact h t us rfl

/-- The kind behind the next one differs from it only if there is such a token. -/
theorem gives_peekSecond {f : Kind → Reader β}
    (h : ∀ t us k, ts = t :: us → (k ≠ t.kind → us ≠ []) → Gives ts Q (f k)) :
    Gives ts Q (peekSecond >>= f) := by
  match ts, h with
  | [], _ => exact nofun
  | [t], h => exact h t [] t.kind rfl fun ne => absurd rfl ne
  | t :: u :: us, h => exact h t (u :: us) u.kind rfl fun _ => List.cons_ne_nil u us

theorem gives_skip (h : Gives us (fun v b => Q (t :: v) b) y) :
    Gives (t :: us) Q (skip >>= fun _ => y) := by
  intro b vs e
  obtain ⟨v, rfl, hb⟩ := h b vs e
  exact ⟨t :: v, rfl, hb⟩

theorem gives_accept_bind {f : Bool → Reader β}
    (hy : ∀ t us, ts = t :: us → t.kind = kind → Gives us (fun v b => Q (t :: v) b) (f true))
    (hz : Gives ts Q (f false)) : Gives ts Q (accept kind >>= f) := by
  have taken : Gives ts (fun w b => if b = true then ∃ t, w = [t] ∧ t.kind = kind else w = [])
      (accept kind) := by
    refine gives_peekKind fun t us e => ?_
    split
    · next hk =>
      subst e
      exact gives_skip (gives_pure (if_pos rfl ▸ ⟨t, rfl, hk⟩))
    · exact gives_pure rfl
  refine taken.bind fun w us b split hw => ?_
  cases b with
  | true =>
    obtain ⟨t, rfl, hk⟩ := hw
    exact hy t us split hk
  | false =>
    obtain rfl := hw
    obtain rfl : ts = us := split
    exact hz

theorem gives_accept
    (hy : ∀ t us, ts = t :: us → t.kind = kind → Gives us (fun v b => Q (t :: v) b) y)
    (hz : Gives ts Q z) : Gives ts Q (accept kind >>= fun b => if b = true then y else z) :=
  gives_accept_bind hy hz

theorem gives_expect {f : Token → Reader β}
    (h : ∀ t us, ts = t :: us → t.kind = kind → Gives us (fun v b => Q (t :: v) b) (f t)) :
    Gives ts Q (expect kind what >>= f) := by
  have taken : Gives ts (fun w a => w = [a] ∧ a.kind = kind) (expect kind what) := by
    refine gives_peek fun t us e => ?_
    split
    · next hk =>
      subst e
      exact gives_skip (gives_pure ⟨rfl, hk⟩)
    · exact gives_refuse _ _
  refine taken.bind fun w us t split hw => ?_
  obtain ⟨rfl, hk⟩ := hw
  exact h t us split hk

theorem gives_ite_bind {c : Prop} [Decidable c] {x y : Reader α} {f : α → Reader β}
    (hx : Gives ts P x) (hy : Gives ts P y)
    (hf : ∀ w us a, ts = w ++ us → P w a → Gives us (fun v b => Q (w ++ v) b) (f a)) :
    Gives ts Q (if c then x >>= f else y >>= f) := by
  split
  · exact hx.bind hf
  · exact hy.bind hf

theorem gives_none {P : List Token → α → Prop} :
    Gives ts (fun w b => ∀ a ∈ b, P w a) (pure none : Reader (Option α)) :=
  gives_pure nofun

end Tokens

end Reader

open Token (spelled)

namespace Origin

variable (o : Origin) {t : Token} {v w : List Token}

/-- The places of the tokens that are spelled. -/
def trail (w : List Token) : List Location := (spelled w).map o.locate

@[simp] theorem trail_append : o.trail (v ++ w) = o.trail v ++ o.trail w := by
  simp [trail, spelled]

theorem trail_cons (ht : t.kind.isMark = false) : o.trail (t :: w) = o.locate t :: o.trail w := by
  rw [trail, Token.spelled_cons ht]
  rfl

theorem trail_sublist (h : v.Sublist w) : (o.trail v).Sublist (o.trail w) := (h.filter _).map _

theorem mem_trail (ht : t.kind.isMark = false) (h : t ∈ w) : o.locate t ∈ o.trail w :=
  List.mem_map_of_mem (List.mem_filter.mpr ⟨h, by rw [ht]; rfl⟩)

end Origin

/-- The kinds of the tokens that stand before an operand. -/
def Reader.signs : List Token.Kind := [sign .minus, sign .plus, sign .tilde, word .not_]

namespace Expr

variable {o : Origin} {v w : List Token} {e : Expr}

/-- An expression at the place of a token of a word. A literal other than a truth value or none is
that of a token, and an operator is the one that a token spells, unless the grammar leaves no choice.
The keywords of a call differ, and their values come from tokens behind those of the other
arguments. -/
def Stems (o : Origin) (w : List Token) (e : Expr) : Prop :=
  e.location ∈ o.trail w ∧ match e with
    | literal _ a => a ∈ [Atom.bool true, .bool false, .none] ∨ ∃ t ∈ w, a = t.literal
    | binary _ op _ _ => op = .pow ∨
      ∃ t ∈ w, ∃ level : Reader.Level, t.kind ∈ level.operators ∧ op = level.operator t
    | unary _ op _ => op = .not_ ∨ ∃ t ∈ w, t.kind ∈ Reader.signs ∧ op = .ofText t.lexeme
    | call _ _ args named => (named.map (·.1)).Nodup ∧ ∃ u v, (u ++ v).Sublist w ∧
      (∀ d ∈ args, d.Holds (·.location ∈ o.trail u)) ∧
      ∀ a ∈ named, a.2.Holds (·.location ∈ o.trail v)
    | _ => True

theorem Stems.mono (h : e.Stems o v) (hs : v.Sublist w) : e.Stems o w := by
  have place := (o.trail_sublist hs).subset h.1
  have mem {t : Token} : t ∈ v → t ∈ w := fun ht => hs.subset ht
  cases e with
  | literal | binary | unary =>
    exact ⟨place, h.2.imp_right fun ⟨t, ht, e⟩ => ⟨t, mem ht, e⟩⟩
  | call =>
    obtain ⟨names, a, b, split, arranged⟩ := h.2
    exact ⟨place, names, a, b, split.trans hs, arranged⟩
  | _ => exact ⟨place, trivial⟩

abbrev Origins (o : Origin) (w : List Token) (e : Expr) : Prop := e.Holds (·.Stems o w)

theorem Origins.mono (h : e.Origins o v) (hs : v.Sublist w) : e.Origins o w :=
  Holds.mono h fun _ hd => hd.mono hs

theorem Origins.places (h : e.Origins o w) : e.Holds (·.location ∈ o.trail w) :=
  Holds.mono h fun _ hd => hd.1

end Expr

namespace Reader

open Token (Kind)

section Expressions

variable (o : Origin) (n : Nat)

/-- The words of an expression: the first is no mark, and all that is inside comes from them. -/
def Phrase (w : List Token) (e : Expr) : Prop :=
  (∃ t v, w = t :: v ∧ t.kind.isMark = false) ∧ e.Origins o w

/-- The arguments of a call, after the keywords `seen`. -/
structure Arguments (seen : List String) (w : List Token) (a : List Expr × List (String × Expr)) :
    Prop where
  distinct : (a.2.map (·.1)).Nodup
  fresh : ∀ key ∈ a.2.map (·.1), key ∉ seen
  last : seen ≠ [] → a.1 = []
  split : ∃ u v, (u ++ v).Sublist w ∧ (∀ e ∈ a.1, e.Origins o u) ∧ ∀ b ∈ a.2, b.2.Origins o v

/-- What the readers of expressions give at a depth. -/
structure ReadsExpressions : Prop where
  expression (ts : List Token) : Gives ts (Phrase o) (expression o n)
  chain (ts : List Token) (level : Level) : Gives ts (Phrase o) (chain o n level)
  links (ts : List Token) (level : Level) {v : List Token} {left : Expr} (hl : left.Origins o v) :
    Gives ts (fun w e => e.Origins o (v ++ w)) (links o n level left)
  operand (ts : List Token) (level : Level) : Gives ts (Phrase o) (operand o n level)
  negation (ts : List Token) : Gives ts (Phrase o) (negation o n)
  power (ts : List Token) : Gives ts (Phrase o) (power o n)
  signed (ts : List Token) : Gives ts (Phrase o) (signed o n)
  postfixed (ts : List Token) {v : List Token} {base : Expr} (hb : base.Origins o v) :
    Gives ts (fun w e => e.Origins o (v ++ w)) (postfixed o n base)
  arguments (ts : List Token) (seen : List String) :
    Gives ts (Arguments o seen) (arguments o n seen)
  moreArguments (ts : List Token) (seen : List String) :
    Gives ts (Arguments o seen) (moreArguments o n seen)
  subscript (ts : List Token) {v : List Token} {loc : Location} (hl : loc ∈ o.trail v) {base : Expr}
    (hb : base.Origins o v) : Gives ts (fun w e => e.Origins o (v ++ w)) (subscript o n loc base)
  slice (ts : List Token) {v : List Token} {loc : Location} (hl : loc ∈ o.trail v) {base : Expr}
    (hb : base.Origins o v) {start : Option Expr} (hs : ∀ e ∈ start, e.Origins o v) :
    Gives ts (fun w e => e.Origins o (v ++ w)) (slice o n loc base start)
  atom (ts : List Token) : Gives ts (Phrase o) (atom o n)
  parenthesized (ts : List Token) {v : List Token} {loc : Location} (hl : loc ∈ o.trail v) :
    Gives ts (fun w e => e.Origins o (v ++ w)) (parenthesized o n loc)
  items (ts : List Token) (closer : Kind) :
    Gives ts (fun w es => ∀ e ∈ es, e.Origins o w) (items o n closer)
  bracketed (ts : List Token) {v : List Token} {loc : Location} (hl : loc ∈ o.trail v) :
    Gives ts (fun w e => e.Origins o (v ++ w)) (bracketed o n loc)
  dictEntries (ts : List Token) :
    Gives ts (fun w es => ∀ e ∈ es, e.1.Origins o w ∧ e.2.Origins o w) (dictEntries o n)

variable {o n} {ts : List Token}

theorem gives_names (what : String) (n : Nat) : Gives ts (fun _ _ => True) (names what n) := by
  induction n generalizing ts with
  | zero => exact gives_tooDeep
  | succ n ih =>
    refine gives_expect fun t us _ _ => gives_accept (fun _ _ _ _ => ?_) (gives_pure trivial)
    exact ih.bind fun _ _ _ _ _ => gives_pure trivial

theorem gives_parameters (seen : List String) (n : Nat) :
    Gives ts (fun _ ps => ps.Nodup ∧ ∀ p ∈ ps, p ∉ seen) (parameters seen n) := by
  induction n generalizing seen ts with
  | zero => exact gives_tooDeep
  | succ n ih =>
    refine gives_expect fun t us _ _ => ?_
    split
    · exact gives_refuse _ _
    · next new =>
      have single : [t.lexeme].Nodup ∧ ∀ p ∈ [t.lexeme], p ∉ seen :=
        ⟨List.nodup_singleton _, List.forall_mem_singleton.mpr new⟩
      refine gives_accept (fun _ us _ _ => gives_peekKind fun _ _ _ => ?_) (gives_pure single)
      split
      · exact gives_pure single
      · refine (ih _).bind fun _ _ ps _ hps => gives_pure ⟨?_, ?_⟩
        · exact List.nodup_cons.mpr ⟨fun h => hps.2 _ h List.mem_cons_self, hps.1⟩
        · refine List.forall_mem_cons.mpr ⟨new, fun p hp seen => ?_⟩
          exact hps.2 p hp (List.mem_cons_of_mem _ seen)

theorem Phrase.of_prefix {v w : List Token} {d e : Expr} (h : Phrase o v d)
    (he : e.Origins o (v ++ w)) : Phrase o (v ++ w) e := by
  obtain ⟨⟨t, u, rfl, ht⟩, -⟩ := h
  exact ⟨⟨t, u ++ w, rfl, ht⟩, he⟩

theorem isMark_operator {t : Token} {level : Level} (h : t.kind ∈ level.operators) :
    t.kind.isMark = false := by
  have plain : ∀ k ∈ level.operators, k.isMark = false := by cases level <;> decide
  exact plain _ h

theorem isMark_sign {t : Token} (h : t.kind ∈ signs) : t.kind.isMark = false := by
  have plain : ∀ k ∈ signs, k.isMark = false := by decide
  exact plain _ h

theorem Arguments.none {seen : List String} {w : List Token} : Arguments o seen w ([], []) where
  distinct := List.nodup_nil
  fresh := nofun
  last _ := rfl
  split := ⟨[], [], List.nil_sublist w, nofun, nofun⟩

theorem Arguments.origins {seen : List String} {w : List Token}
    {a : List Expr × List (String × Expr)} (h : Arguments o seen w a) :
    (∀ e ∈ a.1, e.Origins o w) ∧ ∀ b ∈ a.2, b.2.Origins o w := by
  obtain ⟨u, v, split, hu, hv⟩ := h.split
  have left := (List.sublist_append_left u v).trans split
  have right := (List.sublist_append_right u v).trans split
  exact ⟨fun e he => (hu e he).mono left, fun b hb => (hv b hb).mono right⟩

theorem Arguments.mono {seen : List String} {v w : List Token}
    {a : List Expr × List (String × Expr)} (h : Arguments o seen v a) (hs : v.Sublist w) :
    Arguments o seen w a := by
  obtain ⟨u, u', split, hu⟩ := h.split
  exact ⟨h.distinct, h.fresh, h.last, u, u', split.trans hs, hu⟩

variable (ih : ReadsExpressions o n)

include ih

theorem ReadsExpressions.optional (ts : List Token) :
    Gives ts (fun w b => ∀ e ∈ b, e.Origins o w) (some <$> LoopScript.Reader.expression o n) := by
  refine (ih.expression ts).map fun w e he => ?_
  rintro _ ⟨⟩
  exact he.2

theorem gives_expression : Gives ts (Phrase o) (expression o (n + 1)) := by
  refine gives_peek fun t us e => ?_
  split
  · next hk =>
    subst e
    have ht : t.kind.isMark = false := congrArg Token.Kind.isMark hk
    refine gives_skip (gives_peekKind fun _ _ _ => ?_)
    dsimp only
    refine gives_ite_bind (gives_pure trivial) (gives_names _ _) fun w us params _ _ => ?_
    refine gives_expect fun c us _ _ => (ih.chain us _).bind fun v us body _ hb => gives_pure ?_
    refine ⟨⟨t, _, rfl, ht⟩, .of_parts ⟨o.mem_trail ht List.mem_cons_self, trivial⟩ ?_⟩
    have inner := hb.2.mono (w := t :: (w ++ c :: (v ++ []))) (by grind)
    simpa [Expr.parts] using inner
  · exact ih.chain ts _

theorem gives_chain (level : Level) : Gives ts (Phrase o) (chain o (n + 1) level) :=
  (ih.operand ts level).bind fun _ us _ _ hl =>
    (ih.links us level hl.2).mono fun _ _ he => hl.of_prefix he

theorem gives_links (level : Level) {v : List Token} {left : Expr} (hl : left.Origins o v) :
    Gives ts (fun w e => e.Origins o (v ++ w)) (links o (n + 1) level left) := by
  refine gives_peek fun t us e => ?_
  split
  · next hk =>
    subst e
    refine gives_skip ((ih.operand us level).bind fun w us right _ hr => ?_)
    have joined : (Expr.binary (o.locate t) (level.operator t) left right).Origins o (v ++ t :: w) := by
      have ht : t ∈ v ++ t :: w := by simp
      refine .of_parts ⟨o.mem_trail (isMark_operator hk) ht, .inr ⟨t, ht, level, hk, rfl⟩⟩ ?_
      have left := hl.mono (w := v ++ t :: w) (by simp)
      have right := hr.2.mono (w := v ++ t :: w) (by grind)
      simpa [Expr.parts] using ⟨left, right⟩
    refine (ih.links us level joined).mono fun w' e he => ?_
    simpa using he
  · exact gives_pure (by simpa using hl)

theorem gives_operand (level : Level) : Gives ts (Phrase o) (operand o (n + 1) level) := by
  cases level with
  | disjunction | comparison | bitOr | bitXor | bitAnd | shift | sum => exact ih.chain ts _
  | conjunction => exact ih.negation ts
  | product => exact ih.power ts

theorem gives_negation : Gives ts (Phrase o) (negation o (n + 1)) := by
  refine gives_peek fun t us e => ?_
  split
  · next hk =>
    subst e
    have ht : t.kind.isMark = false := congrArg Token.Kind.isMark hk
    refine gives_skip ((ih.negation us).bind fun w us d _ hd => gives_pure ?_)
    refine ⟨⟨t, _, rfl, ht⟩, .of_parts ⟨o.mem_trail ht List.mem_cons_self, .inl rfl⟩ ?_⟩
    have inner := hd.2.mono (w := t :: (w ++ [])) (by grind)
    simpa [Expr.parts] using inner
  · exact ih.chain ts _

theorem gives_power : Gives ts (Phrase o) (power o (n + 1)) := by
  refine (ih.signed ts).bind fun v us base _ hb => gives_peek fun t us e => ?_
  split
  · next hk =>
    subst e
    have ht : t.kind.isMark = false := congrArg Token.Kind.isMark hk
    refine gives_skip ((ih.power us).bind fun w us e _ he => gives_pure (hb.of_prefix ?_))
    refine .of_parts ⟨o.mem_trail ht (by simp), .inl rfl⟩ ?_
    have left := hb.2.mono (w := v ++ t :: w) (by simp)
    have right := he.2.mono (w := v ++ t :: w) (by grind)
    simpa [Expr.parts] using ⟨left, right⟩
  · exact gives_pure (by simpa using hb)

theorem gives_signed : Gives ts (Phrase o) (signed o (n + 1)) := by
  refine gives_peek fun t us e => ?_
  split
  · next hk =>
    subst e
    have ht := isMark_sign hk
    refine gives_skip ((ih.signed us).bind fun w us d _ hd => gives_pure ?_)
    refine ⟨⟨t, _, rfl, ht⟩, .of_parts ?_ ?_⟩
    · exact ⟨o.mem_trail ht List.mem_cons_self, .inr ⟨t, List.mem_cons_self, hk, rfl⟩⟩
    · have inner := hd.2.mono (w := t :: (w ++ [])) (by grind)
      simpa [Expr.parts] using inner
  · exact (ih.atom ts).bind fun _ us _ _ hb =>
      (ih.postfixed us hb.2).mono fun _ _ he => hb.of_prefix he

theorem gives_postfixed {v : List Token} {base : Expr} (hb : base.Origins o v) :
    Gives ts (fun w e => e.Origins o (v ++ w)) (postfixed o (n + 1) base) := by
  refine gives_peek fun t us e => ?_
  split
  · next hk =>
    subst e
    have ht : t.kind.isMark = false := congrArg Token.Kind.isMark hk
    refine gives_skip ((ih.arguments us []).bind fun w us a _ ha => ?_)
    have called : (Expr.call (o.locate t) base a.1 a.2).Origins o (v ++ t :: w) := by
      have within : w.Sublist (v ++ t :: w) := by grind
      obtain ⟨u, u', split, hu, hu'⟩ := ha.split
      refine .of_parts ⟨o.mem_trail ht (by simp), ha.distinct, u, u', split.trans within, ?_, ?_⟩ ?_
      · exact fun d hd => (hu d hd).places
      · exact fun b hb => (hu' b hb).places
      · have base := hb.mono (w := v ++ t :: w) (by simp)
        have args := fun d hd => (ha.origins.1 d hd).mono within
        have named := fun b hb => (ha.origins.2 b hb).mono within
        simpa only [Expr.parts, List.forall_mem_cons, List.forall_mem_append, List.forall_mem_map]
          using ⟨base, args, named⟩
    exact (ih.postfixed us called).mono fun w' e he => by simpa using he
  split
  · next hk =>
    subst e
    have ht : t.kind.isMark = false := congrArg Token.Kind.isMark hk
    have base := hb.mono (w := v ++ [t]) (by simp)
    refine gives_skip ((ih.subscript us (o.mem_trail ht (by simp)) base).bind fun w us e _ he => ?_)
    exact (ih.postfixed us he).mono fun w' e he => by simpa using he
  split
  · next hk =>
    subst e
    have ht : t.kind.isMark = false := congrArg Token.Kind.isMark hk
    refine gives_skip (gives_expect fun name us _ _ => ?_)
    have member : (Expr.member (o.locate t) base name.lexeme).Origins o (v ++ [t, name]) := by
      refine .of_parts ⟨o.mem_trail ht (by simp), trivial⟩ ?_
      have base := hb.mono (w := v ++ [t, name]) (by simp)
      simpa [Expr.parts] using base
    exact (ih.postfixed us member).mono fun w' e he => by simpa using he
  · exact gives_pure (by simpa using hb)

theorem gives_arguments (seen : List String) :
    Gives ts (Arguments o seen) (arguments o (n + 1) seen) := by
  refine gives_peek fun t us e => ?_
  subst e
  split
  · exact gives_skip (gives_pure .none)
  refine gives_peekSecond fun t us k e hk => ?_
  cases e
  split
  · next keyed =>
    obtain ⟨u, vs, rfl⟩ := List.exists_cons_of_ne_nil (hk (by rw [keyed.1, keyed.2]; nofun))
    refine gives_skip (gives_skip ?_)
    split
    · exact gives_refuse _ _
    · next new =>
      refine (ih.expression vs).bind fun w us value _ hv => ?_
      refine (ih.moreArguments us _).bind fun w' us a _ ha => gives_pure ?_
      obtain ⟨x, y, split, hx, hy⟩ := ha.split
      have none : a.1 = [] := ha.last (List.cons_ne_nil _ _)
      refine ⟨?_, ?_, fun _ => none, [], w ++ y, ?_, by simp [none], ?_⟩
      · exact List.nodup_cons.mpr ⟨fun h => ha.fresh _ h List.mem_cons_self, ha.distinct⟩
      · refine List.forall_mem_cons.mpr ⟨new, fun key hkey hs => ?_⟩
        exact ha.fresh key hkey (List.mem_cons_of_mem _ hs)
      · have tail : y.Sublist w' := (List.sublist_append_right x y).trans split
        simpa using ((tail.append_left w).cons u).cons t
      · refine List.forall_mem_cons.mpr ⟨hv.2.mono (List.sublist_append_left w y), fun b hb => ?_⟩
        exact (hy b hb).mono (List.sublist_append_right w y)
  split
  · exact gives_refuse _ _
  · next free =>
    obtain rfl : seen = [] := not_not.mp free
    refine (ih.expression (t :: us)).bind fun w us value _ hv => ?_
    refine (ih.moreArguments us _).bind fun w' us a _ ha => gives_pure ?_
    obtain ⟨x, y, split, hx, hy⟩ := ha.split
    refine ⟨ha.distinct, nofun, fun h => absurd rfl h, w ++ x, y, ?_, ?_, hy⟩
    · simpa using split
    · refine List.forall_mem_cons.mpr ⟨hv.2.mono (List.sublist_append_left w x), fun e he => ?_⟩
      exact (hx e he).mono (List.sublist_append_right w x)

theorem gives_moreArguments (seen : List String) :
    Gives ts (Arguments o seen) (moreArguments o (n + 1) seen) := by
  refine gives_accept (fun _ us _ _ => ?_) (gives_expect fun _ _ _ _ => gives_pure .none)
  exact (ih.arguments us seen).mono fun w a ha => ha.mono (by simp)

theorem gives_subscript {v : List Token} {loc : Location} (hl : loc ∈ o.trail v) {base : Expr}
    (hb : base.Origins o v) :
    Gives ts (fun w e => e.Origins o (v ++ w)) (subscript o (n + 1) loc base) := by
  have place {w : List Token} : loc ∈ o.trail (v ++ w) := by simp [hl]
  have behind {w : List Token} : base.Origins o (v ++ w) := hb.mono (List.sublist_append_left v w)
  refine gives_accept (fun c us _ _ => ?_) ((ih.expression ts).bind fun w us start _ hs => ?_)
  · have none : ∀ e ∈ (none : Option Expr), e.Origins o (v ++ [c]) := nofun
    exact (ih.slice us place behind none).mono fun w e he => by simpa using he
  · refine gives_accept (fun c us _ _ => ?_) (gives_expect fun c us _ _ => gives_pure ?_)
    · have start : ∀ e ∈ some start, e.Origins o (v ++ (w ++ [c])) := by
        rintro _ ⟨⟩
        exact hs.2.mono (by grind)
      exact (ih.slice us place behind start).mono fun w e he => by simpa using he
    · refine .of_parts ⟨place, trivial⟩ ?_
      have start := hs.2.mono (w := v ++ (w ++ [c])) (by grind)
      exact List.forall_mem_cons.mpr ⟨behind, List.forall_mem_singleton.mpr start⟩

theorem gives_slice {v : List Token} {loc : Location} (hl : loc ∈ o.trail v) {base : Expr}
    (hb : base.Origins o v) {start : Option Expr} (hs : ∀ e ∈ start, e.Origins o v) :
    Gives ts (fun w e => e.Origins o (v ++ w)) (slice o (n + 1) loc base start) := by
  have place {w : List Token} : loc ∈ o.trail (v ++ w) := by simp [hl]
  refine gives_peekKind fun _ _ _ => ?_
  dsimp only
  refine gives_ite_bind gives_none (ih.optional ts) fun w us stop _ ht => ?_
  -- The step may be missing in two ways, so what follows it is settled first.
  have rest {x us : List Token} (step : Option Expr) (hp : ∀ e ∈ step, e.Origins o x) :
      Gives us (fun u e => e.Origins o (v ++ (w ++ (x ++ u)))) (do
        let _ ← expect (sign .rbracket) "']'"
        pure (Expr.slice loc base start stop step)) := by
    refine gives_expect fun c us _ _ => gives_pure (.of_parts ⟨place, trivial⟩ ?_)
    simp only [Expr.parts, List.forall_mem_cons, List.forall_mem_append, Option.mem_toList]
    have first : v.Sublist (v ++ (w ++ (x ++ [c]))) := List.sublist_append_left _ _
    have second : w.Sublist (v ++ (w ++ (x ++ [c]))) := by grind
    have third : x.Sublist (v ++ (w ++ (x ++ [c]))) := by grind
    exact ⟨hb.mono first, ⟨fun e he => (hs e he).mono first, fun e he => (ht e he).mono second⟩,
      fun e he => (hp e he).mono third⟩
  refine gives_accept_bind (fun c us _ _ => ?_) (rest (x := []) none (by simp))
  refine gives_peekKind fun _ _ _ => ?_
  refine gives_ite_bind gives_none (ih.optional us) fun x us step _ hp => ?_
  refine (rest (x := c :: x) step fun e he => (hp e he).mono (List.sublist_cons_self c x)).mono ?_
  exact fun u e he => by simpa using he

theorem gives_atom : Gives ts (Phrase o) (atom o (n + 1)) := by
  refine gives_peek fun t us e => ?_
  subst e
  dsimp only
  have start {w : List Token} {e : Expr} (ht : t.kind.isMark = false) (he : e.Origins o (t :: w)) :
      Phrase o (t :: w) e := ⟨⟨t, w, rfl, ht⟩, he⟩
  split
  case h_1 hk | h_2 hk | h_3 hk =>
    have ht : t.kind.isMark = false := congrArg Token.Kind.isMark hk
    refine gives_skip (gives_pure (start ht (.of_parts ⟨o.mem_trail ht List.mem_cons_self, ?_⟩ nofun)))
    simp
  case h_4 hk | h_5 hk =>
    have ht : t.kind.isMark = false := congrArg Token.Kind.isMark hk
    refine gives_skip (gives_pure (start ht (.of_parts ⟨o.mem_trail ht List.mem_cons_self, ?_⟩ nofun)))
    exact .inr ⟨t, List.mem_cons_self, rfl⟩
  case h_6 hk =>
    have ht : t.kind.isMark = false := congrArg Token.Kind.isMark hk
    refine gives_skip (gives_pure (start ht (.of_parts ⟨o.mem_trail ht List.mem_cons_self, ?_⟩ nofun)))
    trivial
  case h_7 hk =>
    have ht : t.kind.isMark = false := congrArg Token.Kind.isMark hk
    have hl := o.mem_trail ht (List.mem_singleton.mpr rfl)
    exact gives_skip ((ih.parenthesized us hl).mono fun w e he => start ht he)
  case h_8 hk =>
    have ht : t.kind.isMark = false := congrArg Token.Kind.isMark hk
    have hl := o.mem_trail ht (List.mem_singleton.mpr rfl)
    exact gives_skip ((ih.bracketed us hl).mono fun w e he => start ht he)
  case h_9 hk =>
    have ht : t.kind.isMark = false := congrArg Token.Kind.isMark hk
    refine gives_skip ((ih.dictEntries us).bind fun w us entries _ he => ?_)
    refine gives_expect fun c us _ _ => gives_pure (start ht ?_)
    refine .of_parts ⟨o.mem_trail ht List.mem_cons_self, trivial⟩ ?_
    have within : w.Sublist (t :: (w ++ [c])) := by grind
    simp only [Expr.parts, List.mem_flatMap, List.mem_cons, List.not_mem_nil, or_false]
    rintro f ⟨e, hm, rfl | rfl⟩
    · exact (he e hm).1.mono within
    · exact (he e hm).2.mono within
  case h_10 | h_11 => exact gives_refuse _ _

theorem gives_parenthesized {v : List Token} {loc : Location} (hl : loc ∈ o.trail v) :
    Gives ts (fun w e => e.Origins o (v ++ w)) (parenthesized o (n + 1) loc) := by
  have place {w : List Token} : loc ∈ o.trail (v ++ w) := by simp [hl]
  refine gives_accept (fun c us _ _ => gives_pure (.of_parts ⟨place, trivial⟩ (by simp [Expr.parts]))) ?_
  refine (ih.expression ts).bind fun w us first _ hf => ?_
  refine gives_accept (fun c us _ _ => ?_) (gives_expect fun c us _ _ => gives_pure ?_)
  · refine (ih.items us _).bind fun w' us es _ he => gives_expect fun d us _ _ => gives_pure ?_
    refine .of_parts ⟨place, trivial⟩ ?_
    refine List.forall_mem_cons.mpr ⟨hf.2.mono ?_, fun e hm => (he e hm).mono ?_⟩
    · grind
    · grind
  · exact hf.2.mono (by grind)

theorem gives_items (closer : Kind) :
    Gives ts (fun w es => ∀ e ∈ es, e.Origins o w) (items o (n + 1) closer) := by
  refine gives_peekKind fun _ _ _ => ?_
  split
  · exact gives_pure (List.forall_mem_nil _)
  · refine (ih.expression ts).bind fun w us e _ he => gives_accept (fun c us _ _ => ?_) ?_
    · refine (ih.items us closer).bind fun w' us es _ hes => gives_pure ?_
      refine List.forall_mem_cons.mpr ⟨he.2.mono (List.sublist_append_left _ _), fun e he => ?_⟩
      exact (hes e he).mono (by grind)
    · exact gives_pure (List.forall_mem_singleton.mpr (by simpa using he.2))

theorem gives_bracketed {v : List Token} {loc : Location} (hl : loc ∈ o.trail v) :
    Gives ts (fun w e => e.Origins o (v ++ w)) (bracketed o (n + 1) loc) := by
  have place {w : List Token} : loc ∈ o.trail (v ++ w) := by simp [hl]
  refine gives_accept (fun c us _ _ => gives_pure (.of_parts ⟨place, trivial⟩ (by simp [Expr.parts]))) ?_
  refine (ih.expression ts).bind fun w us first _ hf => ?_
  refine gives_accept (fun c us _ _ => ?_) ?_
  · refine gives_expect fun item us _ _ => gives_expect fun d us _ _ => ?_
    refine (ih.expression us).bind fun x us iterable _ hi => ?_
    have rest {y us : List Token} (condition : Option Expr) (hc : ∀ e ∈ condition, e.Origins o y) :
        Gives us (fun u e => e.Origins o (v ++ (w ++ c :: item :: d :: (x ++ (y ++ u))))) (do
          let _ ← expect (sign .rbracket) "']' after list comprehension"
          pure (Expr.comprehension loc first item.lexeme iterable condition)) := by
      refine gives_expect fun b us _ _ => gives_pure (.of_parts ⟨place, trivial⟩ ?_)
      simp only [Expr.parts, List.forall_mem_cons, Option.mem_toList]
      refine ⟨hf.2.mono ?_, hi.2.mono ?_, fun e he => (hc e he).mono ?_⟩
      · grind
      · grind
      · grind
    refine gives_accept_bind (fun i us _ _ => ?_) (rest (y := []) none (by simp))
    dsimp only [if_true]
    refine (ih.optional us).bind fun y us condition _ hc => ?_
    have behind (e : Expr) (he : e ∈ condition) := (hc e he).mono (List.sublist_cons_self i y)
    exact (rest (y := i :: y) condition behind).mono fun u e he => by simpa using he
  · have rest {y us : List Token} (es : List Expr) (he : ∀ e ∈ es, e.Origins o y) :
        Gives us (fun u e => e.Origins o (v ++ (w ++ (y ++ u)))) (do
          let _ ← expect (sign .rbracket) "']'"
          pure (Expr.list loc (first :: es))) := by
      refine gives_expect fun b us _ _ => gives_pure (.of_parts ⟨place, trivial⟩ ?_)
      refine List.forall_mem_cons.mpr ⟨hf.2.mono ?_, fun e hm => (he e hm).mono ?_⟩
      · grind
      · grind
    refine gives_accept_bind (fun c us _ _ => ?_) (rest (y := []) [] (by simp))
    dsimp only [if_true]
    refine (ih.items us _).bind fun y us es _ he => ?_
    refine (rest (y := c :: y) es fun e hm => (he e hm).mono (List.sublist_cons_self c y)).mono ?_
    exact fun u e he => by simpa using he

theorem gives_dictEntries :
    Gives ts (fun w es => ∀ e ∈ es, e.1.Origins o w ∧ e.2.Origins o w) (dictEntries o (n + 1)) := by
  refine gives_peekKind fun _ _ _ => ?_
  split
  · exact gives_pure (List.forall_mem_nil _)
  · refine (ih.expression ts).bind fun w us key _ hk => gives_expect fun c us _ _ => ?_
    refine (ih.expression us).bind fun w' us value _ hv => gives_accept (fun d us _ _ => ?_) ?_
    · refine (ih.dictEntries us).bind fun x us es _ hes => gives_pure ?_
      refine List.forall_mem_cons.mpr ⟨⟨hk.2.mono ?_, hv.2.mono ?_⟩, fun e he => ?_⟩
      · grind
      · grind
      · exact ⟨(hes e he).1.mono (by grind), (hes e he).2.mono (by grind)⟩
    · refine gives_pure (List.forall_mem_singleton.mpr ⟨hk.2.mono ?_, hv.2.mono ?_⟩)
      · grind
      · grind

omit ih

theorem readsExpressions : ReadsExpressions o n := by
  -- Each reader calls the others with a depth less, so one induction serves all of them.
  induction n with
  | zero => constructor <;> intros <;> exact gives_tooDeep
  | succ n ih =>
    exact ⟨fun _ => gives_expression ih, fun _ => gives_chain ih, fun _ => gives_links ih,
      fun _ => gives_operand ih, fun _ => gives_negation ih, fun _ => gives_power ih,
      fun _ => gives_signed ih, fun _ _ _ hb => gives_postfixed ih hb, fun _ => gives_arguments ih,
      fun _ => gives_moreArguments ih, fun _ _ _ hl _ hb => gives_subscript ih hl hb,
      fun _ _ _ hl _ hb _ hs => gives_slice ih hl hb hs, fun _ => gives_atom ih,
      fun _ _ _ hl => gives_parenthesized ih hl, fun _ => gives_items ih,
      fun _ _ _ hl => gives_bracketed ih hl, fun _ => gives_dictEntries ih⟩

end Expressions

end Reader

end LoopScript
