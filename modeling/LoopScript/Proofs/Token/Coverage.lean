import LoopScript.Proofs.Token.Places

/-!
The tokens of a text cover it: each stands where its lexeme does, in the order of the text, and
nothing but spaces, line feeds and comments is left between them.
-/

namespace LoopScript

namespace Source

/-- A text that ends where a line does, if it is not empty. -/
def EndsLine (cs : List Char) : Prop := cs = [] ∨ cs.getLast? = some '\n'

/-- What a text reads from a line and a column on. -/
def Reads (cs : List Char) (line column : Nat) (rest : List Char) : Prop :=
  ∃ above before, cs = above ++ (before ++ rest) ∧ EndsLine above ∧ '\n' ∉ before ∧
    line = above.count '\n' + 1 ∧ column = before.length + 1

structure IsComment (w : List Char) : Prop where
  opened : ['#'] <+: w ∨ ['/', '/'] <+: w
  line : '\n' ∉ w

/-- What may stand before a given rest of a text without giving tokens. A comment runs to the end
of its line. -/
inductive Filler : List Char → List Char → Prop where
  | nil {rest : List Char} : Filler [] rest
  | space {g rest : List Char} (h : Filler g rest) : Filler (' ' :: g) rest
  | newline {g rest : List Char} (h : Filler g rest) : Filler ('\n' :: g) rest
  | comment {w g rest : List Char} (hw : IsComment w) (stop : (g ++ rest).head? = some '\n')
      (h : Filler g rest) : Filler (w ++ g) rest

theorem EndsLine.rest {w rest : List Char} (h : EndsLine (w ++ rest)) : EndsLine rest := by
  rcases List.eq_nil_or_concat rest with rfl | ⟨us, c, rfl⟩
  · exact .inl rfl
  · right
    rcases h with h | h
    · simp at h
    · rw [List.concat_eq_append, ← List.append_assoc, List.getLast?_concat] at h
      rw [List.concat_eq_append, List.getLast?_concat, h]

theorem exists_line (cs : List Char) :
    ∃ above before, cs = above ++ before ∧ EndsLine above ∧ '\n' ∉ before := by
  induction cs using List.reverseRecOn with
  | nil => exact ⟨[], [], rfl, .inl rfl, List.not_mem_nil⟩
  | append_singleton cs c ih =>
    by_cases hc : c = '\n'
    · exact ⟨cs ++ [c], [], (List.append_nil _).symm, .inr (by rw [List.getLast?_concat, hc]),
        List.not_mem_nil⟩
    · obtain ⟨above, before, rfl, ends, line⟩ := ih
      refine ⟨above, before ++ [c], List.append_assoc .., ends, ?_⟩
      rw [List.mem_append, List.mem_singleton, not_or]
      exact ⟨line, fun h => hc h.symm⟩

end Source

namespace Token

open Source

/-- The kinds of tokens that no characters spell. -/
def Kind.isMark : Kind → Bool
  | .indent | .dedent | .eof => true
  | _ => false

/-- The tokens that characters of the text spell, line feeds among them. -/
def spelled (ts : List Token) : List Token := ts.filter (!·.kind.isMark)

def place (t : Token) : Position := ⟨t.line, t.column⟩

def stop (t : Token) : Position := t.place.after t.lexeme.toList

namespace Position

def Before (p q : Position) : Prop := p.line < q.line ∨ p.line = q.line ∧ p.column < q.column

instance (p q : Position) : Decidable (p.Before q) := inferInstanceAs (Decidable (_ ∨ _))

variable {p q r : Position} {cs : List Char}

theorem Before.trans (h : p.Before q) (h' : q.Before r) : p.Before r := by
  unfold Before at *
  omega

theorem Before.asymm (h : p.Before q) : ¬q.Before p := by
  unfold Before at *
  omega

theorem before_next (p : Position) (c : Char) : p.Before (p.next c) := by
  rw [next]
  split
  · exact .inl (Nat.lt_succ_self _)
  · exact .inr ⟨rfl, Nat.lt_succ_self _⟩

theorem after_append (p : Position) (us vs : List Char) :
    (p.after us).after vs = p.after (us ++ vs) := List.foldl_append.symm

theorem before_after (p : Position) (hcs : cs ≠ []) : p.Before (p.after cs) := by
  induction cs generalizing p with
  | nil => exact absurd rfl hcs
  | cons c cs ih =>
    change p.Before ((p.next c).after cs)
    by_cases empty : cs = []
    · rw [empty]
      exact p.before_next c
    · exact (p.before_next c).trans (ih _ empty)

theorem not_after_before (p : Position) (cs : List Char) : ¬(p.after cs).Before p := by
  by_cases empty : cs = []
  · rw [empty]
    exact fun h => h.asymm h
  · exact (p.before_after empty).asymm

theorem after_line_columns (p : Position) (hcs : '\n' ∉ cs) :
    p.after cs = ⟨p.line, p.column + cs.length⟩ := by
  induction cs generalizing p with
  | nil => rfl
  | cons c cs ih =>
    rw [List.mem_cons, not_or] at hcs
    change (p.next c).after cs = _
    rw [ih _ hcs.2, next, if_neg fun h => hcs.1 h.symm, List.length_cons, Nat.add_assoc,
      Nat.add_comm 1]

theorem after_lines (hcs : EndsLine cs) :
    Position.after ⟨1, 1⟩ cs = ⟨cs.count '\n' + 1, 1⟩ := by
  rcases List.eq_nil_or_concat cs with rfl | ⟨us, c, rfl⟩
  · rfl
  · have last : c = '\n' := by
      rcases hcs with h | h
      · simp at h
      · rw [List.concat_eq_append, List.getLast?_concat] at h
        exact Option.some.inj h
    subst last
    rw [List.concat_eq_append, ← after_append]
    change (Position.after ⟨1, 1⟩ us).next '\n' = _
    rw [next, if_pos rfl, after_line, List.count_append, Nat.add_comm 1]
    rfl

end Position

/-- Tokens that a text consists of, from a position on, with what is left between them. -/
inductive Covers : Position → List Char → List Token → Prop where
  | finish {p : Position} {g : List Char} (hg : Filler g []) : Covers p g []
  | token {p : Position} {g rest : List Char} {t : Token} {ts : List Token}
      (hg : Filler g (t.lexeme.toList ++ rest)) (hp : t.place = p.after g)
      (hl : t.lexeme.toList ≠ []) (h : Covers t.stop rest ts) :
      Covers p (g ++ (t.lexeme.toList ++ rest)) (t :: ts)

section Covers

variable {p : Position} {w cs rest : List Char} {ts : List Token} {t : Token}

theorem Covers.skip (hw : ∀ {g rest}, cs = g ++ rest → Filler g rest → Filler (w ++ g) rest)
    (h : Covers (p.after w) cs ts) : Covers p (w ++ cs) ts := by
  cases h with
  | finish hg => exact .finish (hw (List.append_nil _).symm hg)
  | token hg hp hl h =>
    rw [← List.append_assoc]
    exact .token (hw rfl hg) (hp.trans (p.after_append _ _)) hl h

theorem Covers.space (h : Covers (p.next ' ') cs ts) : Covers p (' ' :: cs) ts :=
  Covers.skip (w := [' ']) (fun _ => .space) h

theorem Covers.newline (h : Covers (p.next '\n') cs ts) : Covers p ('\n' :: cs) ts :=
  Covers.skip (w := ['\n']) (fun _ => .newline) h

theorem Covers.comment (hw : IsComment w) (stop : cs.head? = some '\n')
    (h : Covers (p.after w) cs ts) : Covers p (w ++ cs) ts :=
  Covers.skip (fun hcs => .comment hw (hcs ▸ stop)) h

theorem Covers.here {literal : Atom} {kind : Kind} (hw : w ≠ [])
    (h : Covers (p.after w) rest ts) :
    Covers p (w ++ rest) (⟨kind, String.ofList w, literal, p.line, p.column⟩ :: ts) := by
  let t : Token := ⟨kind, String.ofList w, literal, p.line, p.column⟩
  have lexeme : t.lexeme.toList = w := String.toList_ofList
  rw [← lexeme] at hw h
  have here : Covers p (t.lexeme.toList ++ rest) (t :: ts) :=
    Covers.token (g := []) .nil rfl hw h
  rwa [lexeme] at here

theorem Covers.exists_split (h : Covers p cs ts) (ht : t ∈ ts) :
    ∃ before rest, cs = before ++ (t.lexeme.toList ++ rest) ∧ t.place = p.after before := by
  induction h with
  | finish => exact absurd ht List.not_mem_nil
  | @token p g rest u us _ hp _ _ ih =>
    rcases List.mem_cons.mp ht with rfl | ht
    · exact ⟨g, rest, rfl, hp⟩
    · obtain ⟨before, tail, rfl, place⟩ := ih ht
      refine ⟨g ++ (u.lexeme.toList ++ before), tail, by simp, ?_⟩
      rw [place, stop, hp, Position.after_append, Position.after_append]

theorem Covers.pairwise (h : Covers p cs ts) :
    ts.Pairwise fun t u => t.place.Before u.place ∧ ¬u.place.Before t.stop := by
  induction h with
  | finish => exact .nil
  | @token p g rest t ts _ _ hl h ih =>
    refine List.pairwise_cons.mpr ⟨fun u hu => ?_, ih⟩
    obtain ⟨before, tail, -, place⟩ := h.exists_split hu
    rw [place]
    refine ⟨?_, Position.not_after_before _ _⟩
    rw [stop, Position.after_append]
    exact Position.before_after _ (List.append_ne_nil_of_left_ne_nil hl _)

theorem Covers.reads (h : Covers ⟨1, 1⟩ cs ts) (ht : t ∈ ts) :
    ∃ rest, Reads cs t.line t.column (t.lexeme.toList ++ rest) := by
  obtain ⟨before, rest, hcs, place⟩ := h.exists_split ht
  obtain ⟨above, line, rfl, ends, same⟩ := exists_line before
  rw [← Position.after_append, Position.after_lines ends, Position.after_line_columns _ same]
    at place
  refine ⟨rest, above, line, by rw [hcs, List.append_assoc], ends, same,
    congrArg Position.line place, ?_⟩
  rw [show t.column = 1 + line.length from congrArg Position.column place, Nat.add_comm]

end Covers

section Scan

variable {blocks : List Nat} {brackets : List Symbol} {fresh : Bool} {p : Position}
  {c : Char} {cs : List Char} {ts : List Token}

theorem spelled_marks {marks : List Token} (h : ∀ m ∈ marks, m.kind.isMark = true) :
    spelled (marks ++ ts) = spelled ts := by
  rw [spelled, List.filter_append, List.filter_eq_nil_iff.mpr fun m hm => by simp [h m hm]]
  rfl

theorem spelled_cons {t : Token} (h : t.kind.isMark = false) :
    spelled (t :: ts) = t :: spelled ts :=
  List.filter_cons_of_pos (by rw [h]; rfl)

theorem Kind.isMark_of_word {kind : Kind} (h : kind.isLayout = false) : kind.isMark = false := by
  cases kind <;> first | rfl | cases h

theorem line_of_comment (hn : c ≠ '\n') : '\n' ∉ c :: cs.takeWhile (· ≠ '\n') := by
  rintro (_ | ⟨_, h⟩)
  · exact hn rfl
  · have other := List.mem_takeWhile_imp (p := fun x => decide (x ≠ '\n')) h
    cases other

theorem isComment_of_start (hs : startsComment c cs = true) (hn : c ≠ '\n') :
    IsComment (c :: cs.takeWhile (· ≠ '\n')) := by
  refine ⟨?_, ?_⟩
  · rw [startsComment, Bool.or_eq_true, Bool.and_eq_true, beq_iff_eq, beq_iff_eq, beq_iff_eq] at hs
    rcases hs with rfl | ⟨rfl, slash⟩
    · exact .inl ⟨_, rfl⟩
    · obtain ⟨us, rfl⟩ := List.head?_eq_some_iff.mp slash
      refine .inr ⟨us.takeWhile (· ≠ '\n'), ?_⟩
      rw [List.takeWhile_cons_of_pos (by decide)]
      rfl
  · exact line_of_comment hn

theorem indentation_isMark {width : Nat} {marks : List Token} {after : List Nat}
    (h : indentation width blocks p = .ok (marks, after)) : ∀ m ∈ marks, m.kind.isMark = true := by
  rcases indentation_marks h with ⟨m, rfl, hm, -⟩ | ⟨hm, -⟩
  · rw [List.forall_mem_singleton, hm.kind]
    rfl
  · intro m mem
    rw [(hm m mem).kind]
    rfl

/-- A comment in a text whose lines are all ended stands before a line feed. -/
theorem head?_after_comment (hn : c ≠ '\n') (h : EndsLine (c :: cs)) :
    (cs.dropWhile (· ≠ '\n')).head? = some '\n' := by
  have last : (cs.dropWhile (· ≠ '\n')).getLast? = some '\n' := by
    refine getLast?_rest (w := c :: cs.takeWhile (· ≠ '\n')) ?_ ?_
    · rw [List.cons_append, List.takeWhile_append_dropWhile]
      exact h.resolve_left nofun
    · exact line_of_comment hn
  obtain ⟨d, us, hus⟩ : ∃ d us, cs.dropWhile (· ≠ '\n') = d :: us :=
    List.exists_cons_of_ne_nil fun empty => by rw [empty] at last; cases last
  have stop := List.head?_dropWhile_not (fun x => decide (x ≠ '\n')) cs
  rw [hus] at stop ⊢
  simpa using stop

theorem scanFrom_covers (he : EndsLine cs) (h : scanFrom blocks brackets fresh p cs = .ok ts) :
    Covers p cs (spelled ts) := by
  fun_induction scanFrom blocks brackets fresh p cs generalizing ts with
  | case1 blocks brackets fresh p =>
    unfold finish at h
    split at h
    · cases h
    · cases h
      rw [spelled_marks, spelled]
      · exact .finish .nil
      · intro m hm
        obtain ⟨_, -, rfl⟩ := List.mem_map.mp hm
        rfl
  | case2 blocks brackets fresh p cs ih => exact (ih (he.rest (w := [' '])) h).space
  | case3 blocks brackets fresh p cs _ _ ih => exact (ih (he.rest (w := ['\n'])) h).newline
  | case4 blocks brackets fresh p cs _ _ ih =>
    obtain ⟨us, hus, hts⟩ := ok_of_bind h
    cases hts
    rw [spelled_cons rfl]
    exact Covers.here (w := ['\n']) (List.cons_ne_nil _ _) (ih (he.rest (w := ['\n'])) hus)
  | case5 blocks brackets fresh p c cs _ newline comment skipped =>
    rename_i ih
    have parts : cs = skipped ++ cs.dropWhile (· ≠ '\n') :=
      List.takeWhile_append_dropWhile.symm
    have rest : cs.drop skipped.length = cs.dropWhile (· ≠ '\n') := by
      rw [← @List.drop_left _ skipped (cs.dropWhile (· ≠ '\n')), ← parts]
    have tail := he
    rw [parts, ← List.cons_append] at tail ⊢
    rw [rest] at ih h
    exact (ih tail.rest h).comment (isComment_of_start comment newline)
      (head?_after_comment newline he)
  | case6 => cases h
  | case7 blocks brackets p c cs _ _ _ marks after hm ih =>
    obtain ⟨us, hus, hts⟩ := ok_of_bind h
    cases hts
    rw [spelled_marks (indentation_isMark hm)]
    exact ih he hus
  | case8 => cases h
  | case9 => cases h
  | case10 blocks brackets fresh p c cs _ _ _ _ m hm after _ word =>
    rename_i ih
    obtain ⟨us, hus, hts⟩ := ok_of_bind h
    cases hts
    rw [spelled_cons (Kind.isMark_of_word (munch_kind hm))]
    have parts : c :: cs = word ++ cs.drop m.more := by
      rw [List.cons_append, List.take_append_drop]
    rw [parts] at he ⊢
    exact Covers.here (List.cons_ne_nil _ _) (ih he.rest hus)

end Scan

theorem exists_scan (text : String) (h : (scan text).toBool = true) :
    ∃ ts, scan text = .ok ts := by
  cases hs : scan text with
  | error e =>
    rw [hs] at h
    cases h
  | ok ts => exact ⟨ts, rfl⟩

/-- The tokens that are spelled by a text stand where their lexemes do, strictly in its order and
apart from each other, and what they leave of it is spaces, line feeds and comments. -/
theorem scan_covers {text : String} {ts : List Token} (h : scan text = .ok ts) :
    (∀ t ∈ spelled ts, ∃ rest, Source.Reads (Source.cleanList text.toList) t.line t.column
      (t.lexeme.toList ++ rest)) ∧
    (spelled ts).Pairwise (fun t u => t.place.Before u.place ∧ ¬u.place.Before t.stop) ∧
    Covers ⟨1, 1⟩ (Source.cleanList text.toList) (spelled ts) := by
  have covers := scanFrom_covers (.inr (Source.getLast?_cleanList text.toList)) h
  exact ⟨fun t ht => covers.reads ht, covers.pairwise, covers⟩

theorem scan_covers_commented :
    ∃ ts, scan "if x: # then\n        f(\n  y)" = .ok ts ∧
      Covers ⟨1, 1⟩ (Source.cleanList "if x: # then\n        f(\n  y)".toList) (spelled ts) := by
  obtain ⟨ts, h⟩ := exists_scan "if x: # then\n        f(\n  y)" (by cbv)
  exact ⟨ts, h, (scan_covers h).2.2⟩

example : (scan "if x: # then\n        f(\n  y)").map (fun ts => (spelled ts).map place) =
    .ok [⟨1, 1⟩, ⟨1, 4⟩, ⟨1, 5⟩, ⟨1, 13⟩, ⟨2, 9⟩, ⟨2, 10⟩, ⟨3, 3⟩, ⟨3, 4⟩, ⟨3, 5⟩] := by cbv

end Token

end LoopScript
