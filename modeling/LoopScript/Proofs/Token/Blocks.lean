import LoopScript.Proofs.Token.Coverage

/-!
The logical lines of a text and the blocks that they form. The widths of the open blocks are a
stack, of which a line pushes one or pops some, and whose top is the width of the line.
-/

namespace LoopScript

namespace Source

/-- What follows the first lines of a text, so many of them. -/
def fromLine : Nat → List Char → List Char
  | 0, cs => cs
  | _ + 1, [] => []
  | n + 1, c :: cs => if c = '\n' then fromLine n cs else fromLine (n + 1) cs

/-- The number of spaces at the head of a line; lines count from one. -/
def margin (cs : List Char) (line : Nat) : Nat :=
  ((fromLine (line - 1) cs).takeWhile (· == ' ')).length

theorem EndsLine.append {us vs : List Char} (hu : EndsLine us) (hv : EndsLine vs) :
    EndsLine (us ++ vs) := by
  rcases hv with rfl | hv
  · rwa [List.append_nil]
  · exact .inr (by rw [List.getLast?_append, hv]; rfl)

theorem fromLine_append {above : List Char} (h : EndsLine above) (rest : List Char) :
    fromLine (above.count '\n') (above ++ rest) = rest := by
  induction above with
  | nil => rw [List.count_nil, List.nil_append, fromLine]
  | cons c above ih =>
    have ih := ih (h.rest (w := [c]))
    rw [List.cons_append]
    by_cases hc : c = '\n'
    · rw [hc, List.count_cons_self, fromLine, if_pos rfl, ih]
    · obtain ⟨n, hn⟩ : ∃ n, above.count '\n' = n + 1 := by
        refine Nat.exists_eq_add_one.mpr (List.count_pos_iff.mpr ?_)
        have last := List.mem_of_getLast? (h.resolve_left nofun)
        exact (List.mem_cons.mp last).resolve_left fun h => hc h.symm
      rw [List.count_cons_of_ne hc, hn, fromLine, if_neg hc, ← hn, ih]

theorem margin_append {above rest : List Char} {c : Char} (h : EndsLine above) (hc : c ≠ ' ')
    (n : Nat) : margin (above ++ (List.replicate n ' ' ++ c :: rest)) (above.count '\n' + 1) = n := by
  rw [margin, Nat.add_sub_cancel, fromLine_append h, Token.takeWhile_stop, List.length_replicate]
  · intro d hd
    rw [List.eq_of_mem_replicate hd]
    rfl
  · simpa using hc

/-- Before a word, what is left of a line is spaces. -/
theorem Filler.margin {g rest : List Char} (h : Filler g rest) (hr : rest.head? ≠ some '\n') :
    ∃ above n, g = above ++ List.replicate n ' ' ∧ EndsLine above := by
  have below {w above : List Char} (h : EndsLine above) (hne : above ≠ []) :
      EndsLine (w ++ above) := .inr (by rw [List.getLast?_append, h.resolve_left hne]; rfl)
  induction h with
  | nil => exact ⟨[], 0, rfl, .inl rfl⟩
  | space _ ih =>
    obtain ⟨above, n, rfl, ends⟩ := ih hr
    by_cases empty : above = []
    · exact ⟨[], n + 1, by rw [empty]; rfl, .inl rfl⟩
    · exact ⟨' ' :: above, n, rfl, below (w := [' ']) ends empty⟩
  | newline _ ih =>
    obtain ⟨above, n, rfl, ends⟩ := ih hr
    exact ⟨'\n' :: above, n, rfl, (show EndsLine ['\n'] from .inr rfl).append ends⟩
  | @comment w g rest _ stop _ ih =>
    obtain ⟨above, n, rfl, ends⟩ := ih hr
    refine ⟨w ++ above, n, (List.append_assoc ..).symm, below ends ?_⟩
    -- the line feed behind the comment is no space and not the rest's, so a line ends above
    rintro rfl
    cases n with
    | zero => exact hr stop
    | succ n => cases stop

end Source

namespace Token

open Source

section Brackets

def Kind.isBracket : Kind → Bool
  | .symbol s => s.isOpener || s.opener?.isSome
  | _ => false

/-- Every bracket that opens is closed by its own one, after those that open inside it. -/
inductive Nested : List Kind → Prop where
  | nil : Nested []
  | other {k : Kind} {ks : List Kind} (hk : k.isBracket = false) (h : Nested ks) : Nested (k :: ks)
  | pair {s closer : Symbol} {inner rest : List Kind} (hs : closer.opener? = some s)
      (hi : Nested inner) (hr : Nested rest) :
      Nested (.symbol s :: (inner ++ .symbol closer :: rest))

/-- What closes the open brackets, innermost first. -/
inductive Closes : List Symbol → List Kind → Prop where
  | nil {ks : List Kind} (h : Nested ks) : Closes [] ks
  | cons {s closer : Symbol} {ss : List Symbol} {inner rest : List Kind}
      (hs : closer.opener? = some s) (hi : Nested inner) (hr : Closes ss rest) :
      Closes (s :: ss) (inner ++ .symbol closer :: rest)

variable {brackets after : List Symbol} {k : Kind} {ks : List Kind}

theorem Closes.other (hk : k.isBracket = false) (h : Closes brackets ks) :
    Closes brackets (k :: ks) := by
  cases h with
  | nil h => exact .nil (.other hk h)
  | cons hs hi hr => exact .cons hs (.other hk hi) hr

theorem Closes.opened {s : Symbol} (h : Closes (s :: brackets) ks) :
    Closes brackets (.symbol s :: ks) := by
  obtain _ | @⟨_, closer, _, inner, rest, hs, hi, hr⟩ := h
  cases hr with
  | nil hr => exact .nil (.pair hs hi hr)
  | @cons outer closer' ss inner' rest' hs' hi' hr' =>
    have whole := Closes.cons hs' (.pair hs hi hi') hr'
    rwa [List.cons_append, List.append_assoc, List.cons_append] at whole

theorem Closes.track (hb : track brackets k = .ok after) (h : Closes after ks) :
    Closes brackets (k :: ks) := by
  rw [Token.track.eq_def] at hb
  split at hb
  · next s =>
    split at hb
    · cases hb
      exact h.opened
    · next opener =>
      split at hb
      · next plain =>
        cases hb
        refine h.other ?_
        rw [Kind.isBracket, plain, Bool.eq_false_iff.mpr opener]
        rfl
      · next o b bs closer =>
        split at hb
        · next same =>
          cases hb
          exact .cons (same ▸ closer) (.nil : Nested []) h
        · cases hb
      · cases hb
  · next plain =>
    cases hb
    refine h.other ?_
    cases k with
    | symbol s => exact absurd rfl (plain s)
    | _ => rfl

end Brackets

/-- A logical line: what it says of its block, its words, and its end. -/
structure Line where
  marks : List Token
  first : Token
  more : List Token
  stop : Token

namespace Line

def words (l : Line) : List Token := l.first :: l.more

def tokens (l : Line) : List Token := l.marks ++ (l.words ++ [l.stop])

/-- The spaces before the first word of a line. -/
def width (cs : List Char) (l : Line) : Nat := margin cs l.first.line

/-- A line opens one block or leaves some or does neither, and no layout and no bracket of another
line is among its words. -/
structure Formed (l : Line) : Prop where
  marks : (∃ m, l.marks = [m] ∧ m.kind = .indent) ∨ ∀ m ∈ l.marks, m.kind = .dedent
  words : ∀ t ∈ l.words, t.kind.isLayout = false
  nested : Nested (l.words.map (·.kind))
  stop : l.stop.kind = .newline

/-- The widths of the open blocks before a line and in it. -/
inductive Shifts (l : Line) : List Nat → List Nat → Prop where
  | indent {blocks : List Nat} {m : Token} (hm : l.marks = [m]) (hk : m.kind = .indent)
      (wider : blocks.headD 0 < l.first.column - 1) (four : 4 ∣ l.first.column - 1) :
      Shifts l blocks ((l.first.column - 1) :: blocks)
  | dedent {left rest : List Nat} (hm : ∀ m ∈ l.marks, m.kind = .dedent)
      (count : l.marks.length = left.length) (same : rest.headD 0 = l.first.column - 1) :
      Shifts l (left ++ rest) rest

end Line

/-- Tokens as logical lines with the widths of the blocks that are open in each, from the open
blocks before them on. -/
inductive Tiled : List Nat → List Line → List (List Nat) → List Token → Prop where
  | finish {blocks : List Nat} {closers : List Token} {e : Token}
      (hc : ∀ t ∈ closers, t.kind = .dedent) (he : e.kind = .eof) :
      Tiled blocks [] [] (closers ++ [e])
  | line {blocks after : List Nat} {l : Line} {ls : List Line} {nests : List (List Nat)}
      {ts : List Token} (hl : l.Formed) (hs : l.Shifts blocks after)
      (h : Tiled after ls nests ts) : Tiled blocks (l :: ls) (after :: nests) (l.tokens ++ ts)

section Scan

variable {blocks : List Nat} {brackets : List Symbol} {fresh : Bool} {p q : Position}
  {c : Char} {cs : List Char} {ts : List Token}

theorem leave_split (width : Nat) (blocks : List Nat) :
    ∃ left, blocks = left ++ (leave width blocks).2 ∧ left.length = (leave width blocks).1 := by
  induction blocks with
  | nil => exact ⟨[], rfl, rfl⟩
  | cons w ws ih =>
    obtain ⟨left, hws, length⟩ := ih
    rw [leave]
    split
    · exact ⟨w :: left, by rw [List.cons_append, ← hws], by rw [List.length_cons, length]⟩
    · exact ⟨[], rfl, rfl⟩

theorem indentation_shifts {l : Line} {after : List Nat}
    (h : indentation (l.first.column - 1) blocks q = .ok (l.marks, after)) :
    l.Shifts blocks after := by
  rw [indentation] at h
  split at h
  · next wider =>
    split at h
    · next four =>
      injection h with h
      obtain ⟨hm, rfl⟩ := Prod.mk.inj h
      exact .indent hm.symm rfl wider (Nat.dvd_of_mod_eq_zero four)
    · cases h
  · dsimp only at h
    split at h
    · next same =>
      injection h with h
      obtain ⟨hm, rfl⟩ := Prod.mk.inj h
      obtain ⟨left, split, length⟩ := leave_split (l.first.column - 1) blocks
      have marks : ∀ m ∈ l.marks, m.kind = .dedent := by
        intro m mem
        rw [← hm] at mem
        rw [List.eq_of_mem_replicate mem]
        rfl
      have shifts : l.Shifts (left ++ (leave (l.first.column - 1) blocks).2) _ :=
        .dedent marks (by rw [← hm, List.length_replicate, length]) same
      rwa [← split] at shifts
    · cases h

/-- What a scan gives at the start of a line, and what it gives inside one: the rest of the line
and the lines after it. -/
def Tiles (blocks : List Nat) (brackets : List Symbol) : Bool → List Token → Prop
  | true, ts => ∃ lines nests, Tiled blocks lines nests ts
  | false, ts => ∃ words n rest lines nests, ts = words ++ n :: rest ∧
      (∀ t ∈ words, t.kind.isLayout = false) ∧ Closes brackets (words.map (·.kind)) ∧
      n.kind = .newline ∧ Tiled blocks lines nests rest

theorem scanFrom_tiles (hf : fresh = true → brackets = []) (he : Ended brackets fresh cs)
    (h : scanFrom blocks brackets fresh p cs = .ok ts) : Tiles blocks brackets fresh ts := by
  fun_induction scanFrom blocks brackets fresh p cs generalizing ts with
  | case1 blocks brackets fresh p =>
    unfold finish at h
    split at h
    · cases h
    · cases h
      obtain rfl : fresh = true := (he.resolve_left (by simp)).2.resolve_right (· rfl)
      refine ⟨[], [], .finish (fun m hm => ?_) rfl⟩
      obtain ⟨_, -, rfl⟩ := List.mem_map.mp hm
      rfl
  | case2 blocks brackets fresh p cs ih => exact ih hf (he.rest (w := []) (by decide) _ _) h
  | case3 blocks brackets fresh p cs open_ _ ih =>
    refine ih hf (he.line ?_) h
    rcases Bool.or_eq_true_iff.mp open_ with hb | hb
    · exact .inl hb
    · exact .inr (by rintro rfl; cases hb)
  | case4 blocks brackets fresh p cs closed _ ih =>
    obtain ⟨us, hus, hts⟩ := ok_of_bind h
    cases hts
    rw [Bool.or_eq_true, not_or, Bool.not_eq_true, Bool.not_eq_true, Bool.not_eq_false',
      List.isEmpty_iff] at closed
    obtain ⟨rfl, rfl⟩ := closed
    obtain ⟨lines, nests, tiled⟩ := ih (fun _ => rfl) (he.line (.inl rfl)) hus
    exact ⟨[], _, us, lines, nests, rfl, by simp, .nil .nil, rfl, tiled⟩
  | case5 blocks brackets fresh p c cs _ newline _ skipped =>
    rename_i ih
    have parts : cs = skipped ++ cs.drop skipped.length :=
      (List.prefix_iff_eq_append.mp (List.takeWhile_prefix _)).symm
    rw [parts] at he
    exact ih hf (he.rest (line_of_comment newline) _ _) h
  | case6 => cases h
  | case7 blocks brackets p c cs space newline comment marks after hm ih =>
    obtain ⟨us, hus, hts⟩ := ok_of_bind h
    cases hts
    obtain rfl := hf rfl
    obtain ⟨words, n, rest, lines, nests, rfl, plain, closes, hn, tiled⟩ :=
      ih (by simp) (he.elim .inl (by simp)) hus
    obtain ⟨t, vs, head, ht, column⟩ :=
      scanFrom_head space newline (Bool.eq_false_iff.mpr comment) hus
    cases words with
    | nil =>
      obtain ⟨rfl, -⟩ := List.cons.inj head
      rw [hn] at ht
      cases ht
    | cons w words =>
      obtain ⟨rfl, -⟩ := List.cons.inj head
      let l : Line := ⟨marks, w, words, n⟩
      have opens : (∃ m, marks = [m] ∧ m.kind = .indent) ∨ ∀ m ∈ marks, m.kind = .dedent := by
        rcases indentation_marks hm with ⟨m, one, mark, -⟩ | ⟨ends, -⟩
        · exact .inl ⟨m, one, mark.kind⟩
        · exact .inr fun m mem => (ends m mem).kind
      have nested : Nested (l.words.map (·.kind)) := by
        cases closes with
        | nil nested => exact nested
      have formed : l.Formed := ⟨opens, plain, nested, hn⟩
      have shifts : l.Shifts blocks after := indentation_shifts (by
        rwa [show l.first = w from rfl, column])
      have whole := Tiled.line formed shifts tiled
      rw [Line.tokens, List.append_assoc, List.append_assoc] at whole
      exact ⟨_, _, whole⟩
  | case8 => cases h
  | case9 => cases h
  | case10 blocks brackets fresh p c cs space newline comment stale m hm after hb word =>
    rename_i ih
    obtain ⟨us, hus, hts⟩ := ok_of_bind h
    cases hts
    obtain rfl := Bool.eq_false_iff.mpr stale
    obtain ⟨w, rest, rfl, length, line, -⟩ := munch_split hm
    have line : '\n' ∉ c :: w := fun h => (List.mem_cons.mp h).elim (fun h => newline h.symm) line
    obtain ⟨words, n, rest, lines, nests, rfl, plain, closes, hn, tiled⟩ := ih (by simp) (by
      rw [← length, List.drop_left]
      exact he.rest line _ _) hus
    exact ⟨_ :: words, n, rest, lines, nests, rfl,
      List.forall_mem_cons.mpr ⟨munch_kind hm, plain⟩, closes.track hb, hn, tiled⟩

end Scan

section Depth

/-- No prefix leaves more blocks than it opens, apart from those that are open before. -/
def Sinks (depth : Nat) (ks : List Kind) : Prop :=
  ∀ us, us <+: ks → us.count .dedent ≤ depth + us.count .indent

variable {depth : Nat} {k : Kind} {ks : List Kind}

theorem Sinks.nil : Sinks depth [] := by
  intro us hus
  rw [List.prefix_nil.mp hus]
  exact Nat.zero_le _

theorem Sinks.cons (h : ∀ us, us <+: ks →
    (k :: us).count .dedent ≤ depth + (k :: us).count .indent) : Sinks depth (k :: ks) := by
  intro us hus
  rcases List.prefix_cons_iff.mp hus with rfl | ⟨vs, rfl, hvs⟩
  · exact Nat.zero_le _
  · exact h vs hvs

theorem Sinks.indent (h : Sinks (depth + 1) ks) : Sinks depth (.indent :: ks) :=
  .cons fun us hus => by
    have fits := h us hus
    rw [List.count_cons_self, List.count_cons_of_ne (by decide)]
    omega

theorem Sinks.other (hi : k ≠ .indent) (hd : k ≠ .dedent) (h : Sinks depth ks) :
    Sinks depth (k :: ks) :=
  .cons fun us hus => by
    rw [List.count_cons_of_ne hi, List.count_cons_of_ne hd]
    exact h us hus

theorem Sinks.dedents {ms : List Token} (hms : ∀ m ∈ ms, m.kind = .dedent) (h : Sinks depth ks) :
    Sinks (depth + ms.length) (ms.map (·.kind) ++ ks) := by
  induction ms with
  | nil => exact h
  | cons m ms ih =>
    rw [List.map_cons, List.cons_append, hms m List.mem_cons_self]
    refine .cons fun us hus => ?_
    have fits := ih (fun m hm => hms m (List.mem_cons_of_mem _ hm)) us hus
    rw [List.count_cons_self, List.count_cons_of_ne (by decide), List.length_cons]
    omega

theorem count_dedents {ms : List Token} (hms : ∀ m ∈ ms, m.kind = .dedent) :
    (ms.map (·.kind)).count .dedent = ms.length ∧ (ms.map (·.kind)).count .indent = 0 := by
  have same : ms.map (·.kind) = List.replicate ms.length .dedent :=
    List.map_eq_replicate_iff.mpr hms
  rw [same, List.count_replicate_self, List.count_replicate, if_neg (by decide)]
  exact ⟨rfl, rfl⟩

/-- The marks of a text leave every block that they open, and leave none before. -/
theorem Laid.balance {brackets : List Symbol} {fresh : Bool} {ts : List Token}
    (h : Laid depth brackets fresh ts) : Sinks depth (ts.map (·.kind)) ∧
      (ts.map (·.kind)).count .dedent = depth + (ts.map (·.kind)).count .indent := by
  have step {depth : Nat} {k : Kind} {ks : List Kind} (hk : k.isMark = false ∨ k = .eof)
      (h : Sinks depth ks ∧ ks.count .dedent = depth + ks.count .indent) :
      Sinks depth (k :: ks) ∧ (k :: ks).count .dedent = depth + (k :: ks).count .indent := by
    have hi : k ≠ .indent := by rintro rfl; exact hk.elim nofun nofun
    have hd : k ≠ .dedent := by rintro rfl; exact hk.elim nofun nofun
    rw [List.count_cons_of_ne hi, List.count_cons_of_ne hd]
    exact ⟨h.1.other hi hd, h.2⟩
  have leave (ts : List Token) {depth : Nat} {ms : List Token} (hms : ∀ m ∈ ms, m.IsMark .dedent)
      (h : Sinks depth (ts.map (·.kind)) ∧
        (ts.map (·.kind)).count .dedent = depth + (ts.map (·.kind)).count .indent) :
      Sinks (depth + ms.length) ((ms ++ ts).map (·.kind)) ∧ ((ms ++ ts).map (·.kind)).count .dedent =
        depth + ms.length + ((ms ++ ts).map (·.kind)).count .indent := by
    obtain ⟨dedents, none⟩ := count_dedents fun m hm => (hms m hm).kind
    rw [List.map_append, List.count_append, List.count_append, dedents, none, h.2]
    exact ⟨h.1.dedents fun m hm => (hms m hm).kind, by omega⟩
  induction h with
  | @finish ms t hms ht =>
    have whole := leave [t] hms (step (.inr ht.kind) ⟨.nil, rfl⟩)
    rwa [Nat.zero_add] at whole
  | indent hm _ _ ih =>
    rw [List.map_cons, hm.kind, List.count_cons_self, List.count_cons_of_ne (by decide)]
    exact ⟨ih.1.indent, by omega⟩
  | dedent hms _ _ ih => exact leave _ hms ih
  | newline ht _ ih => exact step (.inl (congrArg Kind.isMark ht.kind)) ih
  | word ht _ _ ih => exact step (.inl (Kind.isMark_of_word ht.kind_isLayout)) ih

end Depth

section Nests

/-- Widths of blocks inside each other, innermost first. -/
inductive Climbs : List Nat → Prop where
  | nil : Climbs []
  | cons {w : Nat} {ws : List Nat} (wider : ws.headD 0 < w) (four : 4 ∣ w) (h : Climbs ws) :
      Climbs (w :: ws)

/-- Stacks of which the one extends the other. -/
def Adjacent (as bs : List Nat) : Prop := as <:+ bs ∨ bs <:+ as

variable {as bs ws left : List Nat} {blocks after : List Nat} {l : Line} {lines : List Line}
  {nests : List (List Nat)} {ts : List Token}

theorem Climbs.of_append (h : Climbs (left ++ ws)) : Climbs ws := by
  induction left with
  | nil => exact h
  | cons w left ih =>
    cases h with
    | cons _ _ h => exact ih h

theorem Climbs.inside (h : Climbs (left ++ ws)) (hl : left ≠ []) :
    ws.headD 0 < (left ++ ws).headD 0 ∧ 4 ∣ (left ++ ws).headD 0 := by
  induction left with
  | nil => exact absurd rfl hl
  | cons w left ih =>
    cases h with
    | cons wider four h =>
      refine ⟨?_, four⟩
      by_cases empty : left = []
      · rw [empty] at wider
        exact wider
      · exact (ih h empty).1.trans wider

theorem Adjacent.suffix (h : Adjacent as bs) (hs : ws <:+ as) (length : ws.length ≤ bs.length) :
    ws <:+ bs := by
  rcases h with h | h
  · exact hs.trans h
  · exact List.suffix_of_suffix_length_le hs h length

/-- A stack lies under every other one that is reached by pushes and pops without going below it. -/
theorem suffix_along {f : Nat → List Nat} (step : ∀ k, Adjacent (f k) (f (k + 1))) {i j : Nat}
    (h : ∀ k, min i j ≤ k → k ≤ max i j → (f i).length ≤ (f k).length) : f i <:+ f j := by
  rcases Nat.le_total i j with order | order
  · rw [Nat.min_eq_left order, Nat.max_eq_right order] at h
    induction j, order using Nat.le_induction with
    | base => exact List.suffix_refl _
    | succ j hij ih =>
      refine (step j).suffix (ih fun k hk hkj => h k hk (hkj.trans (Nat.le_succ j))) ?_
      exact h _ (hij.trans (Nat.le_succ j)) (Nat.le_refl _)
  · rw [Nat.min_eq_right order, Nat.max_eq_left order] at h
    induction order using Nat.decreasingInduction with
    | self => exact List.suffix_refl _
    | of_succ j hji ih =>
      refine Adjacent.suffix (step j).symm (ih fun k hk => h k ((Nat.le_succ j).trans hk)) ?_
      exact h j (Nat.le_refl _) hji.le

theorem Line.Shifts.adjacent (h : l.Shifts blocks after) : Adjacent blocks after := by
  cases h with
  | indent => exact .inl (List.suffix_cons _ _)
  | dedent => exact .inr (List.suffix_append _ _)

theorem Line.Shifts.climbs (h : l.Shifts blocks after) (hc : Climbs blocks) : Climbs after := by
  cases h with
  | indent _ _ wider four => exact .cons wider four hc
  | dedent => exact hc.of_append

theorem Line.Shifts.headD (h : l.Shifts blocks after) : after.headD 0 = l.first.column - 1 := by
  cases h with
  | indent => rfl
  | dedent _ _ same => exact same

theorem Line.Shifts.length (h : l.Shifts blocks after) :
    blocks.length + (l.marks.map (·.kind)).count .indent =
      after.length + (l.marks.map (·.kind)).count .dedent := by
  cases h with
  | indent hm hk =>
    rw [hm, List.map_singleton, hk, List.length_cons]
    rfl
  | dedent hm count =>
    obtain ⟨dedents, none⟩ := count_dedents hm
    rw [dedents, none, count, List.length_append, Nat.add_zero, Nat.add_comm]

/-- The number of blocks that are open in a line of a list. -/
def openBlocks (lines : List Line) (i : Nat) : Nat :=
  let kinds := ((lines.take (i + 1)).flatMap Line.marks).map (·.kind)
  kinds.count .indent - kinds.count .dedent

/-- One line is in the block of another, or in a block inside that. -/
def Shares (lines : List Line) (i j : Nat) : Prop :=
  ∀ k, min i j ≤ k → k ≤ max i j → openBlocks lines i ≤ openBlocks lines k

namespace Tiled

theorem split (h : Tiled blocks lines nests ts) :
    ∃ closers e, ts = lines.flatMap Line.tokens ++ (closers ++ [e]) ∧
      (∀ t ∈ closers, t.kind = .dedent) ∧ e.kind = .eof := by
  induction h with
  | finish hc he => exact ⟨_, _, rfl, hc, he⟩
  | line hl hs h ih =>
    obtain ⟨closers, e, rfl, hc, he⟩ := ih
    exact ⟨closers, e, by rw [List.flatMap_cons, List.append_assoc], hc, he⟩

theorem formed (h : Tiled blocks lines nests ts) : ∀ l ∈ lines, l.Formed := by
  induction h with
  | finish => exact List.forall_mem_nil _
  | line hl _ _ ih => exact List.forall_mem_cons.mpr ⟨hl, ih⟩

theorem adjacent (h : Tiled blocks lines nests ts) (k : Nat) :
    Adjacent ((blocks :: nests).getD k []) (nests.getD k []) := by
  induction h generalizing k with
  | finish => exact .inr List.nil_suffix
  | line _ hs _ ih =>
    cases k with
    | zero => exact hs.adjacent
    | succ k => exact ih k

theorem nest (h : Tiled blocks lines nests ts) (hc : Climbs blocks) {k : Nat}
    (hk : k < lines.length) : Climbs (nests.getD k []) ∧
      (nests.getD k []).headD 0 = lines[k].first.column - 1 := by
  induction h generalizing k with
  | finish => exact absurd hk (Nat.not_lt_zero k)
  | line _ hs _ ih =>
    cases k with
    | zero => exact ⟨hs.climbs hc, hs.headD⟩
    | succ k => exact ih (hs.climbs hc) (Nat.lt_of_succ_lt_succ hk)

theorem count_marks (h : Tiled blocks lines nests ts) {k : Nat} (hk : k < lines.length) :
    blocks.length + (((lines.take (k + 1)).flatMap Line.marks).map (·.kind)).count .indent =
      (nests.getD k []).length +
        (((lines.take (k + 1)).flatMap Line.marks).map (·.kind)).count .dedent := by
  induction h generalizing k with
  | finish => exact absurd hk (Nat.not_lt_zero k)
  | @line blocks after l ls nests ts _ hs _ ih =>
    have shift := hs.length
    rw [List.take_succ_cons, List.flatMap_cons, List.map_append, List.count_append,
      List.count_append]
    cases k with
    | zero => simpa using shift
    | succ k =>
      have rest := ih (Nat.lt_of_succ_lt_succ hk)
      rw [List.getD_cons_succ]
      omega

theorem openBlocks_eq (h : Tiled [] lines nests ts) {k : Nat} (hk : k < lines.length) :
    openBlocks lines k = (nests.getD k []).length := by
  have count := h.count_marks hk
  rw [List.length_nil] at count
  rw [openBlocks]
  omega

theorem under (h : Tiled [] lines nests ts) {i j : Nat} (hi : i < lines.length)
    (hj : j < lines.length) (hs : Shares lines i j) : nests.getD i [] <:+ nests.getD j [] := by
  refine suffix_along (f := fun k => nests.getD k []) (fun k => h.adjacent (k + 1)) ?_
  intro k low high
  have bound : k < lines.length := high.trans_lt (max_lt hi hj)
  have le := hs k low high
  rwa [h.openBlocks_eq hi, h.openBlocks_eq bound] at le

/-- Lines of one block begin in the same column, and those of a block inside it further right. -/
theorem columns (h : Tiled [] lines nests ts) {i j : Nat} (hi : i < lines.length)
    (hj : j < lines.length) (hs : Shares lines i j) :
    (openBlocks lines j = openBlocks lines i →
      lines[j].first.column - 1 = lines[i].first.column - 1) ∧
    (openBlocks lines i < openBlocks lines j →
      lines[i].first.column - 1 < lines[j].first.column - 1 ∧ 4 ∣ lines[j].first.column - 1) := by
  obtain ⟨left, stack⟩ := h.under hi hj hs
  obtain ⟨-, outer⟩ := h.nest .nil hi
  obtain ⟨climbs, inner⟩ := h.nest .nil hj
  rw [h.openBlocks_eq hi, h.openBlocks_eq hj, ← outer, ← inner, ← stack, List.length_append]
  refine ⟨fun same => ?_, fun more => ?_⟩
  · have empty : left = [] := List.eq_nil_of_length_eq_zero (by omega)
    rw [empty, List.nil_append]
  · rw [← stack] at climbs
    refine climbs.inside ?_
    rintro rfl
    exact absurd more (by simp)

end Tiled

end Nests

section Margins

variable {p : Position} {cs rest : List Char} {blocks : List Nat} {lines : List Line}
  {nests : List (List Nat)} {t : Token} {ts : List Token}

theorem Covers.drop (us : List Token) (h : Covers p cs (us ++ t :: ts)) :
    ∃ before rest, cs = before ++ (t.lexeme.toList ++ rest) ∧
      Covers (p.after (before ++ t.lexeme.toList)) rest ts := by
  induction us generalizing p cs with
  | nil =>
    obtain _ | @⟨_, g, rest, _, _, _, hp, _, h⟩ := h
    rw [stop, hp, Position.after_append] at h
    exact ⟨g, rest, rfl, h⟩
  | cons u us ih =>
    obtain _ | @⟨_, g, rest, _, _, _, hp, _, h⟩ := h
    obtain ⟨before, rest, rfl, tail⟩ := ih h
    rw [stop, hp, Position.after_append, Position.after_append] at tail
    refine ⟨g ++ (u.lexeme.toList ++ before), rest, by simp only [List.append_assoc], ?_⟩
    simpa only [List.append_assoc] using tail

theorem spelled_line {l : Line} (h : l.Formed) :
    spelled (l.tokens ++ ts) = l.first :: (l.more ++ l.stop :: spelled ts) := by
  have marks : ∀ m ∈ l.marks, m.kind.isMark = true := by
    rcases h.marks with ⟨m, hm, hk⟩ | hm
    · rw [hm, List.forall_mem_singleton, hk]
      rfl
    · exact fun m mem => congrArg Kind.isMark (hm m mem)
  have words : spelled l.words = l.words :=
    List.filter_eq_self.mpr fun t ht => by rw [Kind.isMark_of_word (h.words t ht)]; rfl
  have stop : l.stop.kind.isMark = false := congrArg Kind.isMark h.stop
  rw [Line.tokens, List.append_assoc, spelled_marks marks, List.append_assoc, spelled,
    List.filter_append, ← spelled, words, List.singleton_append, ← spelled, spelled_cons stop]
  rfl

theorem Tiled.margin (before : List Char) (h : Tiled blocks lines nests ts)
    (hw : ∀ t ∈ ts, t.kind.isLayout = false → t.IsWord)
    (hn : ∀ t ∈ ts, t.kind = .newline → t.IsNewline) (ends : EndsLine before)
    (hc : Covers (Position.after ⟨1, 1⟩ before) rest (spelled ts)) :
    ∀ l ∈ lines, l.first.column = l.width (before ++ rest) + 1 := by
  induction h generalizing before rest with
  | finish => exact List.forall_mem_nil _
  | @line blocks after l ls nests ts hl hs h ih =>
    rw [spelled_line hl] at hc
    refine List.forall_mem_cons.mpr ⟨?_, ?_⟩
    · obtain ⟨c, w, lexeme, word⟩ : l.first.IsWord :=
        hw _ (by simp [Line.tokens, Line.words]) (hl.words _ List.mem_cons_self)
      obtain _ | @⟨_, g, rest, _, _, hg, hp, _, _⟩ := hc
      rw [lexeme, String.toList_ofList] at hg ⊢
      obtain ⟨above, n, rfl, tail⟩ := hg.margin fun h => word.ne_newline (Option.some.inj h)
      rw [Position.after_append, ← List.append_assoc, ← Position.after_append,
        Position.after_lines (ends.append tail),
        Position.after_line_columns _ (by simp [List.mem_replicate])] at hp
      have line : l.first.line = (before ++ above).count '\n' + 1 := congrArg Position.line hp
      have column : l.first.column = 1 + (List.replicate n ' ').length :=
        congrArg Position.column hp
      rw [Line.width, line, column, List.append_assoc, ← List.append_assoc before,
        List.cons_append, margin_append (ends.append tail) word.shown, List.length_replicate,
        Nat.add_comm]
    · obtain ⟨line, rest, rfl, tail⟩ := Covers.drop (l.first :: l.more) hc
      have newline : l.stop.lexeme.toList = ['\n'] := by
        have bare := hn l.stop (by simp [Line.tokens]) hl.stop
        rw [show l.stop.lexeme = "\n" from congrArg (·.2.1) bare]
        rfl
      rw [newline, Position.after_append] at tail
      have whole := ih (before ++ (line ++ ['\n'])) (fun t ht => hw t (List.mem_append_right _ ht))
        (fun t ht => hn t (List.mem_append_right _ ht))
        (.inr (by rw [← List.append_assoc, List.getLast?_concat])) tail
      rw [newline]
      simpa only [List.append_assoc] using whole

end Margins

/-- The layout of a text that is scanned: one end mark, blocks that are opened and left in turn,
and logical lines, those of one block at one width and those of a block inside it at larger ones. -/
theorem scan_lines {text : String} {ts : List Token} (h : scan text = .ok ts) :
    (ts.map (·.kind)).count .eof = 1 ∧
    (∀ us, us <+: ts.map (·.kind) → us.count .dedent ≤ us.count .indent) ∧
    (ts.map (·.kind)).count .dedent = (ts.map (·.kind)).count .indent ∧
    ∃ lines closers e, ts = lines.flatMap Line.tokens ++ (closers ++ [e]) ∧
      (∀ l ∈ lines, l.Formed) ∧ (∀ t ∈ closers, t.kind = .dedent) ∧ e.kind = .eof ∧
      (∀ l ∈ lines, l.first.column = l.width (cleanList text.toList) + 1) ∧
      ∀ i j (hi : i < lines.length) (hj : j < lines.length), Shares lines i j →
        (openBlocks lines j = openBlocks lines i →
          lines[j].width (cleanList text.toList) = lines[i].width (cleanList text.toList)) ∧
        (openBlocks lines i < openBlocks lines j →
          lines[i].width (cleanList text.toList) < lines[j].width (cleanList text.toList) ∧
            4 ∣ lines[j].width (cleanList text.toList)) := by
  have laid := scan_laid h
  obtain ⟨sinks, balance⟩ := laid.balance
  refine ⟨?_, fun us hus => ?_, by rw [balance, Nat.zero_add], ?_⟩
  · obtain ⟨us, e, rfl, he, hus⟩ := scan_endMark h
    rw [List.map_append, List.count_append, List.map_singleton, he, List.count_singleton_self,
      List.count_eq_zero_of_not_mem]
    rw [List.mem_map]
    rintro ⟨t, ht, eof⟩
    exact hus t ht eof
  · have fits := sinks us hus
    rwa [Nat.zero_add] at fits
  · obtain ⟨lines, nests, tiled⟩ := scanFrom_tiles (fun _ => rfl)
      (.inl (getLast?_cleanList text.toList)) h
    obtain ⟨closers, e, split, hc, he⟩ := tiled.split
    have words := laid.forall_mem (P := fun t => t.kind.isLayout = false → t.IsWord)
      (fun kind hk _ t ht word => by rw [ht.kind, hk] at word; cases word)
      (fun t ht word => by rw [ht.kind] at word; cases word) fun t ht _ => ht
    have newlines := laid.forall_mem (P := fun t => t.kind = .newline → t.IsNewline)
      (fun kind _ hk t ht newline => absurd (ht.kind.symm.trans newline) hk) (fun t ht _ => ht)
      fun t ht newline => by
        have word := ht.kind_isLayout
        rw [newline] at word
        cases word
    have margin := tiled.margin [] words newlines (.inl rfl)
      (scanFrom_covers (.inr (getLast?_cleanList text.toList)) h)
    refine ⟨lines, closers, e, split, tiled.formed, hc, he, margin, fun i j hi hj hs => ?_⟩
    have columns := tiled.columns hi hj hs
    rwa [margin _ (List.getElem_mem hi), margin _ (List.getElem_mem hj)] at columns

theorem scan_lines_commented :
    ∃ (ts : List Token) (lines : List Line) (closers : List Token) (e : Token),
      scan "if x: # then\n        f(\n  y)" = .ok ts ∧
      ts = lines.flatMap Line.tokens ++ (closers ++ [e]) ∧ (∀ l ∈ lines, l.Formed) ∧
      (∀ t ∈ closers, t.kind = .dedent) ∧ e.kind = .eof := by
  obtain ⟨ts, h⟩ := exists_scan "if x: # then\n        f(\n  y)" (by cbv)
  obtain ⟨-, -, -, lines, closers, e, split, formed, hc, he, -⟩ := scan_lines h
  exact ⟨ts, lines, closers, e, h, split, formed, hc, he⟩

example : margin (cleanList "if x: # then\n        f(\n  y)".toList) 2 = 8 := by decide

end Token

end LoopScript
