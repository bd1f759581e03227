import LoopScript.Proofs.Token.Coverage
import LoopScript.Proofs.Token.Layout

/-!
Scans go line by line: what whole lines give does not depend on what follows them, and a line
without tokens gives nothing but its place in the numbering of lines.
-/

namespace LoopScript

namespace Source

/-- What cleaning makes of a character that is no carriage return. -/
def cleanChar (c : Char) : List Char :=
  if c = '\t' then List.replicate indentWidth ' ' else if isInvisible c then [] else [c]

/-- A line of spaces, or of spaces and a comment. -/
def Idle (line : List Char) : Prop :=
  ∃ n w, line = List.replicate n ' ' ++ w ∧ (w = [] ∨ IsComment w ∧ '\r' ∉ w)

theorem normalize_eq_flatMap {cs : List Char} (h : '\r' ∉ cs) (us : List Char) :
    normalize (cs ++ us) = cs.flatMap cleanChar ++ normalize us := by
  induction cs with
  | nil => rfl
  | cons c cs ih =>
    rw [List.mem_cons, not_or] at h
    rw [List.flatMap_cons, List.append_assoc, ← ih h.2, List.cons_append, cleanChar]
    by_cases tab : c = '\t'
    · rw [tab, if_pos rfl, normalize]
    · rw [if_neg tab, normalize]
      · split <;> rfl
      · exact fun _ hc _ => h.1 hc.symm
      · exact fun hc => h.1 hc.symm
      · exact tab

theorem flatMap_plain {cs : List Char} (h : ∀ c ∈ cs, Plain c) : cs.flatMap cleanChar = cs := by
  have clean := normalize_eq_flatMap (fun hr => (h _ hr).1 rfl) ([] : List Char)
  rw [List.append_nil, normalize_plain h, normalize, List.append_nil] at clean
  exact clean.symm

theorem IsComment.clean {w : List Char} (h : IsComment w) : IsComment (w.flatMap cleanChar) := by
  refine ⟨?_, fun newline => ?_⟩
  · rcases h.opened with ⟨us, rfl⟩ | ⟨us, rfl⟩
    · exact .inl ⟨us.flatMap cleanChar, rfl⟩
    · exact .inr ⟨us.flatMap cleanChar, rfl⟩
  · obtain ⟨c, hc, hn⟩ := List.mem_flatMap.mp newline
    rw [cleanChar] at hn
    split at hn
    · exact absurd (List.eq_of_mem_replicate hn) (by decide)
    · split at hn
      · exact absurd hn List.not_mem_nil
      · exact h.line (List.mem_singleton.mp hn ▸ hc)

theorem cleanList_insert {above below line : List Char} (ha : ∀ c ∈ above, Plain c)
    (hb : ∀ c ∈ below, Plain c) (ends : EndsLine below) (hl : '\r' ∉ line) :
    cleanList (above ++ (line ++ '\n' :: below)) =
      above ++ (line.flatMap cleanChar ++ '\n' :: below) := by
  have last : ('\n' :: below).getLast? = some '\n' := by
    rcases ends with rfl | h
    · rfl
    · exact Token.getLast?_append (w := ['\n']) h
  rw [cleanList, normalize_eq_flatMap fun h => (ha _ h).1 rfl, normalize_eq_flatMap hl,
    flatMap_plain ha, normalize_plain (List.forall_mem_cons.mpr ⟨plain_newline, hb⟩), closeLine,
    if_pos (Token.getLast?_append (Token.getLast?_append last))]

end Source

namespace Token

open Source

section Lookahead

variable {q c : Char} {cs us : List Char}

theorem takeWhile_append_of_mem (us : List Char) {p : Char → Bool} {x : Char} (hx : x ∈ cs) (hp : ¬p x) :
    (cs ++ us).takeWhile p = cs.takeWhile p ∧ (cs ++ us).dropWhile p = cs.dropWhile p ++ us ∧
      x ∈ cs.dropWhile p := by
  induction cs with
  | nil => cases hx
  | cons c cs ih =>
    by_cases hc : p c
    · have mem : x ∈ cs := (List.mem_cons.mp hx).resolve_left fun h => hp (h ▸ hc)
      simpa [hc] using ih mem
    · simpa [hc] using hx

theorem not_backslash (end_ : c = '\\' → cs = [] → False)
    (escape : ∀ e us, c = '\\' → cs = e :: us → False) : c ≠ '\\' := by
  rintro rfl
  cases cs with
  | nil => exact end_ rfl rfl
  | cons e cs => exact escape e cs rfl rfl

theorem quoted_append (h : '\n' ∈ cs) : quoted q (cs ++ us) = quoted q cs := by
  fun_induction quoted q cs with
  | case1 => cases h
  | case2 => rfl
  | case3 => simp at h
  | case4 => rfl
  | case5 e cs he ih =>
    have mem : '\n' ∈ cs := by
      rcases List.mem_cons.mp h with h | h
      · cases h
      · exact (List.mem_cons.mp h).resolve_left fun h => he h.symm
    rw [List.cons_append, List.cons_append, quoted_escape he, ih mem]
  | case6 cs hn end_ newline escape =>
    rw [List.cons_append, quoted_char hn (not_backslash end_ escape), if_pos rfl]
  | case7 c cs hn end_ newline escape hq ih =>
    have mem : '\n' ∈ cs := (List.mem_cons.mp h).resolve_left fun h => hn h.symm
    rw [List.cons_append, quoted_char hn (not_backslash end_ escape), if_neg hq, ih mem]

theorem numeral_append (h : '\n' ∈ cs) : numeral (cs ++ us) = numeral cs := by
  obtain ⟨whole, tail, mem⟩ :=
    takeWhile_append_of_mem us (p := Char.isDigit) h (by decide)
  rw [numeral, numeral, whole, tail]
  cases hd : cs.dropWhile Char.isDigit with
  | nil =>
    rw [hd] at mem
    cases mem
  | cons c ds =>
    rw [hd] at mem
    by_cases point : c = '.'
    · subst point
      have mem : '\n' ∈ ds := (List.mem_cons.mp mem).resolve_left (by decide)
      cases ds with
      | nil => cases mem
      | cons d ds =>
        obtain ⟨places, -, -⟩ :=
          takeWhile_append_of_mem us (p := Char.isDigit) mem (by decide)
        rw [List.cons_append] at places
        simp only [List.cons_append, places]
    · rw [List.cons_append]
      split
      · next heq => exact absurd (List.cons.inj heq).1 point
      · split
        · next heq => exact absurd (List.cons.inj heq).1 point
        · rfl

theorem munch_append (h : '\n' ∈ cs) : munch c (cs ++ us) = munch c cs := by
  have first : (cs ++ us).head? = cs.head? := by
    cases cs with
    | nil => cases h
    | cons d cs => rfl
  rw [munch, munch, quoted_append h, ← List.cons_append,
    numeral_append (List.mem_cons_of_mem _ h), first,
    (takeWhile_append_of_mem us (p := isWordPart) h (by decide)).1]

theorem startsComment_append (h : '\n' ∈ cs) :
    startsComment c (cs ++ us) = startsComment c cs := by
  cases cs with
  | nil => cases h
  | cons d cs => rfl

end Lookahead

section Lines

/-- What a scan of whole lines comes to, whatever follows them: an error among them, or their tokens
and a scan that begins with the line after them. -/
def Advances (blocks : List Nat) (brackets : List Symbol) (fresh : Bool) (p : Position)
    (above : List Char) : Prop :=
  (∃ e : ScanError, e.line < p.line + above.count '\n' ∧
    ∀ below, scanFrom blocks brackets fresh p (above ++ below) = .error e) ∨
  ∃ (us : List Token) (blocks' : List Nat) (brackets' : List Symbol) (fresh' : Bool),
    (fresh' = true ∨ brackets' ≠ []) ∧ (∀ t ∈ us, t.line < p.line + above.count '\n') ∧
      ∀ below, scanFrom blocks brackets fresh p (above ++ below) =
        scanFrom blocks' brackets' fresh' ⟨p.line + above.count '\n', 1⟩ below >>=
          fun ts => .ok (us ++ ts)

variable {blocks blocks' : List Nat} {brackets brackets' : List Symbol} {fresh fresh' : Bool}
  {p q : Position} {c : Char} {above rest : List Char} {us : List Token}

/-- A step that gives some tokens and goes on with the rest of the lines. -/
theorem Advances.step (us : List Token) (hq : q.line + rest.count '\n' = p.line + above.count '\n')
    (hus : ∀ t ∈ us, t.line < p.line + above.count '\n')
    (hs : ∀ below, scanFrom blocks brackets fresh p (above ++ below) =
      scanFrom blocks' brackets' fresh' q (rest ++ below) >>= fun ts => .ok (us ++ ts))
    (h : Advances blocks' brackets' fresh' q rest) : Advances blocks brackets fresh p above := by
  rw [Advances, hq] at h
  rcases h with ⟨e, he, fails⟩ | ⟨vs, bs, ss, b, hb, hvs, goes⟩
  · exact .inl ⟨e, he, fun below => by rw [hs, fails]; rfl⟩
  · refine .inr ⟨us ++ vs, bs, ss, b, hb, List.forall_mem_append.mpr ⟨hus, hvs⟩, fun below => ?_⟩
    rw [hs, goes, bind_assoc]
    exact bind_congr fun ts => congrArg Except.ok (List.append_assoc us vs ts).symm

theorem Advances.silent (hq : q.line + rest.count '\n' = p.line + above.count '\n')
    (hs : ∀ below, scanFrom blocks brackets fresh p (above ++ below) =
      scanFrom blocks' brackets' fresh' q (rest ++ below))
    (h : Advances blocks' brackets' fresh' q rest) : Advances blocks brackets fresh p above :=
  .step [] hq nofun (fun below => (hs below).trans (bind_pure _).symm) h

theorem Advances.fails {f : ScanFault} (h : '\n' ∈ above)
    (hs : ∀ below, scanFrom blocks brackets fresh p (above ++ below) = .error ⟨f, p.line⟩) :
    Advances blocks brackets fresh p above :=
  .inl ⟨⟨f, p.line⟩, Nat.lt_add_of_pos_right (List.count_pos_iff.mpr h), hs⟩

theorem EndsLine.mem_of_cons {cs : List Char} (h : EndsLine (c :: cs)) (hc : c ≠ '\n') :
    '\n' ∈ cs :=
  (List.mem_cons.mp (List.mem_of_getLast? (h.resolve_left nofun))).resolve_left fun h => hc h.symm

theorem scanFrom_advances (ends : EndsLine above)
    (hp : above = [] → p.column = 1 ∧ (fresh = true ∨ brackets ≠ [])) :
    Advances blocks brackets fresh p above := by
  fun_induction scanFrom blocks brackets fresh p above with
  | case1 blocks brackets fresh p =>
    obtain ⟨column, started⟩ := hp rfl
    refine .inr ⟨[], blocks, brackets, fresh, started, by simp, fun below => ?_⟩
    rw [List.count_nil, Nat.add_zero, ← column]
    exact (bind_pure _).symm
  | case2 blocks brackets fresh p cs ih =>
    have mem := EndsLine.mem_of_cons ends (by decide)
    refine .silent ?_ (fun below => scanFrom_space) (ih (ends.rest (w := [' '])) ?_)
    · rw [List.count_cons_of_ne (by decide)]
    · rintro rfl
      cases mem
  | case3 blocks brackets fresh p cs open_ _ ih =>
    refine .silent (q := p.next '\n') ?_ (fun below => ?_) (ih (ends.rest (w := ['\n'])) fun _ => ?_)
    · rw [List.count_cons_self, Position.next, if_pos rfl, Nat.add_right_comm, Nat.add_assoc]
    · rw [List.cons_append, scanFrom, if_neg (by decide), if_pos rfl, if_pos open_]
    · refine ⟨rfl, (Bool.or_eq_true_iff.mp open_).imp_right fun hb => ?_⟩
      rintro rfl
      cases hb
  | case4 blocks brackets fresh p cs closed _ ih =>
    refine .step [⟨.newline, "\n", .none, p.line, p.column⟩] (q := p.next '\n') ?_ ?_
      (fun below => ?_) (ih (ends.rest (w := ['\n'])) fun _ => ⟨rfl, .inl rfl⟩)
    · rw [List.count_cons_self, Position.next, if_pos rfl, Nat.add_right_comm, Nat.add_assoc]
    · rw [List.forall_mem_singleton, List.count_cons_self]
      exact Nat.lt_add_of_pos_right (Nat.succ_pos _)
    · rw [List.cons_append, scanFrom, if_neg (by decide), if_pos rfl, if_neg closed]
      rfl
  | case5 blocks brackets fresh p c cs space newline comment skipped =>
    rename_i ih
    have mem := EndsLine.mem_of_cons ends newline
    have parts : skipped ++ cs.drop skipped.length = cs :=
      List.prefix_iff_eq_append.mp (List.takeWhile_prefix _)
    have line : (c :: skipped).count '\n' = 0 := List.count_eq_zero.mpr (line_of_comment newline)
    refine .silent ?_ (fun below => ?_) (ih ?_ ?_)
    · rw [Position.after_line, line, Nat.add_zero, ← parts, ← List.cons_append, List.count_append,
        line, Nat.zero_add, parts]
    · obtain ⟨same, -, -⟩ := takeWhile_append_of_mem below
        (p := fun x => decide (x ≠ '\n')) mem (by decide)
      rw [List.cons_append, scanFrom, if_neg space, if_neg newline,
        if_pos (by rwa [startsComment_append mem])]
      dsimp only
      rw [same, List.drop_append_of_le_length (List.takeWhile_prefix _).length_le]
    · rw [← parts, ← List.cons_append] at ends
      exact ends.rest
    · intro empty
      rw [empty, List.append_nil] at parts
      rw [← parts] at mem
      exact absurd (List.mem_cons_of_mem c mem) (line_of_comment newline)
  | case6 blocks brackets p c cs space newline comment f hf =>
    have mem := EndsLine.mem_of_cons ends newline
    refine .fails (f := f) (List.mem_cons_of_mem _ mem) fun below => ?_
    rw [List.cons_append, scanFrom, if_neg space, if_neg newline,
      if_neg (by rwa [startsComment_append mem]), if_pos rfl, hf]
  | case7 blocks brackets p c cs space newline comment marks after hm ih =>
    have mem := EndsLine.mem_of_cons ends newline
    refine .step marks rfl ?_ (fun below => ?_) (ih ends (by simp))
    · intro m hm'
      rw [indentation_line hm m hm']
      exact Nat.lt_add_of_pos_right (List.count_pos_iff.mpr (List.mem_cons_of_mem _ mem))
    · rw [List.cons_append, scanFrom, if_neg space, if_neg newline,
        if_neg (by rwa [startsComment_append mem]), if_pos rfl, hm]
  | case8 blocks brackets fresh p c cs space newline comment stale f hf =>
    have mem := EndsLine.mem_of_cons ends newline
    refine .fails (f := f) (List.mem_cons_of_mem _ mem) fun below => ?_
    rw [List.cons_append, scanFrom, if_neg space, if_neg newline,
      if_neg (by rwa [startsComment_append mem]), if_neg stale, munch_append mem, hf]
  | case9 blocks brackets fresh p c cs space newline comment stale m hm f hf =>
    have mem := EndsLine.mem_of_cons ends newline
    refine .fails (f := f) (List.mem_cons_of_mem _ mem) fun below => ?_
    rw [List.cons_append, scanFrom, if_neg space, if_neg newline,
      if_neg (by rwa [startsComment_append mem]), if_neg stale, munch_append mem, hm]
    dsimp only
    rw [hf]
  | case10 blocks brackets fresh p c cs space newline comment stale m hm after hb word =>
    rename_i ih
    have mem := EndsLine.mem_of_cons ends newline
    obtain ⟨w, rest, hcs, length, line, -⟩ := munch_split hm
    have hw : cs.take m.more = w := by rw [hcs, ← length, List.take_left]
    have hr : cs.drop m.more = rest := by rw [hcs, ← length, List.drop_left]
    have count : word.count '\n' = 0 := by
      rw [List.count_cons_of_ne newline, hw, List.count_eq_zero.mpr line]
    have parts : c :: cs = word ++ cs.drop m.more := by
      rw [List.cons_append, List.take_append_drop]
    refine .step [⟨m.kind, String.ofList word, m.literal, p.line, p.column⟩] ?_ ?_
      (fun below => ?_) (ih ?_ ?_)
    · rw [parts, List.count_append, count, Nat.zero_add, Position.after_line, count, Nat.add_zero]
    · rw [List.forall_mem_singleton]
      exact Nat.lt_add_of_pos_right (List.count_pos_iff.mpr (List.mem_cons_of_mem _ mem))
    · have fits : m.more ≤ cs.length := by
        rw [hcs, List.length_append, length]
        exact Nat.le_add_right _ _
      rw [List.cons_append, scanFrom, if_neg space, if_neg newline,
        if_neg (by rwa [startsComment_append mem]), if_neg stale, munch_append mem, hm]
      dsimp only
      rw [hb, List.take_append_of_le_length fits, List.drop_append_of_le_length fits]
      rfl
    · rw [parts] at ends
      exact ends.rest
    · intro empty
      rw [hr] at empty
      rw [hcs, empty, List.append_nil] at mem
      exact absurd mem line

end Lines

section Skips

variable {blocks : List Nat} {brackets : List Symbol} {fresh : Bool} {p : Position} {cs w : List Char}

theorem scanFrom_skip (h : fresh = true ∨ brackets ≠ []) :
    scanFrom blocks brackets fresh p ('\n' :: cs) =
      scanFrom blocks brackets fresh ⟨p.line + 1, 1⟩ cs := by
  rw [scanFrom, if_neg (by decide), if_pos rfl, if_pos]
  · rfl
  · rw [Bool.or_eq_true, Bool.not_eq_true', List.isEmpty_eq_false_iff]
    exact h

theorem scanFrom_comment (hw : IsComment w) :
    scanFrom blocks brackets fresh p (w ++ '\n' :: cs) =
      scanFrom blocks brackets fresh (p.after w) ('\n' :: cs) := by
  have start (us : List Char) {c : Char} (hn : '\n' ∉ us) (hs : c ≠ ' ' ∧ c ≠ '\n')
      (hc : startsComment c (us ++ '\n' :: cs) = true) :
      scanFrom blocks brackets fresh p (c :: (us ++ '\n' :: cs)) =
        scanFrom blocks brackets fresh (p.after (c :: us)) ('\n' :: cs) := by
    have skip : (us ++ '\n' :: cs).takeWhile (· ≠ '\n') = us :=
      takeWhile_stop (fun x hx => by simpa using fun h : x = '\n' => hn (h ▸ hx)) (by decide)
    rw [scanFrom, if_neg hs.1, if_neg hs.2, if_pos hc]
    dsimp only
    rw [skip, List.drop_left]
  have line := hw.line
  rcases hw.opened with ⟨us, rfl⟩ | ⟨us, rfl⟩
  · exact start us (fun h => line (List.mem_cons_of_mem _ h)) (by decide) rfl
  · exact start ('/' :: us) (fun h => line (List.mem_cons_of_mem _ h)) (by decide) rfl

theorem scanFrom_idle {line : Nat} (h : fresh = true ∨ brackets ≠ []) (n : Nat)
    (hw : w = [] ∨ IsComment w) :
    scanFrom blocks brackets fresh ⟨line, 1⟩ (List.replicate n ' ' ++ (w ++ '\n' :: cs)) =
      scanFrom blocks brackets fresh ⟨line + 1, 1⟩ cs := by
  rw [scanFrom_spaces]
  rcases hw with rfl | hw
  · exact scanFrom_skip h
  · rw [scanFrom_comment hw, scanFrom_skip h, Position.after_line,
      List.count_eq_zero.mpr hw.line, Nat.add_zero]

end Skips

section Numbering

def renumbered (f : Nat → Nat) (t : Token) : Token := { t with line := f t.line }

/-- A scan with its lines numbered otherwise. -/
def renumber (f : Nat → Nat) : Except ScanError (List Token) → Except ScanError (List Token)
  | .ok ts => .ok (ts.map (renumbered f))
  | .error e => .error { e with line := f e.line }

def Position.below (p : Position) : Position := ⟨p.line + 1, p.column⟩

variable {f g : Nat → Nat} {r : Except ScanError (List Token)} {us : List Token}

theorem renumber_append (us : List Token) : renumber f (r >>= fun ts => .ok (us ++ ts)) =
    renumber f r >>= fun ts => .ok (us.map (renumbered f) ++ ts) := by
  cases r with
  | error e => rfl
  | ok ts => exact congrArg Except.ok List.map_append

theorem renumber_cons {t : Token} : renumber f (r >>= fun ts => .ok (t :: ts)) =
    renumber f r >>= fun ts => .ok (renumbered f t :: ts) :=
  renumber_append [t]

theorem renumber_congr {p : Position} {cs : List Char} (h : Stands p cs r)
    (hfg : ∀ line, p.line ≤ line → f line = g line) : renumber f r = renumber g r := by
  cases r with
  | error e => rw [renumber, renumber, hfg _ (show p.Reaches cs e.line from h).1]
  | ok ts =>
    refine congrArg Except.ok (List.map_congr_left fun t ht => ?_)
    rw [renumbered, renumbered, hfg _ (h t ht).1]

theorem Position.below_next (p : Position) (c : Char) : p.below.next c = (p.next c).below := by
  rw [next, next]
  split <;> rfl

theorem Position.below_after (p : Position) (cs : List Char) :
    p.below.after cs = (p.after cs).below := by
  induction cs generalizing p with
  | nil => rfl
  | cons c cs ih =>
    change (p.below.next c).after cs = ((p.next c).after cs).below
    rw [p.below_next, ih]

theorem finish_below (blocks : List Nat) (brackets : List Symbol) (p : Position) :
    finish blocks brackets p.below = renumber (· + 1) (finish blocks brackets p) := by
  cases brackets with
  | cons b bs => rfl
  | nil =>
    refine congrArg Except.ok ?_
    rw [List.map_append, List.map_map]
    rfl

theorem indentation_below (width : Nat) (blocks : List Nat) (p : Position) :
    indentation width blocks p.below =
      (fun r => (r.1.map (renumbered (· + 1)), r.2)) <$> indentation width blocks p := by
  rw [indentation, indentation]
  split
  · split <;> rfl
  · dsimp only
    split
    · refine congrArg Except.ok (congrArg (·, _) ?_)
      rw [List.map_replicate]
      rfl
    · rfl

theorem scanFrom_below (blocks : List Nat) (brackets : List Symbol) (fresh : Bool) (p : Position)
    (cs : List Char) : scanFrom blocks brackets fresh p.below cs =
      renumber (· + 1) (scanFrom blocks brackets fresh p cs) := by
  fun_induction scanFrom blocks brackets fresh p cs with
  | case1 blocks brackets fresh p =>
    rw [scanFrom]
    exact finish_below blocks brackets p
  | case2 blocks brackets fresh p cs ih =>
    rw [scanFrom, if_pos rfl, Position.below_next, ih]
  | case3 blocks brackets fresh p cs open_ newline ih =>
    rw [scanFrom, if_neg newline, if_pos rfl, if_pos open_, Position.below_next, ih]
  | case4 blocks brackets fresh p cs closed newline ih =>
    rw [scanFrom, if_neg newline, if_pos rfl, if_neg closed, Position.below_next, ih]
    rw [renumber_cons]
    rfl
  | case5 blocks brackets fresh p c cs space newline comment skipped =>
    rename_i ih
    rw [scanFrom, if_neg space, if_neg newline, if_pos comment]
    dsimp only
    rw [Position.below_after, ih]
  | case6 blocks brackets p c cs space newline comment f hf =>
    have below := indentation_below (p.column - 1) blocks ⟨p.line, 1⟩
    rw [hf] at below
    rw [scanFrom, if_neg space, if_neg newline, if_neg comment, if_pos rfl,
      show indentation (p.below.column - 1) blocks ⟨p.below.line, 1⟩ = .error f from below]
    rfl
  | case7 blocks brackets p c cs space newline comment marks after hm ih =>
    have below := indentation_below (p.column - 1) blocks ⟨p.line, 1⟩
    rw [hm] at below
    rw [scanFrom, if_neg space, if_neg newline, if_neg comment, if_pos rfl,
      show indentation (p.below.column - 1) blocks ⟨p.below.line, 1⟩ =
        .ok (marks.map (renumbered (· + 1)), after) from below]
    dsimp only
    rw [ih]
    exact (renumber_append _).symm
  | case8 blocks brackets fresh p c cs space newline comment stale f hf =>
    rw [scanFrom, if_neg space, if_neg newline, if_neg comment, if_neg stale, hf]
    rfl
  | case9 blocks brackets fresh p c cs space newline comment stale m hm f hf =>
    rw [scanFrom, if_neg space, if_neg newline, if_neg comment, if_neg stale, hm]
    dsimp only
    rw [hf]
    rfl
  | case10 blocks brackets fresh p c cs space newline comment stale m hm after hb word =>
    rename_i ih
    rw [scanFrom, if_neg space, if_neg newline, if_neg comment, if_neg stale, hm]
    dsimp only
    rw [hb]
    dsimp only
    rw [Position.below_after, ih]
    rw [renumber_cons]
    rfl

end Numbering

/-- A line of spaces or of a comment between two others only counts as a line. -/
theorem scan_insert {text : String} {above below line : List Char}
    (hc : cleanList text.toList = above ++ below) (ends : EndsLine above) (hl : Idle line) :
    scan (String.ofList (above ++ (line ++ '\n' :: below))) =
      renumber (fun l => if above.count '\n' < l then l + 1 else l) (scan text) := by
  obtain ⟨n, w, rfl, hw⟩ := hl
  have plain := plain_cleanList text.toList
  have last : EndsLine below := EndsLine.rest (w := above) (hc ▸ .inr (getLast?_cleanList text.toList))
  rw [hc, List.forall_mem_append] at plain
  have feed : '\r' ∉ List.replicate n ' ' ++ w := by
    rw [List.mem_append, not_or]
    refine ⟨fun h => absurd (List.eq_of_mem_replicate h) (by decide), ?_⟩
    rcases hw with rfl | hw
    · exact List.not_mem_nil
    · exact hw.2
  have spaces : (List.replicate n ' ').flatMap cleanChar = List.replicate n ' ' :=
    flatMap_plain fun c hc => List.eq_of_mem_replicate hc ▸ plain_space
  have skipped : w.flatMap cleanChar = [] ∨ IsComment (w.flatMap cleanChar) :=
    hw.imp (fun h => by rw [h]; rfl) fun h => h.1.clean
  rw [scan, scan, String.toList_ofList, cleanList_insert plain.1 plain.2 last feed, hc,
    List.flatMap_append, spaces, List.append_assoc]
  let f (l : Nat) : Nat := if above.count '\n' < l then l + 1 else l
  have kept {l : Nat} (hl : l < 1 + above.count '\n') : f l = l := if_neg (by omega)
  have advances : Advances [] [] true ⟨1, 1⟩ above :=
    scanFrom_advances ends fun _ => ⟨rfl, .inl rfl⟩
  rcases advances with ⟨e, he, fails⟩ | ⟨us, blocks, brackets, fresh, start, hus, goes⟩
  · rw [fails, fails]
    exact congrArg (fun l => Except.error (ScanError.mk e.fault l)) (kept he).symm
  · have same : us.map (renumbered f) = us := by
      refine (List.map_congr_left fun t ht => ?_).trans (List.map_id us)
      exact congrArg (fun l => { t with line := l }) (kept (hus t ht))
    have moved := scanFrom_below blocks brackets fresh ⟨1 + above.count '\n', 1⟩ below
    rw [renumber_congr (g := f) (scanFrom_stands ..) fun l hl => (if_pos (by
      dsimp only at hl
      omega)).symm] at moved
    rw [goes, goes, scanFrom_idle start n skipped]
    change scanFrom blocks brackets fresh (Position.below ⟨1 + above.count '\n', 1⟩) below >>= _ =
      renumber f _
    rw [moved, renumber_append, same]

theorem scan_insert_inside_brackets :
    scan "f(\n // y\n  x)\n" =
      renumber (fun l => if 1 < l then l + 1 else l) (scan "f(\n  x)") := by
  have cleaned : cleanList "f(\n  x)".toList = "f(\n".toList ++ "  x)\n".toList := by decide
  have idle : Idle " // y".toList :=
    ⟨1, "// y".toList, by decide, .inr ⟨⟨.inr (by decide), by decide⟩, by decide⟩⟩
  have inserted := scan_insert cleaned (.inr (by decide)) idle
  have text : String.ofList ("f(\n".toList ++ (" // y".toList ++ '\n' :: "  x)\n".toList)) =
      "f(\n // y\n  x)\n" := by decide
  have count : "f(\n".toList.count '\n' = 1 := by decide
  rwa [text, count] at inserted

end Token

end LoopScript
