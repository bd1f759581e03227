import Mathlib
import LoopScript.Proofs.Token.Lines

/-!
Tokens laid out again, a physical line for each logical one, are scanned as the same tokens.
-/

namespace LoopScript.Token

/-- The text of tokens with so many open blocks, at the start of a line if it is fresh. -/
def layout : Nat → Bool → List Token → List Char
  | _, _, [] => []
  | depth, fresh, t :: ts =>
    match t.kind with
    | .indent => layout (depth + 1) fresh ts
    | .dedent => layout (depth - 1) fresh ts
    | .newline => '\n' :: layout depth true ts
    | .eof => layout depth fresh ts
    | _ =>
      (if fresh = true then List.replicate (4 * depth) ' ' else [' ']) ++
        (t.lexeme.toList ++ layout depth false ts)

/-- The widths of blocks that are each four wider than the one around them. -/
def ladder : Nat → List Nat
  | 0 => []
  | depth + 1 => 4 * (depth + 1) :: ladder depth

section Layout

variable {depth : Nat} {fresh : Bool} {m t : Token} {ms ts : List Token}

theorem layout_newline (ht : t.IsNewline) :
    layout depth fresh (t :: ts) = '\n' :: layout depth true ts := by
  rw [layout, show t.kind = .newline from congrArg Prod.fst ht]

theorem layout_indent (hm : m.IsMark .indent) :
    layout depth fresh (m :: ts) = layout (depth + 1) fresh ts := by
  rw [layout, show m.kind = .indent from congrArg Prod.fst hm]

theorem layout_dedents (hms : ∀ m ∈ ms, m.IsMark .dedent) :
    layout (depth + ms.length) fresh (ms ++ ts) = layout depth fresh ts := by
  induction ms with
  | nil => rfl
  | cons m ms ih =>
    rw [List.cons_append, layout,
      show m.kind = .dedent from congrArg Prod.fst (hms m List.mem_cons_self)]
    exact ih fun m hm => hms m (List.mem_cons_of_mem _ hm)

theorem layout_eof (ht : t.IsMark .eof) : layout depth fresh [t] = [] := by
  rw [layout, show t.kind = .eof from congrArg Prod.fst ht]
  rfl

theorem layout_finish (hms : ∀ m ∈ ms, m.IsMark .dedent) (ht : t.IsMark .eof) :
    layout ms.length fresh (ms ++ [t]) = [] := by
  rw [← Nat.zero_add ms.length, layout_dedents hms, layout_eof ht]

theorem layout_word (ht : t.kind.isLayout = false) : layout depth fresh (t :: ts) =
    (if fresh = true then List.replicate (4 * depth) ' ' else [' ']) ++
      (t.lexeme.toList ++ layout depth false ts) := by
  rw [layout]
  split <;> simp_all [Kind.isLayout]

theorem layout_rest {depth : Nat} {ws ts : List Token} {n : Token}
    (hws : ∀ w ∈ ws, w.kind.isLayout = false) (hn : n.IsNewline) :
    layout depth false (ws ++ n :: ts) =
      ws.flatMap (fun w => ' ' :: w.lexeme.toList) ++ '\n' :: layout depth true ts := by
  induction ws with
  | nil => exact layout_newline hn
  | cons w ws ih =>
    rw [List.cons_append, layout_word (hws w List.mem_cons_self), if_neg Bool.false_ne_true,
      ih fun w hw => hws w (List.mem_cons_of_mem _ hw)]
    simp

theorem intercalate_spaces (t : Token) (ws : List Token) :
    [' '].intercalate ((t :: ws).map (·.lexeme.toList)) =
      t.lexeme.toList ++ ws.flatMap (fun w => ' ' :: w.lexeme.toList) := by
  induction ws generalizing t with
  | nil => simp
  | cons w ws ih =>
    have next := ih w
    rw [List.map_cons] at next
    rw [List.map_cons, List.map_cons, List.intercalate_cons_cons, next]
    simp

/-- A logical line is laid out as one physical line: four spaces for every open block, then its
lexemes with single spaces between them, then a line feed. -/
theorem layout_line {depth : Nat} {ws ts : List Token} {t n : Token}
    (hws : ∀ w ∈ t :: ws, w.kind.isLayout = false) (hn : n.IsNewline) :
    layout depth true (t :: ws ++ n :: ts) = List.replicate (4 * depth) ' ' ++
      ([' '].intercalate ((t :: ws).map (·.lexeme.toList)) ++ '\n' :: layout depth true ts) := by
  rw [List.cons_append, layout_word (hws t List.mem_cons_self), if_pos rfl, intercalate_spaces,
    layout_rest (fun w hw => hws w (List.mem_cons_of_mem _ hw)) hn, List.append_assoc]

theorem IsWord.kind_isLayout (ht : t.IsWord) : t.kind.isLayout = false := by
  obtain ⟨c, w, -, word⟩ := ht
  exact word.kind_isLayout

end Layout

section Ladder

variable {depth : Nat} (p : Position)

theorem ladder_head (depth : Nat) : (ladder depth).headD 0 = 4 * depth := by
  cases depth <;> rfl

theorem ladder_length (depth : Nat) : (ladder depth).length = depth := by
  induction depth with
  | zero => rfl
  | succ depth ih => rw [ladder, List.length_cons, ih]

theorem leave_ladder (depth n : Nat) :
    leave (4 * depth) (ladder (depth + n)) = (n, ladder depth) := by
  induction n with
  | zero =>
    cases depth with
    | zero => rfl
    | succ depth => simp [ladder, leave]
  | succ n ih =>
    rw [← Nat.add_assoc, ladder, leave, if_pos (by omega), ih]

theorem indentation_indent : indentation (4 * (depth + 1)) (ladder depth) p =
    .ok ([mark .indent p], ladder (depth + 1)) := by
  rw [indentation, ladder_head, if_pos (by omega), if_pos (by simp [Source.indentWidth])]
  rfl

theorem indentation_dedent (n : Nat) : indentation (4 * depth) (ladder (depth + n)) p =
    .ok (List.replicate n (mark .dedent p), ladder depth) := by
  rw [indentation, ladder_head, if_neg (by omega), leave_ladder]
  dsimp only
  rw [if_pos (ladder_head depth)]

end Ladder

section Scan

variable {blocks : List Nat} {brackets after : List Symbol} {fresh : Bool} {p : Position}
  {depth : Nat} {cs : List Char} {t : Token} {ts us marks : List Token}

theorem scanFrom_space : scanFrom blocks brackets fresh p (' ' :: cs) =
    scanFrom blocks brackets fresh ⟨p.line, p.column + 1⟩ cs := by
  rw [scanFrom, if_pos rfl]
  rfl

theorem scanFrom_spaces (n : Nat) : scanFrom blocks brackets fresh p (List.replicate n ' ' ++ cs) =
    scanFrom blocks brackets fresh ⟨p.line, p.column + n⟩ cs := by
  induction n generalizing p with
  | zero => rfl
  | succ n ih =>
    rw [List.replicate_succ, List.cons_append, scanFrom_space, ih, Nat.add_assoc, Nat.add_comm 1]

theorem scanFrom_newline (h : scanFrom blocks [] true ⟨p.line + 1, 1⟩ cs = .ok us) :
    scanFrom blocks [] false p ('\n' :: cs) =
      .ok (⟨.newline, "\n", .none, p.line, p.column⟩ :: us) := by
  rw [scanFrom, if_neg (by decide), if_pos rfl, if_neg (by decide)]
  change (scanFrom blocks [] true ⟨p.line + 1, 1⟩ cs >>= _) = _
  rw [h]
  rfl

variable {c stop : Char} {w : List Char} {kind : Kind} {literal : Atom}

theorem scanFrom_fresh (word : Word c w kind literal) (hs : Stop stop)
    (hm : indentation (p.column - 1) blocks ⟨p.line, 1⟩ = .ok (marks, ladder depth))
    (h : scanFrom (ladder depth) brackets false p (c :: (w ++ stop :: cs)) = .ok us) :
    scanFrom blocks brackets true p (c :: (w ++ stop :: cs)) = .ok (marks ++ us) := by
  rw [scanFrom, if_neg word.shown, if_neg word.ne_newline,
    if_neg (by rw [word.text hs]; exact Bool.false_ne_true), if_pos rfl, hm]
  change (scanFrom (ladder depth) brackets false p (c :: (w ++ stop :: cs)) >>= _) = _
  rw [h]
  rfl

theorem scanFrom_word (word : Word c w kind literal) (hs : Stop stop)
    (hb : track brackets kind = .ok after)
    (h : scanFrom blocks after false (p.after (c :: w)) (stop :: cs) = .ok us) :
    scanFrom blocks brackets false p (c :: (w ++ stop :: cs)) =
      .ok (⟨kind, String.ofList (c :: w), literal, p.line, p.column⟩ :: us) := by
  rw [scanFrom, if_neg word.shown, if_neg word.ne_newline,
    if_neg (by rw [word.text hs]; exact Bool.false_ne_true), if_neg Bool.false_ne_true,
    word.read hs]
  dsimp only
  rw [hb]
  dsimp only
  rw [List.take_left, List.drop_left, h]
  rfl

/-- Whatever follows on a line begins with a space or ends the line. -/
theorem Laid.stops (h : Laid depth brackets false ts) :
    ∃ stop cs, Stop stop ∧ layout depth false ts = stop :: cs := by
  cases h with
  | newline ht _ => exact ⟨_, _, .inr rfl, layout_newline ht⟩
  | word ht _ _ => exact ⟨_, _, .inl rfl, layout_word ht.kind_isLayout⟩

theorem Laid.rest (h : Laid depth brackets false (t :: ts)) (ht : t.IsWord) :
    ∃ after, track brackets t.kind = .ok after ∧ Laid depth after false ts := by
  cases h with
  | newline hn _ =>
    have layout := ht.kind_isLayout
    rw [show t.kind = .newline from congrArg Prod.fst hn] at layout
    cases layout
  | word _ hb h => exact ⟨_, hb, h⟩

/-- A line that changes its blocks as the marks say is scanned as the marks and the line. -/
theorem scan_line (hp : p.column = 1) (ht : t.IsWord) (hl : Laid depth [] false (t :: ts))
    (hm : indentation (4 * depth) blocks ⟨p.line, 1⟩ = .ok (marks, ladder depth))
    (h : ∀ q : Position, (false = true → q.column = 1) →
      ∃ us, scanFrom (ladder depth) [] false q (layout depth false (t :: ts)) = .ok us ∧
        us.map bare = (t :: ts).map bare) :
    ∃ us, scanFrom blocks [] true p (layout depth true (t :: ts)) = .ok (marks ++ us) ∧
      us.map bare = (t :: ts).map bare := by
  obtain ⟨after, -, rest⟩ := hl.rest ht
  obtain ⟨stop, cs, hs, hcs⟩ := rest.stops
  obtain ⟨us, hus, same⟩ := h ⟨p.line, 4 * depth⟩ nofun
  refine ⟨us, ?_, same⟩
  have kind := ht.kind_isLayout
  obtain ⟨c, w, lexeme, word⟩ := ht
  rw [layout_word kind, lexeme, String.toList_ofList, hcs] at hus ⊢
  rw [if_neg Bool.false_ne_true] at hus
  rw [if_pos rfl, scanFrom_spaces, hp, Nat.add_comm]
  refine scanFrom_fresh word hs hm ?_
  rwa [List.singleton_append, scanFrom_space] at hus

theorem map_bare_marks {kind : Kind} (h : ∀ t ∈ ts, t.IsMark kind) :
    ts.map bare = List.replicate ts.length (kind, "", .none) :=
  List.map_eq_replicate_iff.mpr h

theorem Laid.scan (h : Laid depth brackets fresh ts) (p : Position)
    (hp : fresh = true → p.column = 1) :
    ∃ us, scanFrom (ladder depth) brackets fresh p (layout depth fresh ts) = .ok us ∧
      us.map bare = ts.map bare := by
  induction h generalizing p with
  | @finish ms t hms ht =>
    rw [layout_finish hms ht, scanFrom]
    refine ⟨_, rfl, ?_⟩
    have closed : ∀ m ∈ (ladder ms.length).map fun _ => mark .dedent p, m.IsMark .dedent := by
      intro m hm
      obtain ⟨_, -, rfl⟩ := List.mem_map.mp hm
      exact isMark_mark _ _
    rw [List.map_append, List.map_append, map_bare_marks closed, map_bare_marks hms,
      List.length_map, ladder_length, List.map_singleton, List.map_singleton, ht]
    rfl
  | @indent depth m t ts hm ht h ih =>
    rw [layout_indent hm]
    obtain ⟨us, hus, same⟩ := scan_line (hp rfl) ht h (indentation_indent _) ih
    refine ⟨_, hus, ?_⟩
    rw [List.map_append, same, List.map_cons (l := t :: ts), hm]
    rfl
  | @dedent depth ms t ts hms ht h ih =>
    rw [layout_dedents hms]
    obtain ⟨us, hus, same⟩ := scan_line (hp rfl) ht h (indentation_dedent _ ms.length) ih
    refine ⟨_, hus, ?_⟩
    have closed : ∀ m ∈ List.replicate ms.length (mark .dedent ⟨p.line, 1⟩), m.IsMark .dedent :=
      fun m hm => List.eq_of_mem_replicate hm ▸ isMark_mark _ _
    rw [List.map_append, List.map_append, map_bare_marks closed, map_bare_marks hms,
      List.length_replicate, same]
  | newline ht h ih =>
    rw [layout_newline ht]
    obtain ⟨us, hus, same⟩ := ih ⟨p.line + 1, 1⟩ fun _ => rfl
    refine ⟨_, scanFrom_newline hus, ?_⟩
    rw [List.map_cons, List.map_cons, same, ht]
    rfl
  | word ht hb h ih =>
    obtain ⟨stop, cs, hs, hcs⟩ := h.stops
    have kind := ht.kind_isLayout
    obtain ⟨c, w, lexeme, word⟩ := ht
    obtain ⟨us, hus, same⟩ := ih (Position.after ⟨p.line, p.column + 1⟩ (c :: w)) Bool.noConfusion
    rw [hcs] at hus
    have read := scanFrom_word word hs hb hus
    rw [layout_word kind, if_neg Bool.false_ne_true, List.singleton_append, scanFrom_space,
      lexeme, String.toList_ofList, hcs]
    refine ⟨_, read, ?_⟩
    rw [List.map_cons, List.map_cons, same, bare, bare, lexeme]

theorem Laid.plain (h : Laid depth brackets fresh ts) :
    ∀ x ∈ layout depth fresh ts, Source.Plain x := by
  have start {depth : Nat} {t : Token} {ts : List Token} (ht : t.IsWord)
      (h : ∀ x ∈ layout depth false (t :: ts), Source.Plain x) :
      ∀ x ∈ layout depth true (t :: ts), Source.Plain x := by
    rw [layout_word ht.kind_isLayout] at h ⊢
    intro x hx
    rcases List.mem_append.mp hx with hx | hx
    · rw [List.eq_of_mem_replicate hx]
      exact Source.plain_space
    · exact h x (List.mem_append_right _ hx)
  induction h with
  | finish hms ht =>
    rw [layout_finish hms ht]
    exact nofun
  | indent hm ht _ ih =>
    rw [layout_indent hm]
    exact start ht ih
  | dedent hms ht _ ih =>
    rw [layout_dedents hms]
    exact start ht ih
  | newline ht _ ih =>
    rw [layout_newline ht]
    exact List.forall_mem_cons.mpr ⟨Source.plain_newline, ih⟩
  | word ht _ _ ih =>
    rw [layout_word ht.kind_isLayout, if_neg Bool.false_ne_true]
    obtain ⟨c, w, lexeme, word⟩ := ht
    rw [lexeme, String.toList_ofList, List.singleton_append]
    refine List.forall_mem_cons.mpr ⟨Source.plain_space, fun x hx => ?_⟩
    rcases List.mem_append.mp hx with hx | hx
    · exact word.plain x hx
    · exact ih x hx

theorem getLast?_append {w cs : List Char} (h : cs.getLast? = some '\n') :
    (w ++ cs).getLast? = some '\n' := by
  rw [List.getLast?_append, h]
  rfl

/-- A line that is begun is ended. -/
theorem Laid.ended (h : Laid depth brackets fresh ts) :
    (layout depth fresh ts).getLast? = some '\n' ∨ layout depth fresh ts = [] ∧ fresh = true := by
  have start {depth : Nat} {t : Token} {ts : List Token} (ht : t.IsWord)
      (h : (layout depth false (t :: ts)).getLast? = some '\n' ∨
        layout depth false (t :: ts) = [] ∧ false = true) :
      (layout depth true (t :: ts)).getLast? = some '\n' := by
    have line := h.resolve_right nofun
    rw [layout_word ht.kind_isLayout] at line ⊢
    rw [if_neg Bool.false_ne_true] at line
    exact getLast?_append (getLast?_rest line (by decide))
  induction h with
  | finish hms ht => exact .inr ⟨layout_finish hms ht, rfl⟩
  | indent hm ht _ ih =>
    rw [layout_indent hm]
    exact .inl (start ht ih)
  | dedent hms ht _ ih =>
    rw [layout_dedents hms]
    exact .inl (start ht ih)
  | newline ht _ ih =>
    rw [layout_newline ht]
    rcases ih with line | ⟨nothing, -⟩
    · exact .inl (getLast?_append (w := ['\n']) line)
    · rw [nothing]
      exact .inl rfl
  | word ht _ _ ih =>
    rw [layout_word ht.kind_isLayout]
    exact .inl (getLast?_append (getLast?_append (ih.resolve_right nofun)))

end Scan

/-- What was scanned from a text is scanned again from its tokens laid out anew. -/
theorem scan_layout {text : String} {ts : List Token} (h : scan text = .ok ts) :
    ∃ us, scan (String.ofList (layout 0 true ts)) = .ok us ∧ us.map bare = ts.map bare := by
  have laid : Laid 0 [] true ts := scanFrom_laid (fun _ => rfl) (.inl (Source.getLast?_cleanList _))
    (Source.plain_cleanList _) h
  rw [scan, String.toList_ofList]
  rcases laid.ended with line | ⟨nothing, -⟩
  · rw [Source.cleanList_plain laid.plain line]
    exact laid.scan ⟨1, 1⟩ fun _ => rfl
  · obtain ⟨us, hus, same⟩ := laid.scan ⟨2, 1⟩ fun _ => rfl
    refine ⟨us, ?_, same⟩
    rw [nothing] at hus ⊢
    change scanFrom [] [] true ⟨1, 1⟩ ['\n'] = _
    rw [scanFrom, if_neg (by decide), if_pos rfl, if_pos (by decide)]
    exact hus

theorem scan_layout_commented :
    ∃ ts us, scan "if x: # then\n        f(\n  y)" = .ok ts ∧
      scan (String.ofList (layout 0 true ts)) = .ok us ∧ us.map bare = ts.map bare := by
  have scans : (scan "if x: # then\n        f(\n  y)").toBool = true := by cbv
  obtain ⟨ts, h⟩ : ∃ ts, scan "if x: # then\n        f(\n  y)" = .ok ts := by
    cases h : scan "if x: # then\n        f(\n  y)" with
    | error e =>
      rw [h] at scans
      cases scans
    | ok ts => exact ⟨ts, rfl⟩
  obtain ⟨us, hus, same⟩ := scan_layout h
  exact ⟨ts, us, h, hus, same⟩

example : (scan "if x: # then\n        f(\n  y)").map (String.ofList <| layout 0 true ·) =
    .ok "if x :\n    f ( y )\n" := by cbv

end LoopScript.Token
