import LoopScript.Proofs.Token.Layout

/-!
Where the tokens and the faults of a scan stand, and where its end mark does.
-/

namespace LoopScript

/-- The number of lines of a cleaned text, each of which ends in a line feed. -/
def Source.lineCount (text : String) : Nat := (cleanList text.toList).count '\n'

namespace Token

/-- The lines that a text may reach from a position on. -/
def Position.Reaches (p : Position) (cs : List Char) (line : Nat) : Prop :=
  p.line ≤ line ∧ line ≤ p.line + cs.count '\n'

theorem Position.after_line (p : Position) (cs : List Char) :
    (p.after cs).line = p.line + cs.count '\n' := by
  induction cs generalizing p with
  | nil => rfl
  | cons c cs ih =>
    rw [after, List.foldl_cons, ← after, ih, next]
    by_cases hc : c = '\n'
    · subst hc
      rw [if_pos rfl, List.count_cons_self]
      dsimp only
      omega
    · rw [if_neg hc, List.count_cons_of_ne hc]

theorem Position.Reaches.after {p : Position} {w cs : List Char} {line : Nat}
    (h : (p.after w).Reaches cs line) : p.Reaches (w ++ cs) line := by
  rw [Reaches, after_line] at h
  rw [Reaches, List.count_append]
  omega

theorem Position.reaches_line (p : Position) (cs : List Char) : p.Reaches cs p.line :=
  ⟨Nat.le_refl _, Nat.le_add_right _ _⟩

/-- Every token and every fault of a scan stands on one of these lines. -/
def Stands (p : Position) (cs : List Char) : Except ScanError (List Token) → Prop
  | .ok ts => ∀ t ∈ ts, p.Reaches cs t.line
  | .error e => p.Reaches cs e.line

section Scan

variable {blocks : List Nat} {p : Position} {w cs : List Char} {r : Except ScanError (List Token)}

theorem Stands.after (h : Stands (p.after w) cs r) : Stands p (w ++ cs) r := by
  cases r with
  | ok ts => exact fun t ht => (h t ht).after
  | error e => exact Position.Reaches.after h

theorem Stands.append {us : List Token} (hus : ∀ t ∈ us, p.Reaches cs t.line)
    (h : Stands p cs r) : Stands p cs (r >>= fun rest => .ok (us ++ rest)) := by
  cases r with
  | ok ts => exact List.forall_mem_append.mpr ⟨hus, h⟩
  | error e => exact h

theorem indentation_line {width : Nat} {marks : List Token} {after : List Nat}
    (h : indentation width blocks p = .ok (marks, after)) : ∀ m ∈ marks, m.line = p.line := by
  rw [indentation] at h
  split at h
  · split at h
    · cases h
      exact List.forall_mem_singleton.mpr rfl
    · cases h
  · dsimp only at h
    split at h
    · cases h
      intro m hm
      rw [List.eq_of_mem_replicate hm]
      rfl
    · cases h

theorem scanFrom_stands (blocks : List Nat) (brackets : List Symbol) (fresh : Bool) (p : Position)
    (cs : List Char) : Stands p cs (scanFrom blocks brackets fresh p cs) := by
  fun_induction scanFrom blocks brackets fresh p cs with
  | case1 blocks brackets fresh p =>
    unfold finish
    split
    · exact p.reaches_line []
    · refine List.forall_mem_append.mpr ⟨?_, List.forall_mem_singleton.mpr (p.reaches_line [])⟩
      intro m hm
      obtain ⟨_, -, rfl⟩ := List.mem_map.mp hm
      exact p.reaches_line []
  | case2 blocks brackets fresh p cs ih => exact Stands.after (w := [' ']) ih
  | case3 blocks brackets fresh p cs _ _ ih => exact Stands.after (w := ['\n']) ih
  | case4 blocks brackets fresh p cs _ _ ih =>
    have broken := Stands.after (w := ['\n']) ih
    exact Stands.append (List.forall_mem_singleton.mpr (p.reaches_line _)) broken
  | case5 blocks brackets fresh p c cs _ _ _ skipped =>
    rename_i ih
    have parts : skipped ++ cs.drop skipped.length = cs :=
      List.prefix_iff_eq_append.mp (List.takeWhile_prefix _)
    have stands := Stands.after ih
    rwa [List.cons_append, parts] at stands
  | case6 | case8 | case9 => exact Position.reaches_line _ _
  | case7 blocks brackets p c cs _ _ _ marks after hm ih =>
    refine Stands.append (fun m hm' => ?_) ih
    rw [indentation_line hm m hm']
    exact p.reaches_line _
  | case10 blocks brackets fresh p c cs _ _ _ _ m _ after _ word =>
    rename_i ih
    have stands := Stands.after ih
    rw [List.cons_append, List.take_append_drop] at stands
    exact Stands.append (List.forall_mem_singleton.mpr (p.reaches_line _)) stands

end Scan

theorem scan_stands (text : String) :
    Stands ⟨1, 1⟩ (Source.cleanList text.toList) (scan text) :=
  scanFrom_stands _ _ _ _ _

theorem IsWord.kind_ne_eof {t : Token} (h : t.IsWord) : t.kind ≠ .eof := by
  intro eof
  have layout := h.kind_isLayout
  rw [eof] at layout
  cases layout

theorem IsMark.kind {kind : Kind} {t : Token} (h : t.IsMark kind) : t.kind = kind :=
  congrArg Prod.fst h

theorem IsNewline.kind {t : Token} (h : t.IsNewline) : t.kind = .newline :=
  congrArg Prod.fst h

theorem Laid.endMark {depth : Nat} {brackets : List Symbol} {fresh : Bool} {ts : List Token}
    (h : Laid depth brackets fresh ts) :
    ∃ us e, ts = us ++ [e] ∧ e.kind = .eof ∧ ∀ t ∈ us, t.kind ≠ .eof := by
  have cons {t : Token} {ts : List Token} (ht : t.kind ≠ .eof)
      (h : ∃ us e, ts = us ++ [e] ∧ e.kind = .eof ∧ ∀ t ∈ us, t.kind ≠ .eof) :
      ∃ us e, t :: ts = us ++ [e] ∧ e.kind = .eof ∧ ∀ t ∈ us, t.kind ≠ .eof := by
    obtain ⟨us, e, rfl, he, hus⟩ := h
    exact ⟨t :: us, e, rfl, he, List.forall_mem_cons.mpr ⟨ht, hus⟩⟩
  have mark {kind : Kind} {m : Token} (hm : m.IsMark kind) (hk : kind ≠ .eof) : m.kind ≠ .eof := by
    rwa [hm.kind]
  induction h with
  | @finish ms t hms ht =>
    exact ⟨ms, t, rfl, ht.kind, fun m hm => mark (hms m hm) (by nofun)⟩
  | indent hm _ _ ih => exact cons (mark hm (by nofun)) ih
  | @dedent depth ms t ts hms _ _ ih =>
    obtain ⟨us, e, hus, he, hk⟩ := ih
    refine ⟨ms ++ us, e, by rw [hus, List.append_assoc], he, List.forall_mem_append.mpr ⟨?_, hk⟩⟩
    exact fun m hm => mark (hms m hm) (by nofun)
  | @newline depth t ts ht _ ih =>
    have kind : t.kind = .newline := congrArg Prod.fst ht
    exact cons (by rw [kind]; nofun) ih
  | word ht _ _ ih => exact cons ht.kind_ne_eof ih

/-- The tokens of a text end in its only end mark. -/
theorem scan_endMark {text : String} {ts : List Token} (h : scan text = .ok ts) :
    ∃ us e, ts = us ++ [e] ∧ e.kind = .eof ∧ ∀ t ∈ us, t.kind ≠ .eof :=
  (scan_laid h).endMark

end Token

end LoopScript
