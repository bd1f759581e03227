import LoopScript.Proofs.Computation
import LoopScript.Proofs.Token.Words

/-!
The lists of tokens that a scan can give: logical lines, each opening a block, leaving some or
staying in its own, and at the end the blocks that are still open.
-/

namespace LoopScript

namespace Token

/-- A token without its place. -/
def bare (t : Token) : Kind × String × Atom := (t.kind, t.lexeme, t.literal)

def IsMark (kind : Kind) (t : Token) : Prop := t.bare = (kind, "", .none)

def IsNewline (t : Token) : Prop := t.bare = (.newline, "\n", .none)

def IsWord (t : Token) : Prop :=
  ∃ c w, t.lexeme = String.ofList (c :: w) ∧ Word c w t.kind t.literal

/-- The tokens that can follow with so many open blocks and these open brackets, at the start of a
line if it is fresh. -/
inductive Laid : Nat → List Symbol → Bool → List Token → Prop where
  | finish {ms : List Token} {t : Token} (hms : ∀ m ∈ ms, m.IsMark .dedent) (ht : t.IsMark .eof) :
      Laid ms.length [] true (ms ++ [t])
  | indent {depth : Nat} {m t : Token} {ts : List Token} (hm : m.IsMark .indent) (ht : t.IsWord)
      (h : Laid (depth + 1) [] false (t :: ts)) : Laid depth [] true (m :: t :: ts)
  | dedent {depth : Nat} {ms : List Token} {t : Token} {ts : List Token}
      (hms : ∀ m ∈ ms, m.IsMark .dedent) (ht : t.IsWord) (h : Laid depth [] false (t :: ts)) :
      Laid (depth + ms.length) [] true (ms ++ t :: ts)
  | newline {depth : Nat} {t : Token} {ts : List Token} (ht : t.IsNewline)
      (h : Laid depth [] true ts) : Laid depth [] false (t :: ts)
  | word {depth : Nat} {brackets after : List Symbol} {t : Token} {ts : List Token}
      (ht : t.IsWord) (hb : track brackets t.kind = .ok after) (h : Laid depth after false ts) :
      Laid depth brackets false (t :: ts)

theorem isMark_mark (kind : Kind) (p : Position) : (mark kind p).IsMark kind := rfl

section Scan

variable {blocks : List Nat} {brackets : List Symbol} {fresh : Bool} {p : Position}
  {c : Char} {cs : List Char} {ts : List Token}

theorem leave_length (width : Nat) (blocks : List Nat) :
    (leave width blocks).2.length + (leave width blocks).1 = blocks.length := by
  induction blocks with
  | nil => rfl
  | cons w ws ih =>
    rw [leave]
    split
    · rw [List.length_cons, ← ih]
      rfl
    · rfl

theorem indentation_marks {width : Nat} {marks : List Token} {after : List Nat}
    (h : indentation width blocks p = .ok (marks, after)) :
    (∃ m, marks = [m] ∧ m.IsMark .indent ∧ after.length = blocks.length + 1) ∨
      (∀ m ∈ marks, m.IsMark .dedent) ∧ after.length + marks.length = blocks.length := by
  rw [indentation] at h
  split at h
  · split at h
    · cases h
      exact .inl ⟨_, rfl, rfl, rfl⟩
    · cases h
  · dsimp only at h
    split at h
    · cases h
      refine .inr ⟨fun m hm => ?_, ?_⟩
      · rw [List.eq_of_mem_replicate hm]
        exact isMark_mark _ _
      · rw [List.length_replicate]
        exact leave_length _ _
    · cases h

theorem getLast?_rest {w rest : List Char} (h : (w ++ rest).getLast? = some '\n')
    (hw : '\n' ∉ w) : rest.getLast? = some '\n' := by
  rcases List.eq_nil_or_concat rest with rfl | ⟨us, x, rfl⟩
  · rw [List.append_nil] at h
    exact absurd (List.mem_of_getLast? h) hw
  · rw [List.concat_eq_append, ← List.append_assoc, List.getLast?_concat] at h
    rw [List.concat_eq_append, List.getLast?_concat, h]

/-- The rest of a text ends its line, or nothing is left and no line is begun. -/
def Ended (brackets : List Symbol) (fresh : Bool) (cs : List Char) : Prop :=
  cs.getLast? = some '\n' ∨ cs = [] ∧ (fresh = true ∨ brackets ≠ [])

theorem Ended.rest {w rest : List Char} (h : Ended brackets fresh (c :: w ++ rest))
    (hw : '\n' ∉ c :: w) (after : List Symbol) (b : Bool) : Ended after b rest :=
  h.elim (fun h => .inl (getLast?_rest h hw)) (fun h => nomatch h.1)

theorem Ended.line (h : Ended brackets fresh ('\n' :: cs)) {after : List Symbol} {b : Bool}
    (hb : b = true ∨ after ≠ []) : Ended after b cs := by
  cases cs with
  | nil => exact .inr ⟨rfl, hb⟩
  | cons c cs => exact .inl (h.elim (fun h => h) fun h => nomatch h.1)

theorem scanFrom_head (hs : c ≠ ' ') (hn : c ≠ '\n') (hc : startsComment c cs = false)
    (h : scanFrom blocks brackets false p (c :: cs) = .ok ts) :
    ∃ t us, ts = t :: us ∧ t.kind.isLayout = false ∧ t.column = p.column := by
  rw [scanFrom, if_neg hs, if_neg hn, if_neg (by rw [hc]; exact Bool.false_ne_true),
    if_neg Bool.false_ne_true] at h
  split at h
  · cases h
  · next m hm =>
    split at h
    · cases h
    · obtain ⟨us, -, hus⟩ := ok_of_bind h
      cases hus
      exact ⟨_, _, rfl, munch_kind hm, rfl⟩

theorem Laid.isWord {depth : Nat} {t : Token} (h : Laid depth brackets false (t :: ts))
    (ht : t.kind.isLayout = false) : t.IsWord := by
  cases h with
  | newline hn _ =>
    rw [show t.kind = .newline from congrArg Prod.fst hn] at ht
    cases ht
  | word hw _ _ => exact hw

theorem scanFrom_laid (hf : fresh = true → brackets = []) (he : Ended brackets fresh cs)
    (hp : ∀ x ∈ cs, Source.Plain x) (h : scanFrom blocks brackets fresh p cs = .ok ts) :
    Laid blocks.length brackets fresh ts := by
  fun_induction scanFrom blocks brackets fresh p cs generalizing ts with
  | case1 blocks brackets fresh p =>
    unfold finish at h
    split at h
    · cases h
    · cases h
      obtain rfl : fresh = true := (he.resolve_left nofun).2.resolve_right (· rfl)
      have depth : (blocks.map fun _ => mark .dedent p).length = blocks.length := List.length_map _
      rw [← depth]
      refine .finish (fun m hm => ?_) (isMark_mark _ _)
      obtain ⟨_, -, rfl⟩ := List.mem_map.mp hm
      exact isMark_mark _ _
  | case2 blocks brackets fresh p cs ih =>
    exact ih hf (he.rest (w := []) (by decide) _ _) (fun x hx => hp x (List.mem_cons_of_mem _ hx)) h
  | case3 blocks brackets fresh p cs open_ _ ih =>
    refine ih hf (he.line ?_) (fun x hx => hp x (List.mem_cons_of_mem _ hx)) h
    rcases Bool.or_eq_true_iff.mp open_ with hb | hb
    · exact .inl hb
    · exact .inr (by rintro rfl; cases hb)
  | case4 blocks brackets fresh p cs closed _ ih =>
    obtain ⟨us, hus, hts⟩ := ok_of_bind h
    cases hts
    rw [Bool.or_eq_true, not_or, Bool.not_eq_true, Bool.not_eq_true, Bool.not_eq_false',
      List.isEmpty_iff] at closed
    obtain ⟨rfl, rfl⟩ := closed
    exact .newline rfl (ih (fun _ => rfl) (he.line (.inl rfl))
      (fun x hx => hp x (List.mem_cons_of_mem _ hx)) hus)
  | case5 blocks brackets fresh p c cs space newline _ skipped =>
    rename_i ih
    have parts : cs = skipped ++ cs.drop skipped.length :=
      (List.prefix_iff_eq_append.mp (List.takeWhile_prefix _)).symm
    have line : '\n' ∉ c :: skipped := by
      rintro (_ | ⟨_, h⟩)
      · exact newline rfl
      · have other := List.mem_takeWhile_imp (p := fun x => decide (x ≠ '\n')) h
        cases other
    rw [parts] at he
    exact ih hf (he.rest line _ _)
      (fun x hx => hp x (List.mem_cons_of_mem _ (List.mem_of_mem_drop hx))) h
  | case6 => cases h
  | case7 blocks brackets p c cs space newline comment marks after hm ih =>
    obtain ⟨us, hus, hts⟩ := ok_of_bind h
    cases hts
    have comment := Bool.eq_false_iff.mpr comment
    obtain rfl := hf rfl
    have laid := ih nofun (he.elim .inl nofun) hp hus
    obtain ⟨t, us, rfl, ht, -⟩ := scanFrom_head space newline comment hus
    have ht := laid.isWord ht
    rcases indentation_marks hm with ⟨m, rfl, mark, depth⟩ | ⟨marks, depth⟩
    · rw [depth] at laid
      exact .indent mark ht laid
    · rw [← depth]
      exact .dedent marks ht laid
  | case8 => cases h
  | case9 => cases h
  | case10 blocks brackets fresh p c cs space newline comment stale m hm after hb word =>
    rename_i ih
    obtain ⟨us, hus, hts⟩ := ok_of_bind h
    cases hts
    obtain rfl := Bool.eq_false_iff.mpr stale
    obtain ⟨hcs, read⟩ := word_of_munch space newline (Bool.eq_false_iff.mpr comment) hp hm
    rw [hcs] at he
    exact .word ⟨c, _, rfl, read⟩ hb (ih nofun (he.rest read.line _ _)
      (fun x hx => hp x (List.mem_cons_of_mem _ (List.mem_of_mem_drop hx))) hus)

theorem scan_laid {text : String} (h : scan text = .ok ts) : Laid 0 [] true ts :=
  scanFrom_laid (fun _ => rfl) (.inl (Source.getLast?_cleanList _)) (Source.plain_cleanList _) h

/-- What marks and words have in common, all tokens have. -/
theorem Laid.forall_mem {P : Token → Prop} {depth : Nat} (h : Laid depth brackets fresh ts)
    (mark : ∀ kind, kind.isLayout = true → kind ≠ .newline → ∀ t : Token, t.IsMark kind → P t)
    (newline : ∀ t : Token, t.IsNewline → P t) (word : ∀ t : Token, t.IsWord → P t) :
    ∀ t ∈ ts, P t := by
  induction h with
  | finish hms ht =>
    rw [List.forall_mem_append, List.forall_mem_singleton]
    exact ⟨fun m hm => mark .dedent rfl nofun m (hms m hm), mark .eof rfl nofun _ ht⟩
  | indent hm _ _ ih => exact List.forall_mem_cons.mpr ⟨mark .indent rfl nofun _ hm, ih⟩
  | dedent hms _ _ ih =>
    exact List.forall_mem_append.mpr ⟨fun m hm => mark .dedent rfl nofun m (hms m hm), ih⟩
  | newline ht _ ih => exact List.forall_mem_cons.mpr ⟨newline _ ht, ih⟩
  | word ht _ _ ih => exact List.forall_mem_cons.mpr ⟨word _ ht, ih⟩

end Scan

end Token

end LoopScript
