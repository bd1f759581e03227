import LoopScript.Proofs.Token.Coverage
import LoopScript.Proofs.Token.Layout

/-!
Texts written as string literals. Whatever a text holds, its literal is scanned as one token with that
text for its value.
-/

namespace LoopScript.Token

/-- How a character is written between two quotes. -/
def escape (q c : Char) : List Char :=
  if c = '\n' then ['\\', 'n']
  else if c = '\r' then ['\\', 'r']
  else if c = '\t' then ['\\', 't']
  else if c = q ∨ c = '\\' then ['\\', c]
  else [c]

/-- The literal of a text. -/
def quote (q : Char) (s : List Char) : List Char :=
  q :: (s.flatMap (escape q) ++ [q])

def IsQuote (q : Char) : Prop := q = '"' ∨ q = '\''

section Literals

variable {q c : Char} {s us : List Char}

theorem escape_cases (hq : IsQuote q) (c : Char) :
    (∃ e, escape q c = ['\\', e] ∧ e ≠ '\n' ∧ unescape e = c ∧ Source.Plain e) ∨
      escape q c = [c] ∧ c ≠ '\n' ∧ c ≠ '\r' ∧ c ≠ '\t' ∧ c ≠ q ∧ c ≠ '\\' := by
  unfold escape
  by_cases newline : c = '\n'
  · exact .inl ⟨'n', by rw [if_pos newline], by decide, newline.symm, by decide⟩
  by_cases carriage : c = '\r'
  · exact .inl ⟨'r', by rw [if_neg newline, if_pos carriage], by decide, carriage.symm, by decide⟩
  by_cases tab : c = '\t'
  · exact .inl ⟨'t', by rw [if_neg newline, if_neg carriage, if_pos tab], by decide, tab.symm,
      by decide⟩
  rw [if_neg newline, if_neg carriage, if_neg tab]
  by_cases special : c = q ∨ c = '\\'
  · left
    refine ⟨c, if_pos special, newline, ?_⟩
    rcases special with rfl | rfl
    · rcases hq with rfl | rfl <;> decide
    · decide
  · right
    obtain ⟨quote, backslash⟩ := not_or.mp special
    exact ⟨if_neg special, newline, carriage, tab, quote, backslash⟩

theorem quoted_flatMap (hq : IsQuote q) (s us : List Char) :
    quoted q (s.flatMap (escape q) ++ q :: us) = some ((s.flatMap (escape q)).length + 1, s) := by
  induction s with
  | nil =>
    rw [List.flatMap_nil, List.nil_append]
    rcases hq with rfl | rfl <;> rfl
  | cons c s ih =>
    rw [List.flatMap_cons, List.append_assoc]
    rcases escape_cases hq c with ⟨e, escaped, line, same, -⟩ | ⟨kept, line, -, -, quote, backslash⟩
    · rw [escaped, List.cons_append, List.singleton_append, quoted_escape line, ih, same]
      rfl
    · rw [kept, List.singleton_append, quoted_char line backslash, if_neg quote, ih]
      rfl

theorem plain_quote (hq : IsQuote q) (visible : ∀ c ∈ s, Source.isInvisible c = false) :
    ∀ c ∈ quote q s, Source.Plain c ∧ c ≠ '\n' := by
  have ends : Source.Plain q ∧ q ≠ '\n' := by rcases hq with rfl | rfl <;> decide
  refine List.forall_mem_cons.mpr ⟨ends, List.forall_mem_append.mpr ⟨fun x hx => ?_, ?_⟩⟩
  · obtain ⟨c, hc, hx⟩ := List.mem_flatMap.mp hx
    rcases escape_cases hq c with ⟨e, escaped, line, -, plain⟩ | ⟨kept, line, carriage, tab, -⟩
    · rw [escaped, List.mem_cons, List.mem_singleton] at hx
      rcases hx with rfl | rfl
      · decide
      · exact ⟨plain, line⟩
    · rw [kept, List.mem_singleton] at hx
      exact hx ▸ ⟨⟨carriage, tab, visible c hc⟩, line⟩
  · exact List.forall_mem_singleton.mpr ends

theorem word_quote (hq : IsQuote q) (visible : ∀ c ∈ s, Source.isInvisible c = false) :
    Word q (s.flatMap (escape q) ++ [q]) .string (.str (String.ofList s)) where
  shown := by rcases hq with rfl | rfl <;> decide
  line h := (plain_quote hq visible _ h).2 rfl
  plain x hx := (plain_quote hq visible x hx).1
  text _ := by rcases hq with rfl | rfl <;> rfl
  read _ := by
    rw [List.append_assoc, munch, if_pos (by exact hq), List.singleton_append, quoted_flatMap hq]
    simp

end Literals

theorem scan_quote {q : Char} (hq : IsQuote q) {s : String}
    (visible : ∀ c ∈ s.toList, Source.isInvisible c = false) :
    scan (String.ofList (quote q s.toList)) =
      .ok [⟨.string, String.ofList (quote q s.toList), .str s, 1, 1⟩,
        ⟨.newline, "\n", .none, 1, (quote q s.toList).length + 1⟩, mark .eof ⟨2, 1⟩] := by
  have plain := plain_quote hq visible
  have word := word_quote hq visible
  have last : (quote q s.toList).getLast? ≠ some '\n' := fun h =>
    (plain _ (List.mem_of_getLast? h)).2 rfl
  have cleaned : Source.cleanList (quote q s.toList) = quote q s.toList ++ ['\n'] := by
    rw [Source.cleanList, Source.normalize_plain fun c hc => (plain c hc).1, Source.closeLine,
      if_neg last]
  have place : Position.after ⟨1, 1⟩ (quote q s.toList) = ⟨1, (quote q s.toList).length + 1⟩ := by
    rw [Position.after_line_columns _ fun h => (plain _ h).2 rfl, Nat.add_comm]
  have ended : scanFrom [] [] true ⟨2, 1⟩ [] = .ok [mark .eof ⟨2, 1⟩] := by
    rw [scanFrom]
    rfl
  have line : scanFrom [] [] false (Position.after ⟨1, 1⟩ (quote q s.toList)) ['\n'] =
      .ok [⟨.newline, "\n", .none, 1, (quote q s.toList).length + 1⟩, mark .eof ⟨2, 1⟩] := by
    rw [place]
    exact scanFrom_newline ended
  have read := scanFrom_word word (.inr rfl) rfl line
  have width : indentation ((⟨1, 1⟩ : Position).column - 1) [] ⟨1, 1⟩ = .ok ([], ladder 0) := rfl
  have whole := scanFrom_fresh word (.inr rfl) width read
  rw [String.ofList_toList] at whole
  rw [scan, String.toList_ofList, cleaned, quote, List.cons_append, List.append_assoc]
  rw [List.append_assoc] at whole
  exact whole

theorem scan_quote_awkward :
    let s := "# // ([\x7b \"é\"\n\t\r\\'"
    IsQuote '\'' ∧ (∀ c ∈ s.toList, Source.isInvisible c = false) ∧
      String.ofList (quote '\'' s.toList) = "'# // ([\x7b \"é\"\\n\\t\\r\\\\\\''" ∧
      scan (String.ofList (quote '\'' s.toList)) =
        .ok [⟨.string, String.ofList (quote '\'' s.toList), .str s, 1, 1⟩,
          ⟨.newline, "\n", .none, 1, (quote '\'' s.toList).length + 1⟩, mark .eof ⟨2, 1⟩] := by
  intro s
  have visible : ∀ c ∈ s.toList, Source.isInvisible c = false := by simp [s, Source.isInvisible]
  exact ⟨.inr rfl, visible, by cbv, scan_quote (.inr rfl) visible⟩

end LoopScript.Token
