import LoopScript.Proofs.Token.Insertion
import LoopScript.Text.Lines

/-!
The lines of raw text, as a scan counts them, and the lines into which the same text is split by all
the boundaries of Unicode. In which way a text ends its lines makes no difference once it is cleaned.
-/

namespace LoopScript

namespace Source

/-- A line ends at a line feed, at a carriage return, or at both in this order. -/
def rawLines : List Char → List (List Char)
  | [] => [[]]
  | '\r' :: '\n' :: cs => [] :: rawLines cs
  | c :: cs =>
    if c = '\n' ∨ c = '\r' then [] :: rawLines cs else (rawLines cs).modifyHead (c :: ·)

/-- A line as cleaning leaves it, with its end. -/
def closed (line : List Char) : List Char := line.flatMap cleanChar ++ ['\n']

theorem rawLines_ne_nil (cs : List Char) : rawLines cs ≠ [] := by
  fun_induction rawLines cs with
  | case1 | case2 | case3 => exact List.cons_ne_nil _ _
  | case4 c cs _ _ ih => rwa [ne_eq, List.modifyHead_eq_nil_iff]

theorem flatMap_closed_modifyHead (c : Char) {lines : List (List Char)} (h : lines ≠ []) :
    (lines.modifyHead (c :: ·)).flatMap closed = cleanChar c ++ lines.flatMap closed := by
  cases lines with
  | nil => exact absurd rfl h
  | cons line lines => simp [closed]

theorem normalize_rawLines (cs : List Char) :
    normalize cs ++ ['\n'] = (rawLines cs).flatMap closed := by
  fun_induction rawLines cs with
  | case1 => rfl
  | case2 cs ih => exact congrArg ('\n' :: ·) ih
  | case3 c cs crlf hc ih =>
    have feed : normalize (c :: cs) = '\n' :: normalize cs := by
      rcases hc with rfl | rfl
      · rfl
      · rw [normalize]
        exact fun ds h => crlf ds rfl h
    rw [feed]
    exact congrArg ('\n' :: ·) ih
  | case4 c cs crlf hc ih =>
    have single : '\r' ∉ [c] := by simpa [eq_comm] using (not_or.mp hc).2
    have one := normalize_eq_flatMap single cs
    rw [List.singleton_append, List.flatMap_singleton] at one
    rw [one, flatMap_closed_modifyHead c (rawLines_ne_nil cs), ← ih, List.append_assoc]

theorem mem_rawLines (cs : List Char) : ∀ line ∈ rawLines cs, '\n' ∉ line ∧ '\r' ∉ line := by
  fun_induction rawLines cs with
  | case1 => exact List.forall_mem_singleton.mpr ⟨List.not_mem_nil, List.not_mem_nil⟩
  | case2 cs ih | case3 c cs _ _ ih =>
    exact List.forall_mem_cons.mpr ⟨⟨List.not_mem_nil, List.not_mem_nil⟩, ih⟩
  | case4 c cs _ hc ih =>
    cases hl : rawLines cs with
    | nil => exact nofun
    | cons line lines =>
      rw [hl] at ih
      obtain ⟨first, rest⟩ := List.forall_mem_cons.mp ih
      rw [List.modifyHead_cons]
      simp only [not_or] at hc
      refine List.forall_mem_cons.mpr ⟨?_, rest⟩
      simp [first.1, first.2, Ne.symm hc.1, Ne.symm hc.2]

theorem newline_not_mem_clean {line : List Char} (h : '\n' ∉ line) :
    '\n' ∉ line.flatMap cleanChar := by
  intro newline
  obtain ⟨c, hc, hn⟩ := List.mem_flatMap.mp newline
  rw [cleanChar] at hn
  split at hn
  · exact absurd (List.eq_of_mem_replicate hn) (by decide)
  · split at hn
    · exact absurd hn List.not_mem_nil
    · exact h (List.mem_singleton.mp hn ▸ hc)

theorem closed_eq_of_append {line above us rest : List Char} (hl : '\n' ∉ line) (ends : EndsLine above)
    (h : closed line ++ us = above ++ rest) (ha : above ≠ []) :
    ∃ above', above = closed line ++ above' ∧ EndsLine above' ∧ us = above' ++ rest := by
  have last : above.getLast? = some '\n' := ends.resolve_left ha
  rcases List.append_eq_append_iff.mp h with ⟨above', rfl, rest⟩ | ⟨v, split, rfl⟩
  · exact ⟨above', rfl, ends.rest, rest⟩
  · rcases List.eq_nil_or_concat v with rfl | ⟨v, c, rfl⟩
    · rw [List.append_nil] at split
      exact ⟨[], by rw [split, List.append_nil], .inl rfl, rfl⟩
    · -- The line feed that ends what stands above would be one inside of the line.
      rw [closed, List.concat_eq_append, ← List.append_assoc] at split
      have inside := (List.append_inj' split rfl).1
      refine absurd ?_ (newline_not_mem_clean hl)
      rw [inside]
      exact List.mem_append_left _ (List.mem_of_getLast? last)

/-- What stands behind whole lines of a text begins with the line after them. -/
theorem exists_line_of_lines {lines : List (List Char)} (hl : ∀ line ∈ lines, '\n' ∉ line)
    {above rest : List Char} (h : lines.flatMap closed = above ++ rest) (ends : EndsLine above)
    (hr : rest ≠ []) :
    ∃ line below, lines[above.count '\n']? = some line ∧ rest = closed line ++ below := by
  induction lines generalizing above with
  | nil =>
    rw [List.flatMap_nil] at h
    exact absurd (List.append_eq_nil_iff.mp h.symm).2 hr
  | cons line lines ih =>
    rw [List.flatMap_cons] at h
    obtain ⟨first, hl⟩ := List.forall_mem_cons.mp hl
    by_cases ha : above = []
    · subst ha
      exact ⟨line, lines.flatMap closed, rfl, h.symm⟩
    · obtain ⟨above', rfl, ends, h⟩ := closed_eq_of_append first ends h ha
      obtain ⟨next, below, found, rfl⟩ := ih hl h ends
      refine ⟨next, below, ?_, rfl⟩
      have one : (closed line).count '\n' = 1 := by
        rw [closed, List.count_append, List.count_eq_zero.mpr (newline_not_mem_clean first)]
        rfl
      rw [List.count_append, one, Nat.add_comm, List.getElem?_cons_succ]
      exact found

theorem cleanList_isPrefix (cs : List Char) : cleanList cs <+: (rawLines cs).flatMap closed := by
  rw [← normalize_rawLines, cleanList, closeLine]
  split
  · exact List.prefix_append _ _
  · exact List.prefix_rfl

theorem line_of_append {us vs line below : List Char} (hus : '\n' ∉ us)
    (h : us ++ vs = line ++ '\n' :: below) :
    ∃ after, line = us ++ after ∧ vs = after ++ '\n' :: below := by
  rcases List.append_eq_append_iff.mp h with h | ⟨ws, rfl, rest⟩
  · exact h
  · cases ws with
    | nil => exact ⟨[], by simp, rest.symm⟩
    | cons c ws =>
      have feed : '\n' = c := (List.cons.inj rest).1
      exact absurd (feed ▸ List.mem_append_right _ List.mem_cons_self) hus

/-- On a raw line, once it is cleaned, a word stands from some column on. -/
def WordAt (line : List Char) (column : Nat) (w : List Char) : Prop :=
  ∃ before after, closed line = before ++ (w ++ after) ∧ column = before.length + 1

/-- A word that cleaned text reads on some line stands on the raw line of that number. -/
theorem Reads.rawLine {cs w rest : List Char} {line column : Nat}
    (h : Reads (cleanList cs) line column (w ++ rest)) (hw : '\n' ∉ w ∨ w = ['\n']) (hne : w ≠ []) :
    ∃ raw, (rawLines cs)[line - 1]? = some raw ∧ WordAt raw column w := by
  obtain ⟨above, before, hcs, ends, same, rfl, rfl⟩ := h
  obtain ⟨more, hmore⟩ := cleanList_isPrefix cs
  have lines : (rawLines cs).flatMap closed = above ++ (before ++ (w ++ (rest ++ more))) := by
    rw [← hmore, hcs]
    simp only [List.append_assoc]
  have nonempty : before ++ (w ++ (rest ++ more)) ≠ [] := by simp [hne]
  obtain ⟨raw, below, found, read⟩ :=
    exists_line_of_lines (fun l hl => (mem_rawLines cs l hl).1) lines ends nonempty
  refine ⟨raw, found, before, ?_⟩
  rw [closed, List.append_assoc] at read
  rcases hw with hw | rfl
  · rw [← List.append_assoc] at read
    obtain ⟨after, clean, -⟩ := line_of_append (by simp [same, hw]) read
    exact ⟨after ++ ['\n'], by rw [closed, clean]; simp, rfl⟩
  · obtain ⟨after, clean, next⟩ := line_of_append same read
    have none : after = [] := by
      cases after with
      | nil => rfl
      | cons c after =>
        have feed : '\n' = c := (List.cons.inj next).1
        refine absurd ?_ (newline_not_mem_clean (mem_rawLines cs raw (List.mem_of_getElem? found)).1)
        rw [clean, feed]
        exact List.mem_append_right _ List.mem_cons_self
    exact ⟨[], by rw [closed, clean, none]; simp, rfl⟩

section Respelling

variable {c : Char} {cs ds : List Char}

/-- The same text with some of its line feeds written in one of the other ways. -/
inductive Respelled : List Char → List Char → Prop where
  | nil : Respelled [] []
  | keep (c : Char) {cs ds : List Char} (h : Respelled cs ds) : Respelled (c :: cs) (c :: ds)
  | both {cs ds : List Char} (h : Respelled cs ds) : Respelled ('\n' :: cs) ('\r' :: '\n' :: ds)
  | carriage {cs ds : List Char} (h : Respelled cs ds) (hd : ds.head? ≠ some '\n') :
      Respelled ('\n' :: cs) ('\r' :: ds)

theorem normalize_carriage (h : cs.head? ≠ some '\n') :
    normalize ('\r' :: cs) = '\n' :: normalize cs := by
  rw [normalize]
  rintro ds rfl
  exact h rfl

theorem normalize_cons (h : c ≠ '\r') (cs : List Char) :
    normalize (c :: cs) = cleanChar c ++ normalize cs := by
  have single : '\r' ∉ [c] := fun hc => h (List.mem_singleton.mp hc).symm
  have one := normalize_eq_flatMap single cs
  rwa [List.singleton_append, List.flatMap_singleton] at one

theorem Respelled.normalize (h : Respelled cs ds) (hr : '\r' ∉ cs) :
    normalize ds = normalize cs := by
  induction h with
  | nil => rfl
  | keep c h ih =>
    rw [List.mem_cons, not_or] at hr
    rw [normalize_cons (Ne.symm hr.1), normalize_cons (Ne.symm hr.1), ih hr.2]
  | both h ih => exact congrArg ('\n' :: ·) (ih (mt (List.mem_cons_of_mem _) hr))
  | carriage h hd ih =>
    rw [normalize_carriage hd, ih (mt (List.mem_cons_of_mem _) hr)]
    rfl

theorem Respelled.cleanList (h : Respelled cs ds) (hr : '\r' ∉ cs) : cleanList ds = cleanList cs := by
  rw [Source.cleanList, Source.cleanList, h.normalize hr]

theorem clean_normal (text : String) :
    (∀ c ∈ (clean text).toList, c ≠ '\r' ∧ c ≠ '\t' ∧ c ≠ '\x0b' ∧ c ≠ '\x0c' ∧ c ≠ '\ufeff') ∧
      (clean text).toList.getLast? = some '\n' ∧ clean (clean text) = clean text ∧
      ∀ other : String, '\r' ∉ text.toList → Respelled text.toList other.toList →
        clean other = clean text ∧ Token.scan other = Token.scan text := by
  have plain := plain_cleanList text.toList
  have last := getLast?_cleanList text.toList
  rw [clean, String.toList_ofList]
  refine ⟨fun c hc => ?_, last, ?_, fun other hr h => ?_⟩
  · obtain ⟨carriage, tab, visible⟩ := plain c hc
    simpa [isInvisible, carriage, tab, and_assoc] using visible
  · rw [clean, String.toList_ofList, cleanList_plain plain last]
  · rw [clean, Token.scan, Token.scan, h.cleanList hr]
    exact ⟨rfl, rfl⟩

theorem clean_normal_mixed :
    '\r' ∉ "if x:\n\ty\n\n".toList ∧ Respelled "if x:\n\ty\n\n".toList "if x:\r\ty\r\n\r".toList ∧
      clean "if x:\r\ty\r\n\r" = clean "if x:\n\ty\n\n" ∧
      Token.scan "if x:\r\ty\r\n\r" = Token.scan "if x:\n\ty\n\n" := by
  have none : '\r' ∉ "if x:\n\ty\n\n".toList := by decide
  have respelled : Respelled "if x:\n\ty\n\n".toList "if x:\r\ty\r\n\r".toList := by
    have last : Respelled ['\n'] ['\r'] := .carriage .nil (by decide)
    have inner : Respelled ('\t' :: 'y' :: ['\n', '\n']) ('\t' :: 'y' :: ['\r', '\n', '\r']) :=
      .keep _ (.keep _ (.both last))
    exact .keep _ (.keep _ (.keep _ (.keep _ (.keep _ (.carriage inner (by decide))))))
  exact ⟨none, respelled, (clean_normal "if x:\n\ty\n\n").2.2.2 _ none respelled⟩

end Respelling

end Source

namespace Text

open Source (rawLines)

/-- Up to the first boundary of another kind both ways of splitting a text agree. -/
theorem getElem?_splitLines (cs : List Char) (i : Nat)
    (h : ∀ line ∈ (rawLines cs).take (i + 1), ∀ c ∈ line, isLineBoundary c = false) :
    ((splitLines cs)[i]?).getD [] = ((rawLines cs)[i]?).getD [] := by
  fun_induction rawLines cs generalizing i with
  | case1 => cases i <;> rfl
  | case2 cs ih =>
    rw [splitLines]
    cases i with
    | zero => rfl
    | succ i => exact ih i fun line hl => h line (List.mem_cons_of_mem _ hl)
  | case3 c cs crlf hc ih =>
    have boundary : isLineBoundary c = true := by rcases hc with rfl | rfl <;> rfl
    rw [splitLines, if_pos boundary]
    · cases i with
      | zero => rfl
      | succ i => exact ih i fun line hl => h line (List.mem_cons_of_mem _ hl)
    · exact crlf
  | case4 c cs crlf hc ih =>
    obtain ⟨line, lines, hl⟩ := List.exists_cons_of_ne_nil (Source.rawLines_ne_nil cs)
    rw [hl, List.modifyHead_cons] at h ⊢
    rw [hl] at ih
    obtain ⟨first, rest⟩ := List.forall_mem_cons.mp h
    obtain ⟨inner, first⟩ := List.forall_mem_cons.mp first
    have same := ih i (List.forall_mem_cons.mpr ⟨first, rest⟩)
    rw [splitLines, if_neg (Bool.eq_false_iff.mp inner)]
    · cases hs : splitLines cs with
      | nil =>
        rw [hs] at same
        cases i with
        | zero => exact congrArg (c :: ·) same
        | succ i => exact same
      | cons l ls =>
        rw [hs] at same
        cases i with
        | zero => exact congrArg (c :: ·) same
        | succ i => exact same
    · exact crlf

end Text

end LoopScript
