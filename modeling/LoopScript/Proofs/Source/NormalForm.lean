import LoopScript.Source

/-!
What cleaned source text looks like: plain characters, and a line feed at the end.
-/

namespace LoopScript.Source

/-- The characters that cleaning keeps. -/
def Plain (c : Char) : Prop := c ≠ '\r' ∧ c ≠ '\t' ∧ isInvisible c = false

instance (c : Char) : Decidable (Plain c) := inferInstanceAs (Decidable (_ ∧ _ ∧ _))

theorem plain_space : Plain ' ' := by decide

theorem plain_newline : Plain '\n' := by decide

theorem plain_normalize (cs : List Char) : ∀ c ∈ normalize cs, Plain c := by
  fun_induction normalize cs with
  | case1 => exact nofun
  | case2 cs ih => exact List.forall_mem_cons.mpr ⟨plain_newline, ih⟩
  | case3 cs _ ih => exact List.forall_mem_cons.mpr ⟨plain_newline, ih⟩
  | case4 cs ih =>
    intro c hc
    rcases List.mem_append.mp hc with hc | hc
    · rw [List.eq_of_mem_replicate hc]
      exact plain_space
    · exact ih c hc
  | case5 c cs _ _ _ hc ih => exact ih
  | case6 c cs _ feed tab visible ih =>
    exact List.forall_mem_cons.mpr ⟨⟨feed, tab, Bool.eq_false_iff.mpr visible⟩, ih⟩

theorem normalize_plain {cs : List Char} (h : ∀ c ∈ cs, Plain c) : normalize cs = cs := by
  induction cs with
  | nil => rfl
  | cons c cs ih =>
    obtain ⟨hr, ht, hi⟩ := h c List.mem_cons_self
    rw [normalize, if_neg (by rw [hi]; exact Bool.false_ne_true),
      ih fun x hx => h x (List.mem_cons_of_mem _ hx)]
    · exact fun _ hc _ => hr hc
    · exact hr
    · exact ht

theorem plain_cleanList (cs : List Char) : ∀ c ∈ cleanList cs, Plain c := by
  intro c hc
  rw [cleanList, closeLine] at hc
  split at hc
  · exact plain_normalize cs c hc
  · rcases List.mem_append.mp hc with hc | hc
    · exact plain_normalize cs c hc
    · rw [List.mem_singleton.mp hc]
      exact plain_newline

theorem getLast?_cleanList (cs : List Char) : (cleanList cs).getLast? = some '\n' := by
  rw [cleanList, closeLine]
  split
  · assumption
  · exact List.getLast?_concat

theorem cleanList_plain {cs : List Char} (h : ∀ c ∈ cs, Plain c)
    (hl : cs.getLast? = some '\n') : cleanList cs = cs := by
  rw [cleanList, normalize_plain h, closeLine, if_pos hl]

end LoopScript.Source
