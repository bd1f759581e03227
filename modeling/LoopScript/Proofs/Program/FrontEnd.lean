import LoopScript.Proofs.Program.Depth
import LoopScript.Proofs.Program.Rounds
import LoopScript.Proofs.Token.Places

/-!
The front end is total: every text is a program or is refused on one of its lines, and the parser
never looks behind the first end mark of its tokens.
-/

namespace LoopScript

namespace Reader

section Stops

variable {α β : Type} {x : Reader α} {f : α → Reader β}

/-- What is left by a reader begins with an end mark. -/
def Stops (x : Reader α) : Prop :=
  ∀ ts a us, x ts = .ok (a, us) → ∃ t vs, us = t :: vs ∧ t.kind = .eof

theorem stops_bind (h : ∀ a, Stops (f a)) : Stops (x >>= f) := by
  intro ts b us read
  simp only [Bind.bind, StateT.bind, Except.bind] at read
  split at read
  · cases read
  · exact h _ _ _ _ read

theorem Stops.map {g : α → β} (h : Stops x) : Stops (g <$> x) := by
  intro ts b us read
  simp only [Functor.map, StateT.map, Bind.bind, Except.bind] at read
  split at read
  · cases read
  next v hv =>
    cases read
    exact h _ _ _ hv

theorem stops_topLevel (o : Origin) (n : Nat) : Stops (topLevel o n) := by
  induction n with
  | zero => exact nofun
  | succ n ih =>
    rintro (_ | ⟨t, ts⟩) body us h
    · cases h
    rw [topLevel, bind_ok peek_cons] at h
    split at h
    next eof =>
      cases h
      exact ⟨t, ts, rfl, eof⟩
    next =>
      refine stops_bind (fun b => ?_) _ _ _ h
      split
      · exact ih
      · refine stops_bind fun s => ?_
        rw [bind_pure_comp]
        exact ih.map

end Stops

variable {o : Origin} {e : Token} {n : Nat} {ts : List Token}

/-- With enough depth a program is read up to the first end mark, or a token before it is refused. -/
theorem program_outcome (he : e.kind = .eof) (hts : ∀ t ∈ ts, t.kind ≠ .eof)
    (hn : 40 * (ts.length + 1) ≤ n) :
    (∃ p, ∀ rest, program o n (ts ++ e :: rest) = .ok (p, e :: rest)) ∨
      ∃ fault, ∃ t ∈ ts ++ [e], ∀ rest,
        program o n (ts ++ e :: rest) = .error (.refused fault t.line) := by
  have heT : e ∈ ts ++ [e] := by simp
  have enough : 40 * ts.length + 25 ≤ n := by omega
  have outcome := takes_topLevel (o := o) he heT enough (List.subset_append_left ts [e])
  cases outcome with
  | @value body us left taken read =>
    refine .inl ⟨⟨o.locate e, body⟩, fun rest => ?_⟩
    obtain ⟨t, vs, hvs, ht⟩ := stops_topLevel o n _ _ _ (read rest)
    have nothing : us = [] := by
      cases us with
      | nil => rfl
      | cons u us =>
        cases hvs
        exact absurd ht (hts _ (left.subset List.mem_cons_self))
    subst nothing
    rw [program, bind_ok (read rest)]
    rfl
  | @refusal fault t here read =>
    refine .inr ⟨fault, t, here, fun rest => ?_⟩
    rw [program, bind_error (read rest)]

end Reader

namespace Program

variable {o : Origin} {e : Token} {ts : List Token}

/-- What is behind the first end mark does not matter to the parser. -/
theorem ofTokens_outcome (he : e.kind = .eof) (hts : ∀ t ∈ ts, t.kind ≠ .eof) :
    (∃ p, ∀ rest, ofTokens o (ts ++ e :: rest) = .ok p ∧
      ∀ n, depthPerToken * (ts.length + 1) ≤ n →
        Reader.program o n (ts ++ e :: rest) = .ok (p, e :: rest)) ∨
      ∃ fault, ∃ t ∈ ts ++ [e], ∀ rest,
        ofTokens o (ts ++ e :: rest) = .error (.refused fault t.line) := by
  have deep (rest : List Token) : 40 * (ts.length + 1) ≤ 40 * ((ts ++ e :: rest).length + 1) := by
    simp only [List.length_append]
    omega
  rcases Reader.program_outcome (o := o) he hts (Nat.le_refl _) with ⟨p, read⟩ | ⟨fault, t, ht, read⟩
  · refine .inl ⟨p, fun rest => ?_⟩
    have deeper (n : Nat) (hn : 40 * (ts.length + 1) ≤ n) :
        Reader.program o n (ts ++ e :: rest) = .ok (p, e :: rest) := by
      rw [Reader.program_of_le hn (by rw [read]; nofun), read]
    refine ⟨?_, deeper⟩
    rw [ofTokens, StateT.run', depthPerToken, deeper _ (deep rest)]
    rfl
  · refine .inr ⟨fault, t, ht, fun rest => ?_⟩
    have deeper := Reader.program_of_le (deep rest) (by rw [read rest]; nofun)
    rw [ofTokens, StateT.run', depthPerToken, deeper, read]
    rfl

/-- The front end is total. The parser reads up to the first end mark of its tokens or refuses one of
the tokens up to it, whatever is behind; each round of each of its loops takes a token or ends the
loop; and a text is read to its only end mark or is refused on one of its lines. -/
theorem front_end_total :
    (∀ o, ∀ l ∈ Reader.loops o, l.Advances) ∧
    (∀ (o : Origin) (ts : List Token) (e : Token), e.kind = .eof → (∀ t ∈ ts, t.kind ≠ .eof) →
      (∃ p, ∀ rest, ofTokens o (ts ++ e :: rest) = .ok p ∧
        ∀ n, depthPerToken * (ts.length + 1) ≤ n →
          Reader.program o n (ts ++ e :: rest) = .ok (p, e :: rest)) ∨
      ∃ fault, ∃ t ∈ ts ++ [e], ∀ rest,
        ofTokens o (ts ++ e :: rest) = .error (.refused fault t.line)) ∧
    ∀ text file,
      (∃ ts e p, Token.scan text = .ok (ts ++ [e]) ∧ e.kind = .eof ∧ (∀ t ∈ ts, t.kind ≠ .eof) ∧
        ofSource text file = .ok p ∧ ∀ n, depthPerToken * (ts.length + 1) ≤ n →
          Reader.program ⟨file, (Text.lines text).toArray⟩ n (ts ++ [e]) = .ok (p, [e])) ∨
      (∃ err, ofSource text file = .error (.scan err) ∧
        1 ≤ err.line ∧ err.line ≤ Source.lineCount text + 1) ∨
      ∃ fault line, ofSource text file = .error (.parse (.refused fault line)) ∧
        1 ≤ line ∧ line ≤ Source.lineCount text + 1 := by
  refine ⟨Reader.Loop.advances, fun o ts e he hts => ofTokens_outcome he hts, fun text file => ?_⟩
  have stands := Token.scan_stands text
  have within {line : Nat}
      (h : Token.Position.Reaches ⟨1, 1⟩ (Source.cleanList text.toList) line) :
      1 ≤ line ∧ line ≤ Source.lineCount text + 1 := ⟨h.1, Nat.le_trans h.2 (Nat.le_of_eq
        (Nat.add_comm _ _))⟩
  rw [ofSource]
  cases scanned : Token.scan text with
  | error err =>
    rw [scanned] at stands
    exact .inr (.inl ⟨err, rfl, within stands⟩)
  | ok tokens =>
    rw [scanned] at stands
    obtain ⟨ts, e, rfl, he, hts⟩ := Token.scan_endMark scanned
    rcases ofTokens_outcome (o := ⟨file, (Text.lines text).toArray⟩) he hts with
      ⟨p, read⟩ | ⟨fault, t, ht, read⟩
    · obtain ⟨whole, left⟩ := read []
      exact .inl ⟨ts, e, p, rfl, he, hts, by dsimp only; rw [whole], left⟩
    · exact .inr (.inr ⟨fault, t.line, by dsimp only; rw [read []], within (stands t ht)⟩)

end Program

end LoopScript
