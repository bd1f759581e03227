import LoopScript.Proofs.Program.Parts
import LoopScript.Proofs.Program.Spans
import LoopScript.Proofs.Value.Rules

/-!
The words of source texts that errors name: the operators, which are those that are known, and the names
of functions and classes. None of them is the word of a statement that leaves a loop or a function.
-/

namespace LoopScript

namespace Token

/-- The lexemes that tokens of a kind can have. -/
def Kind.Spells : Kind → String → Prop
  | .keyword k, w => w = k.text
  | .symbol s, w => w = s.text
  | .ident, w => Keyword.ofText? w = none
  | _, _ => True

/-- The lexeme of all tokens of a kind, if there is but one. -/
def Kind.spelling? : Kind → Option String
  | .keyword k => some k.text
  | .symbol s => some s.text
  | _ => none

theorem Kind.Spells.eq {k : Kind} {w v : String} (h : k.Spells w) (hv : k.spelling? = some v) :
    w = v := by
  cases k <;> cases hv <;> exact h

theorem wordKind_spells (w : String) : (wordKind w).Spells w := by
  unfold wordKind
  split
  · next k h =>
    unfold Keyword.ofText? at h
    have spelled := List.find?_some h
    exact (eq_of_beq spelled).symm
  · next h => exact h

theorem pair?_spells {c d : Char} {s : Symbol} (h : Symbol.pair? c d = some s) :
    String.ofList [c, d] = s.text := by
  unfold Symbol.pair? at h
  split at h <;> cases h <;> rfl

theorem single?_spells {c : Char} {s : Symbol} (h : Symbol.single? c = some s) :
    String.ofList [c] = s.text := by
  unfold Symbol.single? at h
  split at h <;> cases h <;> rfl

theorem munch_spells {c : Char} {cs : List Char} {m : Munch} (h : munch c cs = .ok m) :
    m.kind.Spells (String.ofList (c :: cs.take m.more)) := by
  unfold munch at h
  split at h
  · split at h <;> cases h
    trivial
  split at h
  · cases h
    trivial
  split at h
  · cases h
    have whole : cs.take (cs.takeWhile isWordPart).length = cs.takeWhile isWordPart := by
      rw [← List.prefix_iff_eq_take.mp (List.takeWhile_prefix _)]
    simp only [whole]
    exact wordKind_spells _
  split at h
  · next s pair =>
    cases h
    obtain ⟨d, hd, hs⟩ := Option.bind_eq_some_iff.mp pair
    obtain ⟨us, rfl⟩ := List.head?_eq_some_iff.mp hd
    exact pair?_spells hs
  split at h
  · next s single =>
    cases h
    exact single?_spells single
  · cases h

variable {t : Token} {ts : List Token}

theorem IsWord.spells (h : t.IsWord) : t.kind.Spells t.lexeme := by
  obtain ⟨c, w, lexeme, word⟩ := h
  have read : munch c (w ++ [' ']) = .ok ⟨t.kind, w.length, t.literal⟩ := word.read (.inl rfl)
  have spells := munch_spells read
  simpa only [List.take_left, ← lexeme] using spells

theorem spells_of_isLayout (h : t.kind.isLayout = true) : t.kind.Spells t.lexeme := by
  cases hk : t.kind with
  | newline | indent | dedent | eof => trivial
  | _ => rw [hk] at h; cases h

theorem IsMark.spells {kind : Kind} (h : t.IsMark kind) (hk : kind.isLayout = true) :
    t.kind.Spells t.lexeme :=
  spells_of_isLayout ((show t.kind = kind from congrArg Prod.fst h) ▸ hk)

theorem IsNewline.spells (h : t.IsNewline) : t.kind.Spells t.lexeme :=
  spells_of_isLayout (by rw [show t.kind = .newline from congrArg Prod.fst h]; rfl)

theorem scan_spells {text : String} (h : scan text = .ok ts) : ∀ t ∈ ts, t.kind.Spells t.lexeme :=
  (scan_laid h).forall_mem (fun _ hk _ _ ht => ht.spells hk) (fun _ ht => ht.spells)
    fun _ ht => ht.spells

end Token

/-- The word of an expression that its errors may name. -/
def Expr.words : Expr → List String
  | binary _ op _ _ => [op.text]
  | unary _ op _ => [op.text]
  | _ => []

/-- The words of a statement itself that errors may name. -/
def Stmt.words : Stmt → List String
  | assign _ _ op _ => op.combine?.toList.map BinaryOp.text
  | function d => [d.name]
  | class_ _ name methods => name :: methods.map FunctionDef.name
  | _ => []

theorem name_clear {t : Token} (ht : t.kind.Spells t.lexeme) (hk : t.kind = .ident) :
    t.lexeme ∉ flowWords := by
  rw [hk] at ht
  have keyword : ∀ w ∈ flowWords, Keyword.ofText? w ≠ none := by decide
  exact fun h => keyword _ h ht

section Operators

variable {t : Token} (ht : t.kind.Spells t.lexeme)

include ht

/-- What holds of the spellings of some kinds holds of the lexemes of these kinds. -/
theorem of_spelling {P : String → Prop} {kinds : List Token.Kind} (hk : t.kind ∈ kinds)
    (h : ∀ k ∈ kinds, ∃ v ∈ k.spelling?, P v) : P t.lexeme := by
  obtain ⟨v, hv, hp⟩ := h _ hk
  exact ht.eq hv ▸ hp

theorem operator_clear {level : Reader.Level} (hk : t.kind ∈ level.operators) :
    ∀ w ∈ [(level.operator t).text], w ∉ flowWords := by
  cases level with
  | disjunction => exact (by decide : ∀ w ∈ ["or"], w ∉ flowWords)
  | conjunction => exact (by decide : ∀ w ∈ ["and"], w ∉ flowWords)
  | comparison | bitOr | bitXor | bitAnd | shift | sum | product =>
    exact of_spelling ht (P := fun v => ∀ w ∈ [(BinaryOp.ofText v).text], w ∉ flowWords) hk (by decide)

theorem sign_clear (hk : t.kind ∈ Reader.signs) :
    ∀ w ∈ [(UnaryOp.ofText t.lexeme).text], w ∉ flowWords :=
  of_spelling ht (P := fun v => ∀ w ∈ [(UnaryOp.ofText v).text], w ∉ flowWords) hk (by decide)

theorem assignment_clear (hk : t.kind ∈ Reader.assignments) :
    ∀ w ∈ (AssignOp.ofText t.lexeme).combine?.toList.map BinaryOp.text, w ∉ flowWords :=
  of_spelling ht
    (P := fun v => ∀ w ∈ (AssignOp.ofText v).combine?.toList.map BinaryOp.text, w ∉ flowWords) hk
    (by decide)

end Operators

section Stems

variable {o : Origin} {T : List Token} (hT : ∀ t ∈ T, t.kind.Spells t.lexeme)

include hT

theorem Expr.Stems.clear {e : Expr} (h : e.Stems o T) : ∀ w ∈ e.words, w ∉ flowWords := by
  cases e with
  | binary loc op l r =>
    rcases h.2 with rfl | ⟨t, ht, level, hk, rfl⟩
    · exact (by decide : ∀ w ∈ ["**"], w ∉ flowWords)
    · exact operator_clear (hT t ht) hk
  | unary loc op d =>
    rcases h.2 with rfl | ⟨t, ht, hk, rfl⟩
    · exact (by decide : ∀ w ∈ ["not"], w ∉ flowWords)
    · exact sign_clear (hT t ht) hk
  | _ => exact List.forall_mem_nil _

theorem Stmt.Stems.clear {s : Stmt} (h : s.Stems o T) : ∀ w ∈ s.words, w ∉ flowWords := by
  cases s with
  | assign loc target op e =>
    obtain ⟨t, ht, hk, rfl⟩ := h.spelled
    exact assignment_clear (hT t ht) hk
  | function d =>
    obtain ⟨t, ht, hk, name⟩ := h.spelled
    exact List.forall_mem_singleton.mpr (name ▸ name_clear (hT t ht) hk)
  | class_ loc name methods =>
    intro w hw
    obtain ⟨t, ht, hk, rfl⟩ := h.spelled w hw
    exact name_clear (hT t ht) hk
  | _ => exact List.forall_mem_nil _

end Stems

namespace Program

/-- The words of a program that its errors may name. -/
def Spells (p : Program) (w : String) : Prop :=
  (∃ looped inside s, p.Has looped inside s ∧ w ∈ s.words) ∨ ∃ e, p.Says e ∧ w ∈ e.words

variable {p : Program}

theorem holds_ofSource {text file : String} (h : ofSource text file = .ok p) :
    ∀ s ∈ p.statements, s.Holds (fun s => ∀ w ∈ s.words, w ∉ flowWords)
      (fun e => ∀ w ∈ e.words, w ∉ flowWords) := by
  obtain ⟨o, tokens, scanned, spans⟩ := spans_ofSource h
  have spells := Token.scan_spells scanned
  exact fun s hs =>
    Stmt.Holds.mono (spans.origins s hs) (fun _ h => h.clear spells) fun _ h => h.clear spells

/-- In a program that is read from a text none of them is the word of a statement that leaves a loop
or a function. -/
theorem spells_clear {text file : String} (h : ofSource text file = .ok p) {w : String}
    (hw : p.Spells w) : w ∉ flowWords := by
  have clear := holds_ofSource h
  rcases hw with ⟨looped, inside, s, hs, hw⟩ | ⟨e, he, hw⟩
  · exact (hs.holds clear).self w hw
  · exact (he.holds clear).self w hw

end Program

/-- The operator of an expression itself is known. -/
def Expr.Known : Expr → Prop
  | binary _ op _ _ => op ∈ BinaryOp.known
  | unary _ op _ => op ∈ UnaryOp.known
  | _ => True

def Stmt.Known : Stmt → Prop
  | assign _ _ op _ => op ∈ AssignOp.known
  | _ => True

/-- All operators inside an expression are known. -/
abbrev Expr.Familiar (e : Expr) : Prop := e.Holds Known

abbrev Stmt.Familiar (s : Stmt) : Prop := s.Holds Known Expr.Known

section Operators

variable {t : Token} (ht : t.kind.Spells t.lexeme)

include ht

theorem operator_known {level : Reader.Level} (hk : t.kind ∈ level.operators) :
    level.operator t ∈ BinaryOp.known := by
  cases level with
  | disjunction => exact (by decide : BinaryOp.or_ ∈ BinaryOp.known)
  | conjunction => exact (by decide : BinaryOp.and_ ∈ BinaryOp.known)
  | comparison | bitOr | bitXor | bitAnd | shift | sum | product =>
    exact of_spelling ht (P := (BinaryOp.ofText · ∈ BinaryOp.known)) hk (by decide)

theorem sign_known (hk : t.kind ∈ Reader.signs) : UnaryOp.ofText t.lexeme ∈ UnaryOp.known :=
  of_spelling ht (P := (UnaryOp.ofText · ∈ UnaryOp.known)) hk (by decide)

theorem assignment_known (hk : t.kind ∈ Reader.assignments) :
    AssignOp.ofText t.lexeme ∈ AssignOp.known :=
  of_spelling ht (P := (AssignOp.ofText · ∈ AssignOp.known)) hk (by decide)

end Operators

section Stems

variable {o : Origin} {T : List Token} (hT : ∀ t ∈ T, t.kind.Spells t.lexeme)

include hT

theorem Expr.Stems.known {e : Expr} (h : e.Stems o T) : e.Known := by
  cases e with
  | binary loc op l r =>
    rcases h.2 with rfl | ⟨t, ht, level, hk, rfl⟩
    · exact (by decide : BinaryOp.pow ∈ BinaryOp.known)
    · exact operator_known (hT t ht) hk
  | unary loc op d =>
    rcases h.2 with rfl | ⟨t, ht, hk, rfl⟩
    · exact (by decide : UnaryOp.not_ ∈ UnaryOp.known)
    · exact sign_known (hT t ht) hk
  | _ => trivial

theorem Stmt.Stems.known {s : Stmt} (h : s.Stems o T) : s.Known := by
  cases s with
  | assign loc target op e =>
    obtain ⟨t, ht, hk, rfl⟩ := h.spelled
    exact assignment_known (hT t ht) hk
  | _ => trivial

end Stems

theorem Program.familiar_ofSource {text file : String} {p : Program} (h : ofSource text file = .ok p) :
    ∀ s ∈ p.statements, s.Familiar := by
  obtain ⟨o, tokens, scanned, spans⟩ := spans_ofSource h
  have spells := Token.scan_spells scanned
  exact fun s hs =>
    Stmt.Holds.mono (spans.origins s hs) (fun _ h => h.known spells) fun _ h => h.known spells

end LoopScript
