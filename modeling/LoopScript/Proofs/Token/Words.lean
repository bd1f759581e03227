import Mathlib.Data.List.TakeWhile
import LoopScript.Token.Scan
import LoopScript.Proofs.Source.NormalForm

/-!
Words of the source text. What the scanner takes for one token at the head of a text it takes for
the same token before any space or line feed.
-/

namespace LoopScript.Token

/-- The characters that end a word but are no part of one outside strings. -/
def Stop (c : Char) : Prop := c = ' ' ∨ c = '\n'

/-- The kinds that no characters spell but the way lines are laid out. -/
def Kind.isLayout : Kind → Bool
  | .newline | .indent | .dedent | .eof => true
  | _ => false

section Runs

variable {α : Type} {p : α → Bool} {w us : List α} {x : α}

theorem takeWhile_stop (hw : ∀ y ∈ w, p y) (hx : ¬p x) : (w ++ x :: us).takeWhile p = w := by
  rw [List.takeWhile_append_of_pos hw, List.takeWhile_cons_of_neg hx, List.append_nil]

theorem dropWhile_stop (hw : ∀ y ∈ w, p y) (hx : ¬p x) : (w ++ x :: us).dropWhile p = x :: us := by
  rw [List.dropWhile_append_of_pos hw, List.dropWhile_cons_of_neg hx]

end Runs

theorem Stop.not_digit {c : Char} (h : Stop c) : ¬c.isDigit := by
  rcases h with rfl | rfl <;> decide

theorem Stop.not_wordPart {c : Char} (h : Stop c) : ¬isWordPart c := by
  rcases h with rfl | rfl <;> decide

section Strings

variable {q c : Char} {cs s : List Char} {n : Nat}

theorem quoted_escape (hc : c ≠ '\n') : quoted q ('\\' :: c :: cs) =
    (quoted q cs).map fun (n, s) => (n + 2, unescape c :: s) := by
  rw [quoted]
  exact hc

theorem quoted_char (hn : c ≠ '\n') (hb : c ≠ '\\') : quoted q (c :: cs) =
    if c = q then some (1, []) else (quoted q cs).map fun (n, s) => (n + 1, c :: s) := by
  rw [quoted]
  · exact hn
  · exact fun h _ => hb h
  · exact fun _ h _ => hb h
  · exact fun _ _ h _ => hb h

theorem quoted_split (h : quoted q cs = some (n, s)) :
    ∃ w rest, cs = w ++ rest ∧ w.length = n ∧ '\n' ∉ w ∧
      ∀ us, quoted q (w ++ us) = some (n, s) := by
  fun_induction quoted q cs generalizing n s with
  | case1 => cases h
  | case2 => cases h
  | case3 => cases h
  | case4 => cases h
  | case5 e cs he ih =>
    obtain ⟨⟨m, t⟩, ht, hm⟩ := Option.map_eq_some_iff.mp h
    cases hm
    obtain ⟨w, rest, rfl, rfl, line, read⟩ := ih ht
    refine ⟨'\\' :: e :: w, rest, rfl, rfl, ?_, fun us => ?_⟩
    · simp only [List.mem_cons, not_or]
      exact ⟨by decide, fun h => he h.symm, line⟩
    · rw [List.cons_append, List.cons_append, quoted_escape he, read us]
      rfl
  | case6 cs hn end_ newline escape =>
    cases h
    refine ⟨[q], cs, rfl, rfl, ?_, fun us => ?_⟩
    · exact fun h => hn (List.mem_singleton.mp h).symm
    · rw [List.cons_append, quoted_char hn, if_pos rfl]
      rintro rfl
      cases cs with
      | nil => exact end_ rfl rfl
      | cons e cs => exact escape e cs rfl rfl
  | case7 c cs hn end_ newline escape hq ih =>
    have backslash : c ≠ '\\' := by
      rintro rfl
      cases cs with
      | nil => exact end_ rfl rfl
      | cons e cs => exact escape e cs rfl rfl
    obtain ⟨⟨m, t⟩, ht, hm⟩ := Option.map_eq_some_iff.mp h
    cases hm
    obtain ⟨w, rest, rfl, rfl, line, read⟩ := ih ht
    refine ⟨c :: w, rest, rfl, rfl, ?_, fun us => ?_⟩
    · exact fun h => (List.mem_cons.mp h).elim (fun h => hn h.symm) line
    · rw [List.cons_append, quoted_char hn backslash, if_neg hq, read us]
      rfl

end Strings

section Numerals

variable {ds es tail : List Char} {c : Char}

/-- The value of digits before a point and after it. -/
def wholeValue (ds : List Char) : Float := Float.ofScientific (natOfDigits ds) false 0

def fractionValue (ds es : List Char) : Float :=
  Float.ofScientific (natOfDigits (ds ++ es)) true es.length

theorem numeral_whole (hds : ∀ d ∈ ds, d.isDigit) {stop : Char} (hs : ¬stop.isDigit)
    (hp : stop ≠ '.') : numeral (ds ++ stop :: tail) = (ds.length, wholeValue ds) := by
  rw [numeral, takeWhile_stop hds hs, dropWhile_stop hds hs]
  split
  · next h => exact absurd (List.cons.inj h).1 hp
  · rfl

theorem numeral_fraction (hds : ∀ d ∈ ds, d.isDigit) (hes : ∀ d ∈ c :: es, d.isDigit)
    {stop : Char} (hs : ¬stop.isDigit) :
    numeral (ds ++ '.' :: (c :: es ++ stop :: tail)) =
      (ds.length + 1 + (c :: es).length, fractionValue ds (c :: es)) := by
  have places : (c :: (es ++ stop :: tail)).takeWhile Char.isDigit = c :: es :=
    takeWhile_stop hes hs
  rw [numeral, takeWhile_stop hds (by decide), dropWhile_stop hds (by decide)]
  let run := (c :: (es ++ stop :: tail)).takeWhile Char.isDigit
  change (if c.isDigit = true then (ds.length + 1 + run.length, fractionValue ds run) else _) = _
  rw [if_pos (hes c List.mem_cons_self)]
  dsimp only [run]
  rw [places]

theorem numeral_cases (cs : List Char) :
    (∃ ds rest, cs = ds ++ rest ∧ (∀ d ∈ ds, d.isDigit) ∧
      numeral cs = (ds.length, wholeValue ds)) ∨
    ∃ ds c es rest, cs = ds ++ '.' :: (c :: es ++ rest) ∧ (∀ d ∈ ds, d.isDigit) ∧
      (∀ d ∈ c :: es, d.isDigit) ∧
      numeral cs = (ds.length + 1 + (c :: es).length, fractionValue ds (c :: es)) := by
  have digits (ds : List Char) : ∀ d ∈ ds.takeWhile Char.isDigit, d.isDigit :=
    fun d => List.mem_takeWhile_imp
  have parts (ds : List Char) : ds = ds.takeWhile Char.isDigit ++ ds.dropWhile Char.isDigit :=
    List.takeWhile_append_dropWhile.symm
  rw [numeral]
  split
  · next d rest tail =>
    split
    · next digit =>
      have places : (d :: rest).takeWhile Char.isDigit = d :: rest.takeWhile Char.isDigit :=
        List.takeWhile_cons_of_pos digit
      refine .inr ⟨_, d, rest.takeWhile Char.isDigit, rest.dropWhile Char.isDigit, ?_, digits cs,
        places ▸ digits (d :: rest), ?_⟩
      · rw [List.cons_append, ← parts rest, ← tail, ← parts cs]
      · rw [places]
        rfl
    · exact .inl ⟨_, _, parts cs, digits cs, rfl⟩
  · exact .inl ⟨_, _, parts cs, digits cs, rfl⟩

theorem numeral_pos {cs : List Char} (hc : c.isDigit) : 0 < (numeral (c :: cs)).1 := by
  have whole : 0 < ((c :: cs).takeWhile Char.isDigit).length := by
    rw [List.takeWhile_cons_of_pos hc]
    exact Nat.succ_pos _
  rw [numeral]
  split
  · split
    · exact Nat.add_pos_left (Nat.succ_pos _) _
    · exact whole
  · exact whole

theorem numeral_split (cs : List Char) :
    ∃ w rest, cs = w ++ rest ∧ w.length = (numeral cs).1 ∧ '\n' ∉ w ∧
      ∀ stop us, Stop stop → numeral (w ++ stop :: us) = numeral cs := by
  have line {ds : List Char} (hds : ∀ d ∈ ds, d.isDigit) : '\n' ∉ ds :=
    fun h => absurd (hds _ h) (by decide)
  rcases numeral_cases cs with ⟨ds, rest, hcs, hds, value⟩ | ⟨ds, c, es, rest, hcs, hds, hes, value⟩
  · refine ⟨ds, rest, hcs, by rw [value], line hds, fun stop us hs => ?_⟩
    rw [value]
    exact numeral_whole hds hs.not_digit (by rintro rfl; rcases hs with h | h <;> cases h)
  · refine ⟨ds ++ '.' :: c :: es, rest, ?_, ?_, ?_, fun stop us hs => ?_⟩
    · rw [hcs, List.append_assoc]
      rfl
    · rw [value, List.length_append, List.length_cons]
      omega
    · intro h
      rcases List.mem_append.mp h with h | h
      · exact line hds h
      · exact (List.mem_cons.mp h).elim nofun (line hes)
    · rw [value, List.append_assoc, List.cons_append]
      exact numeral_fraction hds hes hs.not_digit

end Numerals

section Munches

variable {c : Char} {cs : List Char} {m : Munch}

theorem pair?_stop {stop : Char} (h : Stop stop) : Symbol.pair? c stop = none := by
  rcases h with rfl | rfl <;> unfold Symbol.pair? <;> split <;> simp_all

theorem munch_split (h : munch c cs = .ok m) :
    ∃ w rest, cs = w ++ rest ∧ w.length = m.more ∧ '\n' ∉ w ∧
      ∀ stop us, Stop stop → munch c (w ++ stop :: us) = .ok m := by
  rw [munch] at h
  split at h
  · next quote =>
    split at h
    · next n s hq =>
      cases h
      obtain ⟨w, rest, hcs, length, line, read⟩ := quoted_split hq
      refine ⟨w, rest, hcs, length, line, fun stop us _ => ?_⟩
      rw [munch, if_pos quote, read]
    · cases h
  · next quote =>
    split at h
    · next digit =>
      cases h
      obtain ⟨w, rest, hcs, length, line, read⟩ := numeral_split (c :: cs)
      obtain ⟨w, rfl⟩ : ∃ us, w = c :: us := by
        cases w with
        | nil => exact absurd length (Nat.ne_of_lt (numeral_pos digit))
        | cons d w => exact ⟨w, by rw [(List.cons.inj hcs).1]⟩
      refine ⟨w, rest, (List.cons.inj hcs).2, ?_, fun h => line (List.mem_cons_of_mem _ h),
        fun stop us hs => ?_⟩
      · exact Nat.eq_sub_of_add_eq length
      · have same : numeral (c :: (w ++ stop :: us)) = numeral (c :: cs) := read stop us hs
        rw [munch, if_neg quote, if_pos digit, same]
        rfl
    · next digit =>
      split at h
      · next start =>
        cases h
        have parts : ∀ x ∈ cs.takeWhile isWordPart, isWordPart x := fun x => List.mem_takeWhile_imp
        refine ⟨_, _, List.takeWhile_append_dropWhile.symm, rfl, ?_, fun stop us hs => ?_⟩
        · exact fun hn => absurd (parts _ hn) (by decide)
        · rw [munch, if_neg quote, if_neg digit, if_pos start]
          dsimp only
          rw [takeWhile_stop parts hs.not_wordPart]
      · next start =>
        split at h
        · next s pair =>
          cases h
          obtain ⟨d, hd, hs⟩ := Option.bind_eq_some_iff.mp pair
          obtain ⟨us, rfl⟩ := List.head?_eq_some_iff.mp hd
          refine ⟨[d], us, rfl, rfl, ?_, fun stop us _ => ?_⟩
          · intro hn
            rw [← List.mem_singleton.mp hn, pair?_stop (.inr rfl)] at hs
            cases hs
          · rw [munch, if_neg quote, if_neg digit, if_neg start]
            rw [show ([d] ++ stop :: us).head?.bind (Symbol.pair? c) = some s from hs]
        · split at h
          · next s single =>
            cases h
            refine ⟨[], cs, rfl, rfl, List.not_mem_nil, fun stop us hs => ?_⟩
            rw [munch, if_neg quote, if_neg digit, if_neg start]
            rw [show ([] ++ stop :: us : List Char).head?.bind (Symbol.pair? c) = none from pair?_stop hs]
            dsimp only
            rw [single]
          · cases h

theorem startsComment_stop {w rest us : List Char} {stop : Char}
    (h : startsComment c (w ++ rest) = false) (hs : Stop stop) :
    startsComment c (w ++ stop :: us) = false := by
  cases w with
  | nil =>
    rw [startsComment, Bool.or_eq_false_iff] at h ⊢
    rcases hs with rfl | rfl <;> simp [h.1]
  | cons d w => exact h

theorem munch_kind (h : munch c cs = .ok m) : m.kind.isLayout = false := by
  rw [munch] at h
  split at h
  · split at h <;> cases h
    rfl
  · split at h
    · cases h
      rfl
    · split at h
      · cases h
        rw [wordKind]
        split <;> rfl
      · split at h
        · cases h
          rfl
        · split at h <;> cases h
          rfl

end Munches

/-- Characters that are one token before any space or line feed. -/
structure Word (c : Char) (w : List Char) (kind : Kind) (literal : Atom) : Prop where
  shown : c ≠ ' '
  line : '\n' ∉ c :: w
  plain : ∀ x ∈ c :: w, Source.Plain x
  text {stop : Char} {us : List Char} (hs : Stop stop) : startsComment c (w ++ stop :: us) = false
  read {stop : Char} {us : List Char} (hs : Stop stop) :
    munch c (w ++ stop :: us) = .ok ⟨kind, w.length, literal⟩

theorem Word.ne_newline {c : Char} {w : List Char} {kind : Kind} {literal : Atom}
    (h : Word c w kind literal) : c ≠ '\n' :=
  fun hc => h.line (hc ▸ List.mem_cons_self)

theorem Word.kind_isLayout {c : Char} {w : List Char} {kind : Kind} {literal : Atom}
    (h : Word c w kind literal) : kind.isLayout = false := by
  have read : munch c (w ++ [' ']) = .ok ⟨kind, w.length, literal⟩ := h.read (.inl rfl)
  exact munch_kind read

theorem word_of_munch {c : Char} {cs : List Char} {m : Munch} (hs : c ≠ ' ') (hn : c ≠ '\n')
    (hc : startsComment c cs = false) (hp : ∀ x ∈ c :: cs, Source.Plain x)
    (h : munch c cs = .ok m) :
    cs = cs.take m.more ++ cs.drop m.more ∧ Word c (cs.take m.more) m.kind m.literal := by
  obtain ⟨w, rest, rfl, hw, line, read⟩ := munch_split h
  rw [← hw, List.take_left, List.drop_left]
  refine ⟨rfl, hs, ?_, ?_, fun hs => startsComment_stop hc hs, fun {stop us} hs => ?_⟩
  · exact fun h => (List.mem_cons.mp h).elim (fun h => hn h.symm) line
  · rw [← List.cons_append] at hp
    exact fun x hx => hp x (List.mem_append_left _ hx)
  · rw [read stop us hs, hw]

end LoopScript.Token
