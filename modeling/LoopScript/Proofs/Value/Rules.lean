import LoopScript.Machine.Step
import LoopScript.Proofs.MergeSort.Permutation
import LoopScript.Proofs.Value.Faults

/-!
The rules that computations on values name in their errors, and the wording of their causes. No rule is
the word of a statement that leaves a loop or a function, unless a program uses that word as a name or
as an operator, and no cause is worded as an evaluator would tell of code that it does not know.
-/

namespace LoopScript

/-- The words of the statements that leave a loop or a function, which are the rules of stray ones. -/
def flowWords : List String := ["break", "continue", "return"]

/-- The rule of a cause is no such word, unless it is one of certain words. -/
def Cause.Clear (N : String → Prop) (c : Cause) : Prop :=
  ∀ rule, c.rule = some rule → rule ∈ flowWords → N rule

def Fault.Clear (N : String → Prop) (f : Fault) : Prop :=
  ∀ e, f = .error e → e.cause.Clear N

/-- The rule of a cause that belongs to the language. -/
def Cause.ownRule? : Cause → Option String
  | .host .. => none
  | c => c.rule

/-- A cause that belongs to the language has a rule, and it is no such word. Only an operator that is
not known has none. -/
def Cause.Ruled (N : String → Prop) (c : Cause) : Prop :=
  ∃ rule, c.ownRule? = some rule ∧ (rule ∈ flowWords → N rule)

def Fault.Ruled (N : String → Prop) (f : Fault) : Prop :=
  ∀ e, f = .error e → e.cause.Ruled N

/-- Whether an operator joins two values once both are there. -/
def BinaryOp.joins : BinaryOp → Bool
  | or_ | and_ | other _ => false
  | _ => true

/-- A fault with a rule, or that of an operator which, if `t`, is not known. -/
def Fault.RuledUnless (N : String → Prop) (t : Prop) (op : String) (f : Fault) : Prop :=
  f.Ruled N ∨ t ∧ f = .of (.unknownOperator op)

/-- The objects that hold the code of a program or a name that it defines. -/
def Obj.isCode : Obj → Bool
  | .function _ | .lambda .. | .cls .. => true
  | _ => false

def Made.isCode : Made → Bool
  | .value _ => false
  | .object o => o.isCode

variable {α : Type} {N : String → Prop} {P : α → Prop} {c : Cause} {rule : String}

theorem Cause.rule_of_ownRule (h : c.ownRule? = some rule) : c.rule = some rule := by
  cases c with
  | host => cases h
  | _ => exact h

theorem Cause.Ruled.clear (h : c.Ruled N) : c.Clear N := by
  obtain ⟨rule, hc, hr⟩ := h
  intro word e hw
  cases (rule_of_ownRule hc).symm.trans e
  exact hr hw

theorem Fault.Ruled.clear {f : Fault} (h : f.Ruled N) : f.Clear N :=
  fun e he => (h e he).clear

theorem Fault.clear_unruled (h : c.rule = none) (loc : Option Location) :
    (Fault.error ⟨c, loc, none⟩).Clear N := by
  rintro _ ⟨⟩ rule e
  cases h.symm.trans e

theorem ruled_error (h : c.ownRule? = some rule) (hr : rule ∈ flowWords → N rule)
    (loc : Option Location) : (Fault.error ⟨c, loc, none⟩).Ruled N := by
  rintro _ ⟨⟩
  exact ⟨rule, h, hr⟩

theorem ruled_foreign (text : String) : (Fault.foreign text).Ruled N := by
  rintro _ ⟨⟩

theorem ruled_endless : Fault.endless.Ruled N := by
  rintro _ ⟨⟩

theorem Fault.Clear.attach {f : Fault} (h : f.Clear N) (loc : Option Location) :
    (f.attach loc).Clear N := by
  cases f with
  | error e =>
    rintro _ ⟨⟩
    rw [e.attach_cause]
    exact h e rfl
  | endless | foreign => exact h

theorem Fault.Ruled.attach {f : Fault} (h : f.Ruled N) (loc : Option Location) :
    (f.attach loc).Ruled N := by
  cases f with
  | error e =>
    rintro _ ⟨⟩
    rw [e.attach_cause]
    exact h e rfl
  | endless | foreign => exact h

theorem ends_spelled (h : c.ownRule? = some rule) (hr : rule ∈ flowWords → N rule) :
    Ends P (Fault.Ruled N) (.error (.of c)) :=
  ruled_error h hr none

theorem ends_fixed (h : c.ownRule? = some rule) (hr : rule ∉ flowWords) :
    Ends P (Fault.Ruled N) (.error (.of c)) :=
  ends_spelled h hr.elim

theorem ruled_floatOfInt (i : Int) : Raises (Fault.Ruled N) (floatOfInt i) := by
  unfold floatOfInt
  split
  · trivial
  · exact ruled_foreign _

namespace Store

variable (s : Store) {v w : Value}

section Numbers

theorem ruled_float? {x : Except Fault Float} (h : float? v = some x) :
    Raises (Fault.Ruled N) x := by
  cases v with
  | ref a => cases h
  | atom a =>
    cases a with
    | none | str t => cases h
    | bool b | num x => exact Option.some.inj h ▸ trivial
    | int i => exact Option.some.inj h ▸ ruled_floatOfInt i

theorem ruled_toNumber (v : Value) (hr : rule ∈ flowWords → N rule) :
    Raises (Fault.Ruled N) (s.toNumber v rule) := by
  unfold toNumber
  split
  · split
    · trivial
    · exact ends_spelled rfl hr
  · split
    · next h => exact ruled_float? h
    · exact ends_spelled rfl hr

theorem ruled_toInt (v : Value) (hr : rule ∈ flowWords → N rule) :
    Raises (Fault.Ruled N) (s.toInt v rule) := by
  refine ends_bind (s.ruled_toNumber v hr) fun x _ => ?_
  split
  · trivial
  · exact ends_spelled rfl hr

theorem ruled_requireKey (v : Value) : Raises (Fault.Ruled N) (s.requireKey v) := by
  unfold requireKey
  split
  · exact ends_fixed rfl (by decide)
  · exact ends_fixed rfl (by decide)
  · trivial

theorem ruled_toIndex (v : Value) : Raises (Fault.Ruled N) (s.toIndex v) := by
  unfold toIndex
  split
  · exact ends_fixed rfl (by decide)
  · next h =>
    refine ends_bind (ruled_float? h) fun x _ => ?_
    split
    · trivial
    · exact ends_fixed rfl (by decide)

end Numbers

section Comparisons

theorem ruled_equalWithin (n : Nat) (met : List (Addr × Addr)) (v w : Value) :
    Raises (Fault.Ruled N) (s.equalWithin n met v w) := by
  induction n generalizing met v w with
  | zero => exact ruled_endless
  | succ n ih =>
    unfold equalWithin
    -- Only two lists of one length, or two such dictionaries, are compared by what they hold.
    split
    · split
      · trivial
      split
      · split
        · trivial
        split
        · exact ruled_endless
        · exact raises_allPairs (fun v w => ih _ v w) _ _
      · split
        · trivial
        split
        · exact ruled_endless
        · exact raises_entries (fun v w => ih _ v w) _ _
      · trivial
    · trivial

theorem ruled_equal (v w : Value) : Raises (Fault.Ruled N) (s.equal v w) :=
  s.ruled_equalWithin _ _ v w

theorem ruled_compareWithin (n : Nat) (met : List (Addr × Addr)) (v w : Value) :
    Raises (Fault.Ruled N) (s.compareWithin n met v w) := by
  induction n generalizing met v w with
  | zero => exact ruled_endless
  | succ n ih =>
    rw [compareWithin_succ]
    split
    · split
      · trivial
      · exact ends_fixed rfl (by decide)
    · split
      · split
        · exact ruled_endless
        · exact raises_lexicographic (fun v w => ih _ v w) _ _
      · exact ends_fixed rfl (by decide)
    · exact ends_fixed rfl (by decide)

theorem ruled_compare (v w : Value) : Raises (Fault.Ruled N) (s.compare v w) :=
  s.ruled_compareWithin _ _ v w

theorem ruled_text (v : Value) : Raises (Fault.Ruled N) (s.text v) :=
  (s.ends_text v).mono (fun _ h => h) fun _ h => h ▸ ruled_endless

theorem ruled_holds (v w : Value) : Raises (Fault.Ruled N) (s.holds v w) := by
  unfold holds
  split
  · refine ends_foldlM _ trivial fun found _ x _ => ?_
    split
    · trivial
    · exact s.ruled_equal x w
  · exact ends_bind (s.ruled_requireKey w) fun _ _ => trivial
  · split
    · trivial
    · exact ends_fixed rfl (by decide)
  · exact ends_fixed rfl (by decide)

end Comparisons

section Operators

variable {op : BinaryOp}

theorem ruled_onFloats {f : Float → Float → Except Fault Float} (hop : op.text ∈ flowWords → N op.text)
    (hf : ∀ a b, Raises (Fault.Ruled N) (f a b)) (v w : Value) :
    Raises (Fault.Ruled N) (s.onFloats op f v w) := by
  unfold onFloats
  split
  · next a b ha hb =>
    refine ends_bind (ruled_float? ha) fun a _ => ends_bind (ruled_float? hb) fun b _ => ?_
    exact ends_bind (hf a b) fun _ _ => trivial
  · exact ends_spelled rfl hop

theorem ruled_onInts {f : Int → Int → Except Fault Float} (hop : op.text ∈ flowWords → N op.text)
    (hf : ∀ a b, Raises (Fault.Ruled N) (f a b)) (v w : Value) :
    Raises (Fault.Ruled N) (s.onInts op f v w) := by
  unfold onInts
  split
  · refine ends_bind (s.ruled_toInt v hop) fun a _ => ends_bind (s.ruled_toInt w hop) fun b _ => ?_
    exact ends_bind (hf a b) fun _ _ => trivial
  · exact ends_spelled rfl hop

theorem ruled_divide (a b : Float) : Raises (Fault.Ruled N) (Arithmetic.divide a b) := by
  unfold Arithmetic.divide
  split
  · exact ends_fixed rfl (by decide)
  · dsimp only
    split
    · exact ruled_floatOfInt _
    · trivial

theorem ruled_power (a b : Float) : Raises (Fault.Ruled N) (Arithmetic.power a b) := by
  unfold Arithmetic.power
  dsimp only
  split
  · trivial
  · split
    · trivial
    · exact ends_fixed rfl (by decide)
    · split
      · exact ends_fixed rfl (by decide)
      · exact ends_fixed rfl (by decide)

theorem ruled_remainder (a b : Int) : Raises (Fault.Ruled N) (Arithmetic.remainder a b) := by
  unfold Arithmetic.remainder
  split
  · exact ends_fixed rfl (by decide)
  · split
    · trivial
    · exact ruled_floatOfInt _

theorem ruled_shift (hop : op.text ∈ flowWords → N op.text) (a b : Int) :
    Raises (Fault.Ruled N) (Arithmetic.shift op a b) := by
  unfold Arithmetic.shift
  split
  · exact ends_spelled rfl hop
  · simp only
    split
    · trivial
    · exact ends_spelled rfl hop

theorem ruled_operate (hop : op.text ∈ flowWords → N op.text) (hn : op ≠ .add) (v w : Value) :
    Raises (Fault.RuledUnless N (op.joins = false) op.text) (s.operate op v w) := by
  have known {x : Except Fault Value} (h : Raises (Fault.Ruled N) x) :
      Raises (Fault.RuledUnless N (op.joins = false) op.text) x := h.mono (fun _ h => h) fun _ => .inl
  have sum (f : Float → Float → Float) :
      Raises (Fault.Ruled N) (s.onFloats op (fun a b => .ok (f a b)) v w) :=
    s.ruled_onFloats hop (fun _ _ => by trivial) v w
  have bits (join : Int → Int → Int) :
      Raises (Fault.Ruled N) (s.onInts op (fun a b => floatOfInt (join a b)) v w) :=
    s.ruled_onInts hop (fun _ _ => ruled_floatOfInt _) v w
  cases op with
  | sub | mul => exact known (sum _)
  | div => exact known (s.ruled_onFloats hop ruled_divide v w)
  | pow => exact known (s.ruled_onFloats hop ruled_power v w)
  | mod => exact known (s.ruled_onInts hop ruled_remainder v w)
  | bitAnd | bitOr | bitXor => exact known (bits _)
  | shiftLeft | shiftRight => exact known (s.ruled_onInts hop (ruled_shift hop) v w)
  | eq | ne => exact known (ends_bind (s.ruled_equal v w) fun _ _ => trivial)
  | lt | gt | le | ge => exact known (ends_bind (s.ruled_compare v w) fun _ _ => trivial)
  | mem => exact known (ends_bind (s.ruled_holds w v) fun _ _ => trivial)
  | same => trivial
  | add => exact absurd rfl hn
  | or_ | and_ | other t => exact .inr ⟨rfl, rfl⟩

theorem ruled_plus (v w : Value) : Ends (·.isCode = false) (Fault.Ruled N) (s.plus v w) := by
  unfold plus
  split
  · rfl
  · split
    · rfl
    · have sum (v w : Value) :
          Raises (Fault.Ruled N) (s.onFloats .add (fun a b => .ok (a + b)) v w) :=
        s.ruled_onFloats (Not.elim (by decide)) (fun _ _ => by trivial) v w
      exact ends_map ((sum _ _).mono (fun _ _ => rfl) fun _ h => h)

theorem ruled_binary (hop : op.text ∈ flowWords → N op.text) (v w : Value) :
    Ends (·.isCode = false) (Fault.RuledUnless N (op.joins = false) op.text) (s.binary op v w) := by
  unfold binary
  split
  · exact (s.ruled_plus v w).mono (fun _ h => h) fun _ => .inl
  · next hn => exact ends_map ((s.ruled_operate hop hn v w).mono (fun _ _ => rfl) fun _ h => h)

theorem ruled_unary {op : UnaryOp} (hop : op.text ∈ flowWords → N op.text) (v : Value) :
    Raises (Fault.RuledUnless N (op ∉ UnaryOp.known) op.text) (s.unary op v) := by
  have known {x : Except Fault Value} (h : Raises (Fault.Ruled N) x) :
      Raises (Fault.RuledUnless N (op ∉ UnaryOp.known) op.text) x :=
    h.mono (fun _ h => h) fun _ => .inl
  unfold unary
  split
  · trivial
  · exact known (ends_spelled rfl hop)
  · next h => exact known (ends_bind (ruled_float? h) fun _ _ => trivial)
  · next h => exact known (ends_bind (ruled_float? h) fun _ _ => trivial)
  · refine known (ends_bind (s.ruled_toInt v (Not.elim (by decide))) fun i _ => ?_)
    exact ends_bind (ruled_floatOfInt _) fun _ _ => trivial
  · exact .inr ⟨by simp [UnaryOp.known], rfl⟩

end Operators

section Access

theorem ruled_lookup (i : ScopeId) (name : String) : Raises (Fault.Ruled N) (s.lookup i name) := by
  unfold lookup
  split
  · trivial
  · exact ends_fixed rfl (by decide)

theorem ruled_items (v : Value) : Raises (Fault.Ruled N) (s.items v) := by
  unfold items
  split
  · trivial
  · trivial
  · trivial
  · exact ends_fixed rfl (by decide)

theorem ruled_getIndex (base index : Value) : Raises (Fault.Ruled N) (s.getIndex base index) := by
  unfold getIndex
  split
  · refine ends_bind (s.ruled_toIndex index) fun i _ => ?_
    split
    · trivial
    · exact ends_fixed rfl (by decide)
  · refine ends_bind (s.ruled_toIndex index) fun i _ => ?_
    split
    · trivial
    · exact ends_fixed rfl (by decide)
  · refine ends_bind (s.ruled_requireKey index) fun _ _ => ?_
    split
    · trivial
    · exact ends_bind (s.ruled_text index) fun t _ => ends_fixed rfl (by decide)
  · exact ends_fixed rfl (by decide)

theorem ruled_setIndex (base index v : Value) :
    Ends (·.2.isCode = false) (Fault.Ruled N) (s.setIndex base index v) := by
  unfold setIndex
  split
  · exact ends_fixed rfl (by decide)
  · split
    · refine ends_bind (s.ruled_toIndex index) fun i _ => ?_
      split
      · rfl
      · exact ends_fixed rfl (by decide)
    · exact ends_bind (s.ruled_requireKey index) fun _ _ => rfl
    · exact ends_fixed rfl (by decide)

theorem ruled_sliceable (v : Value) : Raises (Fault.Ruled N) (s.sliceable v) := by
  unfold sliceable
  split
  · trivial
  · trivial
  · exact ends_fixed rfl (by decide)

theorem isCode_slice (base : Value) (start stop step : Option Int) :
    (s.slice base start stop step).isCode = false := by
  unfold slice
  split <;> rfl

theorem ruled_getMember (base : Value) (name : String) :
    Ends (·.isCode = false) (Fault.Ruled N) (s.getMember base name) := by
  unfold getMember
  split
  · exact ends_fixed rfl (by decide)
  · split
    · split
      · rfl
      · exact ends_fixed rfl (by decide)
    · split
      · rfl
      · split
        · split
          · rfl
          · exact ends_fixed rfl (by decide)
        · exact ends_fixed rfl (by decide)
    · split
      · rfl
      · exact ends_fixed rfl (by decide)
    · exact ends_fixed rfl (by decide)

theorem ruled_settable (v : Value) : Raises (Fault.Ruled N) (s.settable v) := by
  unfold settable
  split
  · trivial
  · exact ends_fixed rfl (by decide)

end Access

section Functions

theorem ruled_lengthOf (v : Value) : Raises (Fault.Ruled N) (s.lengthOf v) := by
  unfold lengthOf
  split
  · exact ruled_floatOfInt _
  · exact ruled_floatOfInt _
  · exact ruled_floatOfInt _
  · exact ends_fixed rfl (by decide)

theorem ruled_expectNumber (hr : rule ∉ flowWords) (v : Value) :
    Raises (Fault.Ruled N) (s.expectNumber rule v) := by
  unfold expectNumber
  split
  · next h => exact ruled_float? h
  · exact ends_fixed rfl hr

theorem ruled_best (hr : rule ∉ flowWords) (beats : Ordering) (items : List Value) :
    Raises (Fault.Ruled N) (match items with
      | [] => .error (.of (.emptySequence rule))
      | x :: xs => xs.foldlM (fun best y =>
          return if (← s.compare y best) == beats then y else best) x) := by
  split
  · exact ends_fixed rfl hr
  · exact ends_foldlM _ trivial fun best _ y _ =>
      ends_bind (s.ruled_compare y best) fun _ _ => trivial

theorem ruled_extreme (hr : rule ∉ flowWords) (beats : Ordering) (args : List Value) :
    Raises (Fault.Ruled N) (s.extreme rule beats args) := by
  unfold extreme
  dsimp only
  split
  · exact ends_bind (s.ruled_items _) fun items _ => s.ruled_best hr beats items
  · exact s.ruled_best hr beats args

theorem ruled_rangeItems (args : List Value) : Raises (Fault.Ruled N) (s.rangeItems args) := by
  have made (start stop step : Int) : Raises (Fault.Ruled N)
      (if step = 0 then .error (.of .zeroStep)
        else (rangeOf start stop step).mapM fun i => return Value.num (← floatOfInt i)) := by
    split
    · exact ends_fixed rfl (by decide)
    · exact raises_mapM _ fun i _ => ends_bind (ruled_floatOfInt i) fun _ _ => trivial
  unfold rangeItems
  refine ends_bind (raises_mapM args fun v _ => s.ruled_toInt v (Not.elim (by decide)))
    fun bounds _ => ?_
  exact made _ _ _

theorem ruled_sumOf (v : Value) : Raises (Fault.Ruled N) (s.sumOf v) := by
  refine ends_bind (s.ruled_items v) fun xs _ => ends_foldlM xs trivial fun total _ x _ => ?_
  exact ends_bind (s.ruled_expectNumber (by decide) x) fun _ _ => trivial

theorem ruled_duration (v : Value) : Raises (Fault.Ruled N) (s.duration v) := by
  refine ends_bind (s.ruled_expectNumber (by decide) v) fun x _ => ?_
  split
  · exact ends_fixed rfl (by decide)
  · trivial

theorem ruled_sortBy (reversed : Bool) (keys items : List Value) :
    Raises (Fault.Ruled N) (s.sortBy reversed keys items) := by
  have less (p q : Value × Value) : Raises (Fault.Ruled N) (do
      return (← s.compare p.1 q.1) == Ordering.lt) :=
    ends_bind (s.ruled_compare p.1 q.1) fun _ _ => trivial
  exact ends_bind (ends_stableSort less reversed _) fun _ _ => trivial

end Functions

end Store

section Calls

variable {callee : String} (hc : callee ∈ flowWords → N callee)

include hc

theorem ruled_bindNamed (open_ : List String) (bound : Table String Value)
    (named : List (String × Value)) :
    Raises (Fault.Ruled N) (bindNamed callee open_ bound named) := by
  induction named generalizing bound with
  | nil => trivial
  | cons e named ih =>
    simp only [bindNamed]
    split
    · exact ends_spelled rfl hc
    · split
      · exact ends_spelled rfl hc
      · exact ih _

theorem ruled_bindArguments (params : List String) (args : List Value)
    (named : Table String Value) (implicit : Nat) :
    Raises (Fault.Ruled N) (bindArguments callee params args named implicit) := by
  unfold bindArguments
  split
  · exact ends_spelled rfl hc
  · refine ends_bind (ruled_bindNamed hc _ _ named) fun bound _ => ?_
    split
    · exact ends_spelled rfl hc
    · trivial

end Calls

namespace Builtin

variable {σ : Type} {b : Builtin σ} (hb : b.name ∈ flowWords → N b.name)

include hb

theorem ruled_keywordsOf (keys : List String) :
    Raises (Fault.Ruled N) (accepts.keywordsOf b keys) := by
  induction keys with
  | nil => trivial
  | cons key keys ih =>
    simp only [accepts.keywordsOf]
    split
    · exact ih
    · exact ends_spelled rfl hb

theorem ruled_accepts (c : Call) : Raises (Fault.Ruled N) (b.accepts c) := by
  unfold accepts
  split
  · exact ends_spelled rfl hb
  · split
    · split
      · exact ends_spelled rfl hb
      · exact ruled_keywordsOf hb _
    · exact ruled_keywordsOf hb _

end Builtin

theorem CoreFunction.name_clear (f : CoreFunction) : f.name ∉ flowWords := by
  cases f <;> decide

namespace Cause

/-- What is said of an operator, a statement, an expression or a target that is not known. -/
def unknownTexts (word : String) : List String :=
  ["Unknown operator '" ++ word ++ "'", "Unsupported statement " ++ word,
    "Unsupported expression " ++ word, "Invalid assignment target"]

variable {word text : String}

/-- How these texts begin, as far as it takes to tell them from others. -/
def unknownStarts : List (List Char) :=
  [['U', 'n', 'k'], ['U', 'n', 's', 'u', 'p', 'p', 'o', 'r', 't', 'e', 'd', ' ', 's'],
    ['U', 'n', 's', 'u', 'p', 'p', 'o', 'r', 't', 'e', 'd', ' ', 'e'],
    ['I', 'n', 'v', 'a', 'l', 'i', 'd', ' ', 'a']]

theorem unknownTexts_start (h : text ∈ unknownTexts word) :
    ∃ start ∈ unknownStarts, start <+: text.toList := by
  simp only [unknownTexts, List.mem_cons, List.not_mem_nil, or_false] at h
  simp only [unknownStarts, List.exists_mem_cons_iff]
  rcases h with rfl | rfl | rfl | rfl <;> simp

section Openings

variable {opening : List Char}
  (apart : ∀ start ∈ unknownStarts, ¬ start <+: opening ∧ ¬ opening <+: start)

include apart

-- the letters of a message are given as a list, since a text is slow to take apart in the kernel
theorem opening_known (rest : String) : String.ofList opening ++ rest ∉ unknownTexts word := by
  intro ht
  obtain ⟨start, hs, ht⟩ := unknownTexts_start ht
  rw [String.toList_append, String.toList_ofList] at ht
  have prefixes := List.prefix_or_prefix_of_prefix ht (List.prefix_append opening _)
  exact prefixes.elim (apart start hs).1 (apart start hs).2

theorem fixed_known : String.ofList opening ∉ unknownTexts word := by
  have opened : String.ofList opening ++ "" ∉ unknownTexts word := opening_known apart ""
  rwa [String.append_empty] at opened

end Openings

theorem callee_known (hw : '(' ∉ word.toList) (h : '(' ∈ text.toList) :
    text ∉ unknownTexts word := by
  intro ht
  have plain : ∀ u ∈ unknownTexts word, '(' ∉ u.toList := by simpa [unknownTexts] using hw
  exact plain _ ht h

theorem receiver_known (hw : ' ' ∉ word.toList) (method : String) :
    method ++ " must accept self" ∉ unknownTexts word := by
  intro h
  simp only [unknownTexts, List.mem_cons, List.not_mem_nil, or_false, ← String.toList_inj] at h
  -- The texts that end in a free word are told by what stands before it.
  have last (l : List Char) : (word.toList.reverse ++ ' ' :: l).dropWhile (· != ' ') = ' ' :: l := by
    rw [List.dropWhile_append_of_pos]
    · rfl
    · rintro c hc
      have : c ≠ ' ' := fun e => hw (e ▸ List.mem_reverse.mp hc)
      simpa using this
  rcases h with h | h | h | h <;> replace h := congrArg List.reverse h
  · simp at h
  · replace h := congrArg (List.dropWhile (· != ' ')) h
    simp [last] at h
  · replace h := congrArg (List.dropWhile (· != ' ')) h
    simp [last] at h
  · simp at h

theorem message_known {c : Cause} {rule : String} (h : c.ownRule? = some rule)
    (hw : ∀ c ∈ word.toList, c ∉ [' ', '(']) : c.message ∉ unknownTexts word := by
  have blank : ' ' ∉ word.toList := fun h => hw _ h (by simp)
  have bracket : '(' ∉ word.toList := fun h => hw _ h (by simp)
  cases c with
  | unknownOperator | host => cases h
  | tooFewArguments | tooManyArguments | wrongArity | unexpectedKeyword | multipleValues
  | missingArgument | notNumber | emptySequence =>
    unfold message
    exact callee_known bracket (by simp)
  | noReceiver method => exact receiver_known blank method
  | callsTooDeep | badDuration | zeroStep | strayReturn | strayBreak | strayContinue | divisionByZero
  | moduloByZero | negativeShift | listIndex | stringIndex | listAssignmentIndex =>
    exact fixed_known (by decide +kernel)
  | _ =>
    unfold message
    try simp only [String.append_assoc]
    exact opening_known (by decide +kernel) _

end Cause

end LoopScript
