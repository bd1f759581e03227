import LoopScript.Machine.Step
import LoopScript.Proofs.Program.Parts
import LoopScript.Proofs.Value.Native

/-!
Controls that fit the statements in which they stand: every place that a control may blame lies in the
last statement that its call has begun, or in the test of a loop that the call has begun, and its
values and expressions are native.
-/

namespace LoopScript

/-- The statements that each call in progress has begun: innermost call and last statement first. -/
abbrev Begun := List (List Stmt)

namespace Begun

/-- The innermost call has begun a loop of the given test and body. -/
def Loops (test : Expr) (body : List Stmt) (F : Begun) : Prop :=
  ∃ loc ss, F.head? = some ss ∧ .loop loc test body ∈ ss

/-- The places that an error in the innermost call may blame, once it has begun a statement. -/
def Blames (F : Begun) (loc : Location) : Prop :=
  ∀ s ss, F.head? = some (s :: ss) →
    s.Covers loc ∨ ∃ test body, F.Loops test body ∧ ∃ d : Expr, d.Inside test ∧ loc = d.location

/-- The innermost call begins another statement. -/
def begin (s : Stmt) : Begun → Begun
  | [] => []
  | ss :: F => (s :: ss) :: F

variable {F : Begun} {s : Stmt} {test : Expr} {body : List Stmt}

theorem Loops.begin (h : F.Loops test body) : (F.begin s).Loops test body := by
  obtain ⟨loc, ss, hF, hm⟩ := h
  cases F with
  | nil => cases hF
  | cons tt F =>
    cases hF
    exact ⟨loc, s :: ss, rfl, List.mem_cons_of_mem s hm⟩

theorem blames_opened (F : Begun) (loc : Location) : Blames ([] :: F) loc := by
  intro s ss h
  cases h

theorem blames_covered (F : Begun) {loc : Location} (h : s.Covers loc) :
    (F.begin s).Blames loc := by
  intro t tt ht
  cases F with
  | nil => cases ht
  | cons ss F =>
    cases ht
    exact .inl h

theorem Loops.blames (h : F.Loops test body) : test.Holds fun d => F.Blames d.location :=
  fun d hd _ _ _ => .inr ⟨test, body, h, d, hd, rfl⟩

end Begun

variable (N : Prop) (F : Begun)

def Expr.Fits (e : Expr) : Prop :=
  e.Holds fun d => F.Blames d.location ∧ (N → d.isInt = false)

def Block.Fits (body : List Stmt) : Prop :=
  N → ∀ s ∈ body, s.Clean

def Old.Fits (old : Old) : Prop :=
  ∀ op v, old = some (op, v) → v.Native N

def Comprehension.Fits (c : Comprehension) : Prop :=
  c.element.Fits N F ∧ ∀ e, c.condition = some e → e.Fits N F

def Awaits.Fits : (a : Awaits) → a.Input → Prop
  | .value, v => v.Native N
  | .flow, .returned v => v.Native N
  | .flow, _ => True

/-- What a hole holds, given the statements that the calls around it have begun. -/
def Hole.Fits : {a b : Awaits} → Hole a b → Prop
  | _, _, .rest ss _ => Block.Fits N ss
  | _, _, .discard | _, _, .leave | _, _, .body _ _ | _, _, .lambdaBody _ => True
  | _, _, .branch ss otherwise _ => Block.Fits N ss ∧ Block.Fits N (otherwise.getD [])
  | _, _, .loopTest test ss _ | _, _, .loopBody test ss _ =>
    F.Loops test ss ∧ (N → test.Clean) ∧ Block.Fits N ss
  | _, _, .eachOver loc _ ss _ => F.Blames loc ∧ Block.Fits N ss
  | _, _, .eachBody _ todo ss _ => (∀ v ∈ todo, v.Native N) ∧ Block.Fits N ss
  | _, _, .assignName loc _ old _ | _, _, .assignMember loc _ _ old => F.Blames loc ∧ old.Fits N
  | _, _, .memberBase loc _ _ e _ | _, _, .itemIndex loc _ _ e _ | _, _, .left loc _ e _
  | _, _, .indexBase loc e _ => F.Blames loc ∧ e.Fits N F
  | _, _, .itemBase loc d _ e _ => F.Blames loc ∧ d.Fits N F ∧ e.Fits N F
  | _, _, .assignItem loc _ v old => F.Blames loc ∧ v.Native N ∧ old.Fits N
  | _, _, .right loc _ v => F.Blames loc ∧ v.Native N
  | _, _, .operand loc _ | _, _, .index loc _ | _, _, .member loc _ => F.Blames loc
  | _, _, .sliceBase loc bounds _ => F.Blames loc ∧ ∀ e, some e ∈ bounds → e.Fits N F
  | _, _, .sliceBound loc v _ todo _ =>
    F.Blames loc ∧ v.Native N ∧ ∀ e, some e ∈ todo → e.Fits N F
  | _, _, .listItem done todo _ => (∀ v ∈ done, v.Native N) ∧ ∀ e ∈ todo, e.Fits N F
  | _, _, .dictKey loc e done todo _ =>
    F.Blames loc ∧ e.Fits N F ∧ (Obj.dict done).Native N ∧
      ∀ e ∈ todo, e.1.Fits N F ∧ e.2.Fits N F
  | _, _, .dictValue v done todo _ =>
    v.Native N ∧ (Obj.dict done).Native N ∧ ∀ e ∈ todo, e.1.Fits N F ∧ e.2.Fits N F
  | _, _, .comprehendOver loc c => F.Blames loc ∧ c.Fits N F
  | _, _, .comprehendTest c _ todo done | _, _, .comprehendItem c todo done =>
    c.Fits N F ∧ (∀ v ∈ todo, v.Native N) ∧ ∀ v ∈ done, v.Native N
  | _, _, .construct v => v.Native N
  | _, _, .forwarded _ _ => False

/-- The statements that the calls around a hole have begun: behind the body of a call, its own are
left out. -/
def Hole.around {a b : Awaits} : Hole a b → Begun
  | .body _ _ | .lambdaBody _ => F.tail
  | _ => F

structure PendingCall.Fits (p : PendingCall) : Prop where
  loc : F.Blames p.loc
  args : ∀ v ∈ p.args, v.Native N
  named : ∀ e ∈ p.named, e.2.Native N
  todo : ∀ e ∈ p.todo, e.2.Fits N F

structure Sorting.Fits (s : Sorting) : Prop where
  loc : F.Blames s.loc
  items : ∀ v ∈ s.items, v.Native N
  todo : ∀ v ∈ s.todo, v.Native N

def Context.Fits (N : Prop) : Begun → {a : Awaits} → Context a → Prop
  | F, _, .program => F.length = 1
  | F, _, .fill h k => h.Fits N F ∧ k.Fits N (h.around F)
  | F, _, .argument p k => p.Fits N F ∧ k.Fits N F
  | F, _, .sortKey s k => s.Fits N F ∧ k.Fits N F
  | _, _, .mapItem .. => False

structure Call.Fits (c : Call) : Prop where
  loc : F.Blames c.location
  args : ∀ v ∈ c.args, v.Native N
  named : ∀ e ∈ c.named, e.2.Native N

def Task.Fits : Task → Prop
  | .exec s _ k => (N → s.Clean) ∧ k.Fits N F
  | .eval e _ k => e.Fits N F ∧ k.Fits N F

def Move.Fits : Move → Prop
  | .give (a := a) x k => a.Fits N x ∧ k.Fits N F
  | .call _ c k => c.Fits N F ∧ k.Fits N F

def Control.Fits : Control → Prop
  | .task t => t.Fits N F
  | .move v => v.Fits N F

def Resumption.Fits : Resumption → Prop
  | .task t => t.Fits N F
  | .waited _ _ k => k.Fits N F

variable {σ : Type} {a b : Awaits}

def Reaction.Fits (k : Context b) : Reaction σ b → Prop
  | .give x => b.Fits N x ∧ k.Fits N F
  | .start t => t.Fits N F
  | .pause _ r => r.Fits N F

def Invocation.Fits : Invocation σ → Context .value → Prop
  | .react r, k => r.Fits N F k
  | .again _ c l, _ => c.Fits N F ∧ l.Fits N F

def Next.Fits : Next σ → Prop
  | .go c => c.Fits N F
  | .pause _ r => r.Fits N F
  | .finished _ => F.length = 1

variable {N F}

theorem Begun.Loops.fits {test : Expr} {body : List Stmt} (h : F.Loops test body)
    (hc : N → test.Clean) : test.Fits N F :=
  fun d hd => ⟨h.blames d hd, fun n => hc n d hd⟩

theorem Expr.Fits.loc {e : Expr} (h : e.Fits N F) : F.Blames e.location :=
  h.self.1

theorem Expr.Fits.part {e f : Expr} (h : e.Fits N F) (hf : f ∈ e.parts) : f.Fits N F :=
  Expr.Holds.part h hf

theorem Expr.Fits.clean {e : Expr} (h : e.Fits N F) (n : N) : e.Clean :=
  h.mono fun _ hd => hd.2 n

theorem Expr.fits_opened {e : Expr} (h : N → e.Clean) : e.Fits N ([] :: F) :=
  fun d hd => ⟨Begun.blames_opened F d.location, fun n => h n d hd⟩

theorem Stmt.fits_part {s : Stmt} (h : N → s.Clean) {e : Expr} (he : e ∈ s.parts) :
    e.Fits N (F.begin s) :=
  fun d hd => ⟨Begun.blames_covered F (Stmt.covers_part he d hd), fun n => (h n).part he d hd⟩

theorem PendingCall.Fits.receive {p : PendingCall} (h : p.Fits N F) {v : Value}
    (hv : v.Native N) : (p.receive v).Fits N F := by
  obtain ⟨loc, args, named, todo⟩ := h
  unfold PendingCall.receive
  split
  · exact ⟨loc, args, named, todo⟩
  · exact ⟨loc, args, Table.values_put named hv, todo⟩
  · refine ⟨loc, fun w hw => ?_, named, todo⟩
    rcases List.mem_append.mp hw with hw | hw
    · exact args w hw
    · exact List.mem_singleton.mp hw ▸ hv

theorem Context.Fits.ne_nil : {F : Begun} → {a : Awaits} → (k : Context a) → k.Fits N F → F ≠ []
  | _, _, .program, h => by
    rintro rfl
    cases h
  | _, _, .fill hole k, h => by
    rintro rfl
    exact ne_nil k h.2 (by cases hole <;> rfl)
  | _, _, .argument _ k, h => ne_nil k h.2
  | _, _, .sortKey _ k, h => ne_nil k h.2

theorem Block.Fits.head {s : Stmt} {ss : List Stmt} (h : Block.Fits N (s :: ss)) (n : N) : s.Clean :=
  h n s List.mem_cons_self

theorem Block.Fits.tail {s : Stmt} {ss : List Stmt} (h : Block.Fits N (s :: ss)) : Block.Fits N ss :=
  fun n t ht => h n t (List.mem_cons_of_mem s ht)

theorem Block.fits_body {s : Stmt} (h : N → s.Clean) {ss : List Stmt} (hs : ss ∈ s.bodies) :
    Block.Fits N ss :=
  fun n => (h n).body hs

/-- What follows a statement still fits once the call has begun another one. -/
theorem Context.Fits.begin (s : Stmt) : (k : Context .flow) → k.Fits N F → k.Fits N (F.begin s)
  | .program, h => by
    cases F with
    | nil => exact h
    | cons ss F => exact h
  | .fill (.rest _ _) k, h => ⟨h.1, begin s k h.2⟩
  | .fill (.eachBody _ _ _ _) k, h => ⟨h.1, begin s k h.2⟩
  | .fill (.loopBody _ _ _) k, h => ⟨⟨h.1.1.begin, h.1.2⟩, begin s k h.2⟩
  | .fill (.body _ _) k, h => by
    refine ⟨h.1, ?_⟩
    cases F with
    | nil => exact h.2
    | cons ss F => exact h.2

end LoopScript
