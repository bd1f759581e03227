import LoopScript.Proofs.Farm.Requests
import Mathlib.Algebra.BigOperators.Group.List.Basic
import Mathlib.Data.Rat.Lemmas
import Mathlib.Tactic.Linarith
import Mathlib.Tactic.NormNum
import Mathlib.Tactic.Ring

/-!
The ledger of a farm: where its goods come from and where they go, with amounts that are rational
numbers.
-/

namespace LoopScript

namespace Farm

/-- How much of an item a request brings in that has this answer. -/
def gain (item : String) (f : Farm ℚ) (r : Request) (b : Option Bool) : ℚ :=
  match r, b, f.tile.crop with
  | .harvest, some true, some c => if c.harvest.1 = item then c.harvest.2 else 0
  | _, _, _ => 0

namespace Attempt

variable (a : Attempt ℚ)

def gain (item : String) : ℚ := Farm.gain item a.farm a.request a.answer

def uses (item : String) : Bool := a.request = .useItem item ∧ a.answer = some true

def reaps (p : Nat × Nat) : Bool :=
  a.farm.place = p ∧ a.request = .harvest ∧ a.answer = some true

def sows (p : Nat × Nat) : Bool :=
  a.farm.place = p ∧ a.request.action = .plant ∧ a.granted = true

end Attempt

section Goods

theorem amount_put (inventory : Table String ℚ) (key item : String) (n : ℚ) :
    ((inventory.put key n).get? item).getD 0.0 =
      if key = item then n else (inventory.get? item).getD 0.0 := by
  split
  · next h => rw [← h, Table.get?_put_self, Option.getD_some]
  · next h => rw [Table.get?_put_of_ne _ _ h]

theorem amount_take (inventory : Table String ℚ) (key item : String) :
    ((inventory.put key ((inventory.get? key).getD 0.0 - 1.0)).get? item).getD 0.0 =
      (inventory.get? item).getD 0.0 + 0 -
        if Request.useItem key = .useItem item ∧ some true = some true then 1 else 0 := by
  rw [amount_put]
  by_cases same : key = item
  · simp [same]
    norm_num
  · simp [same]

theorem Goes.amount_eq {f g : Farm ℚ} {r : Request} {b : Option Bool} (h : Goes f r b g)
    (item : String) : g.amount item =
      f.amount item + gain item f r b - if r = .useItem item ∧ b = some true then 1 else 0 := by
  cases h with
  | moves | bare | wastes | sows | tills | lacks | flips =>
    simp [gain, spend, setTile, amount]
  | @reaps c h =>
    simp only [gain, h, amount, spend, setTile, amount_put, reduceCtorEq, false_and, if_false,
      sub_zero]
    split
    · next same => rw [same]
    · exact (add_zero _).symm
  | waters => exact amount_take f.inventory "water" item
  | @uses s => exact amount_take f.inventory s item

theorem amount_after (f : Farm ℚ) (rs : List Request) (item : String) :
    (f.after rs).amount item = f.amount item + ((f.attempts rs).map (·.gain item)).sum -
      (f.attempts rs).countP (·.uses item) := by
  induction rs generalizing f with
  | nil => simp [after, attempts]
  | cons r rs ih =>
    have first : (f.step r).amount item = f.amount item + Attempt.gain ⟨f, r⟩ item -
        if Attempt.uses ⟨f, r⟩ item then 1 else 0 := by
      rcases f.step_cases r with ⟨-, goes⟩ | ⟨-, silent, same⟩
      · simpa [Attempt.gain, Attempt.uses] using goes.amount_eq item
      · simp [Attempt.gain, Attempt.uses, Farm.gain, silent, same]
    rw [after, ih, first, attempts, List.map_cons, List.sum_cons, List.countP_cons]
    push_cast
    ring

end Goods

section Crops

def standing (f : Farm ℚ) (p : Nat × Nat) : Nat := (f.tileAt p).crop.isSome.toNat

/-- A harvest that yields uses up the crop that stands there, and only planting brings another. -/
theorem standing_step {f : Farm ℚ} (hf : f.Square) {p : Nat × Nat} (hp : f.Covers p) (r : Request) :
    (if Attempt.reaps ⟨f, r⟩ p then 1 else 0) + (f.step r).standing p ≤
      (if Attempt.sows ⟨f, r⟩ p then 1 else 0) + f.standing p := by
  rcases f.step_cases r with ⟨granted, goes⟩ | ⟨-, silent, same⟩
  · by_cases here : f.place = p
    · subst here
      obtain ⟨t, retiled, turns⟩ := goes.turns
      have before : f.tileAt f.place = f.tile := rfl
      simp only [standing, retiled.tileAt_place hf, before, Attempt.reaps, Attempt.sows, granted]
      generalize Attempt.answer ⟨f, r⟩ = b at turns
      cases turns with
      | stays idle unsown =>
        have barren : ¬ (r = .harvest ∧ b = some true) := fun h => by simp [(idle h.1).1] at h
        simp [barren]
      | clears h =>
        simp only [h, Option.isSome_none, Option.isSome_some, Bool.toNat_true, Bool.toNat_false]
        split <;> simp
      | sows c => simp [Request.action]
      | tills g => simp
      | waters => simp [Request.action]
    · simp [standing, Attempt.reaps, Attempt.sows, here, goes.tileAt_eq hf hp (Ne.symm here)]
  · simp [standing, Attempt.reaps, silent, same]

theorem reaped_le {f : Farm ℚ} (hf : f.Square) {p : Nat × Nat} (hp : f.Covers p)
    (rs : List Request) :
    (f.attempts rs).countP (·.reaps p) + (f.after rs).standing p ≤
      (f.attempts rs).countP (·.sows p) + f.standing p := by
  induction rs generalizing f with
  | nil => simp [after, attempts]
  | cons r rs ih =>
    have first := standing_step hf hp r
    have covers : (f.step r).Covers p := by
      apply step_of (P := fun g => g.Covers p) hp
      intro b g goes
      rwa [Covers, goes.size_eq]
    have rest := ih (step_of hf r fun _ _ goes => goes.square hf) covers
    rw [after, attempts, List.countP_cons, List.countP_cons]
    omega

end Crops

/-- From a new farm on, there is always as much of an item as there was at first, with what harvests
have brought in of it and without what has been used of it; and a tile has yielded at most as often
as something was planted on it. -/
theorem goods_conserved {n : Int} (hn : 1 ≤ n) (inventory : Table String ℚ) (rs : List Request) :
    ∃ start : Farm ℚ, create n inventory = .ok start ∧
      (∀ item, start.amount item = (inventory.get? item).getD 0 ∧
        (start.after rs).amount item = start.amount item +
          ((start.attempts rs).map (·.gain item)).sum - (start.attempts rs).countP (·.uses item)) ∧
      ∀ p, start.Covers p →
        (start.attempts rs).countP (·.reaps p) ≤ (start.attempts rs).countP (·.sows p) := by
  obtain ⟨created, square⟩ := create_square hn inventory
  refine ⟨_, created, ?_, ?_⟩
  · intro item
    constructor
    · norm_num [amount, meadow]
    · exact amount_after _ rs item
  · intro p hp
    have bare : (meadow n.toNat inventory).standing p = 0 := by
      rw [standing, (Array.mem_replicate.mp (square.mem_tiles hp)).2]
      rfl
    have := reaped_le square hp rs
    omega

/-- Of two crops one is harvested too early, and the other yields. -/
theorem goods_conserved_hasty :
    let stock : Table String ℚ := [("water", 3 / 2)]
    let rs : List Request :=
      [.plant "grass", .harvest, .plant "tree", .useItem "water", .flip, .flip, .harvest,
        .useItem "water"]
    (1 : Int) ≤ 2 ∧ ∃ start : Farm ℚ, create 2 stock = .ok start ∧
      (start.after rs).amount "wood" = 5 ∧ (start.after rs).amount "water" = 1 / 2 ∧
      (start.attempts rs).countP (·.reaps (0, 0)) ≤ 2 := by
  intro stock rs
  refine ⟨by decide, ?_⟩
  obtain ⟨start, created, balance, yields⟩ := goods_conserved (by decide : (1 : Int) ≤ 2) stock rs
  obtain rfl : meadow 2 stock = start := Except.ok.inj created
  refine ⟨_, created, ?_, ?_, ?_⟩
  · rw [(balance "wood").2]
    decide +kernel
  · rw [(balance "water").2]
    decide +kernel
  · have sown : ((meadow 2 stock).attempts rs).countP (·.sows (0, 0)) = 2 := by decide +kernel
    exact (yields (0, 0) (by decide)).trans sown.le

end Farm

end LoopScript
