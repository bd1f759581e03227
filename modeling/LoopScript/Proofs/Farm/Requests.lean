import LoopScript.Farm
import LoopScript.Proofs.Table

/-!
Requests: the actions of a farm with their arguments, what each of them may come to, and runs of
requests of which each may be refused.
-/

namespace LoopScript

namespace Farm

inductive Request where
  | move (direction : String)
  | harvest
  | plant (crop : String)
  | till
  | useItem (item : String)
  | flip
deriving DecidableEq, Repr

namespace Request

def action : Request → FarmAction
  | move _ => .move
  | harvest => .harvest
  | plant _ => .plant
  | till => .till
  | useItem _ => .useItem
  | flip => .flip

/-- How far a request goes, east and north. -/
def stride : Request → Int × Int
  | move s => ((Direction.ofName? s).map Direction.offset).getD (0, 0)
  | _ => (0, 0)

end Request

variable {κ : Type}

def place (f : Farm κ) : Nat × Nat := (f.x, f.y)

def tileAt [OfScientific κ] (f : Farm κ) (p : Nat × Nat) : Tile κ :=
  f.tiles.getD (p.2 * f.size + p.1) ⟨.grassland, none, 0.0, 0.0⟩

def Covers (f : Farm κ) (p : Nat × Nat) : Prop := p.1 < f.size ∧ p.2 < f.size

instance (f : Farm κ) (p : Nat × Nat) : Decidable (f.Covers p) :=
  inferInstanceAs (Decidable (_ ∧ _))

/-- There is a tile for each place, and somebody stands on one of them. -/
structure Square (f : Farm κ) : Prop where
  tiles : f.tiles.size = f.size * f.size
  place : f.Covers f.place

theorem cast_shift {n : Nat} (hn : 0 < n) (x : Nat) (d : Int) :
    (shift n x d : Int) = (x + d) % n :=
  Int.toNat_of_nonneg (Int.emod_nonneg _ (by omega))

theorem shift_lt {n : Nat} (hn : 0 < n) {x : Nat} {d : Int} : shift n x d < n := by
  have := Int.emod_lt_of_pos (x + d) (by omega : (0 : Int) < n)
  rw [← cast_shift hn] at this
  omega

theorem shift_zero {n x : Nat} (h : x < n) : shift n x 0 = x := by
  have := cast_shift (Nat.zero_lt_of_lt h) x 0
  rw [Int.add_zero, Int.emod_eq_of_lt (by omega) (by omega)] at this
  omega

theorem create_square [OfScientific κ] {n : Int} (hn : 1 ≤ n) (inventory : Table String κ) :
    create n inventory = .ok (meadow n.toNat inventory) ∧ (meadow n.toNat inventory).Square := by
  have positive : 0 < n.toNat := by omega
  constructor
  · exact if_neg (by omega)
  · exact ⟨Array.size_replicate, positive, positive⟩

section Tiles

theorem index_lt {n : Nat} {p : Nat × Nat} (h₁ : p.1 < n) (h₂ : p.2 < n) : p.2 * n + p.1 < n * n :=
  calc
    p.2 * n + p.1 < p.2 * n + n := Nat.add_lt_add_left h₁ _
    _ = (p.2 + 1) * n := (Nat.succ_mul _ _).symm
    _ ≤ n * n := Nat.mul_le_mul_right n h₂

theorem index_injective {n : Nat} {p q : Nat × Nat} (hp : p.1 < n) (hq : q.1 < n)
    (h : p.2 * n + p.1 = q.2 * n + q.1) : p = q := by
  have row : p.2 = q.2 := by
    have quotients := congrArg (· / n) h
    simpa [Nat.mul_comm _ n, Nat.mul_add_div (by omega : 0 < n), Nat.div_eq_of_lt, hp, hq]
      using quotients
  refine Prod.ext ?_ row
  rw [row] at h
  omega

theorem Square.mem_tiles [OfScientific κ] {f : Farm κ} (hf : f.Square) {p : Nat × Nat}
    (hp : f.Covers p) : f.tileAt p ∈ f.tiles := by
  have inside : p.2 * f.size + p.1 < f.tiles.size := hf.tiles ▸ index_lt hp.1 hp.2
  rw [tileAt, Array.getD_eq_getD_getElem?, Array.getElem?_eq_getElem inside]
  exact Array.getElem_mem inside

/-- The farm `g` differs from `f` in no tile but that at the place of `f`, which is `t`. -/
structure Retiled (f g : Farm κ) (t : Tile κ) : Prop where
  size : g.size = f.size
  tiles : g.tiles = f.tiles.setIfInBounds (f.y * f.size + f.x) t

namespace Retiled

variable {f g : Farm κ} {t : Tile κ}

theorem mem (h : Retiled f g t) {u : Tile κ} (hu : u ∈ g.tiles) : u ∈ f.tiles ∨ u = t :=
  Array.mem_or_eq_of_mem_setIfInBounds (h.tiles ▸ hu)

theorem tileAt_place [OfScientific κ] (h : Retiled f g t) (hf : f.Square) :
    g.tileAt f.place = t := by
  have inside : f.y * f.size + f.x < f.tiles.size := hf.tiles ▸ index_lt hf.place.1 hf.place.2
  simp [tileAt, place, h.size, h.tiles, Array.getD_eq_getD_getElem?, inside]

theorem tileAt_of_ne [OfScientific κ] (h : Retiled f g t) (hf : f.Square) {p : Nat × Nat}
    (hp : f.Covers p) (hne : p ≠ f.place) : g.tileAt p = f.tileAt p := by
  have apart : f.y * f.size + f.x ≠ p.2 * f.size + p.1 := by
    intro e
    exact hne (index_injective hf.place.1 hp.1 e).symm
  simp [tileAt, h.size, h.tiles, Array.getD_eq_getD_getElem?, apart]

end Retiled

theorem setIfInBounds_tile [OfScientific κ] (f : Farm κ) :
    f.tiles.setIfInBounds (f.y * f.size + f.x) f.tile = f.tiles := by
  apply Array.ext
  · simp
  · intro i h₁ h₂
    rw [Array.getElem_setIfInBounds h₂]
    by_cases e : f.y * f.size + f.x = i
    · simp [tile, e, Array.getD_eq_getD_getElem?, h₂]
    · simp [e]

end Tiles

@[simp]
theorem watered_crop [OfScientific κ] [Add κ] [LE κ] [DecidableLE κ] (t : Tile κ) :
    (watered t).crop = t.crop := rfl

variable [OfScientific κ] [Add κ] [Sub κ] [Mul κ] [LE κ] [DecidableLE κ]

/-- Carries out a request. Some actions answer whether they have got something, or used it up. -/
def perform (f : Farm κ) : Request → Except FarmError (Option Bool × Farm κ)
  | .move s => (f.move s).map (none, ·)
  | .harvest => .ok (some f.harvest.1, f.harvest.2)
  | .plant s => (f.plant s).map (none, ·)
  | .till => .ok (none, f.till)
  | .useItem s => .ok (some (f.useItem s).1, (f.useItem s).2)
  | .flip => .ok (none, f.flip)

def Grants (f : Farm κ) : Request → Prop
  | .move s => (Direction.ofName? s).isSome
  | .plant s => ∃ c, Crop.ofName? s = some c ∧ (c.needsSoil → f.tile.ground = .soil)
  | _ => True

/-- What a request that is granted comes to. -/
inductive Goes (f : Farm κ) : Request → Option Bool → Farm κ → Prop
  | moves {s : String} {d : Direction} (h : Direction.ofName? s = some d) :
    Goes f (.move s) none
      (spend { f with x := shift f.size f.x d.offset.1, y := shift f.size f.y d.offset.2 } .move)
  | bare (h : f.tile.crop = none) : Goes f .harvest (some false) (f.spend .harvest)
  | wastes {c : Crop} (h : f.tile.crop = some c) (unripe : f.canHarvest = false) :
    Goes f .harvest (some false) ((f.setTile { f.tile with crop := none }).spend .harvest)
  | reaps {c : Crop} (h : f.tile.crop = some c) (ripe : f.canHarvest = true) :
    Goes f .harvest (some true)
      (spend { f.setTile { f.tile with crop := none } with
        inventory := f.inventory.put c.harvest.1 (f.amount c.harvest.1 + c.harvest.2) } .harvest)
  | sows {s : String} {c : Crop} (h : Crop.ofName? s = some c)
    (soil : c.needsSoil → f.tile.ground = .soil) :
    Goes f (.plant s) none
      ((f.setTile { f.tile with crop := some c, plantedAt := f.clock }).spend .plant)
  | tills (g : Ground) : Goes f .till none ((f.setTile { f.tile with ground := g }).spend .till)
  | lacks {s : String} (h : ¬ (1.0 : κ) ≤ f.amount s) :
    Goes f (.useItem s) (some false) (f.spend .useItem)
  | waters (h : (1.0 : κ) ≤ f.amount "water") :
    Goes f (.useItem "water") (some true)
      (spend { f.setTile (watered f.tile) with
        inventory := f.inventory.put "water" (f.amount "water" - 1.0) } .useItem)
  | uses {s : String} (h : (1.0 : κ) ≤ f.amount s) (dry : s ≠ "water") :
    Goes f (.useItem s) (some true)
      (spend { f with inventory := f.inventory.put s (f.amount s - 1.0) } .useItem)
  | flips : Goes f .flip none (spend { f with flips := f.flips + 1 } .flip)

theorem perform_cases (f : Farm κ) (r : Request) :
    (f.Grants r ∧ ∃ b g, f.perform r = .ok (b, g) ∧ Goes f r b g) ∨
      (¬ f.Grants r ∧ ∃ e, f.perform r = .error e) := by
  cases r with
  | move s =>
    cases h : Direction.ofName? s with
    | none => exact .inr ⟨by simp [Grants, h], .direction s, by simp [perform, move, h, Except.map]⟩
    | some d =>
      exact .inl ⟨by simp [Grants, h], _, _, by simp [perform, move, h, Except.map], .moves h⟩
  | harvest =>
    refine .inl ⟨trivial, _, _, rfl, ?_⟩
    unfold harvest
    split
    · next h => exact .bare h
    · next c h =>
      split
      -- What a crop brings in is read off a table of crops, so it is met crop by crop.
      · next ripe => cases c <;> exact .reaps h ripe
      · next unripe => exact .wastes h (Bool.eq_false_iff.mpr unripe)
  | plant s =>
    cases h : Crop.ofName? s with
    | none =>
      exact .inr ⟨by simp [Grants, h], .unknownCrop s, by simp [perform, plant, h, Except.map]⟩
    | some c =>
      by_cases bad : c.needsSoil ∧ f.tile.ground ≠ .soil
      · have refuses : ¬ f.Grants (.plant s) := by
          rintro ⟨d, hd, soil⟩
          obtain rfl : c = d := Option.some.inj (h.symm.trans hd)
          exact bad.2 (soil bad.1)
        exact .inr ⟨refuses, .ground c f.tile.ground, by simp [perform, plant, h, bad, Except.map]⟩
      · have soil : c.needsSoil → f.tile.ground = .soil := by
          intro hc
          by_contra hg
          exact bad ⟨hc, hg⟩
        have sown : f.perform (.plant s) = .ok (none,
            (f.setTile { f.tile with crop := some c, plantedAt := f.clock }).spend .plant) := by
          simp [perform, plant, h, if_neg bad, Except.map]
        exact .inl ⟨⟨c, h, soil⟩, _, _, sown, .sows h soil⟩
  | till => exact .inl ⟨trivial, _, _, rfl, .tills _⟩
  | useItem s =>
    refine .inl ⟨trivial, _, _, rfl, ?_⟩
    unfold useItem
    split
    · next h =>
      by_cases wet : s = "water"
      · subst wet
        exact .waters h
      · simp only [if_neg wet]
        exact .uses h wet
    · next h => exact .lacks h
  | flip => exact .inl ⟨trivial, _, _, rfl, .flips⟩

/-- What becomes of the tile on which a request is carried out at a time. -/
inductive Turns (clock : κ) (t : Tile κ) : Request → Option Bool → Tile κ → Prop
  | stays {r : Request} {b : Option Bool} (idle : r = .harvest → b = some false ∧ t.crop = none)
    (unsown : ∀ s, r ≠ .plant s) : Turns clock t r b t
  | clears {c : Crop} {b : Bool} (h : t.crop = some c) :
    Turns clock t .harvest (some b) { t with crop := none }
  | sows {s : String} (c : Crop) :
    Turns clock t (.plant s) none { t with crop := some c, plantedAt := clock }
  | tills (g : Ground) : Turns clock t .till none { t with ground := g }
  | waters : Turns clock t (.useItem "water") (some true) (watered t)

namespace Goes

variable {f g : Farm κ} {r : Request} {b : Option Bool}

theorem clock_eq (h : Goes f r b g) : g.clock = f.clock + r.action.duration := by
  cases h <;> rfl

theorem size_eq (h : Goes f r b g) : g.size = f.size := by
  cases h <;> rfl

theorem turns (h : Goes f r b g) : ∃ t, Retiled f g t ∧ Turns f.clock f.tile r b t := by
  have same := f.setIfInBounds_tile.symm
  cases h with
  | moves | lacks | uses | flips => exact ⟨f.tile, ⟨rfl, same⟩, .stays nofun nofun⟩
  | bare h => exact ⟨f.tile, ⟨rfl, same⟩, .stays (fun _ => ⟨rfl, h⟩) nofun⟩
  | wastes h | reaps h => exact ⟨_, ⟨rfl, rfl⟩, .clears h⟩
  | sows => exact ⟨_, ⟨rfl, rfl⟩, .sows _⟩
  | tills => exact ⟨_, ⟨rfl, rfl⟩, .tills _⟩
  | waters => exact ⟨_, ⟨rfl, rfl⟩, .waters⟩

theorem tileAt_eq (h : Goes f r b g) (hf : f.Square) {p : Nat × Nat} (hp : f.Covers p)
    (hne : p ≠ f.place) : g.tileAt p = f.tileAt p := by
  obtain ⟨t, retiled, -⟩ := h.turns
  exact retiled.tileAt_of_ne hf hp hne

theorem shifts (h : Goes f r b g) (hf : f.Covers f.place) :
    g.x = shift f.size f.x r.stride.1 ∧ g.y = shift f.size f.y r.stride.2 := by
  cases h with
  | moves h => simp [Request.stride, h, spend]
  | _ => exact ⟨(shift_zero hf.1).symm, (shift_zero hf.2).symm⟩

theorem square (h : Goes f r b g) (hf : f.Square) : g.Square := by
  obtain ⟨t, retiled, -⟩ := h.turns
  obtain ⟨hx, hy⟩ := h.shifts hf.place
  have positive : 0 < f.size := Nat.zero_lt_of_lt hf.place.1
  constructor
  · rw [retiled.tiles, Array.size_setIfInBounds, hf.tiles, retiled.size]
  · rw [Covers, h.size_eq, place, hx, hy]
    exact ⟨shift_lt positive, shift_lt positive⟩

end Goes

/-- The farm after a request, which changes nothing if it is refused. -/
def step (f : Farm κ) (r : Request) : Farm κ :=
  match f.perform r with
  | .ok (_, g) => g
  | .error _ => f

def after (f : Farm κ) : List Request → Farm κ
  | [] => f
  | r :: rs => (f.step r).after rs

structure Attempt (κ : Type) where
  farm : Farm κ
  request : Request

namespace Attempt

def granted (a : Attempt κ) : Bool := (a.farm.perform a.request).isOk

def answer (a : Attempt κ) : Option Bool :=
  match a.farm.perform a.request with
  | .ok (b, _) => b
  | .error _ => none

end Attempt

/-- The requests of a run, each with the farm that those before it have left. -/
def attempts (f : Farm κ) : List Request → List (Attempt κ)
  | [] => []
  | r :: rs => ⟨f, r⟩ :: attempts (f.step r) rs

theorem step_cases (f : Farm κ) (r : Request) :
    let a : Attempt κ := ⟨f, r⟩
    (a.granted = true ∧ Goes f r a.answer (f.step r)) ∨
      (a.granted = false ∧ a.answer = none ∧ f.step r = f) := by
  simp only [Attempt.granted, Attempt.answer, step]
  rcases f.perform_cases r with ⟨-, b, g, ok, goes⟩ | ⟨-, e, error⟩
  · rw [ok]
    exact .inl ⟨rfl, goes⟩
  · rw [error]
    exact .inr ⟨rfl, rfl, rfl⟩

theorem step_of {P : Farm κ → Prop} {f : Farm κ} (h : P f) (r : Request)
    (goes : ∀ b g, Goes f r b g → P g) : P (f.step r) := by
  rcases f.step_cases r with ⟨-, hg⟩ | ⟨-, -, same⟩
  · exact goes _ _ hg
  · rwa [same]

theorem after_of {P : Farm κ → Prop} {f : Farm κ} (h : P f) (rs : List Request)
    (goes : ∀ f r b g, P f → Goes f r b g → P g) : P (f.after rs) := by
  induction rs generalizing f with
  | nil => exact h
  | cons r rs ih => exact ih (step_of h r fun b g => goes f r b g h)

end Farm

end LoopScript
