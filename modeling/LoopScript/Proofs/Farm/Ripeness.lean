import LoopScript.Proofs.Farm.Soundness

/-!
Ripeness lasts, with times and water that are rational numbers: a ripe crop waits for its harvest
whatever else is done on the farm.
-/

namespace LoopScript

namespace Farm

theorem growth_pos (c : Crop) : (0 : ℚ) < c.growth := by
  cases c <;> norm_num [Crop.growth]

theorem ripe_iff {clock : ℚ} {t : Tile ℚ} : ripe clock t = true ↔
    ∃ c, t.crop = some c ∧ c.growth * (1 - 1 / 2 * t.water) ≤ clock - t.plantedAt := by
  cases h : t.crop with
  | none => simp [ripe, h]
  | some c => norm_num [ripe, h]

/-- Time and water make crops riper. -/
theorem ripe_mono {clock later : ℚ} {t u : Tile ℚ} (h : ripe clock t = true) (hc : u.crop = t.crop)
    (hp : u.plantedAt = t.plantedAt) (hw : t.water ≤ u.water) (hl : clock ≤ later) :
    ripe later u = true := by
  obtain ⟨c, crop, grown⟩ := ripe_iff.mp h
  refine ripe_iff.mpr ⟨c, hc.trans crop, ?_⟩
  calc
    c.growth * (1 - 1 / 2 * u.water) ≤ c.growth * (1 - 1 / 2 * t.water) :=
      mul_le_mul_of_nonneg_left (by linarith) (growth_pos c).le
    _ ≤ clock - t.plantedAt := grown
    _ ≤ later - u.plantedAt := by rw [hp]; linarith

/-- The request harvests what stands at a place, or plants something there. -/
def Attempt.touches (a : Attempt ℚ) (p : Nat × Nat) : Bool :=
  a.farm.place = p ∧ (a.request = .harvest ∨ a.request.action = .plant ∧ a.granted = true)

/-- A ripe crop stands at a place. -/
structure Bears (f : Farm ℚ) (p : Nat × Nat) (c : Option Crop) : Prop where
  square : f.Square
  covers : f.Covers p
  le_full : (f.tileAt p).water ≤ 1
  crop : (f.tileAt p).crop = c
  ripe : ripe f.clock (f.tileAt p) = true

theorem Turns.riper {clock : ℚ} {t u : Tile ℚ} {r : Request} {b : Option Bool}
    (h : Turns clock t r b u) (full : t.water ≤ 1)
    (spares : ¬ (r = .harvest ∨ r.action = .plant)) :
    u.crop = t.crop ∧ u.plantedAt = t.plantedAt ∧ t.water ≤ u.water ∧ u.water ≤ 1 := by
  cases h with
  | stays | tills => exact ⟨rfl, rfl, le_rfl, full⟩
  | clears => exact absurd (.inl rfl) spares
  | sows => exact absurd (.inr rfl) spares
  | waters => exact ⟨rfl, rfl, water_le_watered full⟩

theorem Bears.step {f : Farm ℚ} {p : Nat × Nat} {c : Option Crop} (h : Bears f p c) {r : Request}
    (spared : Attempt.touches ⟨f, r⟩ p = false) : Bears (f.step r) p c := by
  rcases f.step_cases r with ⟨granted, goes⟩ | ⟨-, -, same⟩
  · have later : f.clock ≤ (f.step r).clock := by
      rw [goes.clock_eq]
      linarith [duration_pos r.action]
    have covers : (f.step r).Covers p := by
      rw [Covers, goes.size_eq]
      exact h.covers
    by_cases here : p = f.place
    · subst here
      obtain ⟨t, retiled, turns⟩ := goes.turns
      have spares : ¬ (r = .harvest ∨ r.action = .plant) := by
        simpa [Attempt.touches, granted] using spared
      obtain ⟨crop, planted, wetter, full⟩ := turns.riper h.le_full spares
      have now := retiled.tileAt_place h.square
      rw [← now] at crop planted wetter full
      exact ⟨goes.square h.square, covers, full, crop.trans h.crop,
        ripe_mono h.ripe crop planted wetter later⟩
    · have tile := goes.tileAt_eq h.square h.covers here
      exact ⟨goes.square h.square, covers, tile ▸ h.le_full, tile ▸ h.crop,
        ripe_mono h.ripe (by rw [tile]) (by rw [tile]) (by rw [tile]) later⟩
  · rwa [same]

theorem Bears.after {f : Farm ℚ} {p : Nat × Nat} {c : Option Crop} (h : Bears f p c)
    {rs : List Request} (spared : ∀ a ∈ f.attempts rs, a.touches p = false) :
    Bears (f.after rs) p c := by
  induction rs generalizing f with
  | nil => exact h
  | cons r rs ih =>
    obtain ⟨first, rest⟩ := List.forall_mem_cons.mp spared
    exact ih (h.step first) rest

/-- A ripe crop stays, and stays ripe, as long as nobody harvests its tile or plants something on it.
What is asked of the farm holds of every farm that is in order (`Sound`). -/
theorem ripe_stays {f : Farm ℚ} (hf : f.Square) {p : Nat × Nat} (hp : f.Covers p)
    (full : (f.tileAt p).water ≤ 1) (ripe : Farm.ripe f.clock (f.tileAt p) = true)
    {rs : List Request} (spared : ∀ a ∈ f.attempts rs, a.touches p = false) :
    let g := f.after rs
    (g.tileAt p).crop = (f.tileAt p).crop ∧ Farm.ripe g.clock (g.tileAt p) = true ∧
      (g.place = p → g.canHarvest = true) := by
  have stands : Bears (f.after rs) p (f.tileAt p).crop := by
    have start : Bears f p (f.tileAt p).crop := ⟨hf, hp, full, rfl, ripe⟩
    exact start.after spared
  refine ⟨stands.crop, stands.ripe, ?_⟩
  rintro rfl
  exact stands.ripe

/-- A tree is watered and left alone, while grass grows and is cut next to it. -/
theorem ripe_stays_beside :
    let f : Farm ℚ := (meadow 2 [("water", 1)]).after [.plant "tree", .flip, .flip]
    let rs : List Request :=
      [.useItem "water", .till, .plant "cactus", .move "east", .plant "grass", .flip, .harvest,
        .move "east"]
    f.Square ∧ f.Covers (0, 0) ∧ (f.tileAt (0, 0)).water ≤ 1 ∧
      ripe f.clock (f.tileAt (0, 0)) = true ∧
      (∀ a ∈ f.attempts rs, a.touches (0, 0) = false) ∧ (f.after rs).canHarvest = true := by
  intro f rs
  have stock : ∀ e ∈ ([("water", 1)] : Table String ℚ), 0 ≤ e.2 := by simp
  have sound : f.Sound := after_sound (create_sound (by decide : (1 : Int) ≤ 2) stock).2 _
  have square : f.Square := sound.square
  have covers : f.Covers (0, 0) := by decide +kernel
  have full : (f.tileAt (0, 0)).water ≤ 1 := (sound.tended _ (square.mem_tiles covers)).le_full
  have ripe : Farm.ripe f.clock (f.tileAt (0, 0)) = true := by decide +kernel
  have spared : ∀ a ∈ f.attempts rs, a.touches (0, 0) = false := by decide +kernel
  refine ⟨square, covers, full, ripe, spared, ?_⟩
  exact (ripe_stays square covers full ripe spared).2.2 (by decide +kernel)

end Farm

end LoopScript
