import LoopScript.Farm.Library
import LoopScript.Proofs.Farm.Requests
import Mathlib

/-!
Farms whose times and amounts are rational numbers stay in order, whatever requests are made of
them and in whatever order.
-/

namespace LoopScript

namespace Farm

theorem duration_pos (a : FarmAction) : (0 : ℚ) < a.duration := by
  cases a <;> norm_num [FarmAction.duration]

/-- A tile in order: it is between dry and full of water, and nothing on it was planted later than
the given time. -/
structure Tended (clock : ℚ) (t : Tile ℚ) : Prop where
  dry_le : 0 ≤ t.water
  le_full : t.water ≤ 1
  planted : t.plantedAt ≤ clock

theorem water_le_watered {t : Tile ℚ} (h : t.water ≤ 1) :
    t.water ≤ (watered t).water ∧ (watered t).water ≤ 1 := by
  simp only [watered]
  split <;> norm_num at * <;> linarith

theorem Turns.tended {clock : ℚ} {t u : Tile ℚ} {r : Request} {b : Option Bool}
    (h : Turns clock t r b u) (ht : Tended clock t) : Tended clock u := by
  obtain ⟨dry, full, planted⟩ := ht
  cases h with
  | stays | clears | tills => exact ⟨dry, full, planted⟩
  | sows => exact ⟨dry, full, le_rfl⟩
  | waters =>
    obtain ⟨more, le⟩ := water_le_watered full
    exact ⟨dry.trans more, le, planted⟩

structure Sound (f : Farm ℚ) : Prop where
  square : f.Square
  tended : ∀ t ∈ f.tiles, Tended f.clock t
  stock : ∀ e ∈ f.inventory, 0 ≤ e.2

theorem Sound.amount_nonneg {f : Farm ℚ} (hf : f.Sound) (item : String) : 0 ≤ f.amount item := by
  rw [amount]
  cases h : f.inventory.get? item with
  | none => norm_num
  | some n => exact hf.stock _ (Table.mem_of_get? h)

theorem yield_pos (c : Crop) : (0 : ℚ) < c.harvest.2 := by
  cases c <;> norm_num [Crop.harvest]

theorem Goes.sound {f g : Farm ℚ} {r : Request} {b : Option Bool} (h : Goes f r b g)
    (hf : f.Sound) : g.Sound := by
  obtain ⟨t, retiled, turns⟩ := h.turns
  constructor
  · exact h.square hf.square
  · intro u hu
    have before : Tended f.clock u := by
      rcases retiled.mem hu with old | rfl
      · exact hf.tended u old
      · exact turns.tended (hf.tended _ (hf.square.mem_tiles hf.square.place))
    have later := duration_pos r.action
    exact ⟨before.dry_le, before.le_full, by rw [h.clock_eq]; linarith [before.planted]⟩
  · cases h with
    | moves | bare | wastes | sows | tills | lacks | flips => exact hf.stock
    | @reaps c =>
      intro e he
      rcases Table.mem_put he with old | rfl
      · exact hf.stock e old
      · have := hf.amount_nonneg c.harvest.1
        have := yield_pos c
        dsimp only
        linarith
    | waters enough | uses enough =>
      intro e he
      rcases Table.mem_put he with old | rfl
      · exact hf.stock e old
      · norm_num at enough ⊢
        exact enough

theorem create_sound {n : Int} (hn : 1 ≤ n) {inventory : Table String ℚ}
    (h : ∀ e ∈ inventory, 0 ≤ e.2) :
    create n inventory = .ok (meadow n.toNat inventory) ∧ (meadow n.toNat inventory).Sound := by
  obtain ⟨created, square⟩ := create_square hn inventory
  have tended : ∀ t ∈ (meadow n.toNat inventory).tiles, Tended (meadow n.toNat inventory).clock t := by
    intro t ht
    obtain rfl := (Array.mem_replicate.mp ht).2
    exact ⟨by norm_num, by norm_num, le_rfl⟩
  exact ⟨created, square, tended, h⟩

theorem after_sound {f : Farm ℚ} (hf : f.Sound) (rs : List Request) : (f.after rs).Sound :=
  after_of hf rs fun _ _ _ _ hf goes => goes.sound hf

section Position

variable {κ : Type} [OfScientific κ] [Add κ] [Sub κ] [Mul κ] [LE κ] [DecidableLE κ]

/-- The sum of the steps of all requests that are granted, along one of the two axes. -/
def travelled (axis : Int × Int → Int) (f : Farm κ) (rs : List Request) : Int :=
  (((f.attempts rs).filter Attempt.granted).map fun a => axis a.request.stride).sum

theorem size_after (f : Farm κ) (rs : List Request) : (f.after rs).size = f.size :=
  after_of (P := fun g => g.size = f.size) rfl rs fun _ _ _ _ hf goes => goes.size_eq.trans hf

theorem place_after {f : Farm κ} (hf : f.Square) (rs : List Request) :
    ((f.after rs).x : Int) = (f.x + travelled Prod.fst f rs) % f.size ∧
      ((f.after rs).y : Int) = (f.y + travelled Prod.snd f rs) % f.size := by
  induction rs generalizing f with
  | nil =>
    obtain ⟨hx, hy⟩ := hf.place
    simp only [place] at hx hy
    simp only [after, travelled, attempts, List.filter_nil, List.map_nil, List.sum_nil,
      Int.add_zero]
    constructor <;> exact (Int.emod_eq_of_lt (by omega) (by omega)).symm
  | cons r rs ih =>
    have positive : 0 < f.size := Nat.zero_lt_of_lt hf.place.1
    obtain ⟨hx, hy⟩ := ih (step_of hf r fun _ _ goes => goes.square hf)
    have size : (f.step r).size = f.size := size_after f [r]
    rw [after, hx, hy, size]
    rcases f.step_cases r with ⟨yes, goes⟩ | ⟨no, -, same⟩
    -- The place wraps at every move, and the sum only in the end.
    · obtain ⟨sx, sy⟩ := goes.shifts hf.place
      simp only [travelled, attempts, List.filter_cons, yes, if_true, List.map_cons, List.sum_cons]
      rw [sx, sy, cast_shift positive, cast_shift positive, Int.emod_add_emod, Int.emod_add_emod,
        Int.add_assoc, Int.add_assoc]
      exact ⟨rfl, rfl⟩
    · simp [travelled, attempts, no, same]

end Position

section Calls

variable {σ : Type} (access : Access σ)

def text? : List Value → Option String
  | .str t :: _ => some t
  | _ => none

/-- The request that a call of a program makes, unless it should give a text and does not. -/
def Request.ofCall? (args : List Value) : FarmAction → Option Request
  | .harvest => some .harvest
  | .till => some .till
  | .flip => some .flip
  | .move => (text? args).map .move
  | .plant => (text? args).map .plant
  | .useItem => (text? args).map .useItem

/-- How a call of a program is answered: its request is carried out on the farm of the host. -/
def respond (a : FarmAction) (c : Call) (w : World σ) : Reply σ × World σ :=
  match Request.ofCall? c.args a with
  | none => (refuse a.name (a.name ++ "() expects a string argument"), w)
  | some r =>
    match (access.get w.host).perform r with
    | .error e => (refuse a.name e.message, w)
    | .ok (_, f) => (.wait (.seconds a.duration), { w with host := access.set f w.host })

theorem acting_eq {a : FarmAction} {r : Request} {act : Farm Float → Except FarmError (Farm Float)}
    {c : Call} (w : World σ) (hc : Request.ofCall? c.args a = some r)
    (h : ∀ f, act f = (f.perform r).map (·.2)) : acting access a act w = respond access a c w := by
  simp only [acting, respond, hc, h]
  cases (access.get w.host).perform r <;> rfl

theorem onText_eq {a : FarmAction} {make : String → Request}
    {act : Farm Float → String → Except FarmError (Farm Float)}
    (hc : ∀ args, Request.ofCall? args a = (text? args).map make)
    (h : ∀ f s, act f s = (f.perform (make s)).map (·.2)) :
    onText a.name (fun t => acting access a fun f => act f t) = respond access a := by
  funext c w
  unfold onText
  split
  · next t rest hargs => exact acting_eq access w (by rw [hc, hargs]; rfl) fun f => h f t
  · next textless =>
    have missing : text? c.args = none := by
      unfold text?
      split
      · next t rest hargs => exact (textless t rest hargs).elim
      · rfl
    simp [respond, hc, missing]

theorem textAction_eq {a : FarmAction} (doc : String) {make : String → Request}
    {act : Farm Float → String → Except FarmError (Farm Float)}
    (hc : ∀ args, Request.ofCall? args a = (text? args).map make)
    (h : ∀ f s, act f s = (f.perform (make s)).map (·.2)) :
    (textAction access a doc act).action = .host (respond access a) :=
  congrArg Action.host (onText_eq access hc h)

theorem action_eq {a : FarmAction} (doc : String) {r : Request} {act : Farm Float → Farm Float}
    (hc : ∀ args, Request.ofCall? args a = some r)
    (h : ∀ f : Farm Float, Except.ok (act f) = (f.perform r).map (·.2)) :
    (action access a doc act).action = .host (respond access a) :=
  congrArg Action.host (funext fun _ => funext fun w => acting_eq access w (hc _) h)

theorem map_answer_snd {ε α β : Type} (b : β) (x : Except ε α) :
    x = (x.map (b, ·)).map (·.2) := by
  cases x <;> rfl

theorem offers_respond (a : FarmAction) :
    ∃ o ∈ offers access, o.name = a.name ∧ o.action = .host (respond access a) := by
  have member (n : Nat) {o : Offer σ} (h : (offers access)[n]? = some o) : o ∈ offers access :=
    List.mem_of_getElem? h
  cases a with
  | move =>
    exact ⟨_, member 0 rfl, rfl, textAction_eq access _ (fun _ => rfl) fun _ _ => map_answer_snd _ _⟩
  | harvest => exact ⟨_, member 1 rfl, rfl, action_eq access _ (fun _ => rfl) fun _ => rfl⟩
  | plant =>
    exact ⟨_, member 2 rfl, rfl, textAction_eq access _ (fun _ => rfl) fun _ _ => map_answer_snd _ _⟩
  | till => exact ⟨_, member 3 rfl, rfl, action_eq access _ (fun _ => rfl) fun _ => rfl⟩
  | useItem => exact ⟨_, member 4 rfl, rfl, textAction_eq access _ (fun _ => rfl) fun _ _ => rfl⟩
  | flip => exact ⟨_, member 5 rfl, rfl, action_eq access _ (fun _ => rfl) fun _ => rfl⟩

theorem Request.action_of_ofCall? {a : FarmAction} {args : List Value} {r : Request}
    (h : Request.ofCall? args a = some r) : r.action = a := by
  cases a with
  | harvest | till | flip =>
    cases h
    rfl
  | move | plant | useItem =>
    obtain ⟨t, -, rfl⟩ := Option.map_eq_some_iff.mp h
    rfl

/-- A call of a program is refused with the world as it was, or has one request carried out. -/
theorem respond_cases (a : FarmAction) (c : Call) (w : World σ) :
    (∃ text, respond access a c w = (refuse a.name text, w)) ∨
      ∃ r b g, r.action = a ∧ (access.get w.host).perform r = .ok (b, g) ∧
        respond access a c w =
          (.wait (.seconds a.duration), { w with host := access.set g w.host }) := by
  cases hr : Request.ofCall? c.args a with
  | none => exact .inl ⟨_, by rw [respond, hr]⟩
  | some r =>
    cases hp : (access.get w.host).perform r with
    | error e => exact .inl ⟨e.message, by simp [respond, hr, hp]⟩
    | ok out =>
      obtain ⟨b, g⟩ := out
      exact .inr ⟨r, b, g, Request.action_of_ofCall? hr, hp, by simp [respond, hr, hp]⟩

end Calls

theorem step_next {f : Farm ℚ} (hf : f.Square) (r : Request) :
    (¬ f.Grants r ∧ (∃ e, f.perform r = .error e) ∧ f.step r = f) ∨
      (f.Grants r ∧ ∃ b, f.perform r = .ok (b, f.step r) ∧
        (f.step r).clock = f.clock + r.action.duration ∧
        ∀ p, f.Covers p → p ≠ f.place → (f.step r).tileAt p = f.tileAt p) := by
  rcases f.perform_cases r with ⟨grants, b, g, ok, goes⟩ | ⟨refuses, e, error⟩
  · have step : f.step r = g := by rw [Farm.step, ok]
    rw [step]
    exact .inr ⟨grants, b, ok, goes.clock_eq, fun p hp => goes.tileAt_eq hf hp⟩
  · exact .inl ⟨refuses, ⟨e, error⟩, by rw [Farm.step, error]⟩

theorem shows_known (t : Tile ℚ) : t.ground.name ∈ grounds.map (·.2) ∧
    ∀ c, t.crop = some c → c.name ∈ crops.map (·.2) := by
  constructor
  · cases t.ground <;> decide
  · intro c _
    cases c <;> decide

/-- After any requests a farm is in order. It shows grounds and crops that programs have names for,
and stands where the moves that were granted lead to. The next request is either refused, with the
farm as it was, or takes its time and changes at most the tile that the farm stands on. The
functions that programs call, with whatever arguments, carry out such requests on the farm of a
host, and leave the world as it was when they refuse one. -/
theorem runs_sound {σ : Type} (access : Access σ) {n : Int} (hn : 1 ≤ n)
    {inventory : Table String ℚ} (hi : ∀ e ∈ inventory, 0 ≤ e.2) (rs : List Request) :
    (∃ start : Farm ℚ, create n inventory = .ok start ∧
      let f := start.after rs
      f.Sound ∧ f.size = n ∧
        (∀ t ∈ f.tiles, t.ground.name ∈ grounds.map (·.2) ∧
          ∀ c, t.crop = some c → c.name ∈ crops.map (·.2)) ∧
        f.x = (start.x + travelled Prod.fst start rs) % n ∧
        f.y = (start.y + travelled Prod.snd start rs) % n ∧
        ∀ r, (¬ f.Grants r ∧ (∃ e, f.perform r = .error e) ∧ f.step r = f) ∨
          (f.Grants r ∧ ∃ b, f.perform r = .ok (b, f.step r) ∧
            (f.step r).clock = f.clock + r.action.duration ∧
            ∀ p, f.Covers p → p ≠ f.place → (f.step r).tileAt p = f.tileAt p)) ∧
      ∀ a, ∃ o ∈ offers access, o.name = a.name ∧ ∃ reply, o.action = .host reply ∧ ∀ c w,
        (∃ text, reply c w = (refuse a.name text, w)) ∨
          ∃ r b g, r.action = a ∧ (access.get w.host).perform r = .ok (b, g) ∧
            reply c w = (.wait (.seconds a.duration), { w with host := access.set g w.host }) := by
  constructor
  · obtain ⟨created, sound⟩ := create_sound hn hi
    have size : ((meadow n.toNat inventory).size : Int) = n := Int.toNat_of_nonneg (by omega)
    have after := after_sound sound rs
    obtain ⟨hx, hy⟩ := place_after sound.square rs
    rw [size] at hx hy
    have same : (((meadow n.toNat inventory).after rs).size : Int) = n := by rw [size_after, size]
    exact ⟨_, created, after, same, fun t _ => shows_known t, hx, hy, step_next after.square⟩
  · intro a
    obtain ⟨o, ho, name, action⟩ := offers_respond access a
    exact ⟨o, ho, name, _, action, respond_cases access a⟩

/-- A step to the west comes to the other side, and a carrot is refused until the ground is
tilled. -/
theorem runs_sound_planting :
    let stock : Table String ℚ := [("water", 2)]
    let rs : List Request :=
      [.move "West", .plant "carrot", .useItem "water", .till, .plant "carrot", .move "sideways"]
    (1 : Int) ≤ 3 ∧ (∀ e ∈ stock, 0 ≤ e.2) ∧ ∃ start : Farm ℚ, create 3 stock = .ok start ∧
      let f := start.after rs
      f.Sound ∧ (f.x : Int) = 2 ∧ (f.y : Int) = 0 ∧
        ¬ f.Grants (.move "sideways") ∧ f.Grants (.plant "carrot") := by
  intro stock rs
  have positive : ∀ e ∈ stock, 0 ≤ e.2 := by simp [stock]
  refine ⟨by decide, positive, ?_⟩
  obtain ⟨⟨start, created, sound, -, -, hx, hy, -⟩, -⟩ :=
    runs_sound (σ := Farm Float) ⟨id, fun f _ => f⟩ (by decide : (1 : Int) ≤ 3) positive rs
  obtain rfl : meadow 3 stock = start := Except.ok.inj created
  have west : travelled Prod.fst (meadow 3 stock) rs = -1 := by decide +kernel
  have level : travelled Prod.snd (meadow 3 stock) rs = 0 := by decide +kernel
  rw [west] at hx
  rw [level] at hy
  have aimless : ¬ ((meadow 3 stock).after rs).Grants (.move "sideways") := by
    rw [Grants, show Direction.ofName? "sideways" = none by cbv]
    simp
  have carrot : Crop.ofName? "carrot" = some .carrot := by cbv
  have tilled : ((meadow 3 stock).after rs).tile.ground = .soil := by decide +kernel
  exact ⟨_, created, sound, hx, hy, aimless, .carrot, carrot, fun _ => tilled⟩

end Farm

end LoopScript
