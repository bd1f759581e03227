import LoopScript.Table

/-!
A square farm that wraps around at its edges. Actions take effect at once and cost time; an action
that is refused changes nothing. Times and amounts may be numbers of any kind that can be compared,
added, subtracted and multiplied.
-/

namespace LoopScript

inductive Ground where
  | grassland | soil | turf
deriving DecidableEq, Repr, Inhabited

namespace Ground

def name : Ground → String
  | grassland => "grassland" | soil => "soil" | turf => "turf"

end Ground

inductive Crop where
  | grass | bush | tree | carrot | pumpkin | sunflower
deriving DecidableEq, Repr

namespace Crop

def name : Crop → String
  | grass => "grass" | bush => "bush" | tree => "tree" | carrot => "carrot"
  | pumpkin => "pumpkin" | sunflower => "sunflower"

def all : List Crop := [grass, bush, tree, carrot, pumpkin, sunflower]

def ofName? (s : String) : Option Crop :=
  all.find? (·.name == s)

def needsSoil : Crop → Bool
  | carrot | pumpkin | sunflower => true
  | _ => false

variable {κ : Type} [OfScientific κ]

def growth : Crop → κ
  | grass => 0.5 | bush => 1.0 | tree => 2.0 | carrot => 1.0 | pumpkin => 2.0 | sunflower => 1.5

def harvest : Crop → String × κ
  | grass => ("hay", 1.0)
  | bush => ("wood", 1.0)
  | tree => ("wood", 5.0)
  | carrot => ("carrot", 1.0)
  | pumpkin => ("pumpkin", 1.0)
  | sunflower => ("power", 1.0)

end Crop

inductive Direction where
  | up | down | right | left
deriving DecidableEq, Repr

namespace Direction

def ofName? (s : String) : Option Direction :=
  match s.toLower with
  | "up" | "north" => some up
  | "down" | "south" => some down
  | "right" | "east" => some right
  | "left" | "west" => some left
  | _ => none

def offset : Direction → Int × Int
  | up => (0, 1)
  | down => (0, -1)
  | right => (1, 0)
  | left => (-1, 0)

end Direction

structure Tile (κ : Type) where
  ground : Ground
  crop : Option Crop
  plantedAt : κ
  water : κ

structure Farm (κ : Type) where
  size : Nat
  tiles : Array (Tile κ)
  x : Nat
  y : Nat
  clock : κ
  inventory : Table String κ
  flips : Nat

inductive FarmError where
  | size
  | direction (name : String)
  | unknownCrop (name : String)
  | ground (crop : Crop) (ground : Ground)
deriving DecidableEq, Repr

namespace FarmError

def message : FarmError → String
  | size => "world size must be >= 1"
  | direction s => "Invalid direction: " ++ s
  | unknownCrop s => "Unknown entity: " ++ s
  | ground c g => "Cannot plant " ++ c.name ++ " on " ++ g.name

end FarmError

inductive FarmAction where
  | move | harvest | plant | till | useItem | flip
deriving DecidableEq, Repr

namespace FarmAction

def name : FarmAction → String
  | move => "move" | harvest => "harvest" | plant => "plant" | till => "till"
  | useItem => "use_item" | flip => "do_a_flip"

def duration {κ : Type} [OfScientific κ] : FarmAction → κ
  | move => 0.3 | harvest => 0.2 | plant => 0.3 | till => 0.1 | useItem => 0.1 | flip => 1.0

end FarmAction

namespace Farm

def defaultSize : Nat := 10

section

variable {κ : Type} [OfScientific κ]

def meadow (size : Nat) (inventory : Table String κ) : Farm κ :=
  ⟨size, Array.replicate (size * size) ⟨.grassland, none, 0.0, 0.0⟩, 0, 0, 0.0, inventory, 0⟩

def create (size : Int) (inventory : Table String κ) : Except FarmError (Farm κ) :=
  if size < 1 then .error .size else .ok (meadow size.toNat inventory)

def tile (f : Farm κ) : Tile κ :=
  f.tiles.getD (f.y * f.size + f.x) ⟨.grassland, none, 0.0, 0.0⟩

def setTile (f : Farm κ) (t : Tile κ) : Farm κ :=
  { f with tiles := f.tiles.setIfInBounds (f.y * f.size + f.x) t }

def amount (f : Farm κ) (item : String) : κ :=
  (f.inventory.get? item).getD 0.0

def spend [Add κ] (f : Farm κ) (a : FarmAction) : Farm κ :=
  { f with clock := f.clock + a.duration }

end

/-- How many tiles each crop stands on, for those that stand somewhere. -/
def cropCounts {κ : Type} (f : Farm κ) : List (Crop × Nat) :=
  (Crop.all.map fun c => (c, f.tiles.countP (·.crop = some c))).filter (0 < ·.2)

variable {κ : Type} [OfScientific κ] [Add κ] [Sub κ] [Mul κ] [LE κ] [DecidableLE κ]

/-- Water shortens the growth of a crop by up to half. -/
def ripe (clock : κ) (t : Tile κ) : Bool :=
  match t.crop with
  | none => false
  | some c => decide (c.growth * (1.0 - 0.5 * t.water) ≤ clock - t.plantedAt)

def canHarvest (f : Farm κ) : Bool :=
  ripe f.clock f.tile

def shift (size x : Nat) (step : Int) : Nat :=
  ((x + step) % size).toNat

def move (f : Farm κ) (direction : String) : Except FarmError (Farm κ) :=
  match Direction.ofName? direction with
  | none => .error (.direction direction)
  | some d =>
    let (dx, dy) := d.offset
    .ok (spend { f with x := shift f.size f.x dx, y := shift f.size f.y dy } .move)

/-- Takes the crop away. Only a ripe one yields something. -/
def harvest (f : Farm κ) : Bool × Farm κ :=
  match f.tile.crop with
  | none => (false, f.spend .harvest)
  | some c =>
    let cleared := f.setTile { f.tile with crop := none }
    if f.canHarvest then
      let (item, n) := c.harvest
      let inventory := f.inventory.put item (f.amount item + n)
      (true, spend { cleared with inventory } .harvest)
    else (false, cleared.spend .harvest)

def plant (f : Farm κ) (name : String) : Except FarmError (Farm κ) :=
  match Crop.ofName? name with
  | none => .error (.unknownCrop name)
  | some c =>
    if c.needsSoil ∧ f.tile.ground ≠ .soil then .error (.ground c f.tile.ground)
    else .ok ((f.setTile { f.tile with crop := some c, plantedAt := f.clock }).spend .plant)

/-- Turns soil into grassland, and any other ground into soil. -/
def till (f : Farm κ) : Farm κ :=
  let ground := if f.tile.ground = .soil then .grassland else .soil
  (f.setTile { f.tile with ground }).spend .till

/-- One use of water fills a quarter of a tile. -/
def watered (t : Tile κ) : Tile κ :=
  { t with water := if (1.0 : κ) ≤ t.water + 0.25 then 1.0 else t.water + 0.25 }

/-- Uses up one piece of an item, if there is one. -/
def useItem (f : Farm κ) (item : String) : Bool × Farm κ :=
  if 1.0 ≤ f.amount item then
    let used := { f with inventory := f.inventory.put item (f.amount item - 1.0) }
    let used := if item = "water" then used.setTile (watered used.tile) else used
    (true, used.spend .useItem)
  else (false, f.spend .useItem)

def flip (f : Farm κ) : Farm κ :=
  spend { f with flips := f.flips + 1 } .flip

end Farm

end LoopScript
