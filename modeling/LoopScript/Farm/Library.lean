import LoopScript.Farm
import LoopScript.Services.Registration
import LoopScript.Value.Convert

/-!
The farm as an extension: functions for its actions and questions, and names for its grounds, items,
crops and directions.
-/

namespace LoopScript

namespace Farm

/-- How the state of a host holds a farm. -/
structure Access (σ : Type) where
  get : σ → Farm Float
  set : Farm Float → σ → σ

variable {σ : Type} (access : Access σ)

def grounds : List (String × String) :=
  [("Soil", "soil"), ("Turf", "turf"), ("Grassland", "grassland")]

def items : List (String × String) :=
  [("Hay", "hay"), ("Wood", "wood"), ("Carrot", "carrot"), ("Pumpkin", "pumpkin"),
    ("Power", "power"), ("Sunflower", "sunflower"), ("Water", "water")]

def crops : List (String × String) :=
  [("Grass", "grass"), ("Bush", "bush"), ("Tree", "tree"), ("Carrot", "carrot"),
    ("Pumpkin", "pumpkin"), ("Sunflower", "sunflower")]

def directions : List (String × String) :=
  [("North", "up"), ("South", "down"), ("East", "right"), ("West", "left")]

def registerNames (name : String) (members : List (String × String)) : Registration σ Unit :=
  .enum name (members.map fun (member, text) => (.str member, .str text))

def offer (name : String) (arity : Int) (suspends : Bool) (doc : String)
    (reply : Call → World σ → Reply σ × World σ) : Offer σ :=
  ⟨name, arity, some arity, suspends, doc, [], .host reply⟩

def refuse (rule text : String) : Reply σ :=
  .fault (.of (.host text (some rule)))

/-- Carries out an action, and lets the program wait as long as it takes. -/
def acting (a : FarmAction) (act : Farm Float → Except FarmError (Farm Float)) (w : World σ) :
    Reply σ × World σ :=
  match act (access.get w.host) with
  | .error e => (refuse a.name e.message, w)
  | .ok f => (.wait (.seconds a.duration), { w with host := access.set f w.host })

/-- The text given as the only argument. -/
def onText (rule : String) (f : String → World σ → Reply σ × World σ) (c : Call) (w : World σ) :
    Reply σ × World σ :=
  match c.args with
  | .str t :: _ => f t w
  | _ => (refuse rule (rule ++ "() expects a string argument"), w)

def action (a : FarmAction) (doc : String) (act : Farm Float → Farm Float) : Offer σ :=
  offer a.name 0 true doc fun _ => acting access a fun f => .ok (act f)

def textAction (a : FarmAction) (doc : String)
    (act : Farm Float → String → Except FarmError (Farm Float)) : Offer σ :=
  offer a.name 1 true doc (onText a.name fun t => acting access a fun f => act f t)

def query (name : String) (answer : Farm Float → Value) : Offer σ :=
  offer name 0 false "" fun _ w => (.value (answer (access.get w.host)), w)

/-- Whether the sum of two whole numbers leaves the given rest when halved. -/
def parity (name doc : String) (rest : Int) : Offer σ :=
  offer name 2 false doc fun c w =>
    let whole (i : Nat) := w.store.toInt (c.args.getD i .none) name
    match (do return (← whole 0) + (← whole 1) : Except Fault Int) with
    | .ok n => (.value (.bool (n % 2 == rest)), w)
    | .error f => (.fault f, w)

def offers : List (Offer σ) :=
  [textAction access .move "move(direction): step one tile, wrapping at the edges" move,
    action access .harvest "harvest(): collect the entity on this tile" (·.harvest.2),
    textAction access .plant "plant(entity): plant an Entities member on this tile" plant,
    action access .till "till(): toggle this tile between soil and grassland" till,
    textAction access .useItem "use_item(item): consume one unit of an Items member"
      fun f t => .ok (f.useItem t).2,
    action access .flip "do_a_flip(): celebrate" flip,
    query access "can_harvest" fun f => .bool f.canHarvest,
    query access "get_ground_type" fun f => .str f.tile.ground.name,
    query access "get_entity_type" fun f => .atom ((f.tile.crop.map (.str ·.name)).getD .none),
    query access "get_pos_x" fun f => .num f.x.toFloat,
    query access "get_pos_y" fun f => .num f.y.toFloat,
    query access "get_world_size" fun f => .num f.size.toFloat,
    query access "get_water" fun f => .num f.tile.water,
    offer "num_items" 1 false "" (onText "num_items" fun t w =>
      (.value (.num ((access.get w.host).amount t)), w)),
    parity "is_even" "is_even(x, y): True when x + y is even" 0,
    parity "is_odd" "is_odd(x, y): True when x + y is odd" 1]

def register : Registration σ Unit := do
  registerNames "Grounds" grounds
  registerNames "Items" items
  registerNames "Entities" crops
  directions.forM fun (name, text) => .constant name (.str text)
  (offers access).forM Registration.builtin

def extension : Extension σ :=
  ⟨Services.apiVersion, some "farm", some fun _ => do
    Registration.metadata ⟨"farm", "0.1.0", Services.apiVersion⟩
    register access⟩

end Farm

end LoopScript
