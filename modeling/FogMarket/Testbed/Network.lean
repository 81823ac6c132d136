import FogMarket.Library.Dict
import Mathlib.Algebra.Order.Ring.Unbundled.Rat

namespace Testbed

-- A function is only the same as itself.
structure Flavor where
  core              : ℚ
  mem               : ℚ
  reservedCore      : ℚ
  reservedMem       : ℚ
  isCloud           : Option Bool
  additionalEnvVars : ℕ
  deriving DecidableEq

-- The root has no use for a latency.
inductive Node
  | node (name : String) (flavor : Flavor) (latency : ℕ) (rate : ℚ) (iotConnected : Option ℕ) (children : List Node)

namespace Node

def name : Node → String
  | node name _ _ _ _ _ => name

def flavor : Node → Flavor
  | node _ flavor _ _ _ _ => flavor

def latency : Node → ℕ
  | node _ _ latency _ _ _ => latency

def rate : Node → ℚ
  | node _ _ _ rate _ _ => rate

def iotConnected : Node → Option ℕ
  | node _ _ _ _ iotConnected _ => iotConnected

def children : Node → List Node
  | node _ _ _ _ _ children => children

-- The nodes below a node.
mutual

def descendants : Node → List Node
  | node _ _ _ _ _ children => descendantsAll children

def descendantsAll : List Node → List Node
  | []            => []
  | child :: rest => child :: descendants child ++ descendantsAll rest

end

end Node

mutual

def genVmConf : Node → Dict Flavor (List String)
  | .node _ _ _ _ _ children => genVmConfs Dict.empty children

-- The loop over the children.
def genVmConfs (ret : Dict Flavor (List String)) : List Node → Dict Flavor (List String)
  | []            => ret
  | child :: rest => genVmConfs ((ret.append child.flavor child.name).merge (genVmConf child)) rest

end

def Node.entry (node : Node) : Flavor × String :=
  (node.flavor, node.name)

def tier1Flavor : Flavor where
  core              := 16
  mem               := 1024 * 46
  reservedCore      := 15
  reservedMem       := 1024 * 42
  isCloud           := some true
  additionalEnvVars := 0

def tier2Flavor : Flavor where
  core              := 8
  mem               := 1024 * 12
  reservedCore      := 7
  reservedMem       := 1024 * 11
  isCloud           := none
  additionalEnvVars := 1

-- A network of one level.
def star (names : List String) : Node :=
  .node "market" tier1Flavor 0 1000000000 none <|
    names.map fun name => .node name tier2Flavor 6 500000000 none []

mutual

-- The names of the nodes below are grouped by their flavors.
theorem groups_genVmConf : (node : Node) → (genVmConf node).Groups (node.descendants.map Node.entry)
  | .node _ _ _ _ _ children => by
    rw [genVmConf, Node.descendants, ← List.nil_append (List.map _ _)]
    exact groups_genVmConfs Dict.groups_empty children

theorem groups_genVmConfs {ret : Dict Flavor (List String)} {l : List (Flavor × String)} (h : ret.Groups l) :
    (children : List Node) → (genVmConfs ret children).Groups (l ++ (Node.descendantsAll children).map Node.entry)
  | []            => by simpa [genVmConfs, Node.descendantsAll] using h
  | child :: rest => by
    have hc := (h.append (k := child.flavor) (a := child.name)).merge (groups_genVmConf child)
    rw [genVmConfs, Node.descendantsAll]
    have hr := groups_genVmConfs hc rest
    simpa [Node.entry] using hr

end

end Testbed
