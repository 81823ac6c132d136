import FogMarket.Objects.Sla

structure Proposed where
  bid  : ℚ
  sla  : Sla
  node : String
deriving DecidableEq

structure Paid where
  bid  : ℚ
  sla  : Sla
  node : String
deriving DecidableEq

structure Provisioned where
  bid          : ℚ
  sla          : Sla
  node         : String
  functionName : String
deriving DecidableEq

structure Live where
  bid          : ℚ
  sla          : Sla
  node         : String
  functionName : String
deriving DecidableEq

structure Finished where
  bid  : ℚ
  sla  : Sla
  node : String
deriving DecidableEq

def Proposed.toPaid (record : Proposed) : Paid where
  bid  := record.bid
  sla  := record.sla
  node := record.node

def Paid.toProvisioned (record : Paid) (functionName : String) : Provisioned where
  bid          := record.bid
  sla          := record.sla
  node         := record.node
  functionName := functionName

def Provisioned.toLive (record : Provisioned) : Live where
  bid          := record.bid
  sla          := record.sla
  node         := record.node
  functionName := record.functionName

inductive Phase
  | proposed
  | paid
  | provisioned
  | live
  | finished
deriving DecidableEq

inductive States
  | proposed (record : Proposed)
  | paid (record : Paid)
  | provisioned (record : Provisioned)
  | live (record : Live)
  | finished (record : Finished)
deriving DecidableEq

namespace States

def phase : States → Phase
  | proposed _    => .proposed
  | paid _        => .paid
  | provisioned _ => .provisioned
  | live _        => .live
  | finished _    => .finished

-- The resources of a function are booked between its payment and its end.
def Active : States → Prop
  | paid _ | provisioned _ | live _ => True
  | proposed _ | finished _         => False

instance : DecidablePred Active
  | proposed _    => .isFalse id
  | paid _        => .isTrue trivial
  | provisioned _ => .isTrue trivial
  | live _        => .isTrue trivial
  | finished _    => .isFalse id

def bid : States → ℚ
  | proposed record    => record.bid
  | paid record        => record.bid
  | provisioned record => record.bid
  | live record        => record.bid
  | finished record    => record.bid

def sla : States → Sla
  | proposed record    => record.sla
  | paid record        => record.sla
  | provisioned record => record.sla
  | live record        => record.sla
  | finished record    => record.sla

def node : States → String
  | proposed record    => record.node
  | paid record        => record.node
  | provisioned record => record.node
  | live record        => record.node
  | finished record    => record.node

-- The same for all records which are `Finishable`.
def toFinished (record : States) : Finished where
  bid  := record.bid
  sla  := record.sla
  node := record.node

end States
