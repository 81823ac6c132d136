import FogMarket.Library.Map
import FogMarket.Objects.Sla

-- Bids and prices are `f64` in the source. They are elements of an arbitrary linear order here,
-- i.e. comparable and never NaN.
structure BidProposal (β : Type*) where
  nodeId : NodeId
  id     : BidId
  bid    : β
deriving DecidableEq

structure BidProposals (β : Type*) where
  bids : List (BidProposal β)
deriving DecidableEq

structure ChosenBid (β : Type*) where
  bid   : BidProposal β
  price : β
deriving DecidableEq

inductive IpAddr
  | v4 (bits : BitVec 32)
  | v6 (bits : BitVec 128)
deriving DecidableEq

structure InstanciatedBid where
  bid   : BidProposal ℚ
  ip    : IpAddr
  port  : BitVec 16
  price : ℚ
deriving DecidableEq

structure AcceptedBid where
  chosen    : InstanciatedBid
  proposals : BidProposals ℚ
  sla       : Sla
deriving DecidableEq

structure NodeRecord where
  ip           : IpAddr
  portHttp     : BitVec 16
  portFaas     : BitVec 16
  tags         : List String
  acceptedBids : Map BidId AcceptedBid

def NodeRecord.new (ip : IpAddr) (portHttp portFaas : BitVec 16) (tags : List String) :
    NodeRecord where
  ip           := ip
  portHttp     := portHttp
  portFaas     := portFaas
  tags         := tags
  acceptedBids := ∅

structure Node (α : Type*) where
  parent   : Option NodeId
  children : List NodeId
  data     : α
