import Mathlib.Data.List.AList
import FogMarket.Library.Flooding
import FogMarket.Library.Hierarchy.Graph
import FogMarket.Objects.Bid
import FogMarket.Objects.Function
import FogMarket.Fog.Latency
import FogMarket.Fog.ResourceTracking

namespace Fog

structure NodeDescription where
  advertisedBandwidth : InformationRate

-- The entries of the children are listed in the order in which they are iterated over.
structure NodeSituation where
  myId                  : NodeId
  parentId              : Option NodeId
  children              : AList fun _ : NodeId => NodeDescription
  myAdvertisedBandwidth : InformationRate

namespace NodeSituation

def getNeighbors (situation : NodeSituation) : List NodeId :=
  situation.children.keys ++ situation.parentId.toList

def getFogNodeNeighbor (situation : NodeSituation) (id : NodeId) : Option NodeDescription :=
  match situation.children.lookup id with
  | some description => some description
  | none =>
    if situation.parentId = some id then
      some { advertisedBandwidth := situation.myAdvertisedBandwidth }
    else
      none

end NodeSituation

structure BidRequest where
  nodeOrigin         : NodeId
  sla                : Sla
  accumulatedLatency : AccumulatedLatency

-- The answer to a request, and the calls of `bid_on` which have been made for it.
structure Reply (α : Type) where
  calls  : List (NodeId × BidRequest)
  result : Except Failure α

-- What a node knows, and what its own auction answers.
structure FunctionLife where
  situation : NodeSituation
  latencyTo : NodeId → Option Latency
  bidOn     : Sla → AccumulatedLatency → Except Failure (Option (BidId × Proposed))

namespace FunctionLife

variable (life : FunctionLife) (query : NodeId → BidRequest → Option (Reply (BidProposals ℚ)))
variable (sla : Sla) (origin : NodeId) (acc : AccumulatedLatency)

def followUpToSingleNeighbor (neighbor : NodeId) : Option (Reply (Option (BidProposals ℚ))) :=
  if neighbor = origin then
    some ⟨[], .ok none⟩
  else
    match life.latencyTo neighbor with
    | none         => some ⟨[], .ok none⟩
    | some latency =>
      match life.situation.getFogNodeNeighbor neighbor with
      | none             => some ⟨[], .ok none⟩
      | some description =>
        let next := acc.accumulate latency description.advertisedBandwidth
        if sla.latencyMax < computeWorseLatency next sla.inputMaxSize then
          some ⟨[], .ok none⟩
        else
          let request := { nodeOrigin := life.situation.myId, sla := sla, accumulatedLatency := next }
          (query neighbor request).map fun reply => ⟨reply.calls, reply.result.map some⟩

-- Errors of neighbors and neighbors which have not been asked are only logged.
def gather (replies : List (Reply (Option (BidProposals ℚ)))) : Reply (BidProposals ℚ) where
  calls  := replies.flatMap Reply.calls
  result :=
    let results := replies.filterMap fun reply => reply.result.toOption
    .ok { bids := results.reduceOption.flatMap BidProposals.bids }

def followUpToNeighbors : Option (Reply (BidProposals ℚ)) :=
  (life.situation.getNeighbors.mapM (life.followUpToSingleNeighbor query sla origin acc)).map gather

-- The own proposal is the last one.
def collect (below : Reply (BidProposals ℚ)) : Except Failure (BidProposals ℚ) := do
  let proposals ← below.result
  match ← life.bidOn sla acc with
  | some (id, record) =>
    let proposal := { nodeId := life.situation.myId, id := id, bid := record.bid }
    return { bids := proposals.bids ++ [proposal] }
  | none => return proposals

end FunctionLife

-- Quantities are formatted and parsed when they are sent. That is, what is read may differ from it, or
-- the request is not answered.
structure Network where
  nodes    : Map NodeId FunctionLife
  exchange : NodeId → NodeId → Sla × AccumulatedLatency → Option (Sla × AccumulatedLatency)

namespace Network

variable (net : Network)

def requestNeighborBid (serve : NodeId → BidRequest → Option (Reply (BidProposals ℚ))) (id neighbor : NodeId)
    (request : BidRequest) : Option (Reply (BidProposals ℚ)) :=
  match net.exchange id neighbor (request.sla, request.accumulatedLatency) with
  | none            => some ⟨[], .error .error⟩
  | some (sla, acc) => serve neighbor { nodeOrigin := request.nodeOrigin, sla := sla, accumulatedLatency := acc }

-- The fuel bounds the number of hops.
def bidOnNewFunctionAndTransmit : ℕ → NodeId → BidRequest → Option (Reply (BidProposals ℚ))
  | 0, _, _ => none
  | fuel + 1, id, request =>
    match net.nodes.lookup id with
    | none      => some ⟨[], .error .error⟩
    | some life =>
      let query := net.requestNeighborBid (bidOnNewFunctionAndTransmit fuel) id
      let below := life.followUpToNeighbors query request.sla request.nodeOrigin request.accumulatedLatency
      below.map fun below =>
        ⟨(id, request) :: below.calls, life.collect request.sla request.accumulatedLatency below⟩

def parentId (id : NodeId) : Option NodeId :=
  (net.nodes.lookup id).bind fun life => life.situation.parentId

def childIds (id : NodeId) : List NodeId :=
  match net.nodes.lookup id with
  | none      => []
  | some life => life.situation.children.keys

-- The nodes know their ids, and their parents and children form a tree.
structure Tree : Prop where
  myId   : ∀ id life, net.nodes.lookup id = some life → life.situation.myId = id
  rooted : Hierarchy.Rooted net.nodes.keys net.parentId net.childIds

abbrev neighbors : NodeId → List NodeId :=
  Hierarchy.neighbors net.parentId net.childIds

abbrev graph : SimpleGraph NodeId :=
  Hierarchy.graph net.parentId net.childIds

-- What `w` reads of a request which `v` has received, if it is feasible to send it there.
def forward (v w : NodeId) (request : BidRequest) : Option BidRequest := do
  let life ← net.nodes.lookup v
  let latency ← life.latencyTo w
  let description ← life.situation.getFogNodeNeighbor w
  let next := request.accumulatedLatency.accumulate latency description.advertisedBandwidth
  if request.sla.latencyMax < computeWorseLatency next request.sla.inputMaxSize then
    none
  else
    let (sla, acc) ← net.exchange v w (request.sla, next)
    return { nodeOrigin := v, sla := sla, accumulatedLatency := acc }

-- What is proposed by a node for a request.
def proposal (call : NodeId × BidRequest) : Option (BidProposal ℚ) := do
  let life ← net.nodes.lookup call.1
  let (id, record) ← (← (life.bidOn call.2.sla call.2.accumulatedLatency).toOption)
  return { nodeId := call.1, id := id, bid := record.bid }

-- Every request is answered.
def Answers : Prop :=
  ∀ v w sent, (net.exchange v w sent).isSome = true

-- No local auction fails.
def Bids : Prop :=
  ∀ id life, net.nodes.lookup id = some life → ∀ sla acc, ∃ bid, life.bidOn sla acc = .ok bid

end Network
end Fog
