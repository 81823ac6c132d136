import FogMarket.Fog.Exchange
import FogMarket.Fog.Sale
import FogMarket.Market.Auction
import FogMarket.Market.FaaS
import FogMarket.Market.FogNode.Registering

open Market Fog Transition

namespace Fog.Network

variable (net : Network)

-- `forward` with the latency which is measured when the request is passed on.
def follow (latency : Option Latency) (v w : NodeId) (request : BidRequest) : Option BidRequest := do
  let life ← net.nodes.lookup v
  let latency ← latency
  let description ← life.situation.getFogNodeNeighbor w
  let next := request.accumulatedLatency.accumulate latency description.advertisedBandwidth
  if request.sla.latencyMax < computeWorseLatency next request.sla.inputMaxSize then
    none
  else
    let (sla, acc) ← net.exchange v w (request.sla, next)
    return { nodeOrigin := v, sla := sla, accumulatedLatency := acc }

end Fog.Network

namespace Market.FogNode

-- A call of `append_root` checks the tree like a call of `append_new_child`.
def advanceRoot (nodes : FogNode) (r : Registration) : Progress → Option (FogNode × Progress)
  | .push       => some (nodes.insert r.child (fresh none r.record), .roots)
  | .position e => some (nodes.erase r.child, .done (.err e))
  | p           => advance nodes r p

-- A call of `register_node`. The parent of a root is not used.
structure Joining where
  root         : Bool
  registration : Registration
  progress     : Progress

def Joining.advance (nodes : FogNode) (j : Joining) : Option (FogNode × Joining) :=
  let next := if j.root then advanceRoot nodes j.registration j.progress else
    FogNode.advance nodes j.registration j.progress
  next.map fun (nodes, p) => (nodes, { j with progress := p })

end Market.FogNode

-- The market and the fog nodes.
namespace Marketplace

-- What a call of `start_auction` does next.
inductive Progress
  | callForBids
  | bidding
  | auction (proposals : List (BidProposal ℚ))
  | getNode (proposals : List (BidProposal ℚ)) (chosen : ChosenBid ℚ)
  | takeOffer (bid : AcceptedBid)
  | offered (bid : AcceptedBid)
  | paying (bid : AcceptedBid) (p : FogNodeFaaS.Progress)
  | save (bid : AcceptedBid)
  | accepted (bid : AcceptedBid)
  | failed

-- A call of `start_auction`. The offer is the one which has been sent to the winning node.
structure Sale where
  sla      : Sla
  target   : NodeId
  offer    : Option AcceptedBid
  progress : Progress

structure Settings where
  net     : Network
  configs : NodeId → Config

-- `accepts`, `receipts` and `provisions` are under way. A function is provisioned on behalf of a client.
structure State where
  nodes      : NodeId → Fog.State
  registry   : FogNode
  joining    : List FogNode.Joining
  tracking   : Map SlaId NodeId
  sales      : SlaId → Option Sale
  exchanges  : SlaId → Option Exchange
  accepts    : Multiset (SlaId × NodeId)
  receipts   : Multiset (SlaId × Bool)
  provisions : Multiset (SlaId × NodeId)

def State.new (c : Settings) (now : NodeId → ℤ) : State where
  nodes      := fun n => .new (c.configs n) (now n)
  registry   := ∅
  joining    := []
  tracking   := ∅
  sales      := fun _ => none
  exchanges  := fun _ => none
  accepts    := 0
  receipts   := 0
  provisions := 0

abbrev Task :=
  Echo.Task NodeId BidRequest (BidProposal ℚ)

inductive Act
  | put (sla : Sla) (target : NodeId)
  | sell (id : SlaId)
  | proposals (id : SlaId) (bids : List (BidProposal ℚ))
  | choose (id : SlaId) (refs : List (BidProposal ℚ × ℕ))
  | receipt (id : SlaId) (ok : Bool)
  | lose (id : SlaId)
  | follow (id : SlaId) (t : Task) (w : NodeId) (latency : Option Latency)
  | exchange (id : SlaId) (a : Echo.Act NodeId BidRequest (BidProposal ℚ))
  | begin (id : SlaId) (t : Task)
  | bidding (n : NodeId) (i : ℕ) (bidId : BidId) (t : Task)
  | accept (id : SlaId) (n : NodeId)
  | node (n : NodeId) (a : Fog.Act)
  | provide (id : SlaId)
  | provision (id : SlaId) (n : NodeId)
  | register (root : Bool) (r : FogNode.Registration)
  | join (i : ℕ)

namespace State

variable (m : State)

def setNode (n : NodeId) (s : Fog.State) : State :=
  { m with nodes := Function.update m.nodes n s }

def setSale (id : SlaId) (sale : Sale) : State :=
  { m with sales := Function.update m.sales id (some sale) }

def setExchange (id : SlaId) (e : Exchange) : State :=
  { m with exchanges := Function.update m.exchanges id (some e) }

end State

def Sale.advance (sale : Sale) (progress : Progress) : Sale :=
  { sale with progress := progress }

-- What comes after a step of `pay_for_function`.
def Progress.ofPaying (bid : AcceptedBid) : FogNodeFaaS.Progress → Progress
  | .done true  => .save bid
  | .done false => .failed
  | p           => .paying bid p

-- `start_auction` from one await to the next, as far as nobody else is involved. The first request is read
-- like one which the node sends to itself.
def advanceSale (c : Settings) (m : State) (id : SlaId) (sale : Sale) : Option State :=
  match sale.progress with
  | .callForBids =>
    match m.registry.get sale.target, c.net.exchange sale.target sale.target (sale.sla, .default) with
    | some _, some (sla, acc) =>
      let request := { nodeOrigin := sale.target, sla := sla, accumulatedLatency := acc }
      some ((m.setExchange id (.start sale.target request)).setSale id (sale.advance .bidding))
    | _, _ => some (m.setSale id (sale.advance .failed))
  | .getNode proposals chosen =>
    match m.registry.get chosen.bid.nodeId with
    | none      => some (m.setSale id (sale.advance .failed))
    | some node =>
      let instanciated :=
        { bid := chosen.bid, ip := node.data.ip, port := node.data.portFaas, price := chosen.price }
      let bid := { chosen := instanciated, proposals := { bids := proposals }, sla := sale.sla }
      some (m.setSale id (sale.advance (.takeOffer bid)))
  | .takeOffer bid =>
    match m.registry.get bid.nodeId with
    | none   => some (m.setSale id (sale.advance .failed))
    | some _ =>
      some ({ m with accepts := (id, bid.nodeId) ::ₘ m.accepts }.setSale id
        { sale.advance (.offered bid) with offer := some bid })
  | .paying bid p =>
    (FogNodeFaaS.payForFunction m.registry bid true p).map fun (registry, p) =>
      { m with registry := registry }.setSale id (sale.advance (.ofPaying bid p))
  | .save bid =>
    some ({ m with tracking := m.tracking.insert id bid.nodeId }.setSale id (sale.advance (.accepted bid)))
  | .bidding | .auction _ | .offered _ | .accepted _ | .failed => none

-- The outcome of `do_auction` if the proposals are sorted in this way.
def choose (proposals : List (BidProposal ℚ)) (refs : List (BidProposal ℚ × ℕ)) : Option Progress :=
  if h : refs.Perm proposals.zipIdx ∧ refs.Pairwise (·.1.bid ≤ ·.1.bid) then
    match Auction.auction ⟨refs, h.1, h.2⟩ with
    | none        => some .failed
    | some chosen => some (.getNode proposals chosen)
  else
    none

-- What a node makes of the end of its own call of `bid_on`.
def contribution (n : NodeId) (bidId : BidId) (t : Task) :
    Except Failure (Option ℚ) → Echo.Act NodeId BidRequest (BidProposal ℚ)
  | .ok bid  => .finish t (bid.map fun bid => { nodeId := n, id := bidId, bid := bid })
  | .error _ => .abort t

-- The acts of an exchange which are not taken together with something else.
def Exchanges : Echo.Act NodeId BidRequest (BidProposal ℚ) → Prop
  | .receive _ | .reply _ | .deliver .. | .loseRequest _ | .loseAnswer _ | .giveUp .. => True
  | .ask .. | .skip .. | .begin _ | .finish .. | .abort _                             => False

instance : DecidablePred Exchanges
  | .receive _ | .reply _ | .deliver .. | .loseRequest _ | .loseAnswer _ | .giveUp .. => .isTrue trivial
  | .ask .. | .skip .. | .begin _ | .finish .. | .abort _                             => .isFalse id

-- What goes on at a node without a request.
def Internal : Fog.Act → Prop
  | .tick _ | .locked _ | .liveness .. | .timer _ => True
  | .bid _ | .bidding _ | .pay _ | .provision _   => False

instance : DecidablePred Internal
  | .tick _ | .locked _ | .liveness .. | .timer _ => .isTrue trivial
  | .bid _ | .bidding _ | .pay _ | .provision _   => .isFalse id

-- An act of the exchange for an SLA.
def stepExchange (c : Settings) (m : State) (id : SlaId) (a : Echo.Act NodeId BidRequest (BidProposal ℚ)) :
    Option State :=
  (m.exchanges id).bind fun e => (e.step c.net.contacts a).map (m.setExchange id)

def stepNode (c : Settings) (m : State) (n : NodeId) (a : Fog.Act) : Option State :=
  (Fog.step (c.configs n) (m.nodes n) a).map (m.setNode n)

-- The market, the nodes and the network take steps in any order. An SLA is put under a new id.
def step (c : Settings) (m : State) : Act → Option State
  | .put sla target =>
    match m.sales sla.id with
    | some _ => none
    | none   => some (m.setSale sla.id { sla := sla, target := target, offer := none, progress := .callForBids })
  | .sell id => (m.sales id).bind (advanceSale c m id)
  | .proposals id bids =>
    match m.sales id, m.exchanges id with
    | some sale, some e =>
      match sale.progress with
      | .bidding =>
        if e.result = some (bids : Multiset (BidProposal ℚ)) then
          some (m.setSale id (sale.advance (.auction bids)))
        else
          none
      | _ => none
    | _, _ => none
  | .choose id refs =>
    (m.sales id).bind fun sale =>
      match sale.progress with
      | .auction proposals => (choose proposals refs).map fun p => m.setSale id (sale.advance p)
      | _                  => none
  | .receipt id ok =>
    (m.sales id).bind fun sale =>
      match sale.progress with
      | .offered bid =>
        if (id, ok) ∈ m.receipts then
          (FogNodeFaaS.payForFunction m.registry bid ok .takeOffer).map fun (registry, p) =>
            { m with registry := registry, receipts := m.receipts.erase (id, ok) }.setSale id
              (sale.advance (.ofPaying bid p))
        else
          none
      | _ => none
  | .lose id =>
    (m.sales id).bind fun sale =>
      match sale.progress with
      | .bidding | .offered _ => some (m.setSale id (sale.advance .failed))
      | _                     => none
  | .follow id t w latency =>
    match c.net.follow latency t.node w t.content with
    | none         => stepExchange c m id (.skip t w)
    | some request => stepExchange c m id (.ask t w request)
  | .exchange id a => if Exchanges a then stepExchange c m id a else none
  | .begin id t => (stepExchange c m id (.begin t)).bind fun m => stepNode c m t.node (.bid t.content.sla)
  | .bidding n i bidId t =>
    (m.nodes n).bids[i]?.bind fun b =>
      match (m.nodes n).returns (c.configs n) i b with
      | none     => stepNode c m n (.bidding i)
      | some out =>
        if t.node = n then
          (stepExchange c m b.sla.id (contribution n bidId t out)).bind fun m => stepNode c m n (.bidding i)
        else
          none
  | .accept id n =>
    if (id, n) ∈ m.accepts then
      stepNode c { m with accepts := m.accepts.erase (id, n) } n (.pay id)
    else
      none
  | .node n a =>
    if Internal a then
      (Fog.step (c.configs n) (m.nodes n) a).map fun s =>
        { m with receipts := m.receipts + ((m.nodes n).answers s).elim 0 ({·}) }.setNode n s
    else
      none
  | .provide id =>
    match m.tracking.lookup id with
    | none   => none
    | some n => if n ∈ m.registry then some { m with provisions := (id, n) ::ₘ m.provisions } else none
  | .provision id n =>
    if (id, n) ∈ m.provisions then
      stepNode c { m with provisions := m.provisions.erase (id, n) } n (.provision id)
    else
      none
  | .register root r =>
    some { m with joining := m.joining ++ [{ root := root, registration := r, progress := .push }] }
  | .join i =>
    m.joining[i]?.bind fun j =>
      (j.advance m.registry).map fun (registry, j) => { m with registry := registry, joining := m.joining.set i j }

end Marketplace
