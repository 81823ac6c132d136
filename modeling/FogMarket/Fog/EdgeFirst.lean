import FogMarket.Fog.Sequential

open Search Sorting

namespace Fog.EdgeFirst

-- The closest neighbor comes first.
def closest (a b : AccumulatedLatency) : Option Ordering :=
  partialCmp a.median b.median

def followUpToNeighbors (life : FunctionLife) (query : NodeId → BidRequest → Option (Reply (BidProposals ℚ)))
    (sla : Sla) (origin : NodeId) (acc : AccumulatedLatency) : Option (Reply (BidProposals ℚ)) :=
  life.followUpInOrder query sla origin acc closest

-- The proposal which is popped off those of the neighbors.
def relay (followUp : Except Failure (BidProposals ℚ)) : Except Failure (BidProposals ℚ) := do
  match (← followUp).bids.getLast? with
  | none     => .error .error
  | some bid => return { bids := [bid] }

-- The node itself comes before its neighbors.
def bidOnNewFunctionAndTransmit (net : Network) : ℕ → NodeId → BidRequest → Option (Reply (BidProposals ℚ))
  | 0, _, _ => none
  | fuel + 1, id, request =>
    match net.nodes.lookup id with
    | none      => some ⟨[], .error .error⟩
    | some life =>
      match life.bidOn request.sla request.accumulatedLatency with
      | .error .panic => some ⟨[(id, request)], .error .panic⟩
      | .ok (some (bidId, record)) =>
        let bid := { nodeId := life.situation.myId, id := bidId, bid := record.bid }
        some ⟨[(id, request)], .ok { bids := [bid] }⟩
      | .ok none | .error .error =>
        let query := net.requestNeighborBid (bidOnNewFunctionAndTransmit net fuel) id
        let followUp := followUpToNeighbors life query request.sla request.nodeOrigin request.accumulatedLatency
        followUp.map fun followUp => ⟨(id, request) :: followUp.calls, relay followUp.result⟩

variable {net : Network} {id : NodeId} {request : BidRequest} {fuel : ℕ} {order : List Call} {life : FunctionLife}
variable {below : Reply (BidProposals ℚ)}

theorem sorts : Network.Sorts closest (· ≤ ·) where
  isSome _ _   := rfl
  sorted _ _ h := pairwise_sortBy h

theorem finds_relay (hp : net.proposal (id, request) = none) (h : net.Finds (.ok { bids := [] }) order below) :
    net.Finds (.error .error) ((id, request) :: order) ⟨(id, request) :: below.calls, relay below.result⟩ := by
  constructor
  case calls => rw [searched_cons_none hp, h.calls]
  case result =>
    rw [h.result, List.findSome?_cons, hp]
    cases order.findSome? net.proposal <;> rfl

theorem finds_bidOnNewFunctionAndTransmit (hc : net.Composed (id, request)) (hl : net.nodes.lookup id = some life)
    (hid : life.situation.myId = id)
    (h : ∃ below, life.followUpInOrder (net.requestNeighborBid (bidOnNewFunctionAndTransmit net fuel) id) request.sla
      request.nodeOrigin request.accumulatedLatency closest = some below ∧
      net.Finds (.ok { bids := [] }) order below) :
    ∃ reply, bidOnNewFunctionAndTransmit net (fuel + 1) id request = some reply ∧
      net.Finds (.error .error) ((id, request) :: order) reply := by
  have ⟨below, hb, h⟩ := h
  simp only [bidOnNewFunctionAndTransmit, hl, followUpToNeighbors, hb, Option.map_some]
  split
  case h_1 hp => exact absurd hp (hc life hl).1
  case h_2 bidId record hp =>
    have hp : net.proposal (id, request) = some { nodeId := id, id := bidId, bid := record.bid } := by
      simp [Network.proposal, hl, hp, Except.toOption]
    refine ⟨_, rfl, ?_, ?_⟩
    case refine_1 => rw [searched_cons_some hp]
    case refine_2 => rw [List.findSome?_cons, hp, hid]; rfl
  case h_3 hp => exact ⟨_, rfl, finds_relay (by simp [Network.proposal, hl, hp, Except.toOption]) h⟩
  case h_4 hp => exact ⟨_, rfl, finds_relay (by simp [Network.proposal, hl, hp, Except.toOption]) h⟩

-- The reply is the first proposal in pre-order, where the neighbors within the latency are visited by their
-- distance, and it is an error if there is none.
theorem firstPlaced_in_preorder (t : net.Tree) (ha : net.Answering (id, request)) (hid : id ∈ net.nodes.keys)
    (hf : net.nodes.keys.card ≤ fuel) :
    ∃ order reply, preorder (net.successors closest) fuel (id, request) = some order ∧
      net.Explores (· ≤ ·) (net.successors closest) (id, request) order ∧
      bidOnNewFunctionAndTransmit net fuel id request = some reply ∧
      net.FirstPlaced (.error .error) order reply := by
  have ⟨order, ho⟩ := Option.isSome_iff_exists.mp (sorts.traverse_isSome List.cons t ha hid hf)
  have ⟨reply, hr, h⟩ := sorts.finds (bidOnNewFunctionAndTransmit net) t (by simp)
    finds_bidOnNewFunctionAndTransmit ha hid ho
  exact ⟨order, reply, ho, sorts.explores t ha hid (fun _ _ _ => List.mem_cons) ho, hr, h.firstPlaced⟩

theorem firstPlaced_in_preorder_of_child :
    ∃ order reply,
      preorder (Network.exampleNetwork.successors closest) 2 (⟨1⟩, Network.exampleRequest) = some order ∧
      Network.exampleNetwork.Explores (· ≤ ·) (Network.exampleNetwork.successors closest)
        (⟨1⟩, Network.exampleRequest) order ∧
      bidOnNewFunctionAndTransmit Network.exampleNetwork 2 ⟨1⟩ Network.exampleRequest = some reply ∧
      Network.exampleNetwork.FirstPlaced (.error .error) order reply := by
  apply firstPlaced_in_preorder Network.tree_exampleNetwork Network.answering_exampleNetwork
  case hid => exact Network.keys_exampleNetwork ▸ by decide
  case hf  => exact Network.keys_exampleNetwork ▸ by decide

end Fog.EdgeFirst
