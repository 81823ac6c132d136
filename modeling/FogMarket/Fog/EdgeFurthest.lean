import FogMarket.Fog.Sequential

open Search Sorting

namespace Fog.EdgeFurthest

-- The furthest neighbor comes first.
def furthest (a b : AccumulatedLatency) : Option Ordering :=
  partialCmp b.median a.median

def followUpToNeighbors (life : FunctionLife) (query : NodeId → BidRequest → Option (Reply (BidProposals ℚ)))
    (sla : Sla) (origin : NodeId) (acc : AccumulatedLatency) : Option (Reply (BidProposals ℚ)) :=
  life.followUpInOrder query sla origin acc furthest

-- The node itself is considered if no proposal can be popped off those of the neighbors.
def consider (life : FunctionLife) (id : NodeId) (request : BidRequest) (followUp : Reply (BidProposals ℚ)) :
    Reply (BidProposals ℚ) :=
  match followUp.result with
  | .error failure => ⟨followUp.calls, .error failure⟩
  | .ok proposals  =>
    match proposals.bids.getLast? with
    | some bid => ⟨followUp.calls, .ok { bids := [bid] }⟩
    | none     =>
      let calls := followUp.calls ++ [(id, request)]
      match life.bidOn request.sla request.accumulatedLatency with
      | .error .panic              => ⟨calls, .error .panic⟩
      | .ok (some (bidId, record)) =>
        ⟨calls, .ok { bids := [{ nodeId := life.situation.myId, id := bidId, bid := record.bid }] }⟩
      | .ok none | .error .error   => ⟨calls, .ok { bids := [] }⟩

def bidOnNewFunctionAndTransmit (net : Network) : ℕ → NodeId → BidRequest → Option (Reply (BidProposals ℚ))
  | 0, _, _ => none
  | fuel + 1, id, request =>
    match net.nodes.lookup id with
    | none      => some ⟨[], .error .error⟩
    | some life =>
      let query := net.requestNeighborBid (bidOnNewFunctionAndTransmit net fuel) id
      let followUp := followUpToNeighbors life query request.sla request.nodeOrigin request.accumulatedLatency
      followUp.map (consider life id request)

variable {net : Network} {id : NodeId} {request : BidRequest} {fuel : ℕ} {order : List Call} {life : FunctionLife}
variable {below : Reply (BidProposals ℚ)}

theorem sorts : Network.Sorts furthest (· ≥ ·) where
  isSome _ _   := by
    rw [furthest, Bool.eq_iff_iff, partialCmp_isSome, partialCmp_isSome, and_comm]
  sorted _ _ h := pairwise_sortBy_reverse h

theorem finds_consider (hc : net.Composed (id, request)) (hl : net.nodes.lookup id = some life)
    (hid : life.situation.myId = id) (h : net.Finds (.ok { bids := [] }) order below) :
    net.Finds (.ok { bids := [] }) (order ++ [(id, request)]) (consider life id request below) := by
  cases hp : order.findSome? net.proposal
  case some p =>
    have hr : below.result = .ok { bids := [p] } := by rw [h.result, hp]; rfl
    simp only [consider, hr]
    refine ⟨?_, ?_⟩
    case refine_1 => rw [searched_append_some hp]; exact h.calls
    case refine_2 => rw [List.findSome?_append, hp]; rfl
  case none =>
    have hr : below.result = .ok { bids := [] } := by rw [h.result, hp]; rfl
    have hmiss (hp' : net.proposal (id, request) = none) :
        net.Finds (.ok { bids := [] }) (order ++ [(id, request)])
          ⟨below.calls ++ [(id, request)], .ok { bids := [] }⟩ := by
      refine ⟨?_, ?_⟩
      case refine_1 => rw [searched_append_none hp, searched_cons_none hp', h.calls]; rfl
      case refine_2 => rw [List.findSome?_append, hp, List.findSome?_cons, hp']; rfl
    simp only [consider, hr, List.getLast?_nil]
    split
    case h_1 hb => exact absurd hb (hc life hl).1
    case h_2 bidId record hb =>
      have hp' : net.proposal (id, request) = some { nodeId := id, id := bidId, bid := record.bid } := by
        simp [Network.proposal, hl, hb, Except.toOption]
      refine ⟨?_, ?_⟩
      case refine_1 => rw [searched_append_none hp, searched_cons_some hp', h.calls]
      case refine_2 => rw [List.findSome?_append, hp, List.findSome?_cons, hp', hid]; rfl
    case h_3 hb => exact hmiss (by simp [Network.proposal, hl, hb, Except.toOption])
    case h_4 hb => exact hmiss (by simp [Network.proposal, hl, hb, Except.toOption])

theorem finds_bidOnNewFunctionAndTransmit (hc : net.Composed (id, request)) (hl : net.nodes.lookup id = some life)
    (hid : life.situation.myId = id)
    (h : ∃ below, life.followUpInOrder (net.requestNeighborBid (bidOnNewFunctionAndTransmit net fuel) id) request.sla
      request.nodeOrigin request.accumulatedLatency furthest = some below ∧
      net.Finds (.ok { bids := [] }) order below) :
    ∃ reply, bidOnNewFunctionAndTransmit net (fuel + 1) id request = some reply ∧
      net.Finds (.ok { bids := [] }) (order ++ [(id, request)]) reply := by
  have ⟨below, hb, h⟩ := h
  refine ⟨consider life id request below, ?_, finds_consider hc hl hid h⟩
  simp only [bidOnNewFunctionAndTransmit, hl, followUpToNeighbors, hb, Option.map_some]

-- The reply is the first proposal in post-order, where the neighbors within the latency are visited by their
-- distance, the furthest first, and it is empty if there is none.
theorem firstPlaced_in_postorder (t : net.Tree) (ha : net.Answering (id, request)) (hid : id ∈ net.nodes.keys)
    (hf : net.nodes.keys.card ≤ fuel) :
    ∃ order reply, postorder (net.successors furthest) fuel (id, request) = some order ∧
      net.Explores (· ≥ ·) (net.successors furthest) (id, request) order ∧
      bidOnNewFunctionAndTransmit net fuel id request = some reply ∧
      net.FirstPlaced (.ok { bids := [] }) order reply := by
  have ⟨order, ho⟩ := Option.isSome_iff_exists.mp
    (sorts.traverse_isSome (fun s below => below ++ [s]) t ha hid hf)
  have ⟨reply, hr, h⟩ := sorts.finds (bidOnNewFunctionAndTransmit net) t (by simp)
    finds_bidOnNewFunctionAndTransmit ha hid ho
  have hplace : ∀ (s : Call) l x, x ∈ l ++ [s] ↔ x = s ∨ x ∈ l := by simp [or_comm]
  exact ⟨order, reply, ho, sorts.explores t ha hid hplace ho, hr, h.firstPlaced⟩

theorem firstPlaced_in_postorder_of_child :
    ∃ order reply,
      postorder (Network.exampleNetwork.successors furthest) 2 (⟨1⟩, Network.exampleRequest) = some order ∧
      Network.exampleNetwork.Explores (· ≥ ·) (Network.exampleNetwork.successors furthest)
        (⟨1⟩, Network.exampleRequest) order ∧
      bidOnNewFunctionAndTransmit Network.exampleNetwork 2 ⟨1⟩ Network.exampleRequest = some reply ∧
      Network.exampleNetwork.FirstPlaced (.ok { bids := [] }) order reply := by
  apply firstPlaced_in_postorder Network.tree_exampleNetwork Network.answering_exampleNetwork
  case hid => exact Network.keys_exampleNetwork ▸ by decide
  case hf  => exact Network.keys_exampleNetwork ▸ by decide

end Fog.EdgeFurthest
