import Mathlib.Data.List.ReduceOption
import FogMarket.Fog.Placement

open Flooding Lists

namespace Fog.Network

variable {net : Network} {id w : NodeId} {life : FunctionLife} {request : BidRequest} {fuel : ℕ}
variable {calls : List (NodeId × BidRequest)} {serve : NodeId → BidRequest → Option (Reply (BidProposals ℚ))}

theorem mem_keys_iff : id ∈ net.nodes.keys ↔ ∃ life, net.nodes.lookup id = some life := by
  rw [Finmap.mem_keys]
  exact ⟨Map.lookup_of_mem, fun ⟨_, h⟩ => Map.mem_of_lookup h⟩

theorem neighbors_of_notMem (h : id ∉ net.nodes.keys) : net.neighbors id = [] := by
  rw [Finmap.mem_keys] at h
  simp [neighbors, Hierarchy.neighbors, parentId, childIds, Finmap.lookup_eq_none.mpr h]

theorem neighbors_eq (h : net.nodes.lookup id = some life) :
    net.neighbors id = life.situation.getNeighbors := by
  simp [neighbors, Hierarchy.neighbors, parentId, childIds, h, NodeSituation.getNeighbors]

namespace Tree

theorem isAcyclic (t : net.Tree) : net.graph.IsAcyclic :=
  t.rooted.isAcyclic fun _ => neighbors_of_notMem

theorem mem_neighbors_iff_adj (t : net.Tree) (v w : NodeId) : w ∈ net.neighbors v ↔ net.graph.Adj v w :=
  t.rooted.mem_neighbors_iff_adj fun _ => neighbors_of_notMem

-- Only the situations of the nodes matter.
theorem congr {net' : Network} (t : net.Tree) (h : ∀ id, (net'.nodes.lookup id).map FunctionLife.situation =
    (net.nodes.lookup id).map FunctionLife.situation) : net'.Tree := by
  have hkeys : net'.nodes.keys = net.nodes.keys := by
    ext id
    have := congrArg Option.isSome (h id)
    simpa [Finmap.mem_keys, ← Finmap.lookup_isSome] using this
  have hparent : net'.parentId = net.parentId := by
    ext1 id
    have := congrArg (Option.bind · NodeSituation.parentId) (h id)
    simpa [parentId, Option.bind_map, Function.comp_def] using this
  have hchildren : net'.childIds = net.childIds := by
    ext1 id
    have := h id
    simp only [childIds]
    cases hl : net'.nodes.lookup id <;> cases hl' : net.nodes.lookup id <;> simp_all
  refine ⟨fun id life hl => ?_, hkeys ▸ hparent ▸ hchildren ▸ t.rooted⟩
  have hs := h id
  rw [hl] at hs
  have ⟨life', hl', he⟩ := Option.map_eq_some_iff.mp hs.symm
  exact he ▸ t.myId id life' hl'

theorem mem_of_adj (t : net.Tree) (v w : NodeId) (h : net.graph.Adj v w) : w ∈ net.nodes.keys :=
  ((t.rooted.adj_iff fun _ => neighbors_of_notMem).mp h).2.1

theorem nodup_neighbors (t : net.Tree) : ∀ v, (net.neighbors v).Nodup :=
  t.rooted.nodup_neighbors fun _ => neighbors_of_notMem

end Tree

-- The calls are the expected ones, and their proposals are the ones which are returned.
def Collected {α : Type} (net : Network) (bids : α → List (BidProposal ℚ)) (reply : Reply α)
    (calls : List (NodeId × BidRequest)) : Prop :=
  reply.calls = calls ∧ ∃ a, reply.result = .ok a ∧ (bids a).Perm (calls.filterMap net.proposal)

def bidsOf (proposals : Option (BidProposals ℚ)) : List (BidProposal ℚ) :=
  (proposals.map BidProposals.bids).getD []

-- A neighbor is asked if the request does not come from there and if it is feasible to send it there.
theorem followUpToSingleNeighbor_eq (ha : net.Answers) (hl : net.nodes.lookup id = some life)
    (hid : life.situation.myId = id) :
    life.followUpToSingleNeighbor (net.requestNeighborBid serve id) request.sla request.nodeOrigin
        request.accumulatedLatency w =
      if w = request.nodeOrigin then
        some ⟨[], .ok none⟩
      else
        match net.forward id w request with
        | none          => some ⟨[], .ok none⟩
        | some received => (serve w received).map fun reply => ⟨reply.calls, reply.result.map some⟩ := by
  simp only [FunctionLife.followUpToSingleNeighbor]
  by_cases ho : w = request.nodeOrigin
  case pos => rw [if_pos ho, if_pos ho]
  case neg =>
    rw [if_neg ho, if_neg ho]
    cases hlat : life.latencyTo w
    case none => simp [forward, hl, hlat]
    case some latency =>
      cases hdesc : life.situation.getFogNodeNeighbor w
      case none => simp [forward, hl, hlat, hdesc]
      case some description =>
        let next := request.accumulatedLatency.accumulate latency description.advertisedBandwidth
        by_cases hlt : request.sla.latencyMax < computeWorseLatency next request.sla.inputMaxSize
        case pos => simp [forward, hl, hlat, hdesc, next, hlt]
        case neg =>
          have ⟨⟨sla, acc⟩, he⟩ := Option.isSome_iff_exists.mp (ha id w (request.sla, next))
          have hf : net.forward id w request =
              some { nodeOrigin := id, sla := sla, accumulatedLatency := acc } := by
            simp [forward, hl, hlat, hdesc, next, hlt, he]
          simp only [next] at hlt he
          simp only [if_neg hlt, hf, requestNeighborBid, he, hid]

theorem nodeOrigin_of_forward {received : BidRequest} (h : net.forward id w request = some received) :
    received.nodeOrigin = id := by
  simp only [forward, bind, Option.bind_eq_some_iff] at h
  have ⟨_, _, _, _, _, _, h⟩ := h
  split at h <;> simp only [Option.bind_eq_some_iff, reduceCtorEq] at h
  have ⟨_, _, h⟩ := h
  cases h
  rfl

theorem rel_followUpToSingleNeighbor (ha : net.Answers) (hl : net.nodes.lookup id = some life)
    (hid : life.situation.myId = id)
    (hs : ∀ request, request.nodeOrigin = id →
      Option.Rel (net.Collected BidProposals.bids) (serve w request)
        (flood net.neighbors net.forward fuel w id request)) :
    Option.Rel (net.Collected bidsOf)
      (life.followUpToSingleNeighbor (net.requestNeighborBid serve id) request.sla request.nodeOrigin
        request.accumulatedLatency w)
      (branch net.neighbors net.forward fuel id request.nodeOrigin request w) := by
  have hnone : Option.Rel (net.Collected bidsOf) (some ⟨[], .ok none⟩) (some []) :=
    .some ⟨rfl, none, rfl, .nil⟩
  rw [followUpToSingleNeighbor_eq ha hl hid, branch]
  split
  case isTrue => exact hnone
  case isFalse =>
    cases hf : net.forward id w request
    case none => exact hnone
    case some received =>
      have hr := rel_map (S := net.Collected bidsOf) (g := fun calls => calls)
        (f := fun reply => ⟨reply.calls, reply.result.map some⟩)
        (hs received (nodeOrigin_of_forward hf)) ?_
      case refine_1 =>
        rintro reply calls ⟨hc, proposals, hp, hperm⟩
        exact ⟨hc, some proposals, by rw [hp]; rfl, hperm⟩
      simpa using hr

theorem perm_gather {replies : List (Reply (Option (BidProposals ℚ)))} {calls : List (List (NodeId × BidRequest))}
    (h : List.Forall₂ (fun reply calls => (bidsOf reply.result.toOption.join).Perm (calls.filterMap net.proposal))
      replies calls) :
    ∃ proposals, (FunctionLife.gather replies).result = .ok proposals ∧
      proposals.bids.Perm (calls.flatten.filterMap net.proposal) := by
  refine ⟨_, rfl, ?_⟩
  induction h
  case nil => exact .nil
  case cons reply call replies calls hr _ hi =>
    rw [List.flatten_cons, List.filterMap_append]
    cases hres : reply.result
    case error e => simpa [hres, Except.toOption, bidsOf] using hr.append hi
    case ok proposals =>
      cases proposals
      case none => simpa [hres, Except.toOption, bidsOf, List.reduceOption_cons_of_none] using hr.append hi
      case some => simpa [hres, Except.toOption, bidsOf, List.reduceOption_cons_of_some] using hr.append hi

theorem collected_gather {replies : List (Reply (Option (BidProposals ℚ)))}
    {calls : List (List (NodeId × BidRequest))} (h : List.Forall₂ (net.Collected bidsOf) replies calls) :
    net.Collected BidProposals.bids (FunctionLife.gather replies) calls.flatten := by
  constructor
  case left =>
    induction h
    case nil => rfl
    case cons reply call replies calls hr _ hi =>
      rw [List.flatten_cons, ← hi, ← hr.1]
      rfl
  case right =>
    refine perm_gather (h.imp fun reply calls ⟨_, proposals, hp, hperm⟩ => ?_)
    simpa [hp, Except.toOption] using hperm

theorem collected_collect {below : Reply (BidProposals ℚ)} {calls : List (NodeId × BidRequest)}
    {bid : Option (BidId × Proposed)} (hl : net.nodes.lookup id = some life) (hid : life.situation.myId = id)
    (hb : life.bidOn request.sla request.accumulatedLatency = .ok bid)
    (h : net.Collected BidProposals.bids below calls) :
    net.Collected BidProposals.bids
      ⟨(id, request) :: below.calls, life.collect request.sla request.accumulatedLatency below⟩
      ((id, request) :: calls) := by
  have ⟨hc, proposals, hp, hperm⟩ := h
  cases bid
  case none =>
    refine ⟨by rw [hc], proposals, ?_, ?_⟩
    case refine_1 =>
      rw [FunctionLife.collect, hp, hb]
      rfl
    case refine_2 => simpa [proposal, hl, hb, Except.toOption] using hperm
  case some bid =>
    let own : BidProposal ℚ := { nodeId := id, id := bid.1, bid := bid.2.bid }
    have hperm := (List.perm_append_singleton own _).trans (hperm.cons own)
    refine ⟨by rw [hc], ⟨proposals.bids ++ [own]⟩, ?_, ?_⟩
    case refine_1 =>
      rw [FunctionLife.collect, hp, hb, hid]
      rfl
    case refine_2 => simpa [proposal, hl, hb, Except.toOption, own] using hperm

-- The calls are made along the branches of the tree, and the proposals are not lost on the way back.
theorem rel_bidOnNewFunctionAndTransmit (t : net.Tree) (ha : net.Answers) (hb : net.Bids)
    (hid : id ∈ net.nodes.keys) :
    Option.Rel (net.Collected BidProposals.bids) (net.bidOnNewFunctionAndTransmit fuel id request)
      (flood net.neighbors net.forward fuel id request.nodeOrigin request) := by
  induction fuel generalizing id request
  case zero => exact .none
  case succ fuel hi =>
    have ⟨life, hl⟩ := mem_keys_iff.mp hid
    have ⟨bid, hbid⟩ := hb id life hl request.sla request.accumulatedLatency
    have hfollow : ∀ w ∈ life.situation.getNeighbors, Option.Rel (net.Collected bidsOf)
        (life.followUpToSingleNeighbor (net.requestNeighborBid (net.bidOnNewFunctionAndTransmit fuel) id)
          request.sla request.nodeOrigin request.accumulatedLatency w)
        (branch net.neighbors net.forward fuel id request.nodeOrigin request w) := by
      intro w hw
      rw [← neighbors_eq hl] at hw
      have hw := ((t.rooted.mem_neighbors_iff hid).mp hw).1
      exact rel_followUpToSingleNeighbor ha hl (t.myId id life hl) fun request ho => ho ▸ hi hw
    simp only [bidOnNewFunctionAndTransmit, hl, flood_eq, neighbors_eq hl, FunctionLife.followUpToNeighbors,
      Option.map_map]
    refine rel_map (rel_mapM hfollow) fun replies calls h => ?_
    exact collected_collect hl (t.myId id life hl) hbid (collected_gather h)

theorem nodeId_of_proposal {call : NodeId × BidRequest} {p : BidProposal ℚ} (h : net.proposal call = some p) :
    p.nodeId = call.1 := by
  simp only [proposal, bind, Option.bind_eq_some_iff, pure, Option.some.injEq] at h
  have ⟨_, _, _, _, _, _, h⟩ := h
  exact h ▸ rfl

theorem sublist_proposals (net : Network) (calls : List (NodeId × BidRequest)) :
    ((calls.filterMap net.proposal).map BidProposal.nodeId).Sublist (calls.map Prod.fst) := by
  induction calls
  case nil => exact .slnil
  case cons call calls hi =>
    rw [List.map_cons, List.filterMap_cons]
    split
    case h_1 => exact hi.cons _
    case h_2 p hp => exact nodeId_of_proposal hp ▸ hi.cons_cons _

-- `id` is connected to the node which is asked first by a path of feasible hops, at whose end it reads `r`.
def Reaches (net : Network) (request : BidRequest) (id : NodeId) (r : BidRequest) : Prop :=
  ∃ p : net.graph.Walk request.nodeOrigin id, p.IsPath ∧ Carries net.forward p request r

-- The nodes which are reached are called once, and their proposals are returned.
structure Placed (net : Network) (request : BidRequest) (reply : Reply (BidProposals ℚ)) : Prop where
  once     : (reply.calls.map Prod.fst).Nodup
  reached  : ∀ id r, (id, r) ∈ reply.calls ↔ net.Reaches request id r
  returned : ∃ proposals, reply.result = .ok proposals ∧ (proposals.bids.map BidProposal.nodeId).Nodup ∧
    ∀ p, p ∈ proposals.bids ↔ ∃ r, net.Reaches request p.nodeId r ∧ net.proposal (p.nodeId, r) = some p

theorem placed_of_collected {reply : Reply (BidProposals ℚ)} (t : net.Tree)
    (hr : net.Collected BidProposals.bids reply calls)
    (hc : flood net.neighbors net.forward fuel request.nodeOrigin request.nodeOrigin request = some calls) :
    net.Placed request reply := by
  have ⟨he, proposals, hp, hperm⟩ := hr
  have honce := nodup_flood t.isAcyclic t.mem_neighbors_iff_adj t.nodup_neighbors hc
  have hreached : ∀ id r, (id, r) ∈ calls ↔ net.Reaches request id r :=
    fun _ _ => mem_flood_self t.isAcyclic t.mem_neighbors_iff_adj hc
  constructor
  case once => exact he ▸ honce
  case reached => exact he ▸ hreached
  case returned =>
    refine ⟨proposals, hp, ?_, fun p => ?_⟩
    case refine_1 => exact (hperm.map _).nodup_iff.mpr (honce.sublist (sublist_proposals net calls))
    case refine_2 =>
      rw [hperm.mem_iff, List.mem_filterMap]
      constructor
      case mp =>
        intro ⟨⟨id, r⟩, hm, hp⟩
        cases nodeId_of_proposal hp
        exact ⟨r, (hreached _ r).mp hm, hp⟩
      case mpr => exact fun ⟨r, hr, hp⟩ => ⟨_, (hreached _ r).mpr hr, hp⟩

-- The market asks a node as if the request came from there.
theorem placed_of_tree (t : net.Tree) (ha : net.Answers) (hb : net.Bids)
    (hid : request.nodeOrigin ∈ net.nodes.keys) (hf : net.nodes.keys.card ≤ fuel) :
    ∃ reply, net.bidOnNewFunctionAndTransmit fuel request.nodeOrigin request = some reply ∧
      net.Placed request reply := by
  have hsome : (flood net.neighbors net.forward fuel request.nodeOrigin request.nodeOrigin request).isSome = true :=
    flood_isSome t.isAcyclic t.mem_neighbors_iff_adj fun x p hp _ => (length_lt_card t.mem_of_adj hid hp).trans_le hf
  have ⟨calls, hc⟩ := Option.isSome_iff_exists.mp hsome
  have ⟨reply, hr, h⟩ := eq_some_of_rel (hc ▸ rel_bidOnNewFunctionAndTransmit t ha hb hid)
  exact ⟨reply, hr, placed_of_collected t h hc⟩

def exampleLife (id : Uuid) (parentId : Option NodeId) (children : AList fun _ : NodeId => NodeDescription) :
    FunctionLife where
  situation := { myId := ⟨id⟩, parentId := parentId, children := children, myAdvertisedBandwidth := 1000000 }
  latencyTo := fun _ => some { median := 0.001, average := 0.001, interquantileRange := 0, packetLoss := 0 }
  bidOn     := fun sla _ => .ok (some (⟨id⟩, { bid := 1, sla := sla, node := "k8s" }))

-- A node which is connected to the market, and its child.
def exampleNetwork : Network where
  nodes    :=
    ((∅ : Map NodeId FunctionLife).insert ⟨1⟩ (exampleLife 1 none (.singleton ⟨2⟩ ⟨1000000⟩))).insert
      ⟨2⟩ (exampleLife 2 (some ⟨1⟩) ∅)
  exchange := fun _ _ sent => some sent

theorem lookup_exampleNetwork : exampleNetwork.nodes.lookup id =
    if id = ⟨2⟩ then some (exampleLife 2 (some ⟨1⟩) ∅)
    else if id = ⟨1⟩ then some (exampleLife 1 none (.singleton ⟨2⟩ ⟨1000000⟩))
    else none := by
  simp [exampleNetwork, Map.lookup_insert_eq]

theorem keys_exampleNetwork : exampleNetwork.nodes.keys = {⟨2⟩, ⟨1⟩} := by
  simp [exampleNetwork, Map.keys_insert]

theorem bids_exampleNetwork : exampleNetwork.Bids := by
  intro id life h sla acc
  rw [lookup_exampleNetwork] at h
  split_ifs at h <;> cases h <;> exact ⟨_, rfl⟩

theorem tree_exampleNetwork : exampleNetwork.Tree := by
  have hparent : exampleNetwork.parentId = fun id => if id = ⟨2⟩ then some ⟨1⟩ else none := by
    ext1 id
    rw [parentId, lookup_exampleNetwork]
    split_ifs <;> rfl
  have hchildren : exampleNetwork.childIds = fun id => if id = ⟨1⟩ then [⟨2⟩] else [] := by
    ext1 id
    rw [childIds, lookup_exampleNetwork]
    by_cases h₂ : id = ⟨2⟩
    case pos =>
      rw [h₂]
      rfl
    case neg =>
      rw [if_neg h₂]
      split_ifs <;> rfl
  constructor
  case myId =>
    intro id life h
    rw [lookup_exampleNetwork] at h
    split_ifs at h with h₂ h₁
    · cases h
      exact h₂.symm
    · cases h
      exact h₁.symm
  case rooted =>
    rw [keys_exampleNetwork, hparent, hchildren]
    have hroot : ∀ r ∈ ({⟨2⟩, ⟨1⟩} : Finset NodeId),
        (if r = ⟨2⟩ then some (⟨1⟩ : NodeId) else none) = none → r = ⟨1⟩ := by
      decide
    constructor
    case root        => exact ⟨⟨1⟩, by decide, fun r hr => hroot r hr.1 hr.2⟩
    case parent_mem  => decide
    case listed_once => decide
    case listed      => decide
    case reachable =>
      intro r hr hn v hv
      rw [hroot r hr hn]
      cases Finset.mem_insert.mp hv
      case inl hv => exact hv ▸ .single (by simp [Hierarchy.ListsChild])
      case inr hv => exact Finset.mem_singleton.mp hv ▸ .refl

def exampleRequest : BidRequest where
  nodeOrigin         := ⟨1⟩
  accumulatedLatency := .default
  sla                := {
    id := ⟨7⟩, memory := 1, cpu := 1, latencyMax := 1, duration := 1000, maxReplica := 1, inputMaxSize := 1
  }

theorem placed_of_child :
    ∃ reply, exampleNetwork.bidOnNewFunctionAndTransmit 2 exampleRequest.nodeOrigin exampleRequest = some reply ∧
      exampleNetwork.Placed exampleRequest reply := by
  apply placed_of_tree tree_exampleNetwork (fun _ _ _ => rfl) bids_exampleNetwork
  case hid => exact keys_exampleNetwork ▸ by decide
  case hf  => exact keys_exampleNetwork ▸ by decide

end Fog.Network
