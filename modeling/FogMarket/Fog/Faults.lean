import FogMarket.Fog.Propagation

open Flooding Lists

namespace Fog.Network

-- The own auction of a node fails for a request.
def fails (net : Network) (call : NodeId × BidRequest) : Bool :=
  match net.nodes.lookup call.1 with
  | none      => false
  | some life =>
    match life.bidOn call.2.sla call.2.accumulatedLatency with
    | .ok _    => false
    | .error _ => true

-- What is passed on if only nodes do so whose own auctions do not fail.
def relay (net : Network) (v w : NodeId) (request : BidRequest) : Option BidRequest :=
  if net.fails (v, request) then none else net.forward v w request

-- Of the nodes on the way to `id`, none has an auction which fails.
def Clears (net : Network) (request : BidRequest) (id : NodeId) (r : BidRequest) : Prop :=
  ∃ p : net.graph.Walk request.nodeOrigin id, p.IsPath ∧ Carries net.relay p request r

-- The node which is asked does not fail, nor does one above a node which makes a proposal.
structure Unhidden (net : Network) (request : BidRequest) : Prop where
  asked : net.fails (request.nodeOrigin, request) = false
  above : ∀ id r, net.Reaches request id r → (net.proposal (id, r)).isSome = true → net.Clears request id r

-- The proposals which come back from a node are those of the given calls, unless its own auction fails.
structure Visible (net : Network) (call : NodeId × BidRequest) (reply : Reply (BidProposals ℚ))
    (calls : List (NodeId × BidRequest)) : Prop where
  isOk : reply.result.isOk = !net.fails call
  bids : (bidsOf reply.result.toOption).Perm (calls.filterMap net.proposal)

variable {net : Network} {id w : NodeId} {life : FunctionLife} {request : BidRequest} {fuel : ℕ}
variable {calls : List (NodeId × BidRequest)} {serve : NodeId → BidRequest → Option (Reply (BidProposals ℚ))}
variable {reply : Reply (BidProposals ℚ)}

-- An answer is given, whichever auctions fail.
theorem rel_calls (t : net.Tree) (ha : net.Answers) (hid : id ∈ net.nodes.keys) :
    Option.Rel (fun reply calls => reply.calls = calls) (net.bidOnNewFunctionAndTransmit fuel id request)
      (flood net.neighbors net.forward fuel id request.nodeOrigin request) := by
  induction fuel generalizing id request
  case zero => exact .none
  case succ fuel hi =>
    have ⟨life, hl⟩ := mem_keys_iff.mp hid
    have hfollow : ∀ w ∈ life.situation.getNeighbors, Option.Rel (fun reply calls => reply.calls = calls)
        (life.followUpToSingleNeighbor (net.requestNeighborBid (net.bidOnNewFunctionAndTransmit fuel) id)
          request.sla request.nodeOrigin request.accumulatedLatency w)
        (branch net.neighbors net.forward fuel id request.nodeOrigin request w) := by
      intro w hw
      rw [← neighbors_eq hl] at hw
      have hw := ((t.rooted.mem_neighbors_iff hid).mp hw).1
      rw [followUpToSingleNeighbor_eq ha hl (t.myId id life hl), branch]
      split
      case isTrue => exact .some rfl
      case isFalse =>
        cases hf : net.forward id w request
        case none => exact .some rfl
        case some received =>
          have hcalls : Option.Rel (fun reply calls => reply.calls = calls)
              (net.bidOnNewFunctionAndTransmit fuel w received)
              (flood net.neighbors net.forward fuel w received.nodeOrigin received) := hi hw
          have hr := rel_map (S := fun (reply : Reply (Option (BidProposals ℚ))) calls => reply.calls = calls)
            (f := fun reply => ⟨reply.calls, reply.result.map some⟩) (g := fun calls => calls)
            hcalls fun _ _ h => h
          simpa [nodeOrigin_of_forward hf] using hr
    simp only [bidOnNewFunctionAndTransmit, hl, flood_eq, neighbors_eq hl, FunctionLife.followUpToNeighbors,
      Option.map_map]
    refine rel_map (rel_mapM hfollow) fun replies calls h => ?_
    have hc : replies.flatMap Reply.calls = calls.flatten := by
      induction h
      case nil => rfl
      case cons hr _ hi => rw [List.flatMap_cons, List.flatten_cons, hr, hi]
    exact congrArg _ hc

theorem visible_collect {below : Reply (BidProposals ℚ)} {proposals : BidProposals ℚ}
    (hl : net.nodes.lookup id = some life) (hid : life.situation.myId = id) (hb : below.result = .ok proposals)
    (hf : net.fails (id, request) = false) (h : proposals.bids.Perm (calls.filterMap net.proposal)) :
    net.Visible (id, request)
      ⟨(id, request) :: below.calls, life.collect request.sla request.accumulatedLatency below⟩
      ((id, request) :: calls) := by
  have ⟨bid, hbid⟩ : ∃ bid, life.bidOn request.sla request.accumulatedLatency = .ok bid := by
    simp only [fails, hl] at hf
    split at hf
    case h_1 bid hbid => exact ⟨bid, hbid⟩
    case h_2 => contradiction
  have hcollected : net.Collected BidProposals.bids ⟨calls, .ok proposals⟩ calls := ⟨rfl, proposals, rfl, h⟩
  have ⟨_, result, hr, hperm⟩ := collected_collect hl hid hbid hcollected
  have hc : life.collect request.sla request.accumulatedLatency below = .ok result := by
    simpa only [FunctionLife.collect, hb] using hr
  constructor
  case isOk => simp [hc, hf, Except.isOk, Except.toBool]
  case bids => simpa [hc, bidsOf, Except.toOption] using hperm

-- The error of a node stands for all that its neighbors have answered.
theorem visible_collect_of_fails {below : Reply (BidProposals ℚ)} (hl : net.nodes.lookup id = some life)
    (hf : net.fails (id, request) = true) :
    net.Visible (id, request)
      ⟨(id, request) :: below.calls, life.collect request.sla request.accumulatedLatency below⟩ [(id, request)] := by
  obtain ⟨e, hb⟩ : ∃ e, life.bidOn request.sla request.accumulatedLatency = .error e := by
    simp only [fails, hl] at hf
    split at hf
    case h_1 => contradiction
    case h_2 e hb => exact ⟨e, hb⟩
  have hproposal : net.proposal (id, request) = none := by simp [proposal, hl, hb, Except.toOption]
  have hc : ∃ e, life.collect request.sla request.accumulatedLatency below = .error e := by
    simp only [FunctionLife.collect, hb]
    cases below.result
    all_goals exact ⟨_, rfl⟩
  obtain ⟨e, hc⟩ := hc
  constructor
  case isOk => simp [hc, hf, Except.isOk, Except.toBool]
  case bids => simp [hc, hproposal, bidsOf, Except.toOption]

-- A neighbor which is asked answers as it does if the nodes pass on nothing whose own auctions fail.
theorem rel_followUpToSingleNeighbor_relay (ha : net.Answers) (hl : net.nodes.lookup id = some life)
    (hid : life.situation.myId = id) (hf : net.fails (id, request) = false)
    (hi : ∀ received reply, serve w received = some reply →
      ∃ calls, flood net.neighbors net.relay fuel w received.nodeOrigin received = some calls ∧
        net.Visible (w, received) reply calls)
    (hs : (life.followUpToSingleNeighbor (net.requestNeighborBid serve id) request.sla request.nodeOrigin
      request.accumulatedLatency w).isSome = true) :
    Option.Rel (fun (reply : Reply (Option (BidProposals ℚ))) calls =>
        (bidsOf reply.result.toOption.join).Perm (calls.filterMap net.proposal))
      (life.followUpToSingleNeighbor (net.requestNeighborBid serve id) request.sla request.nodeOrigin
        request.accumulatedLatency w)
      (branch net.neighbors net.relay fuel id request.nodeOrigin request w) := by
  have hrelay : net.relay id w request = net.forward id w request := by simp [relay, hf]
  rw [followUpToSingleNeighbor_eq ha hl hid] at hs ⊢
  rw [branch, hrelay]
  split
  case isTrue => exact .some .nil
  case isFalse ho =>
    rw [if_neg ho] at hs
    cases hfor : net.forward id w request
    case none => exact .some .nil
    case some received =>
      simp only [hfor, Option.isSome_map] at hs
      obtain ⟨answer, hanswer⟩ := Option.isSome_iff_exists.mp hs
      obtain ⟨calls, hcalls, hv⟩ := hi received answer hanswer
      rw [nodeOrigin_of_forward hfor] at hcalls
      simp only [hanswer, hcalls]
      apply Option.Rel.some
      cases hres : answer.result <;> simpa [hres, bidsOf, Except.toOption, Except.map] using hv.bids

-- The proposals which come back are those which do so if the nodes pass on nothing whose own auctions fail.
theorem visible_bidOnNewFunctionAndTransmit (t : net.Tree) (ha : net.Answers) (hid : id ∈ net.nodes.keys)
    (hr : net.bidOnNewFunctionAndTransmit fuel id request = some reply) :
    ∃ calls, flood net.neighbors net.relay fuel id request.nodeOrigin request = some calls ∧
      net.Visible (id, request) reply calls := by
  induction fuel generalizing id request reply
  case zero => contradiction
  case succ fuel hi =>
    obtain ⟨life, hl⟩ := mem_keys_iff.mp hid
    have hmy := t.myId id life hl
    simp only [bidOnNewFunctionAndTransmit, hl, FunctionLife.followUpToNeighbors, Option.map_map] at hr
    obtain ⟨replies, hreplies, hr⟩ := Option.map_eq_some_iff.mp hr
    cases hf : net.fails (id, request)
    case true =>
      have hnone : ∀ w, net.relay id w request = none := fun w => by rw [relay, if_pos hf]
      exact ⟨_, flood_of_none hnone, hr ▸ visible_collect_of_fails hl hf⟩
    case false =>
      have hfollow : ∀ w ∈ life.situation.getNeighbors, Option.Rel
          (fun (reply : Reply (Option (BidProposals ℚ))) calls =>
            (bidsOf reply.result.toOption.join).Perm (calls.filterMap net.proposal))
          (life.followUpToSingleNeighbor (net.requestNeighborBid (net.bidOnNewFunctionAndTransmit fuel) id)
            request.sla request.nodeOrigin request.accumulatedLatency w)
          (branch net.neighbors net.relay fuel id request.nodeOrigin request w) := by
        intro w hw
        have hs := isSome_of_mapM (Option.isSome_iff_exists.mpr ⟨_, hreplies⟩) w hw
        rw [← neighbors_eq hl] at hw
        have hw := ((t.rooted.mem_neighbors_iff hid).mp hw).1
        exact rel_followUpToSingleNeighbor_relay ha hl hmy hf (fun _ _ => hi hw) hs
      have hm := rel_mapM hfollow
      rw [hreplies] at hm
      rw [flood_eq, neighbors_eq hl]
      generalize life.situation.getNeighbors.mapM (branch net.neighbors net.relay fuel id request.nodeOrigin request) =
        below at hm
      cases hm
      case some calls hm =>
        obtain ⟨proposals, hp, hperm⟩ := perm_gather hm
        exact ⟨_, rfl, hr ▸ visible_collect hl hmy hp hf hperm⟩

theorem forward_of_relay (v w : NodeId) (request received : BidRequest) (h : net.relay v w request = some received) :
    net.forward v w request = some received := by
  simp only [relay] at h
  split at h
  case isTrue  => contradiction
  case isFalse => exact h

theorem Clears.reaches {r : BidRequest} (h : net.Clears request id r) : net.Reaches request id r :=
  have ⟨p, hp, hc⟩ := h
  ⟨p, hp, hc.mono forward_of_relay⟩

theorem reaches_unique (t : net.Tree) {r r' : BidRequest} (h : net.Reaches request id r)
    (h' : net.Reaches request id r') : r = r' := by
  have ⟨p, hp, hc⟩ := h
  have ⟨p', hp', hc'⟩ := h'
  have he : p = p' := congrArg Subtype.val ((t.isAcyclic.subsingleton_path _ _).elim ⟨p, hp⟩ ⟨p', hp'⟩)
  exact hc.unique (he ▸ hc')

theorem exists_reply (t : net.Tree) (ha : net.Answers) (hid : request.nodeOrigin ∈ net.nodes.keys)
    (hf : net.nodes.keys.card ≤ fuel) :
    ∃ reply, net.bidOnNewFunctionAndTransmit fuel request.nodeOrigin request = some reply := by
  have hsome : (flood net.neighbors net.forward fuel request.nodeOrigin request.nodeOrigin request).isSome = true :=
    flood_isSome t.isAcyclic t.mem_neighbors_iff_adj fun x p hp _ => (length_lt_card t.mem_of_adj hid hp).trans_le hf
  have ⟨_, hc⟩ := Option.isSome_iff_exists.mp hsome
  have ⟨reply, hr, _⟩ := eq_some_of_rel (hc ▸ rel_calls t ha hid)
  exact ⟨reply, hr⟩

-- All proposals of nodes which are reached come back if and only if there is no failing node above them.
theorem proposed_iff_unhidden (t : net.Tree) (ha : net.Answers) (hid : request.nodeOrigin ∈ net.nodes.keys)
    (hf : net.nodes.keys.card ≤ fuel) :
    ∃ reply, net.bidOnNewFunctionAndTransmit fuel request.nodeOrigin request = some reply ∧
      ((∃ proposals, reply.result = .ok proposals ∧ ∀ id r p, net.Reaches request id r →
          net.proposal (id, r) = some p → p ∈ proposals.bids) ↔
        net.Unhidden request) := by
  have ⟨reply, hr⟩ := exists_reply t ha hid hf
  have ⟨calls, hcalls, hv⟩ := visible_bidOnNewFunctionAndTransmit t ha hid hr
  have hclear : ∀ id r, (id, r) ∈ calls ↔ net.Clears request id r :=
    fun _ _ => mem_flood_self t.isAcyclic t.mem_neighbors_iff_adj hcalls
  refine ⟨reply, hr, ?_⟩
  constructor
  case mp =>
    intro ⟨proposals, hres, hall⟩
    have hperm := hv.bids
    rw [hres] at hperm
    constructor
    case asked => simpa [hres, Except.isOk, Except.toBool] using hv.isOk
    case above =>
      intro id r hreach hs
      have ⟨p, hp⟩ := Option.isSome_iff_exists.mp hs
      have ⟨⟨id', r'⟩, hm, hp'⟩ := List.mem_filterMap.mp (hperm.mem_iff.mp (hall id r p hreach hp))
      cases (nodeId_of_proposal hp).symm.trans (nodeId_of_proposal hp')
      have hm := (hclear id r').mp hm
      exact reaches_unique t hreach hm.reaches ▸ hm
  case mpr =>
    intro h
    have hok := hv.isOk
    have hperm := hv.bids
    rw [h.asked] at hok
    cases hres : reply.result
    case error => simp [hres, Except.isOk, Except.toBool] at hok
    case ok proposals =>
      rw [hres] at hperm
      refine ⟨proposals, rfl, fun id r p hreach hp => hperm.mem_iff.mpr (List.mem_filterMap.mpr ⟨(id, r), ?_, hp⟩)⟩
      exact (hclear id r).mpr (h.above id r hreach (by simp [hp]))

-- The auction of the parent fails, e.g. since a price is not set.
def failingNetwork : Network where
  nodes    := exampleNetwork.nodes.insert ⟨1⟩
    { exampleLife 1 none (.singleton ⟨2⟩ ⟨1000000⟩) with bidOn := fun _ _ => .error .error }
  exchange := exampleNetwork.exchange

theorem lookup_failingNetwork : failingNetwork.nodes.lookup id =
    if id = ⟨1⟩ then some { exampleLife 1 none (.singleton ⟨2⟩ ⟨1000000⟩) with bidOn := fun _ _ => .error .error }
    else exampleNetwork.nodes.lookup id := by
  simp [failingNetwork, Map.lookup_insert_eq]

theorem tree_failingNetwork : failingNetwork.Tree := by
  refine tree_exampleNetwork.congr fun id => ?_
  rw [lookup_failingNetwork, lookup_exampleNetwork]
  by_cases h₁ : id = ⟨1⟩
  case pos =>
    rw [h₁]
    rfl
  case neg => rw [if_neg h₁]

theorem keys_failingNetwork : failingNetwork.nodes.keys = {⟨2⟩, ⟨1⟩} := by
  rw [failingNetwork, Map.keys_insert, keys_exampleNetwork]
  decide

theorem fails_failingNetwork : failingNetwork.fails (⟨1⟩, exampleRequest) = true := by
  have hl := @lookup_failingNetwork ⟨1⟩
  rw [if_pos rfl] at hl
  simp only [fails, hl]

-- The proposal of the child is hidden by its parent.
theorem proposed_iff_unhidden_of_failing_parent :
    ∃ reply, failingNetwork.bidOnNewFunctionAndTransmit 2 exampleRequest.nodeOrigin exampleRequest = some reply ∧
      ¬∃ proposals, reply.result = .ok proposals ∧ ∀ id r p, failingNetwork.Reaches exampleRequest id r →
        failingNetwork.proposal (id, r) = some p → p ∈ proposals.bids := by
  have hid : exampleRequest.nodeOrigin ∈ failingNetwork.nodes.keys := keys_failingNetwork ▸ by decide
  have hf : failingNetwork.nodes.keys.card ≤ 2 := keys_failingNetwork ▸ by decide
  obtain ⟨reply, hr, h⟩ := proposed_iff_unhidden tree_failingNetwork (fun _ _ _ => rfl) hid hf
  refine ⟨reply, hr, fun hp => ?_⟩
  have hasked : failingNetwork.fails (⟨1⟩, exampleRequest) = false := (h.mp hp).asked
  rw [fails_failingNetwork] at hasked
  exact Bool.noConfusion hasked

-- The child makes a proposal for everything it is asked for, but the parent returns an error.
theorem not_proposed_of_failing_parent :
    (∀ request, (failingNetwork.proposal (⟨2⟩, request)).isSome = true) ∧
    ∃ reply, failingNetwork.bidOnNewFunctionAndTransmit 2 exampleRequest.nodeOrigin exampleRequest = some reply ∧
      ¬∃ proposals, reply.result = .ok proposals := by
  obtain ⟨reply, hr⟩ :
      ∃ reply, failingNetwork.bidOnNewFunctionAndTransmit 2 exampleRequest.nodeOrigin exampleRequest = some reply :=
    exists_reply tree_failingNetwork (fun _ _ _ => rfl) (keys_failingNetwork ▸ by decide)
      (keys_failingNetwork ▸ by decide)
  have ⟨_, _, hv⟩ := visible_bidOnNewFunctionAndTransmit tree_failingNetwork (fun _ _ _ => rfl)
    (keys_failingNetwork ▸ by decide) hr
  refine ⟨fun request => ?_, reply, hr, fun ⟨proposals, hres⟩ => ?_⟩
  case refine_1 =>
    have hl : failingNetwork.nodes.lookup ⟨2⟩ = some (exampleLife 2 (some ⟨1⟩) ∅) := by
      rw [lookup_failingNetwork, if_neg (by decide), lookup_exampleNetwork, if_pos rfl]
    simp only [proposal, hl]
    rfl
  case refine_2 =>
    have hok := hv.isOk.trans (congrArg (!·) fails_failingNetwork)
    rw [hres] at hok
    simp [Except.isOk, Except.toBool] at hok

end Fog.Network
