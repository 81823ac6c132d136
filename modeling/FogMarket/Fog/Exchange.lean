import FogMarket.Library.Echo.Flood
import FogMarket.Fog.Propagation

open Echo Transition Flooding Lists

namespace Fog

deriving instance DecidableEq for AccumulatedLatency
deriving instance DecidableEq for BidRequest

-- The requests and proposals of one auction while they are under way between the nodes.
abbrev Exchange :=
  Echo.State NodeId BidRequest (BidProposal ℚ)

namespace Network

variable (net : Network)

abbrev contacts (id : NodeId) : Finset NodeId :=
  (net.neighbors id).toFinset

-- The nodes ask each other as they do in `bid_on_new_function_and_transmit`, and nothing is lost.
def Transmits : Exchange → Echo.Act NodeId BidRequest (BidProposal ℚ) → Prop :=
  Follows net.forward fun id request => net.proposal (id, request)

variable {net} {request : BidRequest} {acts : List (Echo.Act NodeId BidRequest (BidProposal ℚ))} {s : Exchange}
variable {ok : Exchange → Echo.Act NodeId BidRequest (BidProposal ℚ) → Prop}

theorem Tree.mem_contacts (t : net.Tree) (v w : NodeId) : w ∈ net.contacts v ↔ net.graph.Adj v w := by
  rw [contacts, List.mem_toFinset, t.mem_neighbors_iff_adj]

theorem Tree.contacts_subset (t : net.Tree) (v : NodeId) : net.contacts v ⊆ net.nodes.keys :=
  fun w hw => t.mem_of_adj v w ((t.mem_contacts v w).mp hw)

theorem Tree.exists_result (t : net.Tree)
    (r : Runs net.contacts net.Transmits request.nodeOrigin request acts s) :
    ∃ bs s', Run (Echo.State.step net.contacts) net.Transmits s bs s' ∧ s'.result.isSome = true :=
  Echo.exists_result t.isAcyclic t.mem_contacts t.contacts_subset r

-- The market gets the proposals which the nodes make when they are asked one after the other.
theorem result_of_transmits {m : Multiset (BidProposal ℚ)} {fuel : ℕ} (t : net.Tree) (ha : net.Answers)
    (hb : net.Bids) (hid : request.nodeOrigin ∈ net.nodes.keys) (hf : net.nodes.keys.card ≤ fuel)
    (r : Runs net.contacts net.Transmits request.nodeOrigin request acts s) (hr : s.result = some m) :
    ∃ reply proposals, net.bidOnNewFunctionAndTransmit fuel request.nodeOrigin request = some reply ∧
      reply.result = .ok proposals ∧ m = (proposals.bids : Multiset (BidProposal ℚ)) := by
  have hsome : (flood net.neighbors net.forward fuel request.nodeOrigin request.nodeOrigin request).isSome = true :=
    flood_isSome t.isAcyclic t.mem_neighbors_iff_adj fun x p hp _ => (length_lt_card t.mem_of_adj hid hp).trans_le hf
  obtain ⟨calls, hc⟩ := Option.isSome_iff_exists.mp hsome
  obtain ⟨reply, hreply, h⟩ := eq_some_of_rel (hc ▸ rel_bidOnNewFunctionAndTransmit t ha hb hid)
  obtain ⟨-, proposals, hp, hperm⟩ := h
  refine ⟨reply, proposals, hreply, hp, ?_⟩
  rw [result_eq_flood t.isAcyclic t.mem_contacts t.mem_neighbors_iff_adj t.nodup_neighbors r hr hc]
  exact (Multiset.coe_eq_coe.mpr hperm).symm

theorem result_of_transmits_of_child : ∃ acts s m reply proposals,
    Runs exampleNetwork.contacts exampleNetwork.Transmits ⟨1⟩ exampleRequest acts s ∧ s.result = some m ∧
    exampleNetwork.bidOnNewFunctionAndTransmit 2 ⟨1⟩ exampleRequest = some reply ∧
      reply.result = .ok proposals ∧ m = (proposals.bids : Multiset (BidProposal ℚ)) := by
  have hid : exampleRequest.nodeOrigin ∈ exampleNetwork.nodes.keys := keys_exampleNetwork ▸ by decide
  have hf : exampleNetwork.nodes.keys.card ≤ 2 := keys_exampleNetwork ▸ by decide
  obtain ⟨acts, s, r, hs⟩ := tree_exampleNetwork.exists_result .refl
  obtain ⟨m, hm⟩ := Option.isSome_iff_exists.mp hs
  obtain ⟨reply, proposals, hreply, hp, hm'⟩ :=
    result_of_transmits tree_exampleNetwork (fun _ _ _ => rfl) bids_exampleNetwork hid hf r hm
  exact ⟨acts, s, m, reply, proposals, r, hm, hreply, hp, hm'⟩

-- An exchange takes a bounded number of steps, whatever gets lost. As long as nothing is lost there is a step to be
-- taken until the first node has answered, and whatever has been done, it can still answer.
theorem transmits_ends (t : net.Tree) (hid : request.nodeOrigin ∈ net.nodes.keys) :
    (∀ {acts} {s : Exchange}, Runs net.contacts free request.nodeOrigin request acts s →
      acts.length ≤ ∑ id ∈ net.nodes.keys, (2 * (net.contacts id).card + 5)) ∧
    ∀ {acts} {s : Exchange}, Runs net.contacts net.Transmits request.nodeOrigin request acts s →
      (s.result = none → ∃ a s', net.Transmits s a ∧ s.step net.contacts a = some s') ∧
      ∃ bs s', Run (Echo.State.step net.contacts) net.Transmits s bs s' ∧ s'.result.isSome = true := by
  refine ⟨fun r => length_le t.isAcyclic t.mem_contacts t.contacts_subset hid r, fun r => ?_⟩
  refine ⟨fun hr => ?_, t.exists_result r⟩
  obtain ⟨o, h⟩ := complete_run t.isAcyclic t.mem_contacts (fun _ _ => not_fault_of_follows) r
  obtain ⟨a, ha, hs⟩ := exists_step o h.waits hr net.forward fun id request => net.proposal (id, request)
  obtain ⟨s', hs⟩ := Option.isSome_iff_exists.mp hs
  exact ⟨a, s', ha, hs⟩

-- The first step leads on to the answer, within the bound.
theorem transmits_ends_of_child : ∃ a s bs s',
    (State.start ⟨1⟩ exampleRequest : Exchange).step exampleNetwork.contacts a = some s ∧
    Run (Echo.State.step exampleNetwork.contacts) exampleNetwork.Transmits s bs s' ∧ s'.result.isSome = true ∧
    (a :: bs).length ≤ ∑ id ∈ exampleNetwork.nodes.keys, (2 * (exampleNetwork.contacts id).card + 5) := by
  have hid : exampleRequest.nodeOrigin ∈ exampleNetwork.nodes.keys := keys_exampleNetwork ▸ by decide
  obtain ⟨hlength, hends⟩ := transmits_ends tree_exampleNetwork hid
  obtain ⟨a, s, ha, e⟩ := (hends .refl).1 rfl
  obtain ⟨bs, s', r, hs⟩ := (hends (.single ha e)).2
  exact ⟨a, s, bs, s', e, r, hs, hlength (Run.toFree (.trans ha e r))⟩

end Network
end Fog
