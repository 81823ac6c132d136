import FogMarket.Marketplace.Consistent

open Market Fog Transition

namespace Marketplace

-- The market has chosen among proposals of different nodes, who have recorded what they have proposed.
structure Fair (m : State) (id : SlaId) (bid : AcceptedBid) : Prop where
  chosen   : Chosen bid.proposals.bids bid.chosen.bid bid.chosen.price
  distinct : (bid.proposals.bids.map (·.nodeId)).Nodup
  recorded : ∀ p ∈ bid.proposals.bids,
    ∃ record, (m.nodes p.nodeId).tracking.lookup id = some record ∧ record.bid = p.bid

variable {c : Settings} {m m' : State} {as bs : List Act} {ok : State → Act → Prop} {now : NodeId → ℤ}
variable {id : SlaId} {n : NodeId} {bidId : BidId} {bid : AcceptedBid} {record : States}

theorem consistent_run (t : c.net.Tree) (hk : Keeps c.net) (r : Run (step c) ok (.new c now) as m) :
    Exchanged c m ∧ Consistent m := by
  refine r.invariant (I := fun m => Exchanged c m ∧ Consistent m) ⟨exchanged_new, .new⟩ fun h _ e => ?_
  have e := effect_of_step e
  exact ⟨h.1.step t hk e, h.2.step h.1 e⟩

theorem Offered.eq {bid' : AcceptedBid} (h : Offered m.sales id bid) (h' : Offered m.sales id bid') : bid' = bid := by
  obtain ⟨sale, hs, ho⟩ := h
  obtain ⟨sale', hs', ho'⟩ := h'
  cases hs.symm.trans hs'
  exact Option.some.inj (ho'.symm.trans ho)

theorem fair_of_offered (x : Exchanged c m) (h : Consistent m) (ho : Offered m.sales id bid) : Fair m id bid := by
  obtain ⟨sale, hs, ho⟩ := ho
  obtain ⟨-, hchosen, hmade, hdistinct⟩ := (h.sales id sale hs).offer bid ho
  refine ⟨hchosen, hdistinct, fun p hp => ?_⟩
  obtain ⟨e, he, hm⟩ := hmade p hp
  obtain ⟨-, sla, name, -, hterms⟩ := x.answered.made id e _ p he hm
  obtain ⟨record, hrecord, ht⟩ := Option.map_eq_some_iff.mp hterms
  exact ⟨record, hrecord, congrArg Prod.fst ht⟩

section Example

def exampleSettings : Settings where
  net       := Network.exampleNetwork
  configs _ := wrappingConfig ["k8s"]

def exampleRegistration : FogNode.Registration where
  parent   := ⟨2⟩
  child    := ⟨2⟩
  ip       := .v4 0
  portHttp := 80
  portFaas := 8080
  tags     := []

-- The market asks a node whose neighbor cannot be reached.
def exampleTask : Task :=
  Echo.Request.task exampleSettings.net.contacts <|
    .first ⟨2⟩ { nodeOrigin := ⟨2⟩, sla := Fog.exampleSla 7 1 1000 1, accumulatedLatency := .default }

def exampleProposal : BidProposal ℚ where
  nodeId := ⟨2⟩
  id     := ⟨5⟩
  bid    := 1 / 5

def askingActs : List Act :=
  let skipped := exampleTask.skip ⟨1⟩
  let running := { skipped with own := .running }
  .register true exampleRegistration :: .replicate 6 (.join 0) ++
    [.put (Fog.exampleSla 7 1 1000 1) ⟨2⟩, .sell ⟨7⟩, .exchange ⟨7⟩ (.receive (.first ⟨2⟩ exampleTask.content)),
      .follow ⟨7⟩ exampleTask ⟨1⟩ none, .begin ⟨7⟩ skipped] ++
    .replicate 5 (.bidding ⟨2⟩ 0 ⟨5⟩ running) ++ [.exchange ⟨7⟩ (.reply (running.finish (some exampleProposal)))]

def buyingActs : List Act :=
  [.proposals ⟨7⟩ [exampleProposal], .choose ⟨7⟩ [(exampleProposal, 0)], .sell ⟨7⟩, .sell ⟨7⟩, .accept ⟨7⟩ ⟨2⟩] ++
    .replicate 7 (.node ⟨2⟩ (.locked true)) ++ [.receipt ⟨7⟩ true] ++ .replicate 3 (.sell ⟨7⟩)

def provisioningActs : List Act :=
  [.provide ⟨7⟩, .provision ⟨7⟩ ⟨2⟩] ++ .replicate 3 (.node ⟨2⟩ (.locked true))

theorem keeps_exampleNetwork : Keeps exampleSettings.net := by
  rintro sent received ⟨_, _, _, _, h⟩
  cases h
  rfl

end Example

-- The records of the nodes only move forward, and the terms of a record do not change.
theorem records_forward (t : c.net.Tree) (hk : Keeps c.net) (r : Run (step c) free (.new c now) as m)
    (r' : Run (step c) free m bs m') (n : NodeId) (id : SlaId) :
    Relation.ReflTransGen Forward ((m.nodes n).tracking.lookup id) ((m'.nodes n).tracking.lookup id) ∧
      ∀ record, (m.nodes n).tracking.lookup id = some record →
        ∃ record', (m'.nodes n).tracking.lookup id = some record' ∧ record'.terms = record.terms := by
  have h := exchanged_run t hk r
  obtain ⟨acts, hn⟩ := node_run (P := fun _ => True) t hk h trivial n (fun _ _ _ _ => trivial) (fun _ _ _ _ hf => hf) r'
  obtain ⟨hforward, hterms⟩ := forward_of_fresh (h.sound n).finishable (h.sound n).agreed hn
  refine ⟨hforward, fun record hr => ?_⟩
  exact Option.map_eq_some_iff.mp (hterms record.terms (by rw [FunctionTracking.terms, hr, Option.map_some]))

theorem records_forward_of_example : ∃ m m' record record',
    Run (step exampleSettings) free (.new exampleSettings fun _ => 0) askingActs m ∧
    Run (step exampleSettings) free m buyingActs m' ∧
    (m.nodes ⟨2⟩).tracking.lookup ⟨7⟩ = some record ∧ record.phase = .proposed ∧
    (m'.nodes ⟨2⟩).tracking.lookup ⟨7⟩ = some record' ∧ record'.phase = .paid ∧ record'.terms = record.terms := by
  obtain ⟨m, m', r, r', hm, hm'⟩ : ∃ m m',
      Run (step exampleSettings) free (.new exampleSettings fun _ => 0) askingActs m ∧
      Run (step exampleSettings) free m buyingActs m' ∧
      ((m.nodes ⟨2⟩).tracking.lookup ⟨7⟩).map (·.phase) = some .proposed ∧
      ((m'.nodes ⟨2⟩).tracking.lookup ⟨7⟩).map (·.phase) = some .paid := Run.of_exec_any₂ (by decide +kernel)
  obtain ⟨record, hr, hp⟩ := Option.map_eq_some_iff.mp hm
  obtain ⟨-, hforward⟩ := records_forward Network.tree_exampleNetwork keeps_exampleNetwork r r' ⟨2⟩ ⟨7⟩
  obtain ⟨record', hr', ht⟩ := hforward record hr
  rw [hr'] at hm'
  have hp' : record'.phase = .paid := Option.some.inj hm'
  exact ⟨m, m', record, record', r, r', hr, hp, hr', hp', ht⟩

-- A function is sold by one node at most, whose proposal the market has chosen.
theorem sold_to_winner (t : c.net.Tree) (hk : Keeps c.net) (r : Run (step c) free (.new c now) as m)
    (hs : Sold (m.nodes n) id) :
    (∃ bid, Offered m.sales id bid ∧ bid.nodeId = n ∧ Fair m id bid) ∧ ∀ n', Sold (m.nodes n') id → n' = n := by
  obtain ⟨x, h⟩ := consistent_run t hk r
  obtain ⟨bid, ho, hn⟩ := h.sold n id hs
  exact ⟨⟨bid, ho, hn, fair_of_offered x h ho⟩, fun n' hs' => (h.sold n' id hs').eq (h.sold n id hs)⟩

theorem sold_to_winner_of_example : ∃ m, Run (step exampleSettings) free (.new exampleSettings fun _ => 0)
      (askingActs ++ buyingActs) m ∧ Sold (m.nodes ⟨2⟩) ⟨7⟩ ∧
    (∃ bid, Offered m.sales ⟨7⟩ bid ∧ bid.nodeId = ⟨2⟩ ∧ Fair m ⟨7⟩ bid) ∧ ∀ n', Sold (m.nodes n') ⟨7⟩ → n' = ⟨2⟩ := by
  obtain ⟨m, r, hm⟩ : ∃ m, Run (step exampleSettings) free (.new exampleSettings fun _ => 0)
      (askingActs ++ buyingActs) m ∧ ((m.nodes ⟨2⟩).tracking.lookup ⟨7⟩).map (·.phase) = some .paid :=
    Run.of_exec_any (by decide +kernel)
  obtain ⟨record, hr, hp⟩ := Option.map_eq_some_iff.mp hm
  have hs : Sold (m.nodes ⟨2⟩) ⟨7⟩ := ⟨record, hr, by simp [hp]⟩
  exact ⟨m, r, hs, sold_to_winner Network.tree_exampleNetwork keeps_exampleNetwork r hs⟩

-- What the market has recorded as accepted has been sold by the node, and no SLA is accepted twice.
theorem accepted_of_sold (t : c.net.Tree) (hk : Keeps c.net) (r : Run (step c) free (.new c now) as m)
    (hb : (m.registry.acceptedBids n).lookup bidId = some bid) :
    bidId = bid.id ∧ bid.nodeId = n ∧ Sold (m.nodes n) bid.sla.id ∧ Fair m bid.sla.id bid ∧
      ∀ n' bidId' bid', (m.registry.acceptedBids n').lookup bidId' = some bid' → bid'.sla.id = bid.sla.id →
        bid' = bid := by
  obtain ⟨x, h⟩ := consistent_run t hk r
  obtain ⟨hid, hn, ho, hs⟩ := h.registry n bidId bid hb
  refine ⟨hid, hn, hs, fair_of_offered x h ho, fun n' bidId' bid' hb' hsla => ?_⟩
  obtain ⟨-, -, ho', -⟩ := h.registry n' bidId' bid' hb'
  exact ho.eq (hsla ▸ ho')

theorem accepted_of_sold_of_example : ∃ m bid, Run (step exampleSettings) free (.new exampleSettings fun _ => 0)
      (askingActs ++ buyingActs) m ∧ (m.registry.acceptedBids ⟨2⟩).lookup ⟨5⟩ = some bid ∧
    Sold (m.nodes ⟨2⟩) bid.sla.id ∧ Fair m bid.sla.id bid := by
  obtain ⟨m, r, hm⟩ : ∃ m, Run (step exampleSettings) free (.new exampleSettings fun _ => 0)
      (askingActs ++ buyingActs) m ∧ ((m.registry.acceptedBids ⟨2⟩).lookup ⟨5⟩).isSome = true :=
    Run.of_exec_any (by decide +kernel)
  obtain ⟨bid, hb⟩ := Option.isSome_iff_exists.mp hm
  obtain ⟨-, -, hs, hf, -⟩ := accepted_of_sold Network.tree_exampleNetwork keeps_exampleNetwork r hb
  exact ⟨m, bid, r, hb, hs, hf⟩

-- A function is only deployed on the node which the market knows it to be paid on.
theorem deployed_where_tracked (t : c.net.Tree) (hk : Keeps c.net) (r : Run (step c) free (.new c now) as m)
    (hd : functionName id ∈ (m.nodes n).deployed) :
    m.tracking.lookup id = some n ∧ Sold (m.nodes n) id ∧
      ∀ n', functionName id ∈ (m.nodes n').deployed → n' = n := by
  obtain ⟨-, h⟩ := consistent_run t hk r
  have htracked {n} (hd : functionName id ∈ (m.nodes n).deployed) : m.tracking.lookup id = some n := by
    obtain ⟨id', ht, hname⟩ := h.deployed n _ hd
    exact functionName_injective hname ▸ ht
  have ht := htracked hd
  exact ⟨ht, (h.tracking id n ht).2, fun n' hd' => Option.some.inj ((htracked hd').symm.trans ht)⟩

theorem deployed_where_tracked_of_example : ∃ m, Run (step exampleSettings) free (.new exampleSettings fun _ => 0)
      (askingActs ++ buyingActs ++ provisioningActs) m ∧ functionName ⟨7⟩ ∈ (m.nodes ⟨2⟩).deployed ∧
    m.tracking.lookup ⟨7⟩ = some ⟨2⟩ ∧ ∀ n', functionName ⟨7⟩ ∈ (m.nodes n').deployed → n' = ⟨2⟩ := by
  obtain ⟨m, r, hd⟩ : ∃ m, Run (step exampleSettings) free (.new exampleSettings fun _ => 0)
      (askingActs ++ buyingActs ++ provisioningActs) m ∧ functionName ⟨7⟩ ∈ (m.nodes ⟨2⟩).deployed :=
    Run.of_exec_any (by decide +kernel)
  obtain ⟨ht, -, hu⟩ := deployed_where_tracked Network.tree_exampleNetwork keeps_exampleNetwork r hd
  exact ⟨m, r, hd, ht, hu⟩

end Marketplace
