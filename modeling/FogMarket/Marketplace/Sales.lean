import FogMarket.Marketplace.Exchanges

open Market Fog Transition

namespace Marketplace

-- The market has sent an offer for the SLA.
def Offered (sales : SlaId → Option Sale) (id : SlaId) (bid : AcceptedBid) : Prop :=
  ∃ sale, sales id = some sale ∧ sale.offer = some bid

def Wins (sales : SlaId → Option Sale) (id : SlaId) (n : NodeId) : Prop :=
  ∃ bid, Offered sales id bid ∧ bid.nodeId = n

-- The node itself has made the proposal.
def Made (exchanges : SlaId → Option Exchange) (id : SlaId) (p : BidProposal ℚ) : Prop :=
  ∃ e, exchanges id = some e ∧ (p.nodeId, some p) ∈ e.made

-- What an auction can choose from.
structure Collected (exchanges : SlaId → Option Exchange) (id : SlaId) (proposals : List (BidProposal ℚ)) : Prop where
  made     : ∀ p ∈ proposals, Made exchanges id p
  distinct : (proposals.map (·.nodeId)).Nodup

-- What an auction may come to.
structure Proper (exchanges : SlaId → Option Exchange) (id : SlaId) (bid : AcceptedBid) : Prop where
  named     : bid.sla.id = id
  chosen    : Chosen bid.proposals.bids bid.chosen.bid bid.chosen.price
  collected : Collected exchanges id bid.proposals.bids

-- How far an auction is, and which offer it has sent.
def Progress.Fits (exchanges : SlaId → Option Exchange) (id : SlaId) (offer : Option AcceptedBid) : Progress → Prop
  | .callForBids | .bidding   => offer = none
  | .auction proposals        => offer = none ∧ Collected exchanges id proposals
  | .getNode proposals chosen =>
    offer = none ∧ Collected exchanges id proposals ∧ Chosen proposals chosen.bid chosen.price
  | .takeOffer bid            => offer = none ∧ Proper exchanges id bid
  | .offered bid | .paying bid _ | .save bid | .accepted bid => offer = some bid
  | .failed                   => True

structure Sale.Proper (exchanges : SlaId → Option Exchange) (id : SlaId) (sale : Sale) : Prop where
  offer    : ∀ bid, sale.offer = some bid → Marketplace.Proper exchanges id bid
  progress : sale.progress.Fits exchanges id sale.offer

-- The winning node has taken the offer.
def Sale.Paid (sale : Sale) (bid : AcceptedBid) : Prop :=
  (∃ p, sale.progress = .paying bid p) ∨ sale.progress = .save bid ∨ sale.progress = .accepted bid

-- What has been recorded as accepted from a node has been paid there.
def Booked (sales : SlaId → Option Sale) (nodes : NodeId → Fog.State) (n : NodeId) (bids : Map BidId AcceptedBid) :
    Prop :=
  ∀ bidId bid, bids.lookup bidId = some bid →
    bidId = bid.id ∧ bid.nodeId = n ∧ Offered sales bid.sla.id bid ∧ Sold (nodes n) bid.sla.id

-- What is on its way or has been recorded for an SLA concerns the winning node.
structure Consistent (m : State) : Prop where
  sales        : ∀ id sale, m.sales id = some sale → sale.Proper m.exchanges id
  accepts      : ∀ id n, (id, n) ∈ m.accepts → Wins m.sales id n
  paying       : ∀ n id, (m.nodes n).locked.bind Locked.paying = some id → Wins m.sales id n
  sold         : ∀ n id, Sold (m.nodes n) id → Wins m.sales id n
  receipts     : ∀ id ok, (id, ok) ∈ m.receipts → ∃ n, Wins m.sales id n ∧ (ok = true → Sold (m.nodes n) id)
  paid         : ∀ id sale bid, m.sales id = some sale → sale.Paid bid → Sold (m.nodes bid.nodeId) id
  tracking     : ∀ id n, m.tracking.lookup id = some n → Wins m.sales id n ∧ Sold (m.nodes n) id
  provisions   : ∀ id n, (id, n) ∈ m.provisions → m.tracking.lookup id = some n
  provisioning : ∀ n id, (m.nodes n).locked.bind Locked.provisioning = some id → m.tracking.lookup id = some n
  deployed     : ∀ n name, name ∈ (m.nodes n).deployed → ∃ id, m.tracking.lookup id = some n ∧ name = functionName id
  registry     : ∀ n, Booked m.sales m.nodes n (m.registry.acceptedBids n)
  read         : ∀ id sale bid record, m.sales id = some sale → sale.progress = .paying bid (.update record) →
    Booked m.sales m.nodes bid.nodeId record.acceptedBids

-- What is not taken back.
structure Later (m m' : State) : Prop where
  offered : ∀ id bid, Offered m.sales id bid → Offered m'.sales id bid
  sold    : ∀ n id, Sold (m.nodes n) id → Sold (m'.nodes n) id
  made    : ∀ id p, Made m.exchanges id p → Made m'.exchanges id p

variable {c : Settings} {m m' : State} {a : Act} {id : SlaId} {n : NodeId} {sale : Sale} {bid : AcceptedBid}
variable {e e' : Exchange}
variable {nodes nodes' : FogNode} {ok : Bool} {p p' : FogNodeFaaS.Progress} {now : NodeId → ℤ}
variable {act : Echo.Act NodeId BidRequest (BidProposal ℚ)} {bids : Map BidId AcceptedBid}
variable {said : Option (SlaId × Echo.Act NodeId BidRequest (BidProposal ℚ))}

theorem Wins.eq {n' : NodeId} (h : Wins m.sales id n) (h' : Wins m.sales id n') : n = n' := by
  obtain ⟨_, ⟨_, hs, ho⟩, rfl⟩ := h
  obtain ⟨_, ⟨_, hs', ho'⟩, rfl⟩ := h'
  cases hs.symm.trans hs'
  cases ho.symm.trans ho'
  rfl

section Mono

theorem Later.wins (h : Later m m') (hw : Wins m.sales id n) : Wins m'.sales id n := by
  obtain ⟨bid, ho, hn⟩ := hw
  exact ⟨bid, h.offered _ _ ho, hn⟩

theorem Later.booked (h : Later m m') (hb : Booked m.sales m.nodes n bids) : Booked m'.sales m'.nodes n bids := by
  intro bidId bid hl
  obtain ⟨hid, hn, ho, hs⟩ := hb bidId bid hl
  exact ⟨hid, hn, h.offered _ _ ho, h.sold _ _ hs⟩

variable {exchanges exchanges' : SlaId → Option Exchange} {proposals : List (BidProposal ℚ)}

theorem Collected.mono (hm : ∀ p, Made exchanges id p → Made exchanges' id p) (h : Collected exchanges id proposals) :
    Collected exchanges' id proposals :=
  ⟨fun p hp => hm p (h.made p hp), h.distinct⟩

theorem Proper.mono (hm : ∀ p, Made exchanges id p → Made exchanges' id p) (h : Proper exchanges id bid) :
    Proper exchanges' id bid :=
  ⟨h.named, h.chosen, h.collected.mono hm⟩

theorem Progress.Fits.mono {offer : Option AcceptedBid} {p : Progress}
    (hm : ∀ p, Made exchanges id p → Made exchanges' id p) (h : p.Fits exchanges id offer) :
    p.Fits exchanges' id offer := by
  cases p
  case auction   => exact ⟨h.1, h.2.mono hm⟩
  case getNode   => exact ⟨h.1, h.2.1.mono hm, h.2.2⟩
  case takeOffer => exact ⟨h.1, h.2.mono hm⟩
  all_goals exact h

theorem Sale.Proper.mono (hm : ∀ p, Made exchanges id p → Made exchanges' id p) (h : sale.Proper exchanges id) :
    sale.Proper exchanges' id where
  offer bid ho := (h.offer bid ho).mono hm
  progress     := h.progress.mono hm

end Mono

-- An offer stays as it is while a sale goes on.
theorem Offered.setSale {sale' : Sale} {x : SlaId} (hs : m.sales id = some sale)
    (ho : ∀ bid, sale.offer = some bid → sale'.offer = some bid) (h : Offered m.sales x bid) :
    Offered (Function.update m.sales id (some sale')) x bid := by
  obtain ⟨sale₂, hs₂, ho₂⟩ := h
  by_cases hx : x = id
  case pos =>
    subst hx
    cases hs.symm.trans hs₂
    exact ⟨sale', Function.update_self .., ho bid ho₂⟩
  case neg => exact ⟨sale₂, by rwa [Function.update_of_ne hx], ho₂⟩

theorem Offered.put {sale' : Sale} {x : SlaId} (hs : m.sales id = none) (h : Offered m.sales x bid) :
    Offered (Function.update m.sales id (some sale')) x bid := by
  obtain ⟨sale₂, hs₂, ho₂⟩ := h
  refine ⟨sale₂, ?_, ho₂⟩
  rwa [Function.update_of_ne]
  rintro rfl
  simp [hs] at hs₂

theorem Made.setExchange {x : SlaId} {p : BidProposal ℚ} (he : ∀ e, m.exchanges id = some e → ∀ x ∈ e.made, x ∈ e'.made)
    (h : Made m.exchanges x p) : Made (Function.update m.exchanges id (some e')) x p := by
  obtain ⟨e₂, he₂, hm⟩ := h
  by_cases hx : x = id
  case pos =>
    subst hx
    exact ⟨e', Function.update_self .., he e₂ he₂ _ hm⟩
  case neg => exact ⟨e₂, by rwa [Function.update_of_ne hx], hm⟩

theorem made_subset (he : m.exchanges id = some e) (hs : e.step c.net.contacts act = some e') (e₂ : Exchange)
    (he₂ : m.exchanges id = some e₂) : ∀ x ∈ e₂.made, x ∈ e'.made := by
  cases he.symm.trans he₂
  obtain hm | ⟨t, b, -, hm⟩ := Echo.made_step hs
  case inl => exact fun x hx => hm ▸ hx
  case inr => exact fun x hx => hm ▸ Multiset.mem_cons_of_mem hx

theorem later_step (h : Exchanged c m) (hp : ∀ id sale, m.sales id = some sale → sale.Proper m.exchanges id)
    (e : Effect c m a said m') : Later m m' where
  sold    := by
    intro n id hs
    obtain hn | ⟨fa, ha, -⟩ := node_of_effect e n
    case inl => rwa [hn]
    case inr => exact hs.step (h.sound n).finishable (h.answered.fresh fa).guarded ha
  offered := by
    intro id bid ho
    cases e
    case put hs          => exact ho.put hs
    case fail hs         => exact ho.setSale hs fun _ h => h
    case call hs _ _     => exact ho.setSale hs fun _ h => h
    case collect hs _ _ _ => exact ho.setSale hs fun _ h => h
    case choose hs _ _   => exact ho.setSale hs fun _ h => h
    case locate hs _ _   => exact ho.setSale hs fun _ h => h
    case offer hs hp'    =>
      -- There has been no offer before.
      refine ho.setSale hs fun bid hb => ?_
      have hfits := (hp _ _ hs).progress
      rw [hp'] at hfits
      simp [hfits.1] at hb
    case receipt hs _ _ _ => exact ho.setSale hs fun _ h => h
    case pay hs _ _      => exact ho.setSale hs fun _ h => h
    case save hs _       => exact ho.setSale hs fun _ h => h
    all_goals exact ho
  made    := by
    intro id p hm
    cases e
    case call hs hp' _  => exact hm.setExchange fun _ he => by simp [h.asked.called _ _ hs hp'] at he
    case follow he hs _ => exact hm.setExchange (made_subset he hs)
    case exchange he _ hs => exact hm.setExchange (made_subset he hs)
    case begin he hs _  => exact hm.setExchange (made_subset he hs)
    case contribute he hs => exact hm.setExchange (made_subset he hs)
    all_goals exact hm

theorem map_filterMap_le {ν β : Type*} {f : β → ν} {s : Multiset (ν × Option β)}
    (h : ∀ n p, (n, some p) ∈ s → f p = n) : (s.filterMap Prod.snd).map f ≤ s.map Prod.fst := by
  induction s using Multiset.induction
  case empty => simp
  case cons x s hi =>
    have hi := hi fun n p hp => h n p (Multiset.mem_cons_of_mem hp)
    obtain ⟨n, b⟩ := x
    cases b
    case none   => simpa using hi.trans (Multiset.le_cons_self ..)
    case some p => simpa [h n p (Multiset.mem_cons_self ..)] using Multiset.cons_le_cons n hi

-- The answer which the market gets consists of proposals of different nodes.
theorem collected_of_result {bids : List (BidProposal ℚ)} (h : Exchanged c m) (he : m.exchanges id = some e)
    (hr : e.result = some (bids : Multiset (BidProposal ℚ))) : Collected m.exchanges id bids := by
  obtain ⟨sale, -, ho⟩ := h.asked.once id e he
  have hle : (bids : Multiset (BidProposal ℚ)) ≤ e.contributed := by
    refine le_trans ?_ (h.asked.found id e he)
    simp [Echo.State.found, hr]
  constructor
  case made =>
    intro p hp
    obtain ⟨⟨n, b⟩, hm, hb⟩ := (Multiset.mem_filterMap ..).mp (Multiset.mem_of_le hle (Multiset.mem_coe.mpr hp))
    cases hb
    obtain ⟨hn, -⟩ := h.answered.made id e n p he hm
    exact ⟨e, he, hn ▸ hm⟩
  case distinct =>
    have hm : (e.contributed.map (·.nodeId)) ≤ e.made.map Prod.fst :=
      map_filterMap_le fun n p hp => (h.answered.made id e n p he hp).1
    have hsent := (Multiset.le_add_left ..).trans ho.pending
    refine Multiset.coe_nodup.mp (Multiset.nodup_of_le ?_ (Multiset.coe_nodup.mpr ho.spread.nodup))
    exact (Multiset.map_le_map hle).trans (hm.trans hsent)

-- What a step of `pay_for_function` does.
theorem payForFunction_cases (h : FogNodeFaaS.payForFunction nodes bid ok p = some (nodes', p')) :
    (p = .takeOffer ∧ nodes' = nodes ∧ p' = if ok then .get else .done false) ∨
    (p = .get ∧ nodes' = nodes ∧
      (p' = .done false ∨ ∃ node, nodes.lookup bid.nodeId = some node ∧ p' = .update node.data)) ∨
    ∃ record, p = .update record ∧ p' = .done true ∧
      nodes' = nodes.update bid.nodeId { record with acceptedBids := record.acceptedBids.insert bid.id bid } := by
  cases p <;> simp only [FogNodeFaaS.payForFunction] at h
  case takeOffer =>
    cases h
    exact .inl ⟨rfl, rfl, rfl⟩
  case get =>
    split at h <;> cases h
    case h_1         => exact .inr (.inl ⟨rfl, rfl, .inl rfl⟩)
    case h_2 node hl => exact .inr (.inl ⟨rfl, rfl, .inr ⟨node, hl, rfl⟩⟩)
  case update record =>
    cases h
    exact .inr (.inr ⟨record, rfl, rfl, rfl⟩)
  case done => contradiction

theorem acceptedBids_insert {x : NodeId} {node : Node NodeRecord} : FogNode.acceptedBids (nodes.insert x node) n =
    if n = x then node.data.acceptedBids else nodes.acceptedBids n := by
  simp only [FogNode.acceptedBids, Map.lookup_insert_eq]
  split <;> rfl

theorem acceptedBids_erase {x : NodeId} : FogNode.acceptedBids (nodes.erase x) n =
    if n = x then ∅ else nodes.acceptedBids n := by
  split
  case isTrue hn  => rw [hn, FogNode.acceptedBids, Finmap.lookup_erase]; rfl
  case isFalse hn => rw [FogNode.acceptedBids, Finmap.lookup_erase_ne hn]; rfl

-- A registration does not touch what has been accepted from a node, or it replaces or removes its record.
theorem acceptedBids_advance {r : FogNode.Registration} {q q' : FogNode.Progress}
    (h : nodes.advance r q = some (nodes', q')) (n : NodeId) :
    nodes'.acceptedBids n = nodes.acceptedBids n ∨ nodes'.acceptedBids n = ∅ := by
  have hset {node : Node NodeRecord} {children : List NodeId} (hl : nodes.lookup r.parent = some node) :
      FogNode.acceptedBids (nodes.insert r.parent { node with children := children }) n = nodes.acceptedBids n := by
    rw [acceptedBids_insert]
    split
    case isTrue hn => rw [hn, FogNode.acceptedBids, hl]; rfl
    case isFalse   => rfl
  cases q
  case pop stack =>
    cases stack <;> simp only [FogNode.advance] at h <;> (repeat' split at h) <;> cases h <;> exact .inl rfl
  case contains id rest children stack =>
    cases rest <;> simp only [FogNode.advance] at h <;> (repeat' split at h) <;> cases h <;> exact .inl rfl
  case parents id rest children stack =>
    cases rest <;> simp only [FogNode.advance] at h <;> (repeat' split at h) <;> cases h <;> exact .inl rfl
  case push =>
    simp only [FogNode.advance] at h
    split at h <;> cases h
    case h_1    => exact .inl rfl
    case h_2 hl => exact .inl (hset hl)
  case insert =>
    cases h
    rw [acceptedBids_insert]
    split
    case isTrue  => exact .inr rfl
    case isFalse => exact .inl rfl
  case remove e pos =>
    simp only [FogNode.advance] at h
    split at h
    case h_1 => cases h; exact .inl rfl
    case h_2 hl =>
      split at h <;> cases h
      case isTrue  => exact .inl (hset hl)
      case isFalse => exact .inl rfl
  case forget e =>
    cases h
    rw [acceptedBids_erase]
    split
    case isTrue  => exact .inr rfl
    case isFalse => exact .inl rfl
  case roots | position | done =>
    simp only [FogNode.advance] at h
    repeat' split at h
    all_goals cases h; try exact .inl rfl

theorem acceptedBids_joining {j j' : FogNode.Joining} (h : j.advance nodes = some (nodes', j')) (n : NodeId) :
    nodes'.acceptedBids n = nodes.acceptedBids n ∨ nodes'.acceptedBids n = ∅ := by
  obtain ⟨⟨nodes₂, q⟩, hj, he⟩ := Option.map_eq_some_iff.mp h
  cases he
  split at hj
  case isFalse => exact acceptedBids_advance hj n
  case isTrue  =>
    simp only [FogNode.advanceRoot] at hj
    split at hj
    case h_3 => exact acceptedBids_advance hj n
    all_goals
      cases hj
      first | rw [acceptedBids_insert] | rw [acceptedBids_erase]
      split
      case isTrue  => exact .inr rfl
      case isFalse => exact .inl rfl

end Marketplace
