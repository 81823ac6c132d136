import FogMarket.Marketplace.Basic

open Market Fog Transition

namespace Marketplace

-- An SLA arrives when it is sent from one node to another.
def Sent (net : Network) (sent received : Sla) : Prop :=
  ∃ v w acc acc', net.exchange v w (sent, acc) = some (received, acc')

-- The ids of SLAs survive being sent.
def Keeps (net : Network) : Prop :=
  ∀ sent received, Sent net sent received → received.id = sent.id

-- What is said about an SLA is still true of the one which arrives.
def Preserves (net : Network) (P : Sla → Prop) : Prop :=
  ∀ sent received, Sent net sent received → P sent → P received

-- The winner has made a proposal, and is paid what somebody has asked for, which is not less than its own bid.
structure Chosen (proposals : List (BidProposal ℚ)) (chosen : BidProposal ℚ) (price : ℚ) : Prop where
  mem   : chosen ∈ proposals
  asked : ∃ p ∈ proposals, p.bid = price
  least : ∀ p ∈ proposals, chosen.bid ≤ p.bid

theorem Chosen.le {proposals : List (BidProposal ℚ)} {chosen : BidProposal ℚ} {price : ℚ}
    (h : Chosen proposals chosen price) : chosen.bid ≤ price := by
  obtain ⟨p, hp, rfl⟩ := h.asked
  exact h.least p hp

-- What is spoken in an exchange as the market acts.
def Act.spoken (c : Settings) (m : State) : Act → Option (SlaId × Echo.Act NodeId BidRequest (BidProposal ℚ))
  | .follow id t w latency =>
    match c.net.follow latency t.node w t.content with
    | none         => some (id, .skip t w)
    | some request => some (id, .ask t w request)
  | .exchange id a => some (id, a)
  | .begin id t    => some (id, .begin t)
  | .bidding n i bidId t =>
    (m.nodes n).bids[i]?.bind fun b =>
      ((m.nodes n).returns (c.configs n) i b).map fun out => (b.sla.id, contribution n bidId t out)
  | _ => none

-- What a step can do to the market and the nodes, and what is spoken meanwhile.
inductive Effect (c : Settings) (m : State) (a : Act) :
    Option (SlaId × Echo.Act NodeId BidRequest (BidProposal ℚ)) → State → Prop
  | put {sla target} (ha : a = .put sla target) (h : m.sales sla.id = none) :
      Effect c m a none (m.setSale sla.id { sla := sla, target := target, offer := none, progress := .callForBids })
  | fail {id sale} (h : m.sales id = some sale) : Effect c m a none (m.setSale id (sale.advance .failed))
  | call {id sale request} (h : m.sales id = some sale) (hp : sale.progress = .callForBids)
      (hr : Sent c.net sale.sla request.sla) :
      Effect c m a none ((m.setExchange id (.start sale.target request)).setSale id (sale.advance .bidding))
  | collect {id sale e} {bids : List (BidProposal ℚ)} (h : m.sales id = some sale) (hp : sale.progress = .bidding)
      (he : m.exchanges id = some e) (hr : e.result = some (bids : Multiset (BidProposal ℚ))) :
      Effect c m a none (m.setSale id (sale.advance (.auction bids)))
  | choose {id sale proposals} {chosen : ChosenBid ℚ} (h : m.sales id = some sale)
      (hp : sale.progress = .auction proposals) (hc : Chosen proposals chosen.bid chosen.price) :
      Effect c m a none (m.setSale id (sale.advance (.getNode proposals chosen)))
  | locate {id sale proposals chosen bid} (h : m.sales id = some sale) (hp : sale.progress = .getNode proposals chosen)
      (hb : bid.chosen.bid = chosen.bid ∧ bid.chosen.price = chosen.price ∧ bid.proposals.bids = proposals ∧
        bid.sla = sale.sla) :
      Effect c m a none (m.setSale id (sale.advance (.takeOffer bid)))
  | offer {id sale bid} (h : m.sales id = some sale) (hp : sale.progress = .takeOffer bid) :
      Effect c m a none ({ m with accepts := (id, bid.nodeId) ::ₘ m.accepts }.setSale id
        { sale.advance (.offered bid) with offer := some bid })
  | receipt {id sale bid ok registry p} (h : m.sales id = some sale) (hp : sale.progress = .offered bid)
      (hr : (id, ok) ∈ m.receipts)
      (hpay : FogNodeFaaS.payForFunction m.registry bid ok .takeOffer = some (registry, p)) :
      Effect c m a none ({ m with registry := registry, receipts := m.receipts.erase (id, ok) }.setSale id
        (sale.advance (.ofPaying bid p)))
  | pay {id sale bid p registry p'} (h : m.sales id = some sale) (hp : sale.progress = .paying bid p)
      (hpay : FogNodeFaaS.payForFunction m.registry bid true p = some (registry, p')) :
      Effect c m a none ({ m with registry := registry }.setSale id (sale.advance (.ofPaying bid p')))
  | save {id sale bid} (h : m.sales id = some sale) (hp : sale.progress = .save bid) :
      Effect c m a none
        ({ m with tracking := m.tracking.insert id bid.nodeId }.setSale id (sale.advance (.accepted bid)))
  | provide {id n} (h : m.tracking.lookup id = some n) :
      Effect c m a none { m with provisions := (id, n) ::ₘ m.provisions }
  | register {joining : List FogNode.Joining} : Effect c m a none { m with joining := joining }
  | join {j j' : FogNode.Joining} {registry joining} (h : j.advance m.registry = some (registry, j')) :
      Effect c m a none { m with registry := registry, joining := joining }
  | follow {id e e' t w request} (he : m.exchanges id = some e)
      (hs : e.step c.net.contacts (.ask t w request) = some e') (hr : Sent c.net t.content.sla request.sla) :
      Effect c m a (some (id, .ask t w request)) (m.setExchange id e')
  | exchange {id e e' act} (he : m.exchanges id = some e) (ha : Exchanges act ∨ ∃ t w, act = .skip t w)
      (hs : e.step c.net.contacts act = some e') : Effect c m a (some (id, act)) (m.setExchange id e')
  | begin {id e e' t s} (he : m.exchanges id = some e) (hs : e.step c.net.contacts (.begin t) = some e')
      (hn : Fog.step (c.configs t.node) (m.nodes t.node) (.bid t.content.sla) = some s) :
      Effect c m a (some (id, .begin t)) ((m.setExchange id e').setNode t.node s)
  | bid {n i b} (hb : (m.nodes n).bids[i]? = some b) (hr : (m.nodes n).returns (c.configs n) i b = none) :
      Effect c m a none (m.setNode n (advanceBid (c.configs n) (m.nodes n) i b))
  | contribute {n i b bidId t out e e'} (hb : (m.nodes n).bids[i]? = some b)
      (hr : (m.nodes n).returns (c.configs n) i b = some out) (ht : t.node = n) (he : m.exchanges b.sla.id = some e)
      (hs : e.step c.net.contacts (contribution n bidId t out) = some e') :
      Effect c m a (some (b.sla.id, contribution n bidId t out))
        ((m.setExchange b.sla.id e').setNode n (advanceBid (c.configs n) (m.nodes n) i b))
  | accept {id n s} (h : (id, n) ∈ m.accepts) (hn : Fog.step (c.configs n) (m.nodes n) (.pay id) = some s) :
      Effect c m a none ({ m with accepts := m.accepts.erase (id, n) }.setNode n s)
  | node {n fa s} (h : a = .node n fa) (ha : Internal fa) (hn : Fog.step (c.configs n) (m.nodes n) fa = some s) :
      Effect c m a none ({ m with receipts := m.receipts + ((m.nodes n).answers s).elim 0 ({·}) }.setNode n s)
  | provision {id n s} (h : (id, n) ∈ m.provisions) (hn : Fog.step (c.configs n) (m.nodes n) (.provision id) = some s) :
      Effect c m a none ({ m with provisions := m.provisions.erase (id, n) }.setNode n s)

variable {c : Settings} {m m' : State} {a : Act} {id : SlaId} {n : NodeId}

theorem chosen_of_auction {proposals : List (BidProposal ℚ)} {s : Auction.SortUnstable proposals} {chosen : ChosenBid ℚ}
    (h : Auction.auction s = some chosen) : Chosen proposals chosen.bid chosen.price := by
  obtain ⟨rest, hp, hs, hr⟩ := Auction.chosen_spec h
  rw [List.pairwise_cons] at hs
  constructor
  case mem   => exact hp.mem_iff.mpr List.mem_cons_self
  case least =>
    intro p hm
    cases List.mem_cons.mp (hp.mem_iff.mp hm)
    case inl he => rw [he]
    case inr hm => exact hs.1 p hm
  case asked =>
    rw [hr]
    cases rest
    case nil              => exact ⟨chosen.bid, hp.mem_iff.mpr List.mem_cons_self, rfl⟩
    case cons second rest => exact ⟨second, hp.mem_iff.mpr (by simp), rfl⟩

theorem sent_of_follow {net : Network} {latency : Option Latency} {v w : NodeId} {request received : BidRequest}
    (h : net.follow latency v w request = some received) : Sent net request.sla received.sla := by
  simp only [Network.follow, bind, Option.bind_eq_some_iff] at h
  obtain ⟨_, _, _, _, _, _, h⟩ := h
  split at h
  case isTrue  => contradiction
  case isFalse =>
    simp only [Option.bind_eq_some_iff] at h
    obtain ⟨_, he, h⟩ := h
    cases h
    exact ⟨_, _, _, _, he⟩

theorem effect_of_sell {sale : Sale} (h : m.sales id = some sale)
    (e : advanceSale c m id sale = some m') : Effect c m a none m' := by
  cases hp : sale.progress <;> simp only [advanceSale, hp] at e
  case callForBids =>
    split at e <;> cases e
    case h_1 hr => exact .call h hp ⟨_, _, _, _, hr⟩
    case h_2    => exact .fail h
  case getNode proposals chosen =>
    split at e <;> cases e
    case h_1 => exact .fail h
    case h_2 => exact .locate h hp ⟨rfl, rfl, rfl, rfl⟩
  case takeOffer bid =>
    split at e <;> cases e
    case h_1 => exact .fail h
    case h_2 => exact .offer h hp
  case paying bid p =>
    obtain ⟨⟨registry, p'⟩, hpay, e⟩ := Option.map_eq_some_iff.mp e
    cases e
    exact .pay h hp hpay
  case save bid =>
    cases e
    exact .save h hp
  all_goals contradiction

theorem effect_of_exchange {e : Echo.Act NodeId BidRequest (BidProposal ℚ)} (he : stepExchange c m id e = some m') :
    ∃ s s', m.exchanges id = some s ∧ s.step c.net.contacts e = some s' ∧ m' = m.setExchange id s' := by
  obtain ⟨s, hs, he⟩ := Option.bind_eq_some_iff.mp he
  obtain ⟨s', hs', rfl⟩ := Option.map_eq_some_iff.mp he
  exact ⟨s, s', hs, hs', rfl⟩

theorem effect_of_node {e : Fog.Act} (he : stepNode c m n e = some m') :
    ∃ s, Fog.step (c.configs n) (m.nodes n) e = some s ∧ m' = m.setNode n s := by
  obtain ⟨s, hs, rfl⟩ := Option.map_eq_some_iff.mp he
  exact ⟨s, hs, rfl⟩

theorem effect_of_bidding {i : ℕ} {bidId : BidId} {t : Task} (e : step c m (.bidding n i bidId t) = some m') :
    Effect c m (.bidding n i bidId t) ((Act.bidding n i bidId t).spoken c m) m' := by
  obtain ⟨b, hb, e⟩ := Option.bind_eq_some_iff.mp e
  have hstep : Fog.step (c.configs n) (m.nodes n) (.bidding i) = some (advanceBid (c.configs n) (m.nodes n) i b) := by
    simp [Fog.step, hb]
  split at e
  case h_1 hr =>
    obtain ⟨s, hs, rfl⟩ := effect_of_node e
    cases hstep.symm.trans hs
    simp only [Act.spoken, hb, Option.bind_some, hr, Option.map_none]
    exact .bid hb hr
  case h_2 out hr =>
    split at e
    case isFalse   => contradiction
    case isTrue ht =>
      obtain ⟨m₁, e₁, e⟩ := Option.bind_eq_some_iff.mp e
      obtain ⟨s, s', hs, hs', rfl⟩ := effect_of_exchange e₁
      obtain ⟨s₂, hs₂, rfl⟩ := effect_of_node e
      cases hstep.symm.trans hs₂
      simp only [Act.spoken, hb, Option.bind_some, hr, Option.map_some]
      exact .contribute hb hr ht hs hs'

theorem effect_of_proposals {bids : List (BidProposal ℚ)} (e : step c m (.proposals id bids) = some m') :
    Effect c m (.proposals id bids) none m' := by
  simp only [step] at e
  split at e <;> try contradiction
  split at e <;> try contradiction
  case h_1 sale e' h he _ hp =>
    split at e <;> cases e
    case isTrue hr => exact .collect h hp he hr

theorem effect_of_choose {refs : List (BidProposal ℚ × ℕ)} (e : step c m (.choose id refs) = some m') :
    Effect c m (.choose id refs) none m' := by
  obtain ⟨sale, h, e⟩ := Option.bind_eq_some_iff.mp e
  split at e <;> try contradiction
  case h_1 proposals hp =>
    obtain ⟨p, hc, rfl⟩ := Option.map_eq_some_iff.mp e
    simp only [Marketplace.choose] at hc
    split at hc
    case isFalse   => contradiction
    case isTrue hr =>
      cases ha : Auction.auction ⟨refs, hr.1, hr.2⟩ <;> simp only [ha] at hc <;> cases hc
      case none => exact .fail h
      case some => exact .choose h hp (chosen_of_auction ha)

theorem effect_of_receipt {ok : Bool} (e : step c m (.receipt id ok) = some m') :
    Effect c m (.receipt id ok) none m' := by
  obtain ⟨sale, h, e⟩ := Option.bind_eq_some_iff.mp e
  split at e <;> try contradiction
  case h_1 bid hp =>
    split at e
    case isFalse   => contradiction
    case isTrue hr =>
      obtain ⟨⟨registry, p⟩, hpay, rfl⟩ := Option.map_eq_some_iff.mp e
      exact .receipt h hp hr hpay

-- A node passes a request on, or finds that it is not feasible to do so.
theorem effect_of_follow {t : Task} {w : NodeId} {latency : Option Latency}
    (e : step c m (.follow id t w latency) = some m') :
    Effect c m (.follow id t w latency) ((Act.follow id t w latency).spoken c m) m' := by
  simp only [step] at e
  split at e
  case h_1 hr =>
    obtain ⟨s, s', hs, hs', rfl⟩ := effect_of_exchange e
    simp only [Act.spoken, hr]
    exact .exchange hs (.inr ⟨_, _, rfl⟩) hs'
  case h_2 request hr =>
    obtain ⟨s, s', hs, hs', rfl⟩ := effect_of_exchange e
    simp only [Act.spoken, hr]
    exact .follow hs hs' (sent_of_follow hr)

theorem effect_of_begin {t : Task} (e : step c m (.begin id t) = some m') :
    Effect c m (.begin id t) (some (id, .begin t)) m' := by
  obtain ⟨m₁, e₁, e⟩ := Option.bind_eq_some_iff.mp e
  obtain ⟨s, s', hs, hs', rfl⟩ := effect_of_exchange e₁
  obtain ⟨s₂, hs₂, rfl⟩ := effect_of_node e
  exact .begin hs hs' hs₂

theorem effect_of_provide (e : step c m (.provide id) = some m') : Effect c m (.provide id) none m' := by
  simp only [step] at e
  split at e <;> try contradiction
  case h_2 n hn =>
    split at e <;> cases e
    exact .provide hn

theorem effect_of_step (e : step c m a = some m') : Effect c m a (a.spoken c m) m' := by
  cases a
  case put =>
    simp only [step] at e
    split at e <;> cases e
    case h_2 h => exact .put rfl h
  case sell id =>
    obtain ⟨sale, h, e⟩ := Option.bind_eq_some_iff.mp e
    exact effect_of_sell h e
  case proposals => exact effect_of_proposals e
  case choose    => exact effect_of_choose e
  case receipt   => exact effect_of_receipt e
  case follow    => exact effect_of_follow e
  case begin     => exact effect_of_begin e
  case bidding   => exact effect_of_bidding e
  case provide   => exact effect_of_provide e
  case lose id =>
    obtain ⟨sale, h, e⟩ := Option.bind_eq_some_iff.mp e
    split at e <;> cases e <;> exact .fail h
  case exchange id a =>
    simp only [step] at e
    split at e
    case isFalse   => contradiction
    case isTrue ha =>
      obtain ⟨s, s', hs, hs', rfl⟩ := effect_of_exchange e
      exact .exchange hs (.inl ha) hs'
  case accept id n =>
    simp only [step] at e
    split at e
    case isFalse  => contradiction
    case isTrue h =>
      obtain ⟨s, hs, rfl⟩ := effect_of_node e
      exact .accept h hs
  case node n a =>
    simp only [step] at e
    split at e
    case isFalse   => contradiction
    case isTrue ha =>
      obtain ⟨s, hs, rfl⟩ := Option.map_eq_some_iff.mp e
      exact .node rfl ha hs
  case provision id n =>
    simp only [step] at e
    split at e
    case isFalse  => contradiction
    case isTrue h =>
      obtain ⟨s, hs, rfl⟩ := effect_of_node e
      exact .provision h hs
  case register root r =>
    cases e
    exact .register
  case join i =>
    obtain ⟨j, -, e⟩ := Option.bind_eq_some_iff.mp e
    obtain ⟨⟨registry, j'⟩, h, rfl⟩ := Option.map_eq_some_iff.mp e
    exact .join h

end Marketplace
