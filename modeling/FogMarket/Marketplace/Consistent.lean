import FogMarket.Marketplace.Sales

open Market Fog Transition

namespace Marketplace

variable {c : Settings} {m m' : State} {a : Act} {id : SlaId} {n : NodeId} {sale : Sale} {bid : AcceptedBid}
variable {nodes' : FogNode}
variable {ok : Bool} {p p' : FogNodeFaaS.Progress} {now : NodeId → ℤ} {bids : Map BidId AcceptedBid}
variable {said : Option (SlaId × Echo.Act NodeId BidRequest (BidProposal ℚ))}

theorem fits_ofPaying {exchanges : SlaId → Option Exchange} {offer : Option AcceptedBid} (h : offer = some bid) :
    (Progress.ofPaying bid p).Fits exchanges id offer := by
  simp only [Progress.ofPaying]
  split
  case h_2 => trivial
  all_goals exact h

namespace Consistent

theorem new : Consistent (.new c now) := by
  constructor <;> simp [State.new, Fog.State.new, Sold, Booked, FogNode.acceptedBids]

theorem fits (h : Consistent m) (hs : m.sales id = some sale) : sale.progress.Fits m.exchanges id sale.offer :=
  (h.sales id sale hs).progress

-- A paid offer has been sent.
theorem offered_of_paid (h : Consistent m) (hs : m.sales id = some sale) (hp : sale.Paid bid) :
    Offered m.sales id bid := by
  have hf := h.fits hs
  obtain ⟨p, hp⟩ | hp | hp := hp
  all_goals
    rw [hp] at hf
    exact ⟨sale, hs, hf⟩

theorem sales_step (x : Exchanged c m) (h : Consistent m) (l : Later m m') (e : Effect c m a said m') :
    ∀ id sale, m'.sales id = some sale → sale.Proper m'.exchanges id := by
  have hold id sale (hs : m.sales id = some sale) : sale.Proper m'.exchanges id := (h.sales id sale hs).mono (l.made id)
  have hfits {id sale p} (hs : m.sales id = some sale) (hp : sale.progress = p) : p.Fits m'.exchanges id sale.offer :=
    hp ▸ (hold id sale hs).progress
  cases e
  case put                          => exact of_update hold ⟨by simp, rfl⟩
  case fail hs                      => exact of_update hold ⟨(hold _ _ hs).offer, trivial⟩
  case call hs hp _                 =>
    have ho := hfits hs hp
    exact of_update hold ⟨(hold _ _ hs).offer, ho⟩
  case collect hs hp he hr          =>
    have ho := hfits hs hp
    have hc := collected_of_result x he hr
    exact of_update hold ⟨(hold _ _ hs).offer, ho, hc⟩
  case choose hs hp hc              =>
    obtain ⟨ho, hcollected⟩ := hfits hs hp
    exact of_update hold ⟨(hold _ _ hs).offer, ho, hcollected, hc⟩
  case locate hs hp hb              =>
    obtain ⟨ho, hcollected, hchosen⟩ := hfits hs hp
    obtain ⟨hbid, hprice, hproposals, hsla⟩ := hb
    refine of_update hold ⟨(hold _ _ hs).offer, ho, ?_, ?_, ?_⟩
    case refine_1 => rw [hsla, x.asked.named _ _ hs]
    case refine_2 => rwa [hbid, hprice, hproposals]
    case refine_3 => rwa [hproposals]
  case offer hs hp                  =>
    refine of_update hold ⟨fun bid hb => ?_, rfl⟩
    cases hb
    exact (hfits hs hp).2
  case receipt hs hp _ _            => exact of_update hold ⟨(hold _ _ hs).offer, fits_ofPaying (hfits hs hp)⟩
  case pay hs hp _                  => exact of_update hold ⟨(hold _ _ hs).offer, fits_ofPaying (hfits hs hp)⟩
  case save hs hp                   =>
    have ho := hfits hs hp
    exact of_update hold ⟨(hold _ _ hs).offer, ho⟩
  all_goals exact hold

theorem accepts_step (h : Consistent m) (l : Later m m') (e : Effect c m a said m') (id : SlaId) (n : NodeId)
    (ha : (id, n) ∈ m'.accepts) : Wins m'.sales id n := by
  have hold (ha : (id, n) ∈ m.accepts) : Wins m'.sales id n := l.wins (h.accepts id n ha)
  cases e
  case offer hs hp  =>
    cases Multiset.mem_cons.mp ha
    case inr ha => exact hold ha
    case inl ha =>
      obtain ⟨rfl, rfl⟩ := Prod.mk.inj ha
      exact ⟨_, ⟨_, Function.update_self .., rfl⟩, rfl⟩
  case accept       => exact hold (Multiset.mem_of_mem_erase ha)
  all_goals exact hold ha

theorem paying_step (h : Consistent m) (l : Later m m') (e : Effect c m a said m') (n : NodeId) (id : SlaId)
    (hp : (m'.nodes n).locked.bind Locked.paying = some id) : Wins m'.sales id n := by
  refine l.wins ?_
  obtain hn | ⟨fa, hs, ha⟩ := node_of_effect e n
  case inl => exact h.paying n id (hn ▸ hp)
  case inr =>
    cases Fog.paying_step hs hp
    case inl he =>
      subst he
      exact h.accepts id n ha
    case inr hp => exact h.paying n id hp

theorem sold_step (x : Exchanged c m) (h : Consistent m) (l : Later m m') (e : Effect c m a said m') (n : NodeId)
    (id : SlaId) (hp : Sold (m'.nodes n) id) : Wins m'.sales id n := by
  refine l.wins ?_
  obtain hn | ⟨fa, hs, -⟩ := node_of_effect e n
  case inl => exact h.sold n id (hn ▸ hp)
  case inr =>
    cases Fog.sold_step (x.sound n).finishable (x.answered.fresh fa).guarded hs hp
    case inl hp => exact h.sold n id hp
    case inr hp => exact h.paying n id hp

theorem receipts_step (x : Exchanged c m) (h : Consistent m) (l : Later m m') (e : Effect c m a said m')
    (id : SlaId) (ok : Bool)
    (hr : (id, ok) ∈ m'.receipts) : ∃ n, Wins m'.sales id n ∧ (ok = true → Sold (m'.nodes n) id) := by
  have hold (hr : (id, ok) ∈ m.receipts) : ∃ n, Wins m'.sales id n ∧ (ok = true → Sold (m'.nodes n) id) := by
    obtain ⟨n, hw, hs⟩ := h.receipts id ok hr
    exact ⟨n, l.wins hw, fun hok => l.sold n id (hs hok)⟩
  cases e
  case receipt      => exact hold (Multiset.mem_of_mem_erase hr)
  case node n fa s _ ha hs =>
    cases Multiset.mem_add.mp hr
    case inl hr => exact hold hr
    case inr hr =>
      -- The answer is about the function which has been paid under the lock.
      cases hans : (m.nodes n).answers s <;> simp only [hans, Option.elim_none, Option.elim_some] at hr
      case none => simp at hr
      case some =>
        cases Multiset.mem_singleton.mp hr
        refine ⟨n, l.wins (h.paying n id (paying_of_answers hans)), fun hok => l.sold n id ?_⟩
        subst hok
        exact (x.sound n).charged.sold hans
  all_goals exact hold hr

theorem tracking_mono (h : Consistent m) (e : Effect c m a said m') (ht : m.tracking.lookup id = some n) :
    m'.tracking.lookup id = some n := by
  cases e
  case save id' sale bid hs hp =>
    have ht' : (m.tracking.insert id' bid.nodeId).lookup id = some n := by
      rw [Map.lookup_insert_eq]
      split
      case isFalse    => exact ht
      case isTrue hid =>
        subst hid
        rw [(h.tracking id n ht).1.eq ⟨bid, h.offered_of_paid hs (.inr (.inl hp)), rfl⟩]
    exact ht'
  all_goals exact ht

-- Who is paid has taken the offer.
theorem paid_step (h : Consistent m) (l : Later m m') (e : Effect c m a said m') :
    ∀ id sale, m'.sales id = some sale → ∀ bid, sale.Paid bid → Sold (m'.nodes bid.nodeId) id := by
  have hold id sale (hs : m.sales id = some sale) (bid) (hp : sale.Paid bid) : Sold (m'.nodes bid.nodeId) id :=
    l.sold _ _ (h.paid id sale bid hs hp)
  have hpaying {id sale bid bid' p} (hs : Sold (m'.nodes bid.nodeId) id)
      (hp : (Sale.advance sale (.ofPaying bid p)).Paid bid') : Sold (m'.nodes bid'.nodeId) id := by
    simp only [Sale.Paid, Sale.advance, Progress.ofPaying] at hp
    split at hp <;> simp only [Progress.paying.injEq, Progress.save.injEq, reduceCtorEq, exists_false, false_or,
      or_false] at hp
    case h_1 => exact hp ▸ hs
    case h_3 =>
      obtain ⟨_, rfl, _⟩ := hp
      exact hs
  cases e
  case put | fail | call | collect | choose | locate | offer =>
    exact of_update hold fun bid hp => by simp [Sale.Paid, Sale.advance] at hp
  case receipt id sale bid ok registry p hs hp hr hpay =>
    refine of_update hold fun bid' hp' => ?_
    obtain ⟨-, -, rfl⟩ | ⟨hg, -⟩ | ⟨record, hg, -⟩ := payForFunction_cases hpay <;> try contradiction
    cases ok
    case false => simp [Sale.Paid, Sale.advance, Progress.ofPaying] at hp'
    case true  =>
      obtain ⟨n, hw, hsold⟩ := h.receipts id true hr
      have ho := h.fits hs
      rw [hp] at ho
      have hn : n = bid.nodeId := hw.eq ⟨bid, ⟨sale, hs, ho⟩, rfl⟩
      exact hpaying (l.sold _ _ (hn ▸ hsold rfl)) hp'
  case pay hs hp _ =>
    exact of_update hold fun bid' hp' => hpaying (l.sold _ _ (h.paid _ _ _ hs (.inl ⟨_, hp⟩))) hp'
  case save hs hp  =>
    have hsold := l.sold _ _ (h.paid _ _ _ hs (.inr (.inl hp)))
    refine of_update hold fun bid' hp' => ?_
    simp only [Sale.Paid, Sale.advance, Progress.accepted.injEq, reduceCtorEq, exists_false, false_or] at hp'
    exact hp' ▸ hsold
  all_goals exact hold

theorem tracking_step (h : Consistent m) (l : Later m m') (e : Effect c m a said m') (id : SlaId) (n : NodeId)
    (ht : m'.tracking.lookup id = some n) : Wins m'.sales id n ∧ Sold (m'.nodes n) id := by
  have hold (ht : m.tracking.lookup id = some n) : Wins m'.sales id n ∧ Sold (m'.nodes n) id :=
    (h.tracking id n ht).imp l.wins (l.sold _ _)
  cases e
  case save id' sale bid hs hp =>
    have hl : (m.tracking.insert id' bid.nodeId).lookup id = some n := ht
    rw [Map.lookup_insert_eq] at hl
    split at hl
    case isFalse    => exact hold hl
    case isTrue hid =>
      subst hid
      obtain rfl := Option.some.inj hl
      have hp : sale.Paid bid := .inr (.inl hp)
      exact ⟨l.wins ⟨bid, h.offered_of_paid hs hp, rfl⟩, l.sold _ _ (h.paid _ _ _ hs hp)⟩
  all_goals exact hold ht

theorem provisions_step (h : Consistent m) (e : Effect c m a said m') (id : SlaId) (n : NodeId)
    (hp : (id, n) ∈ m'.provisions) : m'.tracking.lookup id = some n := by
  refine h.tracking_mono e ?_
  cases e
  case provide ht   =>
    cases Multiset.mem_cons.mp hp
    case inl hp => exact (Prod.mk.inj hp).1 ▸ (Prod.mk.inj hp).2 ▸ ht
    case inr hp => exact h.provisions id n hp
  case provision    => exact h.provisions id n (Multiset.mem_of_mem_erase hp)
  all_goals exact h.provisions id n hp

theorem provisioning_step (h : Consistent m) (e : Effect c m a said m') (n : NodeId) (id : SlaId)
    (hp : (m'.nodes n).locked.bind Locked.provisioning = some id) : m'.tracking.lookup id = some n := by
  refine h.tracking_mono e ?_
  obtain hn | ⟨fa, hs, ha⟩ := node_of_effect e n
  case inl => exact h.provisioning n id (hn ▸ hp)
  case inr =>
    cases Fog.provisioning_step hs hp
    case inl he =>
      subst he
      exact h.provisions id n ha
    case inr hp => exact h.provisioning n id hp

theorem deployed_step (h : Consistent m) (e : Effect c m a said m') (n : NodeId) (name : String)
    (hd : name ∈ (m'.nodes n).deployed) : ∃ id, m'.tracking.lookup id = some n ∧ name = functionName id := by
  have hold (hd : name ∈ (m.nodes n).deployed) : ∃ id, m'.tracking.lookup id = some n ∧ name = functionName id := by
    obtain ⟨id, ht, hname⟩ := h.deployed n name hd
    exact ⟨id, h.tracking_mono e ht, hname⟩
  obtain hn | ⟨fa, hs, -⟩ := node_of_effect e n
  case inl => exact hold (hn ▸ hd)
  case inr =>
    cases deployed_step_of_provisioning hs hd
    case inl hd => exact hold hd
    case inr hp =>
      obtain ⟨id, hp, hname⟩ := hp
      exact ⟨id, h.tracking_mono e (h.provisioning n id hp), hname⟩

-- A bid is recorded once it has been paid.
theorem booked_insert (h : Consistent m) (hs : m.sales id = some sale) (hp : sale.Paid bid)
    (hb : Booked m.sales m.nodes bid.nodeId bids) : Booked m.sales m.nodes bid.nodeId (bids.insert bid.id bid) := by
  intro bidId bid' hl
  rw [Map.lookup_insert_eq] at hl
  split at hl
  case isFalse    => exact hb bidId bid' hl
  case isTrue hid =>
    cases hl
    have ho := h.offered_of_paid hs hp
    obtain ⟨sale', hs', ho'⟩ := ho
    have hid' : bid.sla.id = id := ((h.sales id sale' hs').offer bid ho').named
    rw [hid']
    exact ⟨hid, rfl, ⟨sale', hs', ho'⟩, h.paid id sale bid hs hp⟩

theorem booked_pay (h : Consistent m) (hs : m.sales id = some sale) (hp : sale.progress = .paying bid p)
    (hpay : FogNodeFaaS.payForFunction m.registry bid ok p = some (nodes', p')) (n : NodeId) :
    Booked m.sales m.nodes n (nodes'.acceptedBids n) := by
  obtain ⟨-, rfl, -⟩ | ⟨-, rfl, -⟩ | ⟨record, rfl, -, rfl⟩ := payForFunction_cases hpay
  case inl     => exact h.registry n
  case inr.inl => exact h.registry n
  case inr.inr =>
    rw [FogNodeFaaS.acceptedBids_update]
    split
    case isFalse   => exact h.registry n
    case isTrue hn =>
      rw [hn.1]
      exact h.booked_insert hs (.inl ⟨_, hp⟩) (h.read id sale bid record hs hp)

theorem registry_step (h : Consistent m) (l : Later m m') (e : Effect c m a said m') (n : NodeId) :
    Booked m'.sales m'.nodes n (m'.registry.acceptedBids n) := by
  have hold := l.booked (h.registry n)
  cases e
  case pay hs hp hpay => exact l.booked (h.booked_pay hs hp hpay n)
  case receipt hs hp hr hpay =>
    obtain ⟨-, hn, -⟩ | ⟨hg, -⟩ | ⟨record, hg, -⟩ := payForFunction_cases hpay <;> try contradiction
    rw [hn]
    exact hold
  case join hj        =>
    cases acceptedBids_joining hj n
    case inl he => exact he ▸ hold
    case inr he =>
      rw [he]
      intro bidId bid hb
      simp at hb
  all_goals exact hold

theorem read_step (h : Consistent m) (l : Later m m') (e : Effect c m a said m') : ∀ id sale, m'.sales id = some sale →
    ∀ bid record, sale.progress = .paying bid (.update record) →
      Booked m'.sales m'.nodes bid.nodeId record.acceptedBids := by
  have hold id sale (hs : m.sales id = some sale) (bid record) (hp : sale.progress = .paying bid (.update record)) :
      Booked m'.sales m'.nodes bid.nodeId record.acceptedBids := l.booked (h.read id sale bid record hs hp)
  cases e
  case put | fail | call | collect | choose | locate | offer | save =>
    exact of_update hold fun bid record hp => by simp [Sale.advance] at hp
  case receipt ok _ _ hs hp hr hpay =>
    obtain ⟨-, -, rfl⟩ | ⟨hg, -⟩ | ⟨record, hg, -⟩ := payForFunction_cases hpay <;> try contradiction
    refine of_update hold fun bid record hp => ?_
    cases ok <;> simp [Sale.advance, Progress.ofPaying] at hp
  case pay bid _ _ _ hs hp hpay =>
    refine of_update hold fun bid' record hp' => ?_
    obtain ⟨-, -, rfl⟩ | ⟨-, -, rfl | ⟨node, hl, rfl⟩⟩ | ⟨record', -, rfl, -⟩ := payForFunction_cases hpay
    case inl         => simp [Sale.advance, Progress.ofPaying] at hp'
    case inr.inl.inl => simp [Sale.advance, Progress.ofPaying] at hp'
    case inr.inl.inr =>
      simp only [Sale.advance, Progress.ofPaying, Progress.paying.injEq, FogNodeFaaS.Progress.update.injEq] at hp'
      obtain ⟨rfl, rfl⟩ := hp'
      have hr := l.booked (h.registry bid.nodeId)
      rwa [FogNode.acceptedBids, hl] at hr
    case inr.inr => simp [Sale.advance, Progress.ofPaying] at hp'
  all_goals exact hold

theorem step (x : Exchanged c m) (h : Consistent m) (e : Effect c m a said m') : Consistent m' :=
  have l := later_step x h.sales e
  { sales        := h.sales_step x l e
    accepts      := h.accepts_step l e
    paying       := h.paying_step l e
    sold         := h.sold_step x l e
    receipts     := h.receipts_step x l e
    paid         := fun id sale bid hs => h.paid_step l e id sale hs bid
    tracking     := h.tracking_step l e
    provisions   := h.provisions_step e
    provisioning := h.provisioning_step e
    deployed     := h.deployed_step e
    registry     := h.registry_step l e
    read         := fun id sale bid record hs => h.read_step l e id sale hs bid record }

end Consistent
end Marketplace
