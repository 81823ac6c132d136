import FogMarket.Library.Echo.Progress
import FogMarket.Marketplace.Agreement

open Market Fog Transition

namespace Marketplace

-- Nothing of what is said about an SLA gets lost, and no call of `bid_on` for it fails.
def Lossless (c : Settings) (id : SlaId) (m : State) (a : Act) : Prop :=
  ∀ act, a.spoken c m = some (id, act) → ¬ act.Fault

instance (c : Settings) (id : SlaId) (m : State) (a : Act) : Decidable (Lossless c id m a) :=
  decidable_of_iff (∀ x ∈ a.spoken c m, x.1 = id → ¬ x.2.Fault)
    ⟨fun h act hs => h (id, act) hs rfl, fun h x hs hx => h x.2 (by rw [hs, ← hx])⟩

-- The proposals which a sale has got.
def Progress.proposals : Progress → Option (List (BidProposal ℚ))
  | .auction proposals | .getNode proposals _                                 => some proposals
  | .takeOffer bid | .offered bid | .paying bid _ | .save bid | .accepted bid => some bid.proposals.bids
  | .callForBids | .bidding | .failed                                         => none

def Sale.Considers (sale : Sale) (proposals : List (BidProposal ℚ)) : Prop :=
  sale.progress.proposals = some proposals ∨ ∃ bid, sale.offer = some bid ∧ bid.proposals.bids = proposals

-- The market has got all that the nodes have answered, and the nodes have answered all that they have recorded.
structure Whole (c : Settings) (id : SlaId) (m : State) : Prop where
  complete : ∀ e, m.exchanges id = some e → ∃ n, Echo.Once c.net.graph n e ∧ Echo.Complete c.net.graph n e
  result   : ∀ sale proposals, m.sales id = some sale → sale.Considers proposals →
    ∃ e, m.exchanges id = some e ∧ e.result = some (proposals : Multiset (BidProposal ℚ))
  recorded : ∀ n, id ∈ (m.nodes n).tracking → ∃ p, p.nodeId = n ∧ Made m.exchanges id p

variable {c : Settings} {m m' : State} {a : Act} {as : List Act} {now : NodeId → ℤ} {id : SlaId} {n : NodeId}
variable {bid : AcceptedBid}
variable {said : Option (SlaId × Echo.Act NodeId BidRequest (BidProposal ℚ))} {e e' : Exchange} {sale : Sale}

-- An exchange begins with its auction, and goes on as it is said.
theorem exchanges_of_effect (h : Effect c m a said m') (id : SlaId) :
    m'.exchanges id = m.exchanges id ∨
    (∃ sale request, m.sales id = some sale ∧ sale.progress = .callForBids ∧
      m'.exchanges id = some (.start sale.target request)) ∨
    ∃ e act e', said = some (id, act) ∧ m.exchanges id = some e ∧ e.step c.net.contacts act = some e' ∧
      m'.exchanges id = some e' := by
  have hstep {x : SlaId} {e e' : Exchange} {act} {m' : State} (he : m.exchanges x = some e)
      (hs : e.step c.net.contacts act = some e') (hm : m'.exchanges = Function.update m.exchanges x (some e')) :
      m'.exchanges id = m.exchanges id ∨
      ∃ e act' e', some (x, act) = some (id, act') ∧ m.exchanges id = some e ∧ e.step c.net.contacts act' = some e' ∧
        m'.exchanges id = some e' := by
    rw [hm]
    by_cases hx : id = x
    case pos =>
      subst hx
      exact .inr ⟨e, act, e', rfl, he, hs, Function.update_self ..⟩
    case neg => exact .inl (Function.update_of_ne hx ..)
  cases h
  case call x sale request hs hp _ =>
    by_cases hx : id = x
    case pos =>
      subst hx
      exact .inr (.inl ⟨sale, request, hs, hp, Function.update_self ..⟩)
    case neg => exact .inl (Function.update_of_ne hx ..)
  case follow he hs _   => exact (hstep he hs rfl).imp_right .inr
  case exchange he _ hs => exact (hstep he hs rfl).imp_right .inr
  case begin he hs _    => exact (hstep he hs rfl).imp_right .inr
  case contribute he hs => exact (hstep he hs rfl).imp_right .inr
  all_goals exact .inl rfl

namespace Whole

theorem new : Whole c id (.new c now) where
  complete := by simp [State.new]
  result   := by simp [State.new]
  recorded := fun _ h => absurd h Finmap.notMem_empty

theorem complete_step (t : c.net.Tree) (w : Whole c id m) (h : Effect c m a said m')
    (hl : ∀ act, said = some (id, act) → ¬ act.Fault) (e : Exchange) (he : m'.exchanges id = some e) :
    ∃ n, Echo.Once c.net.graph n e ∧ Echo.Complete c.net.graph n e := by
  obtain hn | ⟨sale, request, -, -, hn⟩ | ⟨e₁, act, e', hsaid, he₁, hs, hn⟩ := exchanges_of_effect h id
  case inl     => exact w.complete e (hn ▸ he)
  case inr.inl =>
    cases hn.symm.trans he
    exact ⟨sale.target, Echo.once_start, Echo.complete_start⟩
  case inr.inr =>
    cases hn.symm.trans he
    obtain ⟨n, ho, hc⟩ := w.complete e₁ he₁
    exact ⟨n, ho.step t.isAcyclic t.mem_contacts hs, hc.step ho (hl act hsaid) hs⟩

-- Once the market has got its answer, nothing is left to be said.
theorem exchanges_eq (x : Exchanged c m) (w : Whole c id m) (h : Effect c m a said m')
    (hl : ∀ act, said = some (id, act) → ¬ act.Fault) (he : m.exchanges id = some e) (hr : e.result ≠ none) :
    m'.exchanges id = some e := by
  obtain hn | ⟨sale, request, hsale, hp, -⟩ | ⟨e₁, act, e', hsaid, he₁, hs, -⟩ := exchanges_of_effect h id
  case inl     => rw [hn, he]
  case inr.inl => simp [x.asked.called id sale hsale hp] at he
  case inr.inr =>
    cases he.symm.trans he₁
    obtain ⟨n, ho, hc⟩ := w.complete e he
    exact (Echo.not_step_of_quiet (ho.quiet hc.waits hr) (hl act hsaid) hs).elim

theorem result_step (x : Exchanged c m) (w : Whole c id m) (h : Effect c m a said m')
    (hl : ∀ act, said = some (id, act) → ¬ act.Fault) : ∀ j sale, m'.sales j = some sale → j = id →
    ∀ proposals, sale.Considers proposals →
      ∃ e, m'.exchanges id = some e ∧ e.result = some (proposals : Multiset (BidProposal ℚ)) := by
  have hold j sale (hs : m.sales j = some sale) (hj : j = id) (proposals) (hc : sale.Considers proposals) :
      ∃ e, m'.exchanges id = some e ∧ e.result = some (proposals : Multiset (BidProposal ℚ)) := by
    obtain ⟨e, he, hr⟩ := w.result sale proposals (hj ▸ hs) hc
    exact ⟨e, w.exchanges_eq x h hl he (by simp [hr]), hr⟩
  -- A sale which goes on with what it has considered before.
  have hgo {j : SlaId} {sale sale' : Sale} (hs : m.sales j = some sale)
      (hc : ∀ proposals, sale'.Considers proposals → sale.Considers proposals) (hj : j = id)
      (proposals : List (BidProposal ℚ)) (hp : sale'.Considers proposals) :
      ∃ e, m'.exchanges id = some e ∧ e.result = some (proposals : Multiset (BidProposal ℚ)) :=
    hold j sale hs hj proposals (hc proposals hp)
  have hoffer {sale : Sale} {p : Progress} (hp : p.proposals = none ∨ p.proposals = sale.progress.proposals) (proposals)
      (hc : (sale.advance p).Considers proposals) : sale.Considers proposals := by
    cases hc
    case inr hc => exact .inr hc
    case inl hc =>
      cases hp
      case inl hp => simp [Sale.advance, hp] at hc
      case inr hp => exact .inl (hp ▸ hc)
  have hpaying {bid p} : (Progress.ofPaying bid p).proposals = none ∨
      (Progress.ofPaying bid p).proposals = some bid.proposals.bids := by
    simp only [Progress.ofPaying]
    split
    case h_2 => exact .inl rfl
    all_goals exact .inr rfl
  cases h
  case put hs          => exact of_update hold fun _ _ hc => by simp [Sale.Considers, Progress.proposals] at hc
  case fail hs         => exact of_update hold (hgo hs (hoffer (.inl rfl)))
  case call hs _ _     => exact of_update hold (hgo hs (hoffer (.inl rfl)))
  case collect j sale e bids hs hp he hr =>
    refine of_update hold fun hj proposals hc => ?_
    subst hj
    cases hc
    case inl hc => exact ⟨e, he, (Option.some.inj hc) ▸ hr⟩
    case inr hc => exact hold j sale hs rfl proposals (.inr hc)
  case choose hs hp _  => exact of_update hold (hgo hs (hoffer (.inr (by rw [hp]; rfl))))
  case locate hs hp hb => exact of_update hold (hgo hs (hoffer (.inr (by rw [hp, ← hb.2.2.1]; rfl))))
  case offer hs hp     =>
    refine of_update hold (hgo hs fun proposals hc => .inl ?_)
    rw [hp]
    cases hc
    case inl hc => exact hc
    case inr hc =>
      obtain ⟨bid, hb, hc⟩ := hc
      cases hb
      exact congrArg some hc
  case receipt hs hp _ _ => exact of_update hold (hgo hs (hoffer (by rw [hp]; exact hpaying)))
  case pay hs hp _     => exact of_update hold (hgo hs (hoffer (by rw [hp]; exact hpaying)))
  case save hs hp      => exact of_update hold (hgo hs (hoffer (.inr (by rw [hp]; rfl))))
  all_goals exact hold

-- A record is only made together with a proposal.
theorem recorded_step (l : Later m m') (w : Whole c id m) (h : Effect c m a said m')
    (hl : ∀ act, said = some (id, act) → ¬ act.Fault) (n : NodeId) (hn : id ∈ (m'.nodes n).tracking) :
    ∃ p, p.nodeId = n ∧ Made m'.exchanges id p := by
  have hold (hn : id ∈ (m.nodes n).tracking) : ∃ p, p.nodeId = n ∧ Made m'.exchanges id p := by
    obtain ⟨p, hp, hm⟩ := w.recorded n hn
    exact ⟨p, hp, l.made id p hm⟩
  have hnode {y s fa} (hi : ∀ i, fa ≠ .bidding i) (hs : Fog.step (c.configs y) (m.nodes y) fa = some s)
      (hn : id ∈ (Function.update m.nodes y s n).tracking) : ∃ p, p.nodeId = n ∧ Made m'.exchanges id p := by
    by_cases hy : n = y
    case pos =>
      subst hy
      rw [Function.update_self] at hn
      exact hold (Exchanged.mem_tracking hi hs id hn)
    case neg =>
      rw [Function.update_of_ne hy] at hn
      exact hold hn
  cases h
  case begin hs      => exact hnode (by simp) hs hn
  case accept hs     => exact hnode (by simp) hs hn
  case provision hs  => exact hnode (by simp) hs hn
  case node ha hs    => exact hnode (fun _ he => by simp [he, Internal] at ha) hs hn
  case bid y i b hb hr =>
    have hn : id ∈ (Function.update m.nodes y (advanceBid (c.configs y) (m.nodes y) i b) n).tracking := hn
    by_cases hy : n = y
    case pos =>
      subst hy
      rw [Function.update_self, (of_returns_eq_none hb hr).2] at hn
      exact hold hn
    case neg =>
      rw [Function.update_of_ne hy] at hn
      exact hold hn
  case contribute y i b bidId t out e e' hb hr ht he hs =>
    have hn : id ∈ (Function.update m.nodes y (advanceBid (c.configs y) (m.nodes y) i b) n).tracking := hn
    by_cases hy : n = y
    case neg =>
      rw [Function.update_of_ne hy] at hn
      exact hold hn
    case pos =>
      subst hy
      rw [Function.update_self] at hn
      obtain ⟨-, ⟨htracking, -⟩ | ⟨sla, name, v, rfl, hout, htracking⟩⟩ := of_returns_eq_some hb hr
      case inl => exact hold (htracking ▸ hn)
      case inr =>
        rw [htracking] at hn
        cases Finmap.mem_insert.mp hn
        case inr hn => exact hold hn
        case inl hid =>
          have hid : id = sla.id := hid
          subst hid
          obtain rfl | ⟨f, rfl⟩ := hout
          case inr => exact absurd trivial (hl _ rfl)
          case inl =>
            refine ⟨{ nodeId := n, id := bidId, bid := v }, rfl, e', Function.update_self .., ?_⟩
            obtain hm | ⟨t', o, hact, hm⟩ := Echo.made_step hs
            case inl =>
              simp only [contribution, Echo.State.step] at hs
              split at hs <;> cases hs
              exact ht ▸ Multiset.mem_cons_self ..
            case inr =>
              obtain ⟨rfl, rfl⟩ := Echo.Act.finish.inj hact
              rw [hm, ht]
              exact Multiset.mem_cons_self ..
  all_goals exact hold hn

theorem step (t : c.net.Tree) (x : Exchanged c m) (h : Consistent m) (w : Whole c id m) (e : Effect c m a said m')
    (hl : ∀ act, said = some (id, act) → ¬ act.Fault) : Whole c id m' where
  complete := w.complete_step t e hl
  result   := fun sale proposals hs => w.result_step x e hl id sale hs rfl proposals
  recorded := w.recorded_step (later_step x h.sales e) e hl

end Whole

theorem whole_run (t : c.net.Tree) (hk : Keeps c.net) (r : Run (step c) (Lossless c id) (.new c now) as m) :
    Exchanged c m ∧ Consistent m ∧ Whole c id m := by
  refine r.invariant (I := fun m => Exchanged c m ∧ Consistent m ∧ Whole c id m) ⟨exchanged_new, .new, .new⟩ ?_
  intro m a m' h hl e
  obtain ⟨x, h, w⟩ := h
  have e := effect_of_step e
  exact ⟨x.step t hk e, h.step x e, w.step t x h e hl⟩

-- If nothing gets lost, everybody who has been asked has answered, and nobody has asked for less than the winner.
theorem cheapest_of_lossless (t : c.net.Tree) (hk : Keeps c.net)
    (r : Run (step c) (Lossless c id) (.new c now) as m) (ho : Offered m.sales id bid) :
    (∃ e, m.exchanges id = some e ∧ e.made.map Prod.fst = (e.sent.map Echo.Request.node : List NodeId)) ∧
      ∀ n record, (m.nodes n).tracking.lookup id = some record →
        (∃ p ∈ bid.proposals.bids, p.nodeId = n ∧ p.bid = record.bid) ∧ bid.chosen.bid.bid ≤ record.bid := by
  obtain ⟨x, h, w⟩ := whole_run t hk r
  have hfair := fair_of_offered x h ho
  obtain ⟨sale, hs, ho⟩ := ho
  obtain ⟨e, he, hr⟩ := w.result sale bid.proposals.bids hs (.inr ⟨bid, ho, rfl⟩)
  obtain ⟨y, hy, hc⟩ := w.complete e he
  obtain ⟨hresult, hmade⟩ := Echo.result_eq hy hc hr
  refine ⟨⟨e, he, hmade⟩, fun n record hrecord => ?_⟩
  obtain ⟨p, rfl, e₂, he₂, hm⟩ := w.recorded n (Map.mem_of_lookup hrecord)
  cases he.symm.trans he₂
  have hp : p ∈ bid.proposals.bids := by
    rw [← Multiset.mem_coe, hresult]
    exact (Multiset.mem_filterMap ..).mpr ⟨_, hm, rfl⟩
  obtain ⟨record', hrecord', hbid⟩ := hfair.recorded p hp
  cases hrecord.symm.trans hrecord'
  exact ⟨⟨p, hp, rfl, hbid.symm⟩, hbid ▸ hfair.chosen.least p hp⟩

theorem cheapest_of_lossless_of_example : ∃ m bid,
    Run (step exampleSettings) (Lossless exampleSettings ⟨7⟩) (.new exampleSettings fun _ => 0)
      (askingActs ++ buyingActs) m ∧ Offered m.sales ⟨7⟩ bid ∧
    ∀ n record, (m.nodes n).tracking.lookup ⟨7⟩ = some record → bid.chosen.bid.bid ≤ record.bid := by
  obtain ⟨m, r, hm⟩ : ∃ m,
      Run (step exampleSettings) (Lossless exampleSettings ⟨7⟩) (.new exampleSettings fun _ => 0)
        (askingActs ++ buyingActs) m ∧ ((m.sales ⟨7⟩).bind (·.offer)).isSome = true :=
    Run.of_exec_any (by decide +kernel)
  obtain ⟨bid, hb⟩ := Option.isSome_iff_exists.mp hm
  have ho : Offered m.sales ⟨7⟩ bid := Option.bind_eq_some_iff.mp hb
  obtain ⟨-, hcheap⟩ := cheapest_of_lossless Network.tree_exampleNetwork keeps_exampleNetwork r ho
  exact ⟨m, bid, r, ho, fun n record hr => (hcheap n record hr).2⟩

end Marketplace
