import FogMarket.Library.Echo.Complete
import FogMarket.Library.Echo.Settled
import FogMarket.Fog.Terms
import FogMarket.Marketplace.Steps

open Market Fog Transition

namespace Marketplace

-- What an auction asks for is asked at most once of each node, under the id of its SLA.
structure Asked (c : Settings) (sales : SlaId → Option Sale) (exchanges : SlaId → Option Exchange) : Prop where
  named    : ∀ id sale, sales id = some sale → sale.sla.id = id
  called   : ∀ id sale, sales id = some sale → sale.progress = .callForBids → exchanges id = none
  once     : ∀ id e, exchanges id = some e → ∃ sale, sales id = some sale ∧ Echo.Once c.net.graph sale.target e
  contents : ∀ id e, exchanges id = some e → Echo.Contents (·.sla.id = id) e
  found    : ∀ id e, exchanges id = some e → e.found ≤ e.contributed

-- A node bids as often as it is asked to, and it has a record of each of its proposals.
structure Answered (exchanges : SlaId → Option Exchange) (nodes : NodeId → Fog.State) : Prop where
  running : ∀ id n, (nodes n).bidding id = (exchanges id).elim 0 (·.running n)
  settled : ∀ id n, id ∈ (nodes n).tracking → ∃ e, exchanges id = some e ∧ e.Settled n
  made    : ∀ id e n p, exchanges id = some e → (n, some p) ∈ e.made →
    p.nodeId = n ∧ ∃ sla name, sla.id = id ∧ (nodes n).tracking.terms id = some (p.bid, sla, name)

-- What holds of every node on its own.
structure Sound (s : Fog.State) : Prop where
  finishable : Finishable s
  agreed     : Agreed s
  charged    : Charged s
  holds      : Holds (fun id sla => sla.id = id) s

variable {c : Settings} {m m' : State} {a : Act} {id : SlaId} {n : NodeId} {sales : SlaId → Option Sale} {sale : Sale}
variable {exchanges : SlaId → Option Exchange} {e e' : Exchange} {nodes : NodeId → Fog.State} {s s' : Fog.State}
variable {act : Echo.Act NodeId BidRequest (BidProposal ℚ)} {now : NodeId → ℤ} {p : Progress}
variable {said : Option (SlaId × Echo.Act NodeId BidRequest (BidProposal ℚ))}

theorem of_update {ι α : Type*} [DecidableEq ι] {f : ι → Option α} {i : ι} {y : α} {P : ι → α → Prop}
    (h : ∀ j x, f j = some x → P j x) (hy : P i y) (j : ι) (x : α) (hx : Function.update f i (some y) j = some x) :
    P j x := by
  by_cases hji : j = i
  case pos =>
    subst hji
    rw [Function.update_self] at hx
    exact Option.some.inj hx ▸ hy
  case neg =>
    rw [Function.update_of_ne hji] at hx
    exact h j x hx

theorem contribution_ne_ask {bidId : BidId} {t t' : Task} {out : Except Failure (Option ℚ)} {w : NodeId}
    {content : BidRequest} : contribution n bidId t out ≠ .ask t' w content := by
  cases out <;> simp [contribution]

theorem ofPaying_ne {bid : AcceptedBid} {p : FogNodeFaaS.Progress} : Progress.ofPaying bid p ≠ .callForBids := by
  simp only [Progress.ofPaying]
  split <;> simp

namespace Asked

theorem start : Asked c (fun _ => none) (fun _ => none) where
  named    := by simp
  called   := by simp
  once     := by simp
  contents := by simp
  found    := by simp

theorem exchanges_eq_none (h : Asked c sales exchanges) (hs : sales id = none) : exchanges id = none := by
  by_contra he
  obtain ⟨e, he⟩ := Option.ne_none_iff_exists'.mp he
  obtain ⟨sale, hsale, -⟩ := h.once id e he
  simp [hs] at hsale

theorem put (h : Asked c sales exchanges) (hn : sale.sla.id = id) (hs : sales id = none) :
    Asked c (Function.update sales id (some sale)) exchanges where
  named    := of_update h.named hn
  called   := of_update h.called fun _ => h.exchanges_eq_none hs
  once     := by
    intro x e he
    obtain ⟨sale', hs', ho⟩ := h.once x e he
    refine ⟨sale', ?_, ho⟩
    rwa [Function.update_of_ne]
    rintro rfl
    simp [hs] at hs'
  contents := h.contents
  found    := h.found

-- A sale goes on.
theorem setSale {sale' : Sale} (h : Asked c sales exchanges) (hs : sales id = some sale) (hsla : sale'.sla = sale.sla)
    (ht : sale'.target = sale.target) (hp : sale'.progress ≠ .callForBids) :
    Asked c (Function.update sales id (some sale')) exchanges where
  named    := of_update h.named (hsla ▸ h.named id sale hs)
  called   := of_update h.called fun hp' => absurd hp' hp
  once     := by
    intro x e he
    obtain ⟨sale₂, hs₂, ho⟩ := h.once x e he
    by_cases hx : x = id
    case pos =>
      subst hx
      cases hs.symm.trans hs₂
      exact ⟨sale', Function.update_self .., ht ▸ ho⟩
    case neg => exact ⟨sale₂, by rwa [Function.update_of_ne hx], ho⟩
  contents := h.contents
  found    := h.found

-- An exchange begins or goes on.
theorem setExchange (h : Asked c sales exchanges) (hs : sales id = some sale) (hp : sale.progress ≠ .callForBids)
    (ho : Echo.Once c.net.graph sale.target e) (hc : Echo.Contents (·.sla.id = id) e) (hf : e.found ≤ e.contributed) :
    Asked c sales (Function.update exchanges id (some e)) where
  named    := h.named
  called   := by
    intro x sale' hx hp'
    have hne : x ≠ id := by
      rintro rfl
      cases hs.symm.trans hx
      exact hp hp'
    rw [Function.update_of_ne hne]
    exact h.called x sale' hx hp'
  once     := of_update h.once ⟨sale, hs, ho⟩
  contents := of_update h.contents hc
  found    := of_update h.found hf

theorem call {request : BidRequest} (h : Asked c sales exchanges) (hs : sales id = some sale)
    (hr : request.sla.id = sale.sla.id) (hp : p ≠ .callForBids) :
    Asked c (Function.update sales id (some (sale.advance p)))
      (Function.update exchanges id (some (.start sale.target request))) := by
  have h' : Asked c (Function.update sales id (some (sale.advance p))) exchanges := h.setSale hs rfl rfl hp
  refine h'.setExchange (Function.update_self ..) hp Echo.once_start ⟨fun r hr' => ?_, ?_⟩ le_rfl
  case refine_1 =>
    rw [Multiset.mem_singleton.mp hr']
    exact hr.trans (h.named id sale hs)
  case refine_2 => simp [Echo.State.start]

theorem exchange (t : c.net.Tree) (h : Asked c sales exchanges) (he : exchanges id = some e)
    (hs : e.step c.net.contacts act = some e')
    (ha : ∀ t w content, act = .ask t w content → t.content.sla.id = id → content.sla.id = id) :
    Asked c sales (Function.update exchanges id (some e')) := by
  obtain ⟨sale, hsale, ho⟩ := h.once id e he
  have hp : sale.progress ≠ .callForBids := fun hp => by simp [h.called id sale hsale hp] at he
  exact h.setExchange hsale hp (ho.step t.isAcyclic t.mem_contacts hs) ((h.contents id e he).step ha hs)
    (Echo.found_le_step (h.found id e he) hs)

theorem step (t : c.net.Tree) (hk : Keeps c.net) (h : Asked c m.sales m.exchanges) (e : Effect c m a said m') :
    Asked c m'.sales m'.exchanges := by
  cases e
  case put hs                    => exact h.put rfl hs
  case fail hs                   => exact h.setSale hs rfl rfl (by simp [Sale.advance])
  case call hs _ hr              => exact h.call hs (hk _ _ hr) (by simp)
  case collect hs _ _ _          => exact h.setSale hs rfl rfl (by simp [Sale.advance])
  case choose hs _ _             => exact h.setSale hs rfl rfl (by simp [Sale.advance])
  case locate hs _ _             => exact h.setSale hs rfl rfl (by simp [Sale.advance])
  case offer hs _                => exact h.setSale hs rfl rfl (by simp [Sale.advance])
  case receipt p hs _ _ _        => exact h.setSale hs rfl rfl ofPaying_ne
  case pay p' hs _ _             => exact h.setSale hs rfl rfl ofPaying_ne
  case save hs _                 => exact h.setSale hs rfl rfl (by simp [Sale.advance])
  case provide | register | join => exact h
  case follow he hs hr           =>
    refine h.exchange t he hs fun t w content ha ht => ?_
    cases ha
    exact (hk _ _ hr).trans ht
  case exchange he ha hs         =>
    refine h.exchange t he hs fun t w content hask _ => ?_
    subst hask
    cases ha
    case inl ha => exact ha.elim
    case inr ha =>
      obtain ⟨_, _, ha⟩ := ha
      contradiction
  case begin he hs _             => exact h.exchange t he hs (by simp)
  case bid                       => exact h
  case contribute out _ he hs    =>
    exact h.exchange t he hs fun _ _ _ hask _ => absurd hask contribution_ne_ask
  case accept | node | provision => exact h

end Asked

namespace Answered

theorem start : Answered (fun _ => none) fun n => .new (c.configs n) (now n) where
  running := by simp [State.bidding, Fog.State.new]
  settled := fun _ _ h => absurd h Finmap.notMem_empty
  made    := by simp

-- A node takes a step by which no call of `bid_on` begins or ends.
theorem setNode (h : Answered exchanges nodes) (hb : s.bidding = (nodes n).bidding)
    (hm : ∀ id, id ∈ s.tracking → id ∈ (nodes n).tracking)
    (ht : ∀ id t, (nodes n).tracking.terms id = some t → s.tracking.terms id = some t) :
    Answered exchanges (Function.update nodes n s) where
  running := by
    intro id x
    by_cases hx : x = n
    case pos => rw [hx, Function.update_self, hb, h.running]
    case neg => rw [Function.update_of_ne hx, h.running]
  settled := by
    intro id x hid
    by_cases hx : x = n
    case pos =>
      subst hx
      rw [Function.update_self] at hid
      exact h.settled id x (hm id hid)
    case neg =>
      rw [Function.update_of_ne hx] at hid
      exact h.settled id x hid
  made    := by
    intro id e x p he hp
    obtain ⟨hn, sla, name, hsla, hterms⟩ := h.made id e x p he hp
    refine ⟨hn, sla, name, hsla, ?_⟩
    by_cases hx : x = n
    case pos =>
      subst hx
      rw [Function.update_self]
      exact ht id _ hterms
    case neg => rwa [Function.update_of_ne hx]

-- An exchange takes a step by which no contribution begins or ends.
theorem setExchange (h : Answered exchanges nodes) (hr : e'.running = (exchanges id).elim 0 (·.running))
    (hs : ∀ n e, exchanges id = some e → e.Settled n → e'.Settled n)
    (hm : ∀ x, x ∈ e'.made → ∃ e, exchanges id = some e ∧ x ∈ e.made) :
    Answered (Function.update exchanges id (some e')) nodes where
  running := by
    intro x n
    rw [h.running]
    by_cases hx : x = id
    case pos =>
      subst hx
      rw [Function.update_self, Option.elim_some, hr]
      cases exchanges x <;> rfl
    case neg => rw [Function.update_of_ne hx]
  settled := by
    intro x n hid
    obtain ⟨e, he, hsettled⟩ := h.settled x n hid
    by_cases hx : x = id
    case pos =>
      subst hx
      exact ⟨e', Function.update_self .., hs n e he hsettled⟩
    case neg => exact ⟨e, by rwa [Function.update_of_ne hx], hsettled⟩
  made    := by
    intro x e n p he hp
    by_cases hx : x = id
    case pos =>
      subst hx
      rw [Function.update_self] at he
      cases he
      obtain ⟨e, he, hp⟩ := hm _ hp
      exact h.made x e n p he hp
    case neg =>
      rw [Function.update_of_ne hx] at he
      exact h.made x e n p he hp

-- A node and its exchange take a step together.
theorem update (h : Answered exchanges nodes) (he : exchanges id = some e)
    (hb : ∀ x, x ≠ id → s.bidding x = (nodes n).bidding x) (hr : s.bidding id = e'.running n)
    (hr' : ∀ x, x ≠ n → e'.running x = e.running x) (hs : ∀ x, e.Settled x → e'.Settled x)
    (hm : ∀ x, x ∈ s.tracking → x ∈ (nodes n).tracking ∨ x = id ∧ e'.Settled n)
    (ht : ∀ x t, (nodes n).tracking.terms x = some t → s.tracking.terms x = some t)
    (hmade : ∀ x p, (x, some p) ∈ e'.made → (x, some p) ∈ e.made ∨
      x = n ∧ p.nodeId = n ∧ ∃ sla name, sla.id = id ∧ s.tracking.terms id = some (p.bid, sla, name)) :
    Answered (Function.update exchanges id (some e')) (Function.update nodes n s) where
  running := by
    intro x y
    by_cases hy : y = n
    case pos =>
      subst hy
      rw [Function.update_self]
      by_cases hx : x = id
      case pos => rw [hx, Function.update_self, Option.elim_some, hr]
      case neg => rw [Function.update_of_ne hx, hb x hx, h.running]
    case neg =>
      rw [Function.update_of_ne hy, h.running]
      by_cases hx : x = id
      case pos => rw [hx, Function.update_self, he, Option.elim_some, Option.elim_some, hr' y hy]
      case neg => rw [Function.update_of_ne hx]
  settled := by
    intro x y hid
    have hold (hid : x ∈ (nodes y).tracking) :
        ∃ e₂, Function.update exchanges id (some e') x = some e₂ ∧ e₂.Settled y := by
      obtain ⟨e₂, he₂, hs₂⟩ := h.settled x y hid
      by_cases hx : x = id
      case pos =>
        subst hx
        cases he.symm.trans he₂
        exact ⟨e', Function.update_self .., hs y hs₂⟩
      case neg => exact ⟨e₂, by rwa [Function.update_of_ne hx], hs₂⟩
    by_cases hy : y = n
    case neg => exact hold (by rwa [Function.update_of_ne hy] at hid)
    case pos =>
      subst hy
      rw [Function.update_self] at hid
      cases hm x hid
      case inl hid => exact hold hid
      case inr hid => exact ⟨e', by rw [hid.1, Function.update_self], hid.2⟩
  made    := by
    have hold {x e₂ y p} (he₂ : exchanges x = some e₂) (hp : (y, some p) ∈ e₂.made) : p.nodeId = y ∧
        ∃ sla name, sla.id = x ∧ (Function.update nodes n s y).tracking.terms x = some (p.bid, sla, name) := by
      obtain ⟨hn, sla, name, hsla, hterms⟩ := h.made x e₂ y p he₂ hp
      refine ⟨hn, sla, name, hsla, ?_⟩
      by_cases hy : y = n
      case pos =>
        subst hy
        rw [Function.update_self]
        exact ht x _ hterms
      case neg => rwa [Function.update_of_ne hy]
    intro x e₂ y p he₂ hp
    refine of_update (P := fun x e₂ => (y, some p) ∈ e₂.made → p.nodeId = y ∧ ∃ sla name, sla.id = x ∧
      (Function.update nodes n s y).tracking.terms x = some (p.bid, sla, name)) (fun _ _ => hold) (fun hp => ?_)
      x e₂ he₂ hp
    cases hmade y p hp
    case inl hp => exact hold he hp
    case inr hp =>
      obtain ⟨rfl, hn, hterms⟩ := hp
      rw [Function.update_self]
      exact ⟨hn, hterms⟩

-- What is about to be inserted has not been recorded before.
theorem fresh (h : Answered exchanges nodes) (a : Fog.Act) : Fresh (nodes n) a := by
  intro sla hsla
  simp only [State.inserts] at hsla
  split at hsla <;> try contradiction
  split at hsla <;> cases hsla
  case h_1 name bid hb =>
    have hpos : (nodes n).bidding sla.id ≠ 0 := by
      refine Nat.pos_iff_ne_zero.mp (List.countP_pos_iff.mpr ⟨_, List.mem_of_getElem? hb, ?_⟩)
      simp [Bidding.sla]
    rw [h.running] at hpos
    by_contra hr
    obtain ⟨e, he, hs⟩ := h.settled sla.id n (by rwa [Finmap.lookup_eq_none, not_not] at hr)
    rw [he] at hpos
    exact hs.2 (Echo.mem_pending_of_running hpos)

end Answered

theorem Sound.new {config : Config} {now : ℤ} : Sound (.new config now) where
  finishable := fun caller id record h => by simp [Fog.State.new] at h
  agreed     := agreed_new
  charged    := by simp [Charged, Fog.State.new]
  holds      := ⟨by simp [Fog.State.new], by simp [Fog.State.new], by simp [Fog.State.new], by simp [Fog.State.new]⟩

theorem Sound.step {config : Config} {a : Fog.Act} (h : Sound s) (hf : Fresh s a) (e : Fog.step config s a = some s') :
    Sound s' where
  finishable := (step_forward h.finishable hf.guarded e).1
  agreed     := h.agreed.step hf e
  charged    := h.charged.step h.finishable hf.guarded e
  holds      := h.holds.step (fun _ _ => rfl) e

structure Exchanged (c : Settings) (m : State) : Prop where
  asked    : Asked c m.sales m.exchanges
  answered : Answered m.exchanges m.nodes
  sound    : ∀ n, Sound (m.nodes n)

-- What makes a node take a step, if it is not one of its own.
def Prompted (m : State) (a : Act) (n : NodeId) : Fog.Act → Prop
  | .bid sla      => ∃ id e t, m.exchanges id = some e ∧ t ∈ e.tasks ∧ t.content.sla = sla
  | .bidding _    => True
  | .pay id       => (id, n) ∈ m.accepts
  | .provision id => (id, n) ∈ m.provisions
  | fa            => a = .node n fa

-- A step of the market is at each node either none or a step of that node.
theorem node_of_effect (e : Effect c m a said m') (n : NodeId) :
    m'.nodes n = m.nodes n ∨
      ∃ fa, Fog.step (c.configs n) (m.nodes n) fa = some (m'.nodes n) ∧ Prompted m a n fa := by
  have hset {x : NodeId} {s : Fog.State} {fa : Fog.Act} (hs : Fog.step (c.configs x) (m.nodes x) fa = some s)
      (hp : Prompted m a x fa) : Function.update m.nodes x s n = m.nodes n ∨
        ∃ fa, Fog.step (c.configs n) (m.nodes n) fa = some (Function.update m.nodes x s n) ∧ Prompted m a n fa := by
    by_cases hn : n = x
    case pos =>
      subst hn
      rw [Function.update_self]
      exact .inr ⟨fa, hs, hp⟩
    case neg => exact .inl (Function.update_of_ne hn ..)
  have hbid {x : NodeId} {i : ℕ} {b : Bidding} (hb : (m.nodes x).bids[i]? = some b) :
      Fog.step (c.configs x) (m.nodes x) (.bidding i) = some (advanceBid (c.configs x) (m.nodes x) i b) := by
    simp [Fog.step, hb]
  cases e
  case begin id e e' t s he hs hn =>
    refine hset hn ⟨id, e, t, he, ?_, rfl⟩
    simp only [Echo.State.step] at hs
    split at hs <;> cases hs
    case isTrue ht => exact ht.1
  case bid hb _                => exact hset (hbid hb) trivial
  case contribute hb _ _ _ _   => exact hset (hbid hb) trivial
  case accept h hs             => exact hset hs h
  case provision h hs          => exact hset hs h
  case node n' fa s h ha hs    =>
    refine hset hs ?_
    cases fa <;> first | exact h | exact ha.elim
  all_goals exact .inl rfl

theorem works_of_exchanges (h : Exchanges act ∨ ∃ t w, act = .skip t w) : act.works = none := by
  obtain h | ⟨t, w, rfl⟩ := h
  case inl => cases act <;> first | rfl | exact h.elim
  case inr => rfl

-- A contribution is only made by a `finish`.
theorem made_of_works (hs : e.step c.net.contacts act = some e') (h : ∀ t b, act ≠ .finish t b) : e'.made = e.made := by
  obtain hm | ⟨t, b, rfl, -⟩ := Echo.made_step hs
  case inl => exact hm
  case inr => exact absurd rfl (h t b)

namespace Exchanged

variable {t : Task} {i : ℕ} {b : Bidding} {bidId : BidId} {out : Except Failure (Option ℚ)} {fa : Fog.Act}

theorem settled (t : c.net.Tree) (h : Exchanged c m) (he : m.exchanges id = some e)
    (hs : e.step c.net.contacts act = some e') (n : NodeId) (hn : e.Settled n) : e'.Settled n := by
  obtain ⟨sale, -, ho⟩ := h.asked.once id e he
  exact hn.step t.isAcyclic t.mem_contacts ho hs

theorem terms (h : Exchanged c m) (hs : Fog.step (c.configs n) (m.nodes n) fa = some s) (x : SlaId)
    (ts : ℚ × Sla × String) (ht : (m.nodes n).tracking.terms x = some ts) : s.tracking.terms x = some ts :=
  terms_step (h.sound n).agreed (h.answered.fresh fa) hs ht

theorem mem_tracking (hi : ∀ i, fa ≠ .bidding i) (hs : Fog.step (c.configs n) (m.nodes n) fa = some s) (x : SlaId)
    (hx : x ∈ s.tracking) : x ∈ (m.nodes n).tracking := by
  refine (mem_step hs hx).resolve_right ?_
  rintro ⟨sla, hsla, -⟩
  cases fa <;> first | exact absurd rfl (hi _) | simp [State.inserts] at hsla

-- An exchange goes on while no node takes a step.
theorem exchange (t : c.net.Tree) (h : Exchanged c m) (he : m.exchanges id = some e) (hw : act.works = none)
    (hs : e.step c.net.contacts act = some e') : Answered (Function.update m.exchanges id (some e')) m.nodes := by
  refine h.answered.setExchange (by rw [Echo.running_step hw hs, he]; rfl) (fun n e₂ he₂ hn => ?_) fun x hx => ?_
  case refine_1 =>
    cases he.symm.trans he₂
    exact h.settled t he hs n hn
  case refine_2 =>
    refine ⟨e, he, made_of_works hs ?_ ▸ hx⟩
    rintro t b rfl
    simp [Echo.Act.works] at hw

-- A node takes a step which is not about a bid.
theorem node (h : Exchanged c m) (ha : ∀ sla, fa ≠ .bid sla) (hi : ∀ i, fa ≠ .bidding i)
    (hs : Fog.step (c.configs n) (m.nodes n) fa = some s) : Answered m.exchanges (Function.update m.nodes n s) := by
  refine h.answered.setNode ?_ (mem_tracking hi hs) (h.terms hs)
  obtain hb | ⟨sla, rfl, -⟩ | ⟨i, b, rfl, -⟩ := bids_step hs
  case inl     => ext1 x; rw [State.bidding, State.bidding, hb]
  case inr.inl => exact absurd rfl (ha sla)
  case inr.inr => exact absurd rfl (hi i)

theorem begin (t' : c.net.Tree) (h : Exchanged c m) (he : m.exchanges id = some e)
    (hs : e.step c.net.contacts (.begin t) = some e')
    (hn : Fog.step (c.configs t.node) (m.nodes t.node) (.bid t.content.sla) = some s) :
    Answered (Function.update m.exchanges id (some e')) (Function.update m.nodes t.node s) := by
  have ht : t.content.sla.id = id := by
    refine (h.asked.contents id e he).tasks t ?_
    simp only [Echo.State.step] at hs
    split at hs <;> cases hs
    case isTrue ht => exact ht.1
  have hb : s.bids = (m.nodes t.node).bids ++ [.searching t.content.sla (m.nodes t.node).resources.nodes] := by
    cases hn
    rfl
  have hcount (x : SlaId) : s.bidding x = (m.nodes t.node).bidding x + if id = x then 1 else 0 := by
    simp [State.bidding, hb, Bidding.sla, List.countP_cons, ht]
  refine h.answered.update he (fun x hx => ?_) ?_ (fun x hx => ?_) (h.settled t' he hs)
    (fun x hx => .inl (mem_tracking (by simp) hn x hx)) (h.terms hn) fun x p hp => .inl ?_
  case refine_1 => rw [hcount, if_neg (Ne.symm hx), add_zero]
  case refine_2 => rw [hcount, if_pos rfl, h.answered.running, he, Option.elim_some, Echo.running_begin hs, if_pos rfl]
  case refine_3 => rw [Echo.running_begin hs, if_neg (Ne.symm hx), add_zero]
  case refine_4 => exact made_of_works hs (by simp) ▸ hp

theorem running_contribute (ht : t.node = n) (hs : e.step c.net.contacts (contribution n bidId t out) = some e')
    (x : NodeId) : e'.running x + (if n = x then 1 else 0) = e.running x := by
  cases out
  case ok    => exact ht ▸ Echo.running_finish hs
  case error => exact ht ▸ Echo.running_abort hs

theorem settled_contribute (h : Exchanged c m) (he : m.exchanges id = some e) (ht : t.node = n)
    (hs : e.step c.net.contacts (contribution n bidId t out) = some e') : e'.Settled n := by
  obtain ⟨sale, -, ho⟩ := h.asked.once id e he
  cases out
  case ok    => exact ht ▸ Echo.settled_finish ho hs
  case error => exact ht ▸ Echo.settled_abort ho hs

theorem contribute (t' : c.net.Tree) (h : Exchanged c m) (hb : (m.nodes n).bids[i]? = some b)
    (hr : (m.nodes n).returns (c.configs n) i b = some out) (ht : t.node = n) (he : m.exchanges b.sla.id = some e)
    (hs : e.step c.net.contacts (contribution n bidId t out) = some e') :
    Answered (Function.update m.exchanges b.sla.id (some e'))
      (Function.update m.nodes n (advanceBid (c.configs n) (m.nodes n) i b)) := by
  have hn : Fog.step (c.configs n) (m.nodes n) (.bidding i) = some (advanceBid (c.configs n) (m.nodes n) i b) := by
    simp [Fog.step, hb]
  obtain ⟨hcount, hout⟩ := of_returns_eq_some hb hr
  have hrun := running_contribute ht hs
  refine h.answered.update he (fun x hx => ?_) ?_ (fun x hx => ?_) (h.settled t' he hs) (fun x hx => ?_)
    (h.terms hn) fun x p hp => ?_
  case refine_1 => rw [← hcount x, if_neg (Ne.symm hx), add_zero]
  case refine_2 =>
    have hc := hcount b.sla.id
    have hr := hrun n
    rw [if_pos rfl] at hc hr
    rw [h.answered.running, he, Option.elim_some] at hc
    omega
  case refine_3 => rw [← hrun x, if_neg (Ne.symm hx), add_zero]
  case refine_4 =>
    refine (mem_step hn hx).imp_right ?_
    rintro ⟨sla, hsla, rfl⟩
    have hsla : b.sla = sla := by
      simp only [State.inserts, hb] at hsla
      split at hsla <;> cases hsla
      case h_1 hb' => exact (Option.some.inj hb') ▸ rfl
    exact ⟨by rw [hsla], settled_contribute h he ht hs⟩
  case refine_5 =>
    obtain hm | ⟨t₂, bid, hact, hm⟩ := Echo.made_step hs
    case inl => exact .inl (hm ▸ hp)
    case inr =>
      rw [hm, Multiset.mem_cons] at hp
      refine hp.symm.imp_right fun hp => ?_
      -- The proposal is what the call has returned, and the record is what it has inserted.
      cases out
      case error => simp [contribution] at hact
      case ok v =>
        obtain ⟨rfl, rfl⟩ := Echo.Act.finish.inj hact
        obtain ⟨rfl, hv⟩ := Prod.mk.inj hp
        obtain ⟨v, rfl, rfl⟩ := Option.map_eq_some_iff.mp hv.symm
        refine ⟨ht, rfl, ?_⟩
        obtain ⟨-, hne⟩ | ⟨sla, name, bid, rfl, hv, htracking⟩ := hout
        case inl => exact absurd rfl (hne v)
        case inr =>
          cases hv.resolve_right (by simp)
          refine ⟨sla, name, rfl, ?_⟩
          rw [htracking, FunctionTracking.terms, FunctionTracking.lookup_insert]
          exact congrArg (Option.map States.terms) (if_pos rfl)

theorem step (t : c.net.Tree) (hk : Keeps c.net) (h : Exchanged c m) (e : Effect c m a said m') : Exchanged c m' where
  asked    := h.asked.step t hk e
  sound    := by
    intro n
    obtain hn | ⟨fa, hs, -⟩ := node_of_effect e n
    case inl => exact hn ▸ h.sound n
    case inr => exact (h.sound n).step (h.answered.fresh fa) hs
  answered := by
    cases e
    case put | fail | collect | choose | locate | offer | receipt | pay | save | provide | register | join =>
      exact h.answered
    case call hs hp _ =>
      have hn := h.asked.called _ _ hs hp
      refine h.answered.setExchange ?_ (fun _ _ he => by simp [hn] at he) fun x hx => ?_
      case refine_1 =>
        rw [hn]
        ext1 n
        simp [Echo.State.running, Echo.State.start]
      case refine_2 => simp [Echo.State.start] at hx
    case follow he hs _       => exact h.exchange t he rfl hs
    case exchange he ha hs    => exact h.exchange t he (works_of_exchanges ha) hs
    case begin he hs hn       => exact h.begin t he hs hn
    case bid hb hr            =>
      obtain ⟨hbidding, htracking⟩ := of_returns_eq_none hb hr
      exact h.answered.setNode hbidding (fun _ hx => htracking ▸ hx) fun _ _ ht => htracking ▸ ht
    case contribute hb hr ht he hs => exact h.contribute t hb hr ht he hs
    case accept hs    => exact h.node (by simp) (by simp) hs
    case provision hs => exact h.node (by simp) (by simp) hs
    case node ha hs   =>
      exact h.node (fun _ he => by simp [he, Internal] at ha) (fun _ he => by simp [he, Internal] at ha) hs

end Exchanged

variable {as bs : List Act} {ok : State → Act → Prop}

theorem exchanged_new : Exchanged c (.new c now) where
  asked    := .start
  answered := .start
  sound _  := .new

theorem exchanged_run (t : c.net.Tree) (hk : Keeps c.net) (r : Run (step c) ok (.new c now) as m) : Exchanged c m :=
  r.invariant exchanged_new fun h _ e => h.step t hk (effect_of_step e)

-- What a node goes through is a run of its own, in which it does not bid twice for an SLA.
theorem node_run {P : State → Prop} {Q : Fog.State → Fog.Act → Prop} (t : c.net.Tree) (hk : Keeps c.net)
    (h : Exchanged c m) (hp : P m) (n : NodeId)
    (preserves : ∀ {m a m'}, Exchanged c m → P m → ok m a → Effect c m a (a.spoken c m) m' → P m')
    (implies : ∀ {m a fa}, Exchanged c m → P m → ok m a → Prompted m a n fa → Fresh (m.nodes n) fa → Q (m.nodes n) fa)
    (r : Run (step c) ok m as m') : ∃ acts, Run (Fog.step (c.configs n)) Q (m.nodes n) acts (m'.nodes n) := by
  refine r.project (I := fun m => Exchanged c m ∧ P m) (f := (·.nodes n)) ⟨h, hp⟩ ?_ ?_
  case refine_1 =>
    rintro m a m' ⟨h, hp⟩ ho e
    have e := effect_of_step e
    exact ⟨h.step t hk e, preserves h hp ho e⟩
  case refine_2 =>
    rintro m a m' ⟨h, hp⟩ ho e
    obtain hn | ⟨fa, hs, hprompted⟩ := node_of_effect (effect_of_step e) n
    case inl => exact .inl hn
    case inr => exact .inr ⟨fa, implies h hp ho hprompted (h.answered.fresh fa), hs⟩

end Marketplace
