import FogMarket.Fog.Expiry
import FogMarket.Fog.Fresh
import FogMarket.Marketplace.Agreement

open Market Fog Transition

namespace Marketplace

-- What the clients ask the market for.
def Asks (P : Sla → Prop) (_ : State) (a : Act) : Prop :=
  ∀ sla target, a = .put sla target → P sla

-- The backends remove what they are asked to.
def Removing (m : State) (a : Act) : Prop :=
  ∀ n fa, a = .node n fa → Removes (m.nodes n) fa

-- What a node does on its own meets `Q`.
def Nodewise (Q : Config → Fog.State → Fog.Act → Prop) (c : Settings) (m : State) (a : Act) : Prop :=
  ∀ n fa, a = .node n fa → Q (c.configs n) (m.nodes n) fa

-- What the nodes are asked for is what the market has been asked for.
structure Requested (P : Sla → Prop) (m : State) : Prop where
  sales     : ∀ id sale, m.sales id = some sale → P sale.sla
  exchanges : ∀ id e, m.exchanges id = some e → Echo.Contents (P ·.sla) e

variable {P : Sla → Prop} {Q : Config → Fog.State → Fog.Act → Prop} {c : Settings} {m m' : State} {a : Act}
variable {fa : Fog.Act} {as : List Act} {n : NodeId}
variable {said : Option (SlaId × Echo.Act NodeId BidRequest (BidProposal ℚ))} {now : NodeId → ℤ} {id : SlaId}

instance [DecidablePred P] (m : State) : DecidablePred (Asks P m)
  | .put sla _ => decidable_of_iff (P sla) ⟨fun h _ _ he => (Act.put.inj he).1 ▸ h, fun h => h sla _ rfl⟩
  | .sell _ | .proposals .. | .choose .. | .receipt .. | .lose _ | .follow .. | .exchange .. | .begin .. | .bidding ..
  | .accept .. | .node .. | .provide _ | .provision .. | .register .. | .join _ => .isTrue (by simp [Asks])

instance (m : State) : DecidablePred (Removing m)
  | .node n fa =>
    decidable_of_iff (Removes (m.nodes n) fa)
      ⟨fun h n' fa' he => by cases he; exact h, fun h => h n fa rfl⟩
  | .sell _ | .proposals .. | .choose .. | .receipt .. | .lose _ | .follow .. | .exchange .. | .begin .. | .bidding ..
  | .accept .. | .put .. | .provide _ | .provision .. | .register .. | .join _ => .isTrue (by simp [Removing])

instance [∀ config s a, Decidable (Q config s a)] : Decidable (Nodewise Q c m a) :=
  match a with
  | .node n fa =>
    decidable_of_iff (Q (c.configs n) (m.nodes n) fa) ⟨fun h n' fa' he => by cases he; exact h, fun h => h n fa rfl⟩
  | .sell _ | .proposals .. | .choose .. | .receipt .. | .lose _ | .follow .. | .exchange .. | .begin .. | .bidding ..
  | .accept .. | .put .. | .provide _ | .provision .. | .register .. | .join _ => .isTrue (by simp [Nodewise])

-- Functions are booked and released by nothing but the calls under the lock of a node.
theorem Nodewise.precise (h : Nodewise Precise c m a) (hp : Prompted m a n fa) :
    Precise (c.configs n) (m.nodes n) fa := by
  cases fa
  case locked => exact h n _ hp
  case tick | liveness | timer | bid | bidding | pay | provision =>
    exact ⟨by simp [Fog.State.admits], by simp [Fog.State.frees]⟩

namespace Requested

theorem new : Requested P (.new c now) where
  sales     := by simp [State.new]
  exchanges := by simp [State.new]

theorem step (hp : Preserves c.net P) (h : Requested P m) (ha : Asks P m a) (e : Effect c m a said m') :
    Requested P m' := by
  have hsale {id : SlaId} {sale sale' : Sale} (hs : m.sales id = some sale) (hsla : sale'.sla = sale.sla) :
      ∀ x sale, Function.update m.sales id (some sale') x = some sale → P sale.sla :=
    of_update h.sales (hsla ▸ h.sales id sale hs)
  have hstep {id : SlaId} {e e' : Exchange} {act} {m' : State} (he : m.exchanges id = some e)
      (hs : e.step c.net.contacts act = some e')
      (hc : ∀ t w content, act = .ask t w content → P t.content.sla → P content.sla)
      (hm : m'.exchanges = Function.update m.exchanges id (some e')) (hm' : m'.sales = m.sales) : Requested P m' :=
    ⟨hm' ▸ h.sales, hm ▸ of_update h.exchanges ((h.exchanges id e he).step hc hs)⟩
  cases e
  case put ha' hs             => exact ⟨of_update h.sales (ha _ _ ha'), h.exchanges⟩
  case fail hs                => exact ⟨hsale hs rfl, h.exchanges⟩
  case call id sale request hs _ hr =>
    refine ⟨hsale hs rfl, of_update h.exchanges ⟨fun r hr' => ?_, ?_⟩⟩
    case refine_1 =>
      rw [Multiset.mem_singleton.mp hr']
      exact hp _ _ hr (h.sales id sale hs)
    case refine_2 => simp [Echo.State.start]
  case collect hs _ _ _       => exact ⟨hsale hs rfl, h.exchanges⟩
  case choose hs _ _          => exact ⟨hsale hs rfl, h.exchanges⟩
  case locate hs _ _          => exact ⟨hsale hs rfl, h.exchanges⟩
  case offer hs _             => exact ⟨hsale hs rfl, h.exchanges⟩
  case receipt hs _ _ _       => exact ⟨hsale hs rfl, h.exchanges⟩
  case pay hs _ _             => exact ⟨hsale hs rfl, h.exchanges⟩
  case save hs _              => exact ⟨hsale hs rfl, h.exchanges⟩
  case follow he hs hr        =>
    refine hstep he hs (fun t w content hask ht => ?_) rfl rfl
    cases hask
    exact hp _ _ hr ht
  case exchange he hact hs    =>
    refine hstep he hs (fun t w content hask _ => ?_) rfl rfl
    subst hask
    cases hact
    case inl hact => exact hact.elim
    case inr hact =>
      obtain ⟨_, _, hact⟩ := hact
      contradiction
  case begin he hs _          => exact hstep he hs (by simp) rfl rfl
  case contribute out _ he hs => exact hstep he hs (fun _ _ _ hask _ => absurd hask contribution_ne_ask) rfl rfl
  case bid | provide | register | join | accept | node | provision => exact ⟨h.sales, h.exchanges⟩

end Requested

-- A function which is deployed somewhere is not forgotten by its node.
theorem undeployed_of_fresh (h : Consistent m) (hf : Fresh (m.nodes n) fa) : Undeployed (m.nodes n) fa := by
  intro sla hs hd
  obtain ⟨id, ht, hname⟩ := h.deployed n _ hd
  obtain ⟨record, hr, -⟩ := (h.tracking id n ht).2
  rw [← functionName_injective hname, hf sla hs] at hr
  contradiction

-- As long as the backends remove what they are asked to, every function can be removed from where it is deployed.
theorem removable_on_every_node (t : c.net.Tree) (hk : Keeps c.net) (r : Run (step c) Removing (.new c now) as m)
    (n : NodeId) (hl : (m.nodes n).locked = none) : Removable (m.nodes n) := by
  have hstep {m a m'} (x : Exchanged c m) (h : Consistent m ∧ Deploying (m.nodes n))
      (e : Effect c m a (a.spoken c m) m') : Consistent m' ∧ Deploying (m'.nodes n) := by
    refine ⟨h.1.step x e, ?_⟩
    obtain hn | ⟨fa, hs, -⟩ := node_of_effect e n
    case inl => exact hn ▸ h.2
    case inr => exact h.2.step (x.answered.fresh fa) hs
  have hremoves {m : State} {a : Act} {fa : Fog.Act} (ho : Removing m a) (hp : Prompted m a n fa) :
      Removes (m.nodes n) fa := by
    cases fa
    case tick | liveness | timer | locked => exact ho n _ hp
    case bid | bidding | pay | provision  => simp [Removes, Fog.State.removes]
  obtain ⟨acts, hn⟩ := node_run (P := fun m => Consistent m ∧ Deploying (m.nodes n))
    (Q := fun s a => Removes s a ∧ Deploys s a ∧ Undeployed s a) t hk exchanged_new ⟨.new, deploying_new⟩ n
    (fun x h _ e => hstep x h e)
    (fun _ h ho hp hf => ⟨hremoves ho hp, h.2.deploys _, undeployed_of_fresh h.1 hf⟩) r
  have h : Kept (m.nodes n) := by
    refine hn.invariant .new ?_
    rintro s a s' h ⟨hr, hd, hu⟩ e
    exact h.step hr hd hu e
  intro name hm
  obtain ⟨id, hi, hg, -⟩ := h.recorded (by simp [hl]) (by simp [hl]) hm
  exact ⟨id, hi, hg⟩

theorem removable_on_every_node_of_example : ∃ m, Run (step exampleSettings) Removing (.new exampleSettings fun _ => 0)
      (askingActs ++ buyingActs ++ provisioningActs) m ∧ (m.nodes ⟨2⟩).deployed.Nonempty ∧ Removable (m.nodes ⟨2⟩) := by
  obtain ⟨m, r, hl, hd⟩ : ∃ m, Run (step exampleSettings) Removing (.new exampleSettings fun _ => 0)
      (askingActs ++ buyingActs ++ provisioningActs) m ∧ (m.nodes ⟨2⟩).locked = none ∧
      (m.nodes ⟨2⟩).deployed.Nonempty :=
    Run.of_exec_any (by decide +kernel)
  exact ⟨m, r, hd, removable_on_every_node Network.tree_exampleNetwork keeps_exampleNetwork r ⟨2⟩ hl⟩

end Marketplace
