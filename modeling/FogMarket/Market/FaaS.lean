import FogMarket.Market.FogNode.Serve

open Transition

def AcceptedBid.id (bid : AcceptedBid) : BidId :=
  bid.chosen.bid.id

def AcceptedBid.nodeId (bid : AcceptedBid) : NodeId :=
  bid.chosen.bid.nodeId

namespace Market

-- The bids which the record of a node holds.
def FogNode.acceptedBids (nodes : FogNode) (id : NodeId) : Map BidId AcceptedBid :=
  (nodes.lookup id).elim ∅ (·.data.acceptedBids)

namespace FogNodeFaaS

-- What a call of `pay_for_function` does next.
inductive Progress
  | takeOffer
  | get
  | update (record : NodeRecord)
  | done (ok : Bool)

-- `pay_for_function` from one await to the next. The winning node may refuse the offer.
def payForFunction (nodes : FogNode) (bid : AcceptedBid) (ok : Bool) : Progress → Option (FogNode × Progress)
  | .takeOffer => some (nodes, if ok then .get else .done false)
  | .get =>
    match nodes.get bid.nodeId with
    | none      => some (nodes, .done false)
    | some node => some (nodes, .update node.data)
  | .update record =>
    let accepted := { record with acceptedBids := record.acceptedBids.insert bid.id bid }
    some (nodes.update bid.nodeId accepted, .done true)
  | .done _ => none

-- A registry while some bids are paid.
structure Paying (ι : Type*) where
  nodes    : FogNode
  progress : ι → Progress

namespace Paying

variable {ι : Type*} [DecidableEq ι]

def start (nodes : FogNode) : Paying ι where
  nodes    := nodes
  progress := fun _ => .takeOffer

-- Any of the calls may go on next.
def step (bids : ι → AcceptedBid) (s : Paying ι) (a : ι × Bool) : Option (Paying ι) :=
  (payForFunction s.nodes (bids a.1) a.2 (s.progress a.1)).map fun (nodes, p) =>
    { nodes := nodes, progress := Function.update s.progress a.1 p }

end Paying

-- The winning nodes are registered, and the ids of the bids are new.
structure Offers {ι : Type*} (nodes₀ : FogNode) (bids : ι → AcceptedBid) : Prop where
  registered : ∀ i, (bids i).nodeId ∈ nodes₀
  distinct   : ∀ i j, (bids i).id = (bids j).id → i = j
  new        : ∀ i, (bids i).id ∉ nodes₀.acceptedBids (bids i).nodeId

-- All bids are recorded by their winning nodes, next to those which have been there before.
structure Kept {ι : Type*} (nodes₀ : FogNode) (bids : ι → AcceptedBid) (nodes : FogNode) : Prop where
  paid   : ∀ i, (nodes.acceptedBids (bids i).nodeId).lookup (bids i).id = some (bids i)
  before : ∀ x id bid, (nodes₀.acceptedBids x).lookup id = some bid → (nodes.acceptedBids x).lookup id = some bid

-- A record which is written back holds the bids of the record it replaces.
def Current {ι : Type*} (bids : ι → AcceptedBid) (s : Paying ι) (a : ι × Bool) : Prop :=
  match s.progress a.1 with
  | .update record => record.acceptedBids = s.nodes.acceptedBids (bids a.1).nodeId
  | _              => True

-- What a step of the call `i` can do.
inductive Effect {ι : Type*} (bids : ι → AcceptedBid) (s : Paying ι) (i : ι) (s' : Paying ι) : Prop
  | move (hn : s'.nodes = s.nodes) (hi : s.progress i = .takeOffer ∨ s.progress i = .get)
      (hd : s'.progress i ≠ .done true) (hu : ∀ record, s'.progress i ≠ .update record)
  | read {record : NodeRecord} (hn : s'.nodes = s.nodes) (hi : s.progress i = .get)
      (hp : s'.progress i = .update record) (hr : record.acceptedBids = s.nodes.acceptedBids (bids i).nodeId)
  | write {record : NodeRecord} (hm : ∀ x, x ∈ s'.nodes ↔ x ∈ s.nodes) (hi : s.progress i = .update record)
      (hp : s'.progress i = .done true)
      (ha : ∀ x, (bids i).nodeId ∈ s.nodes → s'.nodes.acceptedBids x =
        if x = (bids i).nodeId then record.acceptedBids.insert (bids i).id (bids i) else s.nodes.acceptedBids x)

section

variable {ι : Type*} {nodes₀ nodes nodes' : FogNode} {bids : ι → AcceptedBid} {s s' : Paying ι}
variable {i j : ι} {ok : Bool} {p p' : Progress} {record record' : NodeRecord} {x id : NodeId} {bid : AcceptedBid}
variable {a : ι × Bool} {as : List (ι × Bool)}

instance : Decidable (Current bids s a) := by
  unfold Current
  split <;> infer_instance

theorem acceptedBids_update : (nodes.update id record).acceptedBids x =
    if x = id ∧ id ∈ nodes then record.acceptedBids else nodes.acceptedBids x := by
  simp only [FogNode.update, FogNode.acceptedBids]
  split
  case h_1 hl => simp [Finmap.lookup_eq_none.mp hl]
  case h_2 hl =>
    simp only [Map.lookup_insert_eq, Map.mem_of_lookup hl, and_true]
    split <;> rfl

-- The bids of all calls which have returned are recorded.
structure Intact (nodes₀ : FogNode) (bids : ι → AcceptedBid) (s : Paying ι) : Prop where
  registered : ∀ i, (bids i).nodeId ∈ s.nodes
  paid       : ∀ i, s.progress i = .done true →
    (s.nodes.acceptedBids (bids i).nodeId).lookup (bids i).id = some (bids i)
  before     : ∀ x id bid, (nodes₀.acceptedBids x).lookup id = some bid →
    (s.nodes.acceptedBids x).lookup id = some bid

theorem intact_start (o : Offers nodes₀ bids) : Intact nodes₀ bids (.start nodes₀) where
  registered     := o.registered
  paid _ h       := by simp [Paying.start] at h
  before _ _ _ h := h

-- A call has returned whose bid is not there.
def Misses (bids : ι → AcceptedBid) (s : Paying ι) (x : NodeId) (accepted : Map BidId AcceptedBid) : Prop :=
  ∃ j, (bids j).nodeId = x ∧ s.progress j = .done true ∧ (bids j).id ∉ accepted

-- A call only adds its own bid to the record which it has read.
theorem Misses.insert {accepted : Map BidId AcceptedBid} (o : Offers nodes₀ bids) (h : Misses bids s x accepted)
    (hi : s.progress i = .update record) : Misses bids s x (accepted.insert (bids i).id (bids i)) := by
  have ⟨j, hj, hd, hm⟩ := h
  refine ⟨j, hj, hd, fun hm' => ?_⟩
  cases Finmap.mem_insert.mp hm'
  case inl he => simp [o.distinct _ _ he, hi] at hd
  case inr hm' => exact hm hm'

-- Bids are recorded by their own calls, and a record which is not current misses one of them.
structure Known (bids : ι → AcceptedBid) (s : Paying ι) : Prop where
  registered : ∀ i, (bids i).nodeId ∈ s.nodes
  recorded   : ∀ j, (bids j).id ∈ s.nodes.acceptedBids (bids j).nodeId → s.progress j = .done true
  read       : ∀ i j record, s.progress i = .update record → (bids j).nodeId = (bids i).nodeId →
    (bids j).id ∈ record.acceptedBids → s.progress j = .done true
  current    : ∀ i record, s.progress i = .update record →
    record.acceptedBids = s.nodes.acceptedBids (bids i).nodeId ∨
      Misses bids s (bids i).nodeId record.acceptedBids

theorem Known.start (o : Offers nodes₀ bids) : Known bids (.start nodes₀) where
  registered   := o.registered
  recorded j h := absurd h (o.new j)
  read         := by simp [Paying.start]
  current      := by simp [Paying.start]

-- The record which a call has read does not hold the bid of another call which is still in progress.
theorem Known.misses_write (h : Known bids s) (hi : s.progress i = .update record) (hd : s'.progress i = .done true)
    (hj : s.progress j = .update record') (hn : (bids j).nodeId = (bids i).nodeId) :
    Misses bids s' (bids i).nodeId record'.acceptedBids := by
  refine ⟨i, rfl, hd, fun hm => ?_⟩
  have := h.read j i record' hj hn.symm hm
  simp [hi] at this

-- Neither the record of the node nor any copy of it holds all the bids which it should.
structure Lost (bids : ι → AcceptedBid) (s : Paying ι) (x : NodeId) : Prop where
  recorded : Misses bids s x (s.nodes.acceptedBids x)
  read     : ∀ i record, s.progress i = .update record → (bids i).nodeId = x →
    Misses bids s x record.acceptedBids

theorem Lost.not_kept (h : Lost bids s x) (hk : Kept nodes₀ bids s.nodes) : False := by
  have ⟨j, hj, _, hm⟩ := h.recorded
  exact hm (hj ▸ Map.mem_of_lookup (hk.paid j))

variable [DecidableEq ι]

theorem effect_of_step (e : Paying.step bids s a = some s') : Effect bids s a.1 s' := by
  have ⟨⟨nodes', p'⟩, h, he⟩ := Option.map_eq_some_iff.mp e
  subst he
  generalize hp : s.progress a.1 = p at h
  cases p <;> simp only [payForFunction] at h
  case takeOffer =>
    cases h
    exact .move rfl (.inl hp) (by simp only [Function.update_self]; split <;> simp)
      (by simp only [Function.update_self]; split <;> simp)
  case get =>
    split at h <;> cases h
    case h_1 => exact .move rfl (.inr hp) (by simp) (by simp)
    case h_2 node hl =>
      have hl : s.nodes.lookup (bids a.1).nodeId = some node := hl
      exact .read rfl hp (Function.update_self ..) (by simp [FogNode.acceptedBids, hl])
  case update record =>
    cases h
    refine .write (fun x => FogNode.mem_update) hp (Function.update_self ..) fun x hm => ?_
    rw [acceptedBids_update]
    simp [hm]
  case done => contradiction

theorem progress_step (e : Paying.step bids s a = some s') (hj : j ≠ a.1) : s'.progress j = s.progress j := by
  have ⟨_, _, he⟩ := Option.map_eq_some_iff.mp e
  exact he ▸ Function.update_of_ne hj ..

theorem registered_step (h : ∀ i, (bids i).nodeId ∈ s.nodes) (e : Paying.step bids s a = some s') (i : ι) :
    (bids i).nodeId ∈ s'.nodes := by
  cases effect_of_step e
  case move hn _ _ _  => exact hn ▸ h i
  case read hn _ _ _  => exact hn ▸ h i
  case write hm _ _ _ => exact (hm _).mpr (h i)

theorem intact_step (o : Offers nodes₀ bids) (h : Intact nodes₀ bids s) (hc : Current bids s a)
    (e : Paying.step bids s a = some s') : Intact nodes₀ bids s' := by
  have hr := registered_step h.registered e
  have hstay (hn : s'.nodes = s.nodes) (hd : s'.progress a.1 ≠ .done true) : Intact nodes₀ bids s' := by
    refine ⟨hr, fun j hj => ?_, hn ▸ h.before⟩
    have hja : j ≠ a.1 := fun hja => hd (hja ▸ hj)
    rw [hn]
    exact h.paid j (progress_step e hja ▸ hj)
  cases effect_of_step e
  case move hn _ hd _ => exact hstay hn hd
  case read hn _ hp _ => exact hstay hn (by simp [hp])
  case write record hm hi hp ha =>
    simp only [Current, hi] at hc
    -- The record has not changed since it has been read, so that nothing else is overwritten.
    have hw {x id} (hne : x = (bids a.1).nodeId → id ≠ (bids a.1).id) :
        (s'.nodes.acceptedBids x).lookup id = (s.nodes.acceptedBids x).lookup id := by
      rw [ha x (h.registered a.1)]
      split
      case isTrue hx  => rw [Map.lookup_insert_eq, if_neg (hne hx), hc, hx]
      case isFalse    => rfl
    constructor
    case registered => exact hr
    case paid =>
      intro j hj
      by_cases hja : j = a.1
      case pos => rw [hja, ha _ (h.registered a.1), if_pos rfl, Finmap.lookup_insert]
      case neg =>
        rw [hw fun _ he => hja (o.distinct _ _ he)]
        exact h.paid j (progress_step e hja ▸ hj)
    case before =>
      intro x id bid hb
      rw [hw, h.before x id bid hb]
      intro hx he
      exact o.new a.1 (Map.mem_of_lookup (he ▸ hx ▸ hb))

theorem done_step (h : s.progress j = .done true) (e : Paying.step bids s a = some s') :
    s'.progress j = .done true := by
  by_cases hja : j = a.1
  case neg => exact progress_step e hja ▸ h
  case pos =>
    subst hja
    cases effect_of_step e
    case move hi _ _ => cases hi <;> simp_all
    case read hi _ _ => simp [hi] at h
    case write hp _  => exact hp

theorem Misses.step {accepted : Map BidId AcceptedBid} (h : Misses bids s x accepted)
    (e : Paying.step bids s a = some s') : Misses bids s' x accepted :=
  have ⟨j, hj, hd, hm⟩ := h
  ⟨j, hj, done_step hd e, hm⟩

namespace Known

theorem step (o : Offers nodes₀ bids) (h : Known bids s) (e : Paying.step bids s a = some s') :
    Known bids s' := by
  have hr := registered_step h.registered e
  have hpast {j record} (hj : j ≠ a.1) (hp : s'.progress j = .update record) : s.progress j = .update record :=
    progress_step e hj ▸ hp
  cases effect_of_step e
  case move hn _ _ hu =>
    have hne {j record} (hp : s'.progress j = .update record) : j ≠ a.1 := fun hj => hu record (hj ▸ hp)
    constructor
    case registered => exact hr
    case recorded   => exact fun j hm => done_step (h.recorded j (hn ▸ hm)) e
    case read       => exact fun i j record hp he hm => done_step (h.read i j record (hpast (hne hp) hp) he hm) e
    case current    =>
      intro i record hp
      rw [hn]
      exact (h.current i record (hpast (hne hp) hp)).imp_right (·.step e)
  case read record hn hi hp hrec =>
    constructor
    case registered => exact hr
    case recorded   => exact fun j hm => done_step (h.recorded j (hn ▸ hm)) e
    case read       =>
      intro i j record' hp' he hm
      refine done_step ?_ e
      by_cases hia : i = a.1
      case pos =>
        subst hia
        cases hp.symm.trans hp'
        exact h.recorded j (he ▸ hrec ▸ hm)
      case neg => exact h.read i j record' (hpast hia hp') he hm
    case current    =>
      intro i record' hp'
      by_cases hia : i = a.1
      case pos =>
        subst hia
        cases hp.symm.trans hp'
        exact .inl (by rw [hn, hrec])
      case neg =>
        rw [hn]
        exact (h.current i record' (hpast hia hp')).imp_right (·.step e)
  case write record hm hi hp ha =>
    have hne {j record} (hp' : s'.progress j = .update record) : j ≠ a.1 := by
      rintro rfl
      simp [hp] at hp'
    have ha x := ha x (h.registered a.1)
    constructor
    case registered => exact hr
    case recorded   =>
      intro j hm
      rw [ha] at hm
      split at hm
      case isFalse    => exact done_step (h.recorded j hm) e
      case isTrue hja =>
        cases Finmap.mem_insert.mp hm
        case inl he => exact o.distinct _ _ he ▸ hp
        case inr hm => exact done_step (h.read a.1 j record hi hja hm) e
    case read       => exact fun i j record' hp' he hm => done_step (h.read i j record' (hpast (hne hp') hp') he hm) e
    case current    =>
      intro i record' hp'
      have hp' := hpast (hne hp') hp'
      rw [ha]
      split
      case isTrue hia => exact .inr (hia ▸ h.misses_write hi hp hp' hia)
      case isFalse    => exact (h.current i record' hp').imp_right (·.step e)

end Known

namespace Lost

theorem step (o : Offers nodes₀ bids) (hk : Known bids s) (h : Lost bids s x)
    (e : Paying.step bids s a = some s') : Lost bids s' x := by
  have hpast {j record} (hj : j ≠ a.1) (hp : s'.progress j = .update record) : s.progress j = .update record :=
    progress_step e hj ▸ hp
  cases effect_of_step e
  case move hn _ _ hu =>
    refine ⟨hn ▸ h.recorded.step e, fun i record hp hx => (h.read i record (hpast ?_ hp) hx).step e⟩
    exact fun hj => hu record (hj ▸ hp)
  case read record hn hi hp hrec =>
    refine ⟨hn ▸ h.recorded.step e, fun i record' hp' hx => ?_⟩
    by_cases hia : i = a.1
    case pos =>
      subst hia
      cases hp.symm.trans hp'
      rw [hrec, hx]
      exact h.recorded.step e
    case neg => exact (h.read i record' (hpast hia hp') hx).step e
  case write record hm hi hp ha =>
    constructor
    case recorded =>
      rw [ha x (hk.registered a.1)]
      split
      case isTrue hx => exact ((h.read a.1 record hi hx.symm).insert o hi).step e
      case isFalse   => exact h.recorded.step e
    case read =>
      intro i record' hp' hx
      refine (h.read i record' (hpast ?_ hp') hx).step e
      rintro rfl
      simp [hp] at hp'

theorem of_not_current (o : Offers nodes₀ bids) (hk : Known bids s) (hc : ¬ Current bids s a)
    (e : Paying.step bids s a = some s') : Lost bids s' (bids a.1).nodeId := by
  simp only [Current] at hc
  split at hc
  case h_2 => contradiction
  case h_1 record hi =>
    cases effect_of_step e
    case move hi' _ _ => cases hi' <;> simp_all
    case read hi' _ _ => simp [hi] at hi'
    case write record' hm hi' hp ha =>
      cases hi.symm.trans hi'
      constructor
      case recorded =>
        rw [ha _ (hk.registered a.1), if_pos rfl]
        exact (((hk.current a.1 record hi).resolve_left hc).insert o hi).step e
      case read =>
        intro i record' hp' hx
        have hia : i ≠ a.1 := by
          rintro rfl
          simp [hp] at hp'
        exact hk.misses_write hi hp (progress_step e hia ▸ hp') hx

end Lost

theorem run_current_or_lost (o : Offers nodes₀ bids) (h : Known bids s) (r : Run (Paying.step bids) free s as s') :
    Run (Paying.step bids) (Current bids) s as s' ∨ ∃ x, Lost bids s' x := by
  induction r
  case refl => exact .inl .refl
  case trans s₁ s₂ _ a _ _ e r hi =>
    have h₂ := h.step o e
    by_cases hc : Current bids s₁ a
    case pos => exact (hi h₂).imp_left (.trans hc e)
    case neg =>
      have hl := r.invariant (I := fun s => Known bids s ∧ Lost bids s (bids a.1).nodeId)
        ⟨h₂, .of_not_current o h hc e⟩ fun h _ e => ⟨h.1.step o e, h.2.step o h.1 e⟩
      exact .inr ⟨_, hl.2⟩

-- Once all calls have returned, no bid has been lost exactly if all records were current when they were
-- written back.
theorem kept_iff_current (o : Offers nodes₀ bids) (r : Run (Paying.step bids) free (.start nodes₀) as s)
    (hd : ∀ i, s.progress i = .done true) :
    Kept nodes₀ bids s.nodes ↔ Run (Paying.step bids) (Current bids) (.start nodes₀) as s := by
  constructor
  case mp =>
    intro hk
    refine (run_current_or_lost o (.start o) r).resolve_right ?_
    exact fun ⟨x, hl⟩ => hl.not_kept hk
  case mpr =>
    intro r
    have h := r.invariant (intact_start o) (intact_step o)
    exact ⟨fun i => h.paid i (hd i), h.before⟩

end

def single : FogNode :=
  (∅ : FogNode).insert ⟨1⟩ (FogNode.fresh none (.new (.v4 0) 80 8080 []))

def exampleSla (id : Uuid) : Sla where
  id           := ⟨id⟩
  memory       := 1
  cpu          := 1
  latencyMax   := 1
  duration     := 1000
  maxReplica   := 1
  inputMaxSize := 1

-- Two auctions which are won by the same node.
def exampleBids (i : Fin 2) : AcceptedBid :=
  let bid := { nodeId := ⟨1⟩, id := if i = 0 then ⟨10⟩ else ⟨11⟩, bid := 1 }
  { chosen    := { bid := bid, ip := .v4 0, port := 8080, price := 1 }
    proposals := { bids := [bid] }
    sla       := exampleSla (if i = 0 then 20 else 21) }

theorem offers_exampleBids : Offers single exampleBids where
  registered := by decide +kernel
  distinct   := by decide +kernel
  new        := by decide +kernel

instance (p : Progress) : Decidable (p = .done true) :=
  match p with
  | .done true => .isTrue rfl
  | .done false | .takeOffer | .get | .update _ => .isFalse nofun

theorem kept_iff_current_of_two :
    ∃ s : Paying (Fin 2), (∀ i, s.progress i = .done true) ∧ Kept single exampleBids s.nodes := by
  have ⟨s, r, hd⟩ : ∃ s, Run (Paying.step exampleBids) (Current exampleBids) (.start single)
      [(0, true), (1, true), (0, true), (0, true), (1, true), (1, true)] s ∧
      ∀ i, s.progress i = .done true :=
    Run.of_exec_any (by decide +kernel)
  exact ⟨s, hd, (kept_iff_current offers_exampleBids r.toFree hd).mpr r⟩

-- Both calls read the record before one of them writes it back.
theorem not_kept_of_two :
    Offers single exampleBids ∧ ∃ s, Run (Paying.step exampleBids) free (.start single)
        [(0, true), (1, true), (0, true), (1, true), (0, true), (1, true)] s ∧
      (∀ i, s.progress i = .done true) ∧ ¬ Kept single exampleBids s.nodes := by
  have ⟨s, r, hd, hl⟩ : ∃ s, Run (Paying.step exampleBids) free (.start single)
      [(0, true), (1, true), (0, true), (1, true), (0, true), (1, true)] s ∧
      (∀ i, s.progress i = .done true) ∧ ⟨10⟩ ∉ s.nodes.acceptedBids ⟨1⟩ :=
    Run.of_exec_any (by decide +kernel)
  refine ⟨offers_exampleBids, s, r, hd, fun hk => hl ?_⟩
  exact Map.mem_of_lookup (hk.paid 0)

end FogNodeFaaS
end Market
