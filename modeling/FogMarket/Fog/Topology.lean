import FogMarket.Fog.Placement
import FogMarket.Market.FogNode.Rollback

open Transition Market

namespace Fog

structure ChildRegistration where
  nodeId              : NodeId
  parent              : NodeId
  ip                  : IpAddr
  portHttp            : BitVec 16
  portFaas            : BitVec 16
  tags                : List String
  advertisedBandwidth : InformationRate

inductive RegisterNode
  | marketNode (nodeId : NodeId) (ip : IpAddr) (portHttp portFaas : BitVec 16) (tags : List String)
  | node (register : ChildRegistration)

-- What becomes of the requests by which a registration is sent on. A request may not get there, and its
-- response may not come back. As long as the response is not a success, the request is sent again, until the
-- backoff gives up. `above` is what becomes of the requests of the receiver.
inductive Fate
  | giveUp
  | lost (next : Fate)
  | delivered (heard : Bool) (above next : Fate)

-- The fog nodes, and what is registered on the market.
structure Topology where
  nodes    : Map NodeId NodeSituation
  registry : FogNode

def NodeSituation.register (situation : NodeSituation) (id : NodeId) (description : NodeDescription) :
    NodeSituation :=
  { situation with children := situation.children.insert id description }

namespace Topology

-- The part of `register_child_node` which comes before the request to the parent.
def registerLocally (s : Topology) (id : NodeId) (situation : NodeSituation) (register : ChildRegistration) :
    Topology :=
  if situation.myId = register.parent then
    let description := { advertisedBandwidth := register.advertisedBandwidth }
    { s with nodes := s.nodes.insert id (situation.register register.nodeId description) }
  else
    s

-- `register_node` of the market
def registerNode (fuel : ℕ) (s : Topology) (register : RegisterNode) : Option (Bool × Topology) :=
  let result := match register with
    | .marketNode nodeId ip portHttp portFaas tags =>
      s.registry.appendRoot fuel nodeId ip portHttp portFaas tags
    | .node register =>
      s.registry.appendNewChild fuel register.parent register.nodeId register.ip register.portHttp register.portFaas
        register.tags
  result.map fun (outcome, registry) => (outcome = .ok, { s with registry := registry })

-- The market cannot be registered as a child. `proceed` is the request to the parent.
def registerChildNode (s : Topology) (id : NodeId) (register : RegisterNode)
    (proceed : Option NodeId → Topology → Option (Bool × Topology)) : Option (Bool × Topology) :=
  match s.nodes.lookup id, register with
  | none, _                        => some (false, s)
  | some _, .marketNode ..         => some (false, s)
  | some situation, .node register => proceed situation.parentId (s.registerLocally id situation register)

-- The receiver is the market if there is no parent. The first component tells whether the call is `Ok`.
def registerToParent (fuel : ℕ) (register : RegisterNode) :
    Fate → Option NodeId → Topology → Option (Bool × Topology)
  | .giveUp, _, s => some (false, s)
  | .lost next, receiver, s => registerToParent fuel register next receiver s
  | .delivered heard above next, receiver, s =>
    let response := match receiver with
      | none    => s.registerNode fuel register
      | some id => s.registerChildNode id register (registerToParent fuel register above)
    response.bind fun (ok, s) =>
      if ok ∧ heard then some (true, s) else registerToParent fuel register next receiver s

-- A node registers with the parent it names, or with the market.
structure Registering where
  fuel     : ℕ
  register : RegisterNode
  fate     : Fate

def Registering.receiver (a : Registering) : Option NodeId :=
  match a.register with
  | .marketNode ..  => none
  | .node register  => some register.parent

def step (s : Topology) (a : Registering) : Option Topology :=
  (registerToParent a.fuel a.register a.fate a.receiver s).map (·.2)

-- `child` is one of the children which `parent` knows of.
def Lists (s : Topology) (parent child : NodeId) : Prop :=
  ∃ situation ∈ s.nodes.lookup parent, child ∈ situation.children

-- The fog nodes and the market know of the same parents and children.
def Agrees (s : Topology) : Prop :=
  ∀ parent child, s.Lists parent child ↔ s.registry.parent child = some parent

-- The nodes know their ids.
def Named (s : Topology) : Prop :=
  ∀ id, ∀ situation ∈ s.nodes.lookup id, situation.myId = id

-- At least one of the requests gets to a receiver which is there.
def Arrives (s : Topology) (receiver : NodeId) : Fate → Prop
  | .giveUp         => False
  | .lost next      => Arrives s receiver next
  | .delivered ..   => receiver ∈ s.nodes

-- At least one of the requests gets to the market.
def Reaches (s : Topology) : Fate → Option NodeId → Prop
  | .giveUp, _                       => False
  | .lost next, receiver             => Reaches s next receiver
  | .delivered _ above next, receiver =>
    (match receiver with
    | none    => True
    | some id =>
      match s.nodes.lookup id with
      | none           => False
      | some situation => Reaches s above situation.parentId) ∨
    Reaches s next receiver

-- The market accepts the child. A node which is registered as its own child is written even if it does not.
def Welcomes (s : Topology) (parent child : NodeId) : Prop :=
  parent ∈ s.registry ∧ (parent = child ∨ s.registry.Welcomes parent child)

-- The child has not been registered under another parent. Its registration goes on to a market which knows the
-- parent, and which accepts the child, or else the child has already been registered there.
structure Settles (s : Topology) (register : ChildRegistration) (fate : Fate) : Prop where
  unmoved  : ∀ parent, s.registry.parent register.nodeId = some parent → parent = register.parent
  recorded : s.registry.parent register.nodeId = some register.parent ∨
    s.Reaches fate (some register.parent) ∧ register.parent ∈ s.registry
  welcome  : s.Reaches fate (some register.parent) → register.parent ∈ s.registry →
    s.Welcomes register.parent register.nodeId

-- The root has not been registered as a child.
def Settled (s : Topology) (a : Registering) : Prop :=
  match a.register with
  | .marketNode nodeId .. => s.registry.parent nodeId = none
  | .node register        => s.Arrives register.parent a.fate → s.Settles register a.fate

variable {s s' s₁ : Topology} {register : ChildRegistration} {fate : Fate} {receiver : Option NodeId} {fuel : ℕ}
variable {ok : Bool} {id p c : NodeId} {situation : NodeSituation} {reached reached' : Prop}

-- What the registration of a child can change.
structure Extends (register : ChildRegistration) (s s' : Topology) : Prop where
  named   : s'.Named
  parents : ∀ id, (s'.nodes.lookup id).map NodeSituation.parentId = (s.nodes.lookup id).map NodeSituation.parentId
  lists   : ∀ p c, s.Lists p c → s'.Lists p c
  listed  : ∀ p c, s'.Lists p c → s.Lists p c ∨ p = register.parent ∧ c = register.nodeId
  others  : ∀ c, c ≠ register.nodeId → s'.registry.parent c = s.registry.parent c
  welcome : s.Welcomes register.parent register.nodeId → s'.Welcomes register.parent register.nodeId

namespace Extends

theorem refl (h : s.Named) : Extends register s s where
  named       := h
  parents _   := rfl
  lists _ _   := id
  listed _ _  := .inl
  others _ _  := rfl
  welcome     := id

theorem trans (h₁ : Extends register s s₁) (h₂ : Extends register s₁ s') : Extends register s s' where
  named       := h₂.named
  parents id  := (h₂.parents id).trans (h₁.parents id)
  lists p c   := h₂.lists p c ∘ h₁.lists p c
  listed p c  := fun h => (h₂.listed p c h).elim (h₁.listed p c) .inr
  others c hc := (h₂.others c hc).trans (h₁.others c hc)
  welcome     := h₂.welcome ∘ h₁.welcome

theorem reaches_iff (h : Extends register s s') : s'.Reaches fate receiver ↔ s.Reaches fate receiver := by
  induction fate generalizing receiver
  case giveUp => rfl
  case lost next hi => exact hi
  case delivered heard above next ha hi =>
    simp only [Reaches, hi]
    refine or_congr_left ?_
    split
    case h_1 => rfl
    case h_2 id =>
      have hp := h.parents id
      cases hs : s.nodes.lookup id
      case none =>
        rw [hs, Option.map_none, Option.map_eq_none_iff] at hp
        simp [hp]
      case some situation =>
        rw [hs, Option.map_some, Option.map_eq_some_iff] at hp
        have ⟨situation', hs', he⟩ := hp
        simp only [hs', he]
        exact ha

end Extends

-- What is known of a registration when it returns.
structure Handled (register : ChildRegistration) (s : Topology) (reached : Prop) (ok : Bool) (s' : Topology) : Prop
    extends Extends register s s' where
  unreached : ¬ (reached ∧ register.parent ∈ s.registry) → s'.registry = s.registry
  accepted  : ok = true → reached
  recorded  : s.Welcomes register.parent register.nodeId → reached →
    s'.registry.parent register.nodeId = some register.parent

theorem lists_registerLocally (hn : s.Named) (hl : s.nodes.lookup id = some situation) :
    (s.registerLocally id situation register).Lists p c ↔
      s.Lists p c ∨ p = id ∧ p = register.parent ∧ c = register.nodeId := by
  have hid := hn id situation hl
  simp only [registerLocally, hid]
  split
  case isFalse hp => exact ⟨.inl, fun h => h.elim (fun h => h) fun ⟨hi, he, _⟩ => absurd (hi.symm.trans he) hp⟩
  case isTrue hp =>
    simp only [Lists, Map.lookup_insert_eq]
    split
    case isFalse hi => simp [hi]
    case isTrue hi =>
      subst hi
      simp [hl, hp, NodeSituation.register, AList.mem_insert, or_comm]

theorem handled_registerLocally (register : ChildRegistration) (hn : s.Named)
    (hl : s.nodes.lookup id = some situation) :
    Handled register s False false (s.registerLocally id situation register) := by
  have hr : (s.registerLocally id situation register).registry = s.registry := by
    rw [registerLocally]
    split <;> rfl
  have hs x : (s.registerLocally id situation register).nodes.lookup x = s.nodes.lookup x ∨
      x = id ∧ ∃ description, (s.registerLocally id situation register).nodes.lookup x =
        some (situation.register register.nodeId description) := by
    simp only [registerLocally]
    split
    case isFalse => exact .inl rfl
    case isTrue =>
      rw [Map.lookup_insert_eq]
      split
      case isTrue hx  => exact .inr ⟨hx, _, rfl⟩
      case isFalse hx => exact .inl rfl
  refine ⟨⟨?named, ?parents, ?lists, ?listed, ?others, ?welcome⟩, fun _ => hr, nofun, nofun⟩
  case lists   => exact fun p c h => (lists_registerLocally hn hl).mpr (.inl h)
  case listed  => exact fun p c h => ((lists_registerLocally hn hl).mp h).imp_right And.right
  case others  => exact fun c _ => by rw [hr]
  case welcome => exact fun h => by rwa [Welcomes, hr]
  case named =>
    intro x situation' hx
    cases hs x
    case inl he => exact hn x situation' (he ▸ hx)
    case inr he =>
      have ⟨hi, _, he⟩ := he
      cases he.symm.trans hx
      exact (hn id situation hl).trans hi.symm
  case parents =>
    intro x
    cases hs x
    case inl he => rw [he]
    case inr he =>
      have ⟨hi, _, he⟩ := he
      rw [he, hi, hl]
      rfl

theorem Handled.refl (h : s.Named) (hok : ok = true → reached) (hr : ¬ reached) :
    Handled register s reached ok s where
  toExtends    := .refl h
  unreached _  := rfl
  accepted     := hok
  recorded _ h := absurd h hr

theorem handled_registerNode (hn : s.Named) (h : s.registerNode fuel (.node register) = some (ok, s')) :
    Handled register s True ok s' := by
  have ⟨⟨outcome, registry⟩, ha, he⟩ := Option.map_eq_some_iff.mp h
  cases he
  -- The fog nodes are not changed.
  have hregistry (hunknown : register.parent ∉ s.registry → registry = s.registry)
      (hothers : ∀ c, c ≠ register.nodeId → registry.parent c = s.registry.parent c)
      (hwelcome : s.Welcomes register.parent register.nodeId →
        Welcomes { s with registry := registry } register.parent register.nodeId ∧
          registry.parent register.nodeId = some register.parent) :
      Handled register s True (outcome = .ok) { s with registry := registry } :=
    { Extends.refl hn with
      others := hothers
      welcome := fun h => (hwelcome h).1
      unreached := fun h => hunknown fun hp => h ⟨trivial, hp⟩
      accepted := fun _ => trivial
      recorded := fun h _ => (hwelcome h).2 }
  apply hregistry <;>
    rcases FogNode.appendNewChild_spec ha with ⟨hp, _, rfl⟩ | ⟨node, hp, ⟨hacc, _, rfl⟩ | ⟨hrej, e, _, rfl⟩⟩
  case hunknown.inl => exact fun _ => rfl
  case hunknown.inr.inl | hunknown.inr.inr => exact fun h => absurd (Map.mem_of_lookup hp) h
  case hothers.inl => exact fun _ _ => rfl
  case hothers.inr.inl => exact fun c hc => by rw [FogNode.parent_append hp, if_neg hc]
  case hothers.inr.inr =>
    intro c hc
    split
    case isTrue  => rw [FogNode.parent_append hp, if_neg hc]
    case isFalse => rw [FogNode.parent_undo hp, if_neg hc]
  case hwelcome.inl => exact fun h => absurd h.1 hp
  case hwelcome.inr.inl =>
    intro h
    refine ⟨⟨(FogNode.mem_append hp).mpr (.inr h.1), h.2.imp_right fun h => h.append hp _⟩, ?_⟩
    rw [FogNode.parent_append hp, if_pos rfl]
  case hwelcome.inr.inr =>
    intro h
    have he : register.parent = register.nodeId :=
      h.2.resolve_right fun h => hrej ((FogNode.accepted_append_iff hp).mpr h)
    rw [if_pos he]
    refine ⟨⟨(FogNode.mem_append hp).mpr (.inr h.1), .inl he⟩, ?_⟩
    rw [FogNode.parent_append hp, if_pos rfl]

theorem Handled.trans {ok₁ : Bool} (h₁ : Handled register s reached ok₁ s₁)
    (h₂ : Handled register s₁ reached' ok s') :
    Handled register s (reached ∨ reached') ok s' where
  toExtends    := h₁.toExtends.trans h₂.toExtends
  unreached h  := by
    have he := h₁.unreached fun hr => h ⟨.inl hr.1, hr.2⟩
    rw [h₂.unreached fun hr => h ⟨.inr hr.1, he ▸ hr.2⟩, he]
  accepted h   := .inr (h₂.accepted h)
  recorded hw h := by
    by_cases hr : reached'
    case pos => exact h₂.recorded (h₁.welcome hw) hr
    case neg => rw [h₂.unreached fun h => hr h.1, h₁.recorded hw (h.resolve_right hr)]

theorem handled_registerToParent (hn : s.Named)
    (h : registerToParent fuel (.node register) fate receiver s = some (ok, s')) :
    Handled register s (s.Reaches fate receiver) ok s' := by
  induction fate generalizing receiver s s' ok
  case giveUp =>
    cases h
    exact .refl hn nofun id
  case lost next hi => exact hi hn h
  case delivered heard above next ha hi =>
    have ⟨⟨ok₁, s₁⟩, h₁, h₂⟩ := Option.bind_eq_some_iff.mp h
    clear h
    dsimp only at h₂
    have ⟨reached, hreached, hreceiver⟩ : ∃ reached,
        (s.Reaches (.delivered heard above next) receiver ↔ reached ∨ s.Reaches next receiver) ∧
        Handled register s reached ok₁ s₁ := by
      cases receiver
      case none => exact ⟨True, Iff.rfl, handled_registerNode hn h₁⟩
      case some id =>
        cases hl : s.nodes.lookup id
        case none =>
          simp only [registerChildNode, hl] at h₁
          cases h₁
          exact ⟨False, by simp only [Reaches, hl], .refl hn nofun not_false⟩
        case some situation =>
          simp only [registerChildNode, hl] at h₁
          have hlocal := handled_registerLocally register hn hl
          have habove := hlocal.trans (ha hlocal.named h₁)
          rw [false_or, propext hlocal.reaches_iff] at habove
          exact ⟨_, by simp only [Reaches, hl], habove⟩
    rw [propext hreached]
    split at h₂
    case isFalse =>
      have hnext := hi hreceiver.named h₂
      rw [propext hreceiver.reaches_iff] at hnext
      exact hreceiver.trans hnext
    case isTrue hok =>
      cases h₂
      have hr := hreceiver.accepted hok.1
      exact { hreceiver.toExtends with
        unreached := fun h => hreceiver.unreached fun hp => h ⟨.inl hp.1, hp.2⟩
        accepted  := fun _ => .inl hr
        recorded  := fun hw _ => hreceiver.recorded hw hr }

-- The child is listed by the parent it has been registered with, whatever becomes of it.
theorem lists_registerToParent (hn : s.Named) (harrives : s.Arrives register.parent fate)
    (h : registerToParent fuel (.node register) fate (some register.parent) s = some (ok, s')) :
    s'.Lists register.parent register.nodeId := by
  induction fate generalizing s ok
  case giveUp => contradiction
  case lost next hi => exact hi hn harrives h
  case delivered heard above next _ _ =>
    have ⟨⟨ok₁, s₁⟩, h₁, h₂⟩ := Option.bind_eq_some_iff.mp h
    clear h
    dsimp only at h₂
    have ⟨situation, hl⟩ := Map.lookup_of_mem harrives
    simp only [registerChildNode, hl] at h₁
    have hlocal := handled_registerLocally register hn hl
    have habove := handled_registerToParent hlocal.named h₁
    have hlists : s₁.Lists register.parent register.nodeId :=
      habove.lists _ _ ((lists_registerLocally hn hl).mpr (.inr ⟨rfl, rfl, rfl⟩))
    split at h₂
    case isTrue  => cases h₂; exact hlists
    case isFalse => exact (handled_registerToParent habove.named h₂).lists _ _ hlists

theorem mem_of_arrives (h : s.Arrives id fate) : id ∈ s.nodes := by
  induction fate
  case giveUp          => contradiction
  case lost next hi    => exact hi h
  case delivered _ _ _ => exact h

-- A registration which does not get to the parent changes nothing.
theorem eq_of_not_arrives (harrives : ¬ s.Arrives register.parent fate)
    (h : registerToParent fuel (.node register) fate (some register.parent) s = some (ok, s')) : s' = s := by
  induction fate generalizing ok
  case giveUp => cases h; rfl
  case lost next hi => exact hi harrives h
  case delivered heard above next _ hi =>
    have ⟨⟨ok₁, s₁⟩, h₁, h₂⟩ := Option.bind_eq_some_iff.mp h
    clear h
    dsimp only at h₂
    simp only [registerChildNode, Finmap.lookup_eq_none.mpr harrives] at h₁
    cases h₁
    simp only [Bool.false_eq_true, false_and, if_false] at h₂
    exact hi (fun h => harrives (mem_of_arrives h)) h₂

-- The registration of a root leaves the parents of all nodes as they are.
theorem parent_registerNode {nodeId : NodeId} {ip : IpAddr} {portHttp portFaas : BitVec 16} {tags : List String}
    (hroot : s.registry.parent nodeId = none)
    (h : s.registerNode fuel (.marketNode nodeId ip portHttp portFaas tags) = some (ok, s')) :
    s'.nodes = s.nodes ∧ ∀ c, s'.registry.parent c = s.registry.parent c := by
  have ⟨⟨outcome, registry⟩, ha, he⟩ := Option.map_eq_some_iff.mp h
  cases he
  refine ⟨rfl, fun c => ?_⟩
  rcases FogNode.appendRoot_spec ha with ⟨_, _, rfl⟩ | ⟨_, _, rfl⟩
  · rw [FogNode.parent_insert]
    split
    case isTrue hc => rw [hc, hroot]; rfl
    case isFalse   => rfl
  · rw [FogNode.parent, Map.lookup_erase_eq]
    split
    case isTrue hc => rw [hc, hroot]; rfl
    case isFalse   => rfl

theorem parent_registerToParent {nodeId : NodeId} {ip : IpAddr} {portHttp portFaas : BitVec 16} {tags : List String}
    (hroot : s.registry.parent nodeId = none)
    (h : registerToParent fuel (.marketNode nodeId ip portHttp portFaas tags) fate none s = some (ok, s')) :
    s'.nodes = s.nodes ∧ ∀ c, s'.registry.parent c = s.registry.parent c := by
  induction fate generalizing s
  case giveUp =>
    cases h
    exact ⟨rfl, fun _ => rfl⟩
  case lost next hi => exact hi hroot h
  case delivered heard above next _ hi =>
    have ⟨⟨ok₁, s₁⟩, h₁, h₂⟩ := Option.bind_eq_some_iff.mp h
    have ⟨hn, hp⟩ := parent_registerNode hroot h₁
    dsimp only at h₂
    split at h₂
    case isTrue =>
      cases h₂
      exact ⟨hn, hp⟩
    case isFalse =>
      have ⟨hn', hp'⟩ := hi ((hp nodeId).trans hroot) h₂
      exact ⟨hn'.trans hn, fun c => (hp' c).trans (hp c)⟩

-- A child which has been handled is registered with the parent by which it is listed.
theorem Handled.agrees (h : Handled register s (s.Reaches fate (some register.parent)) ok s') (ha : s.Agrees)
    (hs : s.Settles register fate) (hl : s'.Lists register.parent register.nodeId) : s'.Agrees := by
  intro p c
  have hlists : s'.Lists p c ↔ s.Lists p c ∨ p = register.parent ∧ c = register.nodeId :=
    ⟨h.listed p c, fun hc => hc.elim (h.lists p c) fun ⟨hp, hc⟩ => hp ▸ hc ▸ hl⟩
  rw [hlists, ha p c]
  by_cases hc : c = register.nodeId
  case neg => simp [h.others c hc, hc]
  case pos =>
    have hparent : s'.registry.parent register.nodeId = some register.parent := by
      by_cases hr : s.Reaches fate (some register.parent) ∧ register.parent ∈ s.registry
      case pos => exact h.recorded (hs.welcome hr.1 hr.2) hr.1
      case neg => rw [h.unreached hr, hs.recorded.resolve_right hr]
    subst hc
    rw [hparent, Option.some.injEq]
    constructor
    case mp  => exact fun hp => (hp.elim (hs.unmoved p) And.left).symm
    case mpr => exact fun hp => .inr ⟨hp.symm, rfl⟩

theorem agrees_step {a : Registering} (hn : s.Named) (ha : s.Agrees) (hs : s.Settled a) (e : step s a = some s') :
    s'.Named ∧ s'.Agrees := by
  have ⟨⟨ok, _⟩, h, he⟩ := Option.map_eq_some_iff.mp e
  cases he
  match a with
  | ⟨fuel, .marketNode nodeId ip portHttp portFaas tags, fate⟩ =>
    have ⟨hnodes, hp⟩ := parent_registerToParent hs h
    refine ⟨fun id situation hl => hn id situation (hnodes ▸ hl), fun p c => ?_⟩
    rw [hp c, Lists, hnodes]
    exact ha p c
  | ⟨fuel, .node register, fate⟩ =>
    have hh := handled_registerToParent hn h
    by_cases harrives : s.Arrives register.parent fate
    case pos => exact ⟨hh.named, hh.agrees ha (hs harrives) (lists_registerToParent hn harrives h)⟩
    case neg => exact eq_of_not_arrives harrives h ▸ ⟨hn, ha⟩

-- As long as every registration which gets to the parent is settled, the fog nodes and the market agree.
theorem agrees_of_settled {as : List Registering} (hn : s.Named) (ha : s.Agrees) (r : Run step Settled s as s') :
    s'.Agrees :=
  have h : s'.Named ∧ s'.Agrees := r.invariant (I := fun s => s.Named ∧ s.Agrees) ⟨hn, ha⟩
    fun h hs e => agrees_step h.1 h.2 hs e
  h.2

theorem Welcomes.of_ok {registry : FogNode} (register : ChildRegistration)
    (h : s.registry.appendNewChild fuel register.parent register.nodeId register.ip register.portHttp
      register.portFaas register.tags = some (.ok, registry)) :
    s.Welcomes register.parent register.nodeId := by
  rcases FogNode.appendNewChild_spec h with ⟨_, he, _⟩ | ⟨node, hp, ⟨ha, _⟩ | ⟨_, e, he, _⟩⟩
  · contradiction
  · exact ⟨Map.mem_of_lookup hp, .inr ((FogNode.accepted_append_iff hp).mp ha)⟩
  · contradiction

def exampleSituation (id : Uuid) (parentId : Option NodeId) : NodeSituation where
  myId                  := ⟨id⟩
  parentId              := parentId
  children              := ∅
  myAdvertisedBandwidth := 1000000

-- A node which is connected to the market and has been registered there, and a node below it which has not.
def exampleTopology : Topology where
  nodes    :=
    ((∅ : Map NodeId NodeSituation).insert ⟨1⟩ (exampleSituation 1 none)).insert ⟨2⟩ (exampleSituation 2 (some ⟨1⟩))
  registry := Finmap.insert ⟨1⟩ (FogNode.fresh none (.new (.v4 1) 80 81 [])) ∅

def exampleRegistration : ChildRegistration where
  nodeId              := ⟨2⟩
  parent              := ⟨1⟩
  ip                  := .v4 2
  portHttp            := 80
  portFaas            := 81
  tags                := []
  advertisedBandwidth := 1000000

theorem lookup_exampleTopology : exampleTopology.nodes.lookup id =
    if id = ⟨2⟩ then some (exampleSituation 2 (some ⟨1⟩))
    else if id = ⟨1⟩ then some (exampleSituation 1 none)
    else none := by
  simp [exampleTopology, Map.lookup_insert_eq]

theorem parent_exampleTopology : exampleTopology.registry.parent c = none := by
  rw [exampleTopology, FogNode.parent_insert]
  split <;> rfl

theorem named_exampleTopology : exampleTopology.Named := by
  intro id situation h
  rw [Option.mem_def, lookup_exampleTopology] at h
  split_ifs at h with h₂ h₁ <;> cases h
  · exact h₂.symm
  · exact h₁.symm

theorem agrees_exampleTopology : exampleTopology.Agrees := by
  intro p c
  rw [parent_exampleTopology]
  refine iff_of_false ?_ (by simp)
  intro ⟨situation, h, hc⟩
  rw [Option.mem_def, lookup_exampleTopology] at h
  split_ifs at h <;> cases h <;> exact absurd hc (AList.notMem_empty c)

theorem welcomes_exampleTopology : exampleTopology.Welcomes ⟨1⟩ ⟨2⟩ := by
  have ⟨⟨outcome, registry⟩, h, ho⟩ := (Option.any_eq_true ..).mp (show (exampleTopology.registry.appendNewChild 8
    ⟨1⟩ ⟨2⟩ (.v4 2) 80 81 []).any (fun result => result.1 = .ok) = true by decide +kernel)
  cases of_decide_eq_true ho
  exact .of_ok exampleRegistration h

-- The registration gets to the market.
def exampleFate : Fate :=
  .delivered true (.delivered true .giveUp .giveUp) .giveUp

theorem settles_exampleTopology : exampleTopology.Settles exampleRegistration exampleFate where
  unmoved p h := by simp [parent_exampleTopology] at h
  recorded    := .inr ⟨.inl (by simp [lookup_exampleTopology, exampleRegistration, exampleSituation, Reaches]),
    welcomes_exampleTopology.1⟩
  welcome _ _ := welcomes_exampleTopology

theorem agrees_of_settled_of_child :
    ∃ s, Run step Settled exampleTopology [⟨8, .node exampleRegistration, exampleFate⟩] s ∧ s.Agrees := by
  have ⟨s, e⟩ : ∃ s, step exampleTopology ⟨8, .node exampleRegistration, exampleFate⟩ = some s :=
    Option.isSome_iff_exists.mp (by decide +kernel)
  have r : Run step Settled exampleTopology [⟨8, .node exampleRegistration, exampleFate⟩] s :=
    .single (fun _ => settles_exampleTopology) e
  exact ⟨s, r, agrees_of_settled named_exampleTopology agrees_exampleTopology r⟩

-- The parent lists the child before its own request gets lost.
theorem not_agrees_of_lost :
    exampleTopology.Named ∧ exampleTopology.Agrees ∧
      ∃ s, Run step free exampleTopology [⟨8, .node exampleRegistration, .delivered true .giveUp .giveUp⟩] s ∧
        ¬ s.Agrees := by
  have ⟨s, r, hl, hp⟩ : ∃ s, Run step free exampleTopology
      [⟨8, .node exampleRegistration, .delivered true .giveUp .giveUp⟩] s ∧
      (s.nodes.lookup ⟨1⟩).any (fun situation => ⟨2⟩ ∈ situation.children) = true ∧ s.registry.parent ⟨2⟩ = none :=
    Run.of_exec_any (by decide +kernel)
  refine ⟨named_exampleTopology, agrees_exampleTopology, s, r, fun h => ?_⟩
  have ⟨situation, hs, hc⟩ := (Option.any_eq_true ..).mp hl
  cases hp.symm.trans ((h ⟨1⟩ ⟨2⟩).mp ⟨situation, hs, of_decide_eq_true hc⟩)

end Topology
end Fog
