import FogMarket.Fog.Overlay
import FogMarket.Testbed.Links
import Mathlib.Data.Rat.Floor

open Transition Fog Topology

-- The fog nodes of the network and their configurations.
namespace Testbed

inductive NodeCategory
  | marketConnected (marketIp : IpAddr) (marketPort : BitVec 16)
  | nodeConnected (parentId : NodeId) (parentNodeIp : IpAddr) (parentNodePortHttp : BitVec 16)

def NodeCategory.parentId : NodeCategory → Option NodeId
  | marketConnected ..        => none
  | nodeConnected parentId .. => some parentId

-- What the text of a configuration says.
structure NodeSituationDisk where
  situation                     : NodeCategory
  myId                          : NodeId
  myPublicIp                    : IpAddr
  myPublicPortHttp              : BitVec 16
  tags                          : List String
  reservedMemory                : ℚ
  reservedCpu                   : ℚ
  maxInFlightFunctionsProposals : ℕ
  myAdvertisedBandwidth         : InformationRate

-- The functions of 100 MB which would fill up the memory.
def maxInFlight (flavor : Flavor) : ℕ :=
  ⌈(⌊flavor.reservedMem⌋ : ℚ) / 100⌉₊

def marketConf (marketId : NodeId) (marketIp : IpAddr) (network : Node) : NodeSituationDisk where
  situation                     := .marketConnected marketIp 30008
  myId                          := marketId
  myPublicIp                    := marketIp
  myPublicPortHttp              := 30003
  tags                          := ["node_to_market", "cloud"]
  reservedMemory                := network.flavor.reservedMem
  reservedCpu                   := network.flavor.reservedCore
  maxInFlightFunctionsProposals := maxInFlight network.flavor
  myAdvertisedBandwidth         := network.rate

mutual

def genConf (ids : Dict String (NodeId × IpAddr)) (parentId : NodeId) (parentIp : IpAddr) :
    Node → Option (List (String × NodeSituationDisk))
  | .node name flavor _ rate _ children => do
    let (myId, myIp) ← ids.get name
    let conf := {
      situation                     := .nodeConnected parentId parentIp 30003
      myId                          := myId
      myPublicIp                    := myIp
      myPublicPortHttp              := 30003
      tags                          := ["node_to_node", name]
      reservedMemory                := flavor.reservedMem
      reservedCpu                   := flavor.reservedCore
      maxInFlightFunctionsProposals := maxInFlight flavor
      myAdvertisedBandwidth         := rate
    }
    let confs ← genConfs ids myId myIp children
    return (name, conf) :: confs

def genConfs (ids : Dict String (NodeId × IpAddr)) (parentId : NodeId) (parentIp : IpAddr) :
    List Node → Option (List (String × NodeSituationDisk))
  | []            => some []
  | child :: rest => do
    let confs ← genConf ids parentId parentIp child
    let confs' ← genConfs ids parentId parentIp rest
    return confs ++ confs'

end

section Deploy

variable {Host : Type} (address : Host → IpAddr) (uuid4 : ℕ → Uuid)

-- A fog node runs on exactly one host.
def fogNodeId (roles : Dict String (List Host)) (ids : Dict String (NodeId × IpAddr)) (fogNode : String × ℕ) :
    Option (Dict String (NodeId × IpAddr)) :=
  match roles.get fogNode.1 with
  | some [host] => some (ids.set fogNode.1 (⟨uuid4 fogNode.2⟩, address host))
  | _           => none

def fogNodes (network : Node) : List String :=
  network.descendants.map Node.name

def k3sDeploy (roles : Dict String (List Host)) (network : Node) : Option (List (String × NodeSituationDisk)) := do
  let ids ← (fogNodes network).zipIdx.foldlM (fogNodeId address uuid4 roles) .empty
  let marketId : NodeId := ⟨uuid4 (fogNodes network).length⟩
  let hosts ← roles.get network.name
  let marketIp ← hosts.head?.map address
  let confs ← genConfs ids marketId marketIp network.children
  return (network.name, marketConf marketId marketIp network) :: confs

end Deploy

-- A fog node which has not been contacted yet.
def NodeSituationDisk.start (conf : NodeSituationDisk) : NodeSituation where
  myId                  := conf.myId
  parentId              := conf.situation.parentId
  children              := ∅
  myAdvertisedBandwidth := conf.myAdvertisedBandwidth

def initRegistration (conf : NodeSituationDisk) (portFaas : BitVec 16) : RegisterNode :=
  match conf.situation with
  | .marketConnected .. => .marketNode conf.myId conf.myPublicIp conf.myPublicPortHttp portFaas conf.tags
  | .nodeConnected parentId .. => .node {
      nodeId              := conf.myId
      parent              := parentId
      ip                  := conf.myPublicIp
      portHttp            := conf.myPublicPortHttp
      portFaas            := portFaas
      tags                := conf.tags
      advertisedBandwidth := conf.myAdvertisedBandwidth
    }

-- The fog nodes have been started, and none of them has registered.
def deployed (confs : List (String × NodeSituationDisk)) : Joining where
  topology := {
    nodes    := confs.foldl (fun nodes conf => nodes.insert conf.2.myId conf.2.start) ∅
    registry := ∅
  }
  joined   := []

-- What a node is told about itself and about the node above it.
structure Configured (place : String → NodeId × IpAddr) (link : Link) (conf : String × NodeSituationDisk) : Prop where
  name      : conf.1 = link.child
  myId      : conf.2.myId = (place link.child).1
  ip        : conf.2.myPublicIp = (place link.child).2
  portHttp  : conf.2.myPublicPortHttp = 30003
  situation : conf.2.situation = .nodeConnected (place link.parent).1 (place link.parent).2 30003
  bandwidth : conf.2.myAdvertisedBandwidth = link.rate

section Configured

variable {ids : Dict String (NodeId × IpAddr)} {place : String → NodeId × IpAddr}

mutual

theorem configured_genConf {parent : String} (hp : ∀ v x, ids.get v = some x → place v = x) : (node : Node) → ∀ confs,
    genConf ids (place parent).1 (place parent).2 node = some confs →
    List.Forall₂ (Configured place) (⟨parent, node.name, node.latency, node.rate⟩ :: node.links) confs
  | .node name flavor latency rate _ children => by
    intro confs h
    rw [genConf] at h
    obtain ⟨⟨myId, myIp⟩, hi, h⟩ := Option.bind_eq_some_iff.mp h
    obtain ⟨rest, hc, h⟩ := Option.bind_eq_some_iff.mp h
    cases h
    have he := hp name _ hi
    have hc : genConfs ids (place name).1 (place name).2 children = some rest := by rwa [he]
    have hc := configured_genConfs hp children rest hc
    exact .cons ⟨rfl, by simp [he, Node.name], by simp [he, Node.name], rfl, rfl, rfl⟩ hc

theorem configured_genConfs {parent : String} (hp : ∀ v x, ids.get v = some x → place v = x) :
    (children : List Node) → ∀ confs, genConfs ids (place parent).1 (place parent).2 children = some confs →
    List.Forall₂ (Configured place) (Node.linksAll parent children) confs
  | []            => by
    intro confs h
    cases h
    exact .nil
  | child :: rest => by
    intro confs h
    rw [genConfs] at h
    obtain ⟨confs₁, h₁, h⟩ := Option.bind_eq_some_iff.mp h
    obtain ⟨confs₂, h₂, h⟩ := Option.bind_eq_some_iff.mp h
    cases h
    exact List.rel_append (configured_genConf hp child confs₁ h₁) (configured_genConfs hp rest confs₂ h₂)

end

end Configured

-- The names have been given their ids in their order.
theorem ids_of_foldlM {Host : Type} {address : Host → IpAddr} {uuid4 : ℕ → Uuid} {roles : Dict String (List Host)}
    {names : List String} {n : ℕ} {ids₀ ids : Dict String (NodeId × IpAddr)}
    (hn : names.Nodup) (h : (names.zipIdx n).foldlM (fogNodeId address uuid4 roles) ids₀ = some ids) :
    (∀ v ∉ names, ids.get v = ids₀.get v) ∧ ∀ v ∈ names, ∃ ip, ids.get v = some (⟨uuid4 (names.idxOf v + n)⟩, ip) := by
  induction names generalizing n ids₀
  case nil =>
    cases h
    exact ⟨fun _ _ => rfl, fun _ h => nomatch h⟩
  case cons name names hi =>
    obtain ⟨hm, hn⟩ := List.nodup_cons.mp hn
    rw [List.zipIdx_cons, List.foldlM_cons] at h
    obtain ⟨ids₁, h₁, h⟩ := Option.bind_eq_some_iff.mp h
    obtain ⟨hother, hnames⟩ := hi hn h
    obtain ⟨ip, rfl⟩ : ∃ ip, ids₀.set name (⟨uuid4 n⟩, ip) = ids₁ := by
      rw [fogNodeId] at h₁
      split at h₁
      case h_1 => exact ⟨_, Option.some.inj h₁⟩
      case h_2 => cases h₁
    constructor
    case left =>
      intro v hv
      rw [List.mem_cons, not_or] at hv
      rw [hother v hv.2, Dict.get_set, if_neg hv.1]
    case right =>
      intro v hv
      by_cases he : v = name
      case pos =>
        subst he
        exact ⟨ip, by rw [hother v hm, Dict.get_set, if_pos rfl, List.idxOf_cons_self, Nat.zero_add]⟩
      case neg =>
        obtain ⟨ip, hg⟩ := hnames v ((List.mem_cons.mp hv).resolve_left he)
        refine ⟨ip, ?_⟩
        rw [hg, List.idxOf_cons_ne _ (Ne.symm he), Nat.succ_add_eq_add_succ]

-- The market gets the id after those of the fog nodes.
def idOf (uuid4 : ℕ → Uuid) (network : Node) (name : String) : NodeId :=
  ⟨uuid4 ((fogNodes network).idxOf name)⟩

section Deployed

variable {Host : Type} {address : Host → IpAddr} {uuid4 : ℕ → Uuid} {roles : Dict String (List Host)} {network : Node}
variable {confs : List (String × NodeSituationDisk)} {u v : String}

theorem links_eq : (network : Node) → network.links = Node.linksAll network.name network.children
  | .node .. => rfl

theorem configured_of_k3sDeploy (hn : network.names.Nodup) (h : k3sDeploy address uuid4 roles network = some confs) :
    ∃ (place : String → NodeId × IpAddr) (rest : List (String × NodeSituationDisk)),
      confs = (network.name, marketConf (place network.name).1 (place network.name).2 network) :: rest ∧
      (∀ v ∈ network.names, (place v).1 = idOf uuid4 network v) ∧
      List.Forall₂ (Configured place) network.links rest := by
  obtain ⟨ids, hids, h⟩ := Option.bind_eq_some_iff.mp h
  obtain ⟨hosts, _, h⟩ := Option.bind_eq_some_iff.mp h
  obtain ⟨marketIp, _, h⟩ := Option.bind_eq_some_iff.mp h
  obtain ⟨rest, hrest, h⟩ := Option.bind_eq_some_iff.mp h
  cases h
  obtain ⟨hm, hf⟩ := List.nodup_cons.mp hn
  obtain ⟨hother, hnames⟩ := ids_of_foldlM hf hids
  -- The market does not have an entry of its own.
  have hmarket : ids.get network.name = none := hother _ hm
  let place v := (ids.get v).getD (⟨uuid4 (fogNodes network).length⟩, marketIp)
  have hplace : place network.name = (⟨uuid4 (fogNodes network).length⟩, marketIp) := by simp [place, hmarket]
  refine ⟨place, rest, by rw [hplace], ?_, ?_⟩
  case refine_1 =>
    intro v hv
    cases List.mem_cons.mp hv
    case inl he =>
      have hi : (fogNodes network).idxOf network.name = (fogNodes network).length := List.idxOf_eq_length hm
      rw [he, hplace, idOf, hi]
    case inr hv =>
      obtain ⟨ip, hg⟩ := hnames v hv
      simp [place, hg, idOf, fogNodes]
  case refine_2 =>
    have hp : ∀ v x, ids.get v = some x → place v = x := by
      intro v x hx
      simp [place, hx]
    rw [links_eq]
    apply configured_genConfs hp
    rwa [hplace]

theorem idxOf_injOn (hu : u ∈ network.names) (hv : v ∈ network.names)
    (h : (fogNodes network).idxOf u = (fogNodes network).idxOf v) : u = v := by
  by_cases hm : u ∈ fogNodes network
  case pos => exact (List.idxOf_inj hm).mp h
  case neg =>
    have hm' : v ∉ fogNodes network := by
      rw [← List.idxOf_lt_length_iff, ← h, List.idxOf_lt_length_iff]
      exact hm
    exact ((List.mem_cons.mp hu).resolve_right hm).trans ((List.mem_cons.mp hv).resolve_right hm').symm

theorem idOf_injOn (hi : Set.InjOn uuid4 (Set.Iic (fogNodes network).length)) (hu : u ∈ network.names)
    (hv : v ∈ network.names) (h : idOf uuid4 network u = idOf uuid4 network v) : u = v :=
  idxOf_injOn hu hv (hi List.idxOf_le_length List.idxOf_le_length (congrArg NodeId.id h))

-- The nodes belong where they are in the network.
theorem exists_planOf (hn : network.names.Nodup) (hi : Set.InjOn uuid4 (Set.Iic (fogNodes network).length)) :
    ∃ plan : Plan, plan.root = idOf uuid4 network network.name ∧ ∀ c p, plan.parent c = some p ↔
      ∃ link ∈ network.links, idOf uuid4 network link.child = c ∧ idOf uuid4 network link.parent = p := by
  have hchild {link : Link} (hl : link ∈ network.links) : link.child ∈ network.names :=
    .tail _ (Node.child_mem_descendants hl)
  let parent id := (network.links.find? (idOf uuid4 network ·.child = id)).map (idOf uuid4 network ·.parent)
  have hparent c p : parent c = some p ↔
      ∃ link ∈ network.links, idOf uuid4 network link.child = c ∧ idOf uuid4 network link.parent = p := by
    rw [Option.map_eq_some_iff]
    constructor
    case mp =>
      rintro ⟨link, hf, hp⟩
      exact ⟨link, List.mem_of_find?_eq_some hf, by simpa using List.find?_some hf, hp⟩
    case mpr =>
      rintro ⟨link, hl, hc, hp⟩
      obtain ⟨link', hf⟩ : ∃ link', network.links.find? (idOf uuid4 network ·.child = c) = some link' := by
        rw [← Option.isSome_iff_exists, List.find?_isSome]
        exact ⟨link, hl, by simpa using hc⟩
      have hc' : idOf uuid4 network link'.child = c := by simpa using List.find?_some hf
      have hl' := List.mem_of_find?_eq_some hf
      have he := Node.eq_of_child hn hl hl' (idOf_injOn hi (hchild hl) (hchild hl') (hc.trans hc'.symm))
      exact ⟨link', hf, he ▸ hp⟩
  refine ⟨⟨idOf uuid4 network network.name, parent, ?_⟩, rfl, hparent⟩
  rw [Option.eq_none_iff_forall_ne_some]
  intro p hp
  obtain ⟨link, hl, hc, _⟩ := (hparent _ _).mp hp
  have he := idOf_injOn hi (hchild hl) (.head _) hc
  exact (List.nodup_cons.mp hn).1 (he ▸ Node.child_mem_descendants hl)

theorem lookup_deployed {nodes : Map NodeId NodeSituation} {id : NodeId} {situation : NodeSituation}
    (h : (confs.foldl (fun nodes conf => nodes.insert conf.2.myId conf.2.start) nodes).lookup id = some situation) :
    nodes.lookup id = some situation ∨ situation.myId = id ∧ situation.children = ∅ := by
  induction confs generalizing nodes
  case nil => exact .inl h
  case cons conf confs hi =>
    cases hi h
    case inr h => exact .inr h
    case inl h =>
      rw [Map.lookup_insert_eq] at h
      split at h
      case isTrue he =>
        cases h
        exact .inr ⟨he.symm, rfl⟩
      case isFalse => exact .inl h

theorem follows_deployed (plan : Plan) (confs : List (String × NodeSituationDisk)) :
    Follows plan (deployed confs).topology where
  named id situation h := ((lookup_deployed h).resolve_left (by simp)).1
  placed x h   := absurd h (Finmap.notMem_empty)
  root x h     := absurd h (Finmap.notMem_empty)
  rooted x h   := absurd h (Finmap.notMem_empty)
  above x h    := absurd h (Finmap.notMem_empty)
  children p c h := by simp [deployed, Market.FogNode.children] at h
  known p c h  := by
    obtain ⟨situation, hs, hc⟩ := h
    rw [((lookup_deployed hs).resolve_left (by simp)).2] at hc
    cases hc
  listed x h   := absurd h (Finmap.notMem_empty)

theorem fits_initRegistration {plan : Plan} {place : String → NodeId × IpAddr}
    {rest : List (String × NodeSituationDisk)} {conf : String × NodeSituationDisk} {portFaas : BitVec 16}
    (hconfs : confs = (network.name, marketConf (place network.name).1 (place network.name).2 network) :: rest)
    (hplace : ∀ v ∈ network.names, (place v).1 = idOf uuid4 network v)
    (hrest : List.Forall₂ (Configured place) network.links rest)
    (hroot : plan.root = idOf uuid4 network network.name)
    (hparent : ∀ c p, plan.parent c = some p ↔
      ∃ link ∈ network.links, idOf uuid4 network link.child = c ∧ idOf uuid4 network link.parent = p)
    (hm : conf ∈ confs) : plan.Fits (initRegistration conf.2 portFaas) := by
  subst hconfs
  cases List.mem_cons.mp hm
  case inl he =>
    subst he
    exact (hplace _ (.head _)).trans hroot.symm
  case inr hm =>
    obtain ⟨link, hl, hc⟩ : ∃ link ∈ network.links, Configured place link conf := by
      obtain ⟨i, hi, rfl⟩ := List.getElem_of_mem hm
      have hi' : i < network.links.length := hrest.length_eq ▸ hi
      exact ⟨network.links[i], List.getElem_mem hi', hrest.get hi' hi⟩
    rw [initRegistration, hc.situation]
    apply (hparent _ _).mpr
    refine ⟨link, hl, ?_, ?_⟩
    case refine_1 => rw [hc.myId, hplace _ (.tail _ (Node.child_mem_descendants hl))]
    case refine_2 => rw [hplace _ (Node.parent_mem_names network link hl)]

-- In whichever order the fog nodes register, and whatever gets lost, the market and the fog nodes get to know the
-- network, and agree on it once all fog nodes have been answered.
theorem overlay_of_deployed (hn : network.names.Nodup) (hi : Set.InjOn uuid4 (Set.Iic (fogNodes network).length))
    (hd : k3sDeploy address uuid4 roles network = some confs) {portFaas : BitVec 16} {as : List Registering}
    {s : Joining} (r : Run Joining.step (fun _ a => ∃ conf ∈ confs, a.register = initRegistration conf.2 portFaas)
      (deployed confs) as s) :
    (∀ p c, s.topology.registry.parent c = some p ∨ s.topology.Lists p c →
      ∃ link ∈ network.links, idOf uuid4 network link.parent = p ∧ idOf uuid4 network link.child = c) ∧
    (∀ v ∈ network.names, idOf uuid4 network v ∈ s.joined → idOf uuid4 network v ∈ s.topology.registry ∧
      s.topology.registry.parent (idOf uuid4 network v) = (network.parentOf v).map (idOf uuid4 network)) ∧
    ((∀ v ∈ network.names, idOf uuid4 network v ∈ s.joined) → s.topology.Agrees) := by
  obtain ⟨place, rest, hconfs, hplace, hrest⟩ := configured_of_k3sDeploy hn hd
  obtain ⟨plan, hroot, hparent⟩ := exists_planOf hn hi
  have r' : Run Joining.step (fun _ a => plan.Fits a.register) (deployed confs) as s := by
    apply r.mono
    rintro s a s' ⟨conf, hm, he⟩ -
    exact he ▸ fits_initRegistration hconfs hplace hrest hroot hparent hm
  obtain ⟨h, hj⟩ := follows_of_joining (follows_deployed plan confs) (fun _ h => nomatch h) r'
  refine ⟨?_, ?_, ?_⟩
  case refine_1 =>
    intro p c hc
    have hp : plan.parent c = some p := by
      cases hc
      case inl hc => exact (h.placed c (Market.FogNode.mem_of_parent hc)).symm.trans hc
      case inr hc => exact h.known p c hc
    obtain ⟨link, hl, he, he'⟩ := (hparent c p).mp hp
    exact ⟨link, hl, he', he⟩
  case refine_2 =>
    intro v hv hm
    have hr := hj _ hm
    refine ⟨hr, (h.placed _ hr).trans ?_⟩
    apply Option.ext
    intro p
    rw [hparent, Option.map_eq_some_iff]
    constructor
    case mp =>
      rintro ⟨link, hl, hc, hp⟩
      have he := idOf_injOn hi (.tail _ (Node.child_mem_descendants hl)) hv hc
      exact ⟨link.parent, (Node.parentOf_eq_some_iff hn).mpr ⟨link, hl, rfl, he⟩, hp⟩
    case mpr =>
      rintro ⟨u, hu, hp⟩
      obtain ⟨link, hl, hu, he⟩ := (Node.parentOf_eq_some_iff hn).mp hu
      exact ⟨link, hl, he ▸ rfl, hu ▸ hp⟩
  case refine_3 =>
    intro hall
    apply h.agrees
    intro c p hp
    obtain ⟨link, hl, he, _⟩ := (hparent c p).mp hp
    exact he ▸ hj _ (hall _ (.tail _ (Node.child_mem_descendants hl)))

end Deployed

-- The hosts of a network with one fog node below the root.
def starRoles : Dict String (List IpAddr) where
  entries := [("market", [.v4 1]), ("node_1", [.v4 2])]
  nodup   := by decide

def starRegistrations (confs : List (String × NodeSituationDisk)) : List Registering :=
  confs.map fun conf => ⟨8, initRegistration conf.2 30004, .delivered true (.delivered true .giveUp .giveUp) .giveUp⟩

theorem overlay_of_deployed_of_star : ∃ confs as s,
    k3sDeploy id (BitVec.ofNat 128) starRoles (star ["node_1"]) = some confs ∧
    Run Joining.step (fun _ a => ∃ conf ∈ confs, a.register = initRegistration conf.2 30004) (deployed confs) as s ∧
    s.topology.Agrees ∧ s.topology.registry.parent ⟨0⟩ = some ⟨1⟩ := by
  have hi : Set.InjOn (BitVec.ofNat 128) (Set.Iic (fogNodes (star ["node_1"])).length) := by
    intro i hi j hj he
    have hl : (fogNodes (star ["node_1"])).length = 1 := by decide +kernel
    rw [Set.mem_Iic, hl] at hi hj
    have := congrArg BitVec.toNat he
    rw [BitVec.toNat_ofNat, BitVec.toNat_ofNat] at this
    omega
  obtain ⟨confs, hd, hr⟩ := (Option.any_eq_true ..).mp
    (show (k3sDeploy id (BitVec.ofNat 128) starRoles (star ["node_1"])).any (fun confs =>
      (exec Joining.step free (deployed confs) (starRegistrations confs)).any fun s =>
        ∀ v ∈ (star ["node_1"]).names, idOf (BitVec.ofNat 128) (star ["node_1"]) v ∈ s.joined) = true by decide +kernel)
  obtain ⟨s, r, hj⟩ := Run.of_exec_any hr
  have r : Run Joining.step (fun _ a => ∃ conf ∈ confs, a.register = initRegistration conf.2 30004) (deployed confs)
      (starRegistrations confs) s := by
    apply r.of_forall
    intro a ha _
    obtain ⟨conf, hm, rfl⟩ := List.mem_map.mp ha
    exact ⟨conf, hm, rfl⟩
  obtain ⟨_, hp, ha⟩ := overlay_of_deployed (by decide) hi hd r
  refine ⟨confs, _, s, hd, r, ha hj, ?_⟩
  exact (hp "node_1" (by decide) (hj "node_1" (by decide))).2.trans (by decide +kernel)

end Testbed
