import FogMarket.Testbed.Iot
import FogMarket.Testbed.Netem

-- The emulated network, as the hosts see it.
namespace Emul

open Testbed

variable {node : Testbed.Node} {u v : String} {fuel : ℕ} {c : Constraint}

theorem mem_calls {adjacency : Adjacency} {src : String} (h : c ∈ Testbed.calls adjacency fuel src) :
    ∃ s, dijkstra adjacency fuel src = some s ∧ c.source = src ∧ s.dist.get c.destination = some c.delay ∧
      c.rate = (s.labels.get c.destination).getD oneGbit := by
  rw [Testbed.calls] at h
  cases hs : dijkstra adjacency fuel src
  case none => simp [hs] at h
  case some s =>
    rw [hs] at h
    obtain ⟨e, he, rfl⟩ := List.mem_map.mp h
    exact ⟨s, rfl, rfl, Dict.mem_entries_iff.mp he, rfl⟩

theorem den_min {a b : ℚ} (ha : a.den = 1) (hb : b.den = 1) : (min a b).den = 1 := by
  cases min_choice a b
  case inl h => rwa [h]
  case inr h => rwa [h]

-- The rates of all ways are those of links, or of the interfaces of the nodes.
theorem den_rate {adjacency : Adjacency} {src : String} {vs : List String} {d : ℕ} {rate : ℚ}
    (ha : ∀ u links, adjacency.get u = some links → ∀ link ∈ links, link.2.2.den = 1)
    (p : Dijkstra.Path adjacency min oneGbit src vs v d rate) : rate.den = 1 := by
  induction p
  case nil => rfl
  case snoc hn hl _ hi => exact den_min hi (ha _ _ hn _ hl)

theorem den_adjacency {connection : List (String × ℕ)} (hr : ∀ link ∈ node.links, link.rate.den = 1) (u : String)
    (links : List (String × ℕ × ℚ)) (h : (adjacencyWithIot connection node).get u = some links) :
    ∀ link ∈ links, link.2.2.den = 1 := by
  rintro ⟨v, latency, rate⟩ hm
  rw [(groups_adjacency connection node).get_eq_some h, List.mem_append] at hm
  cases hm
  case inl hm =>
    obtain ⟨link, hl, _, _, hrate⟩ := mem_arcs_iff.mp hm
    exact hrate ▸ hr link hl
  case inr hm =>
    obtain ⟨c, _, he⟩ := List.mem_map.mp hm
    cases he
    rfl

-- All calls of the callback.
def allCalls (node : Testbed.Node) (fuel : ℕ) : List Constraint :=
  (adjacencyWithIot (iotConnection node) node).keys.flatMap
    (Testbed.calls (adjacencyWithIot (iotConnection node) node) fuel)

-- A call is about a node which has been found.
structure Call (node : Testbed.Node) (fuel : ℕ) (c : Constraint) (s : Dijkstra String ℚ) : Prop where
  key    : c.source ∈ (adjacencyWithIot (iotConnection node) node).keys
  search : dijkstra (adjacencyWithIot (iotConnection node) node) fuel c.source = some s
  dist   : s.dist.get c.destination = some c.delay
  label  : s.labels.get c.destination = some c.rate
  path   : ∃ vs, Dijkstra.Path (adjacencyWithIot (iotConnection node) node) min oneGbit c.source vs c.destination
    c.delay c.rate

theorem call_of_mem (h : c ∈ allCalls node fuel) : ∃ s, Call node fuel c s := by
  obtain ⟨src, hk, hm⟩ := List.mem_flatMap.mp h
  obtain ⟨s, hs, rfl, hd, hr⟩ := mem_calls hm
  obtain ⟨vs, rate, hl, p, _⟩ := (Dijkstra.sound_start.search hs) _ _ hd
  rw [hl, Option.getD_some] at hr
  subst hr
  exact ⟨s, hk, hs, hd, hl, vs, p⟩

theorem mem_allCalls {s : Dijkstra String ℚ} {latency : ℕ} {rate : ℚ}
    (hk : u ∈ (adjacencyWithIot (iotConnection node) node).keys)
    (hs : dijkstra (adjacencyWithIot (iotConnection node) node) fuel u = some s) (hd : s.dist.get v = some latency)
    (hr : s.labels.get v = some rate) : ⟨u, v, latency, rate⟩ ∈ allCalls node fuel := by
  apply List.mem_flatMap.mpr
  refine ⟨u, hk, ?_⟩
  rw [Testbed.calls, hs, Option.map_some, Option.getD_some, constraints, List.mem_map]
  exact ⟨(v, latency), Dict.mem_entries_iff.mpr hd, by simp [hr]⟩

theorem den_of_call {s : Dijkstra String ℚ} (hr : ∀ link ∈ node.links, link.rate.den = 1) (h : Call node fuel c s) :
    c.rate.den = 1 := by
  obtain ⟨vs, p⟩ := h.path
  exact den_rate (den_adjacency hr) p

section Calls

variable (hn : ("iot_emulation" :: node.names).Nodup) {s : Dijkstra String ℚ}
include hn

theorem Call.names (h : Call node fuel c s) :
    c.source ∈ "iot_emulation" :: node.names ∧ c.destination ∈ "iot_emulation" :: node.names ∧
      (c.destination = "iot_emulation" → c.source = "iot_emulation") := by
  obtain ⟨⟨v, latency, rate⟩, hm⟩ := (groups_adjacency (iotConnection node) node).mem_keys.mp h.key
  obtain ⟨vs, p⟩ := h.path
  cases List.mem_append.mp hm
  case inl hm =>
    obtain ⟨link, hl, hj, _⟩ := mem_arcs_iff.mp hm
    have hu : c.source ∈ node.names := Node.mem_names_of_joins hl hj.symm
    have hv := (walk_of_path hn hu p).1
    exact ⟨.tail _ hu, .tail _ hv, fun he => absurd (he ▸ hv) (List.nodup_cons.mp hn).left⟩
  case inr hm =>
    obtain ⟨x, _, he⟩ := List.mem_map.mp hm
    have hu : c.source = "iot_emulation" := (congrArg Prod.fst he).symm
    rw [hu] at p
    refine ⟨hu ▸ .head _, ?_, fun _ => hu⟩
    cases connected_of_path hn (fun x hx => .tail _ (iotConnection_mem x hx)) p
    case inl hv => exact hv.1 ▸ .head _
    case inr hv => exact .tail _ hv.1

-- The calls for two nodes agree.
theorem Call.between (h : Call node fuel c s) (hu : u ∈ node.names) (hv : v ∈ node.names) {p : node.graph.Walk u v}
    (hp : p.IsPath) (hb : Between c u v) : c.delay = node.latencyOf p ∧ c.rate = node.rateOf p := by
  have H {x y : String} (hx : x ∈ node.names) {q : node.graph.Walk x y} (hq : q.IsPath) (hs : c.source = x)
      (hd : c.destination = y) : c.delay = node.latencyOf q ∧ c.rate = node.rateOf q := by
    subst hs hd
    obtain ⟨hdist, hlabel⟩ := get_dijkstra hn hx h.search hq
    exact ⟨Option.some.inj (h.dist.symm.trans hdist), Option.some.inj (h.label.symm.trans hlabel)⟩
  cases hb
  case inl hb => exact H hu hp hb.1 hb.2
  case inr hb =>
    have hr := H hv hp.reverse hb.1 hb.2
    rwa [Node.latencyOf_reverse, Node.rateOf_reverse] at hr

theorem Call.iot (h : Call node fuel c s) {s' : Dijkstra String ℚ} {latency : ℕ} {rate : ℚ} (hv : v ∈ node.names)
    (hs : dijkstra (adjacencyWithIot (iotConnection node) node) fuel "iot_emulation" = some s')
    (hd : s'.dist.get v = some latency) (hr : s'.labels.get v = some rate) (hb : Between c "iot_emulation" v) :
    c.delay = latency ∧ c.rate = rate := by
  cases hb
  case inl hb =>
    obtain ⟨he, rfl⟩ := hb
    cases (he ▸ h.search).symm.trans hs
    exact ⟨Option.some.inj (h.dist.symm.trans hd), Option.some.inj (h.label.symm.trans hr)⟩
  case inr hb =>
    -- There is no way to the devices.
    have he := (h.names hn).2.2 hb.2
    exact absurd (he.symm.trans hb.1 ▸ hv) (List.nodup_cons.mp hn).left

end Calls

-- The packets between two nodes are held back as by the way between them, and those between the devices and a node
-- as by the way over the connected node from which it is nearest.
theorem network_emulates {node : Testbed.Node} (hc : node.children ≠ []) (hn : ("iot_emulation" :: node.names).Nodup)
    (hr : ∀ link ∈ node.links, link.rate.den = 1) {roles : Dict String (List Host)}
    (hroles : ∀ name ∈ "iot_emulation" :: node.names, (roles.get name).isSome)
    (hsep : Separate roles ("iot_emulation" :: node.names)) :
    ∃ fuel₀ calls net, (∀ fuel ≥ fuel₀, genNet fuel (iotConnection node) node = some calls) ∧
      network roles calls = some net ∧
      (∀ u ∈ node.names, ∀ v ∈ node.names, ∃ p : node.graph.Walk u v, p.IsPath ∧
        (∀ q : node.graph.Walk u v, q.IsPath → q = p) ∧ Delays net roles u v (node.latencyOf p) (node.rateOf p)) ∧
      (iotConnection node ≠ [] → ∀ v ∈ node.names, ∃ c ∈ iotConnection node, ∃ p : node.graph.Walk c.1 v, p.IsPath ∧
        (∀ c' ∈ iotConnection node, ∀ q : node.graph.Walk c'.1 v, c.2 + node.latencyOf p ≤ c'.2 + node.latencyOf q) ∧
        Delays net roles "iot_emulation" v (c.2 + node.latencyOf p) (node.rateOf p) ∧
        Delays net roles v "iot_emulation" (c.2 + node.latencyOf p) (node.rateOf p)) := by
  obtain ⟨fuel₀, h₀⟩ := @exists_dijkstra node
  have hcalls : ∀ c ∈ allCalls node fuel₀, c.source ∈ "iot_emulation" :: node.names ∧
      c.destination ∈ "iot_emulation" :: node.names := by
    intro c hm
    obtain ⟨s, h⟩ := call_of_mem hm
    exact ⟨(h.names hn).1, (h.names hn).2.1⟩
  obtain ⟨net, hnet, hrep⟩ : ∃ net, network roles (allCalls node fuel₀) = some net ∧
      Represents net (Writes.after (fun _ => none) ((allCalls node fuel₀).flatMap (written roles))) := by
    apply represents_network
    intro c hm
    obtain ⟨s, h⟩ := call_of_mem hm
    exact ⟨den_of_call hr h, hroles _ (hcalls c hm).1, hroles _ (hcalls c hm).2⟩
  refine ⟨fuel₀, allCalls node fuel₀, net, ?_, hnet, ?_, ?_⟩
  case refine_1 =>
    intro fuel hle
    have hs src hm := (h₀ fuel hle src hm).left ▸ (h₀ fuel hle src hm).right
    rw [genNet_eq hs, allCalls]
    apply congrArg some
    apply List.flatMap_congr
    intro src hm
    rw [Testbed.calls, Testbed.calls, (h₀ fuel hle src hm).left]
  case refine_2 =>
    intro u hu v hv
    obtain ⟨p, hp, hq⟩ := Node.existsUnique_isPath (List.nodup_cons.mp hn).right hu hv
    refine ⟨p, hp, hq, delays_of_calls hsep (.tail _ hu) (.tail _ hv) hcalls hrep ?_ ?_⟩
    case refine_1 =>
      have hk := mem_keys_of_mem_names (iotConnection node) hc hu
      obtain ⟨s, hs⟩ := Option.isSome_iff_exists.mp (h₀ fuel₀ le_rfl u hk).right
      obtain ⟨hd, hl⟩ := get_dijkstra hn hu hs hp
      exact ⟨_, mem_allCalls hk hs hd hl, .inl ⟨rfl, rfl⟩⟩
    case refine_2 =>
      intro c hm hb
      obtain ⟨s, h⟩ := call_of_mem hm
      exact h.between hn hu hv hp hb
  case refine_3 =>
    intro hi v hv
    obtain ⟨x, hx⟩ := List.exists_mem_of_ne_nil _ hi
    have hk : "iot_emulation" ∈ (adjacencyWithIot (iotConnection node) node).keys :=
      (groups_adjacency (iotConnection node) node).mem_keys.mpr
        ⟨_, List.mem_append_right _ (List.mem_map_of_mem (f := iotArc) hx)⟩
    obtain ⟨s, hs⟩ := Option.isSome_iff_exists.mp (h₀ fuel₀ le_rfl _ hk).right
    obtain ⟨c, hc, p, hp, hd, hl, hmin⟩ := get_dijkstra_iot hn hi hs hv
    have he := mem_allCalls hk hs hd hl
    have hb : ∀ c' ∈ allCalls node fuel₀, Between c' "iot_emulation" v →
        c'.delay = c.2 + node.latencyOf p ∧ c'.rate = node.rateOf p := by
      intro c' hm hb
      obtain ⟨s', h⟩ := call_of_mem hm
      exact h.iot hn hv hs hd hl hb
    refine ⟨c, hc, p, hp, hmin, ?_, ?_⟩
    case refine_1 => exact delays_of_calls hsep (.head _) (.tail _ hv) hcalls hrep ⟨_, he, .inl ⟨rfl, rfl⟩⟩ hb
    case refine_2 =>
      exact delays_of_calls hsep (.tail _ hv) (.head _) hcalls hrep ⟨_, he, .inr ⟨rfl, rfl⟩⟩
        fun c hm h => hb c hm h.symm

def devHost (name address : String) : Host where
  aliasName := name
  devices   := ["ens3"]
  addresses := [address]

def devRoles : Dict String (List Host) where
  entries := [
    ("iot_emulation", [devHost "iot_emulation" "10.0.0.1"]),
    ("market", [devHost "market" "10.0.0.2"]),
    ("node_1", [devHost "node_1" "10.0.0.3"]),
    ("node_2", [devHost "node_2" "10.0.0.4"]),
    ("node_3", [devHost "node_3" "10.0.0.5"]),
    ("node_34", [devHost "node_34" "10.0.0.6"])
  ]
  nodup   := by decide

theorem network_emulates_of_dev : ∃ calls net, network devRoles calls = some net ∧
    net.Has (devHost "node_3" "10.0.0.5")
      { device := "ens3", delay := 15, target := "10.0.0.6", rate := 100000000 } := by
  obtain ⟨_, calls, net, _, hnet, h, _⟩ := @network_emulates devNetwork
    (by simp [devNetwork, Testbed.Node.children]) (by decide) (by decide +kernel) devRoles (by decide)
    ⟨by decide, by decide⟩
  obtain ⟨p, _, hp, hd⟩ := h "node_3" (by decide) "node_34" (by decide)
  refine ⟨calls, net, hnet, ?_⟩
  apply (hd _ (.head _) _ (.head _) "ens3" (.head _) "10.0.0.6" (.head _) 15 100000000).mpr
  rw [← hp (.cons adj_devNetwork.left (.cons adj_devNetwork.right .nil)) (by simp)]
  simp only [Node.latencyOf, Node.rateOf, SimpleGraph.Walk.darts_cons, SimpleGraph.Walk.darts_nil, List.map_cons,
    List.map_nil]
  decide +kernel

end Emul
