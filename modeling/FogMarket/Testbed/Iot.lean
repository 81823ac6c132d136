import FogMarket.Testbed.Net

-- The emulation of the IoT devices sits outside of the network, and is connected to some of its nodes.
namespace Testbed

variable {node : Node} {u v : String} {fuel : ℕ} (hn : ("iot_emulation" :: node.names).Nodup)
include hn

theorem mem_iotLinks_iff {links : List (String × ℕ × ℚ)} {connection : List (String × ℕ)}
    (h : (adjacencyWithIot connection node).get "iot_emulation" = some links) {latency : ℕ} {rate : ℚ} :
    (v, latency, rate) ∈ links ↔ (v, latency) ∈ connection ∧ rate = oneGbit := by
  have hnm : ("iot_emulation", v, latency, rate) ∉ node.links.flatMap Link.arcs := by
    intro hm
    obtain ⟨link, hl, hj, _⟩ := mem_arcs_iff.mp hm
    exact (List.nodup_cons.mp hn).left (Node.mem_names_of_joins hl hj.symm)
  rw [(groups_adjacency connection node).get_eq_some h, List.mem_append, or_iff_right hnm]
  simp only [List.mem_map, iotArc, Prod.mk.injEq, true_and, Prod.exists]
  grind

-- From a node on, the links of the network can be followed.
theorem way_of_walk {connection : List (String × ℕ)} {src : String} {d : ℕ}
    (w : Dijkstra.Way (adjacencyWithIot connection node) src u d) (p : node.graph.Walk u v) :
    Dijkstra.Way (adjacencyWithIot connection node) src v (d + node.latencyOf p) := by
  induction p generalizing d
  case nil => exact w
  case cons u x v hadj p hi =>
    obtain ⟨link, hl, hj⟩ := (Node.adj_iff (List.nodup_cons.mp hn).right).mp hadj
    have hg := groups_adjacency connection node
    have hm : (u, x, link.latency, link.rate) ∈ node.links.flatMap Link.arcs ++ connection.map iotArc :=
      List.mem_append_left _ (mem_arcs_iff.mpr ⟨link, hl, hj, rfl, rfl⟩)
    obtain ⟨links, ha⟩ := Dict.mem_keys_iff.mp (hg.mem_keys.mpr ⟨_, hm⟩)
    have hw := hi (w.snoc ha ((hg.get_eq_some ha _).mpr hm))
    have hlatency : node.latencyOf (.cons hadj p) = link.latency + node.latencyOf p := by
      simp [Node.latencyOf, Node.linkBetween_eq (List.nodup_cons.mp hn).right hl hj]
    rwa [hlatency, ← Nat.add_assoc]

theorem way_of_connected {connection : List (String × ℕ)} {c : String × ℕ} (hc : c ∈ connection)
    (p : node.graph.Walk c.1 v) :
    Dijkstra.Way (adjacencyWithIot connection node) "iot_emulation" v (c.2 + node.latencyOf p) := by
  have hg := groups_adjacency connection node
  have hm : iotArc c ∈ node.links.flatMap Link.arcs ++ connection.map iotArc :=
    List.mem_append_right _ (List.mem_map_of_mem hc)
  obtain ⟨links, ha⟩ := Dict.mem_keys_iff.mp (hg.mem_keys.mpr ⟨_, hm⟩)
  have hw := Dijkstra.Way.snoc .nil ha ((hg.get_eq_some ha _).mpr hm)
  rw [Nat.zero_add] at hw
  exact way_of_walk hn hw p

-- A way begins at a node which is connected and does not come back.
theorem connected_of_path {connection : List (String × ℕ)} {vs : List String} {d : ℕ} {rate : ℚ}
    (hk : ∀ c ∈ connection, c.1 ∈ node.names)
    (w : Dijkstra.Path (adjacencyWithIot connection node) min oneGbit "iot_emulation" vs v d rate) :
    v = "iot_emulation" ∧ d = 0 ∧ rate = oneGbit ∨ v ∈ node.names ∧ ∃ c ∈ connection, ∃ p : node.graph.Walk c.1 v,
      p.IsPath ∧ p.support ⊆ vs ∧ d = c.2 + node.latencyOf p ∧ rate = node.rateOf p := by
  have hnames := (List.nodup_cons.mp hn).right
  induction w
  case nil => exact .inl ⟨rfl, rfl, rfl⟩
  case snoc vs u d rate links arc w ha hm hv hi =>
    obtain ⟨x, latency, _⟩ := arc
    apply Or.inr
    rcases hi with ⟨rfl, rfl, rfl⟩ | ⟨hu, c, hc, p, hp, hs, hd, hr⟩
    case inl =>
      obtain ⟨hc, rfl⟩ := (mem_iotLinks_iff hn ha).mp hm
      exact ⟨hk _ hc, (x, latency), hc, .nil, .nil, by simp, by simp [Node.latencyOf], by simp [Node.rateOf]⟩
    case inr =>
      obtain ⟨link, hl, hj, rfl, rfl⟩ := (mem_links_iff hn hu ha).mp hm
      have hadj := (Node.adj_iff hnames).mpr ⟨link, hl, hj⟩
      have hb := Node.linkBetween_eq hnames hl hj
      refine ⟨Node.mem_names_of_joins hl hj, c, hc, p.concat hadj, hp.concat (fun hx => hv (hs hx)) hadj, ?_, ?_, ?_⟩
      case refine_1 =>
        rw [SimpleGraph.Walk.support_concat]
        grind
      case refine_2 => rw [Node.latencyOf_concat, hb, Option.elim_some, hd, Nat.add_assoc]
      case refine_3 => rw [Node.rateOf_concat, hb, Option.elim_some, hr]

-- What is found is the nearest connected node, with the rate of the way from it.
theorem get_dijkstra_iot {s : Dijkstra String ℚ} (hi : iotConnection node ≠ [])
    (hs : dijkstra (adjacencyWithIot (iotConnection node) node) fuel "iot_emulation" = some s) (hv : v ∈ node.names) :
    ∃ c ∈ iotConnection node, ∃ p : node.graph.Walk c.1 v, p.IsPath ∧
      s.dist.get v = some (c.2 + node.latencyOf p) ∧ s.labels.get v = some (node.rateOf p) ∧
      ∀ c' ∈ iotConnection node, ∀ p' : node.graph.Walk c'.1 v, c.2 + node.latencyOf p ≤ c'.2 + node.latencyOf p' := by
  have hk : ∀ c ∈ iotConnection node, c.1 ∈ node.names := fun c hc => .tail _ (iotConnection_mem c hc)
  obtain ⟨c₀, hc₀⟩ := List.exists_mem_of_ne_nil _ hi
  obtain ⟨p₀, _, _⟩ := Node.existsUnique_isPath (List.nodup_cons.mp hn).right (hk c₀ hc₀) hv
  obtain ⟨vs, d, rate, w, hd, hr, hmin⟩ := Dijkstra.shortest_of_search hs (way_of_connected hn hc₀ p₀)
  cases connected_of_path hn hk w
  case inl h => exact absurd (h.left ▸ hv) (List.nodup_cons.mp hn).left
  case inr h =>
    obtain ⟨_, c, hc, p, hp, _, rfl, rfl⟩ := h
    exact ⟨c, hc, p, hp, hd, hr, fun c' hc' p' => hmin _ (way_of_connected hn hc' p')⟩

end Testbed
