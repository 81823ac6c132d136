import FogMarket.Library.Dijkstra
import FogMarket.Library.Lists
import FogMarket.Testbed.Links
import Mathlib.Data.String.Basic

namespace Testbed

-- What the callback is called with.
structure Constraint where
  source      : String
  destination : String
  delay       : ℕ
  rate        : ℚ
  deriving DecidableEq

abbrev Adjacency :=
  Dict String (List (String × ℕ × ℚ))

mutual

def adjacencyOf (ret : Adjacency) : Node → Adjacency
  | .node name _ _ _ _ children => adjacencyOfAll name ret children

-- The loop over the children of a node with the name.
def adjacencyOfAll (name : String) (ret : Adjacency) : List Node → Adjacency
  | []            => ret
  | child :: rest =>
    let ret := ret.append name (child.name, child.latency, child.rate)
    let ret := ret.append child.name (name, child.latency, child.rate)
    adjacencyOfAll name (adjacencyOf ret child) rest

end

def adjacencyUndirected (node : Node) : Adjacency :=
  adjacencyOf Dict.empty node

mutual

def getIotConnection : Node → List (String × ℕ)
  | .node name _ _ _ iotConnected children => getIotConnections children ++ (iotConnected.map (name, ·)).toList

def getIotConnections : List Node → List (String × ℕ)
  | []            => []
  | child :: rest => getIotConnection child ++ getIotConnections rest

end

def iotConnection (network : Node) : List (String × ℕ) :=
  getIotConnections network.children

def adjacencyWithIot (iotConnection : List (String × ℕ)) (nodes : Node) : Adjacency :=
  iotConnection.foldl (fun adjacency c => adjacency.append "iot_emulation" (c.1, c.2, oneGbit))
    (adjacencyUndirected nodes)

def dijkstra (adjacency : Adjacency) (fuel : ℕ) (src : String) : Option (Dijkstra String ℚ) :=
  Dijkstra.search adjacency min oneGbit fuel (Dijkstra.start oneGbit src)

-- The calls for a source.
def constraints (src : String) (s : Dijkstra String ℚ) : List Constraint :=
  s.dist.entries.map fun (destination, latency) =>
    ⟨src, destination, latency, (s.labels.get destination).getD oneGbit⟩

-- The calls of the callback.
def genNet (fuel : ℕ) (iotConnection : List (String × ℕ)) (nodes : Node) : Option (List Constraint) :=
  let adjacency := adjacencyWithIot iotConnection nodes
  (adjacency.keys.mapM fun src => (dijkstra adjacency fuel src).map (constraints src)).map List.flatten

-- Both directions of a link.
def Link.arcs (link : Link) : List (String × String × ℕ × ℚ) :=
  [(link.parent, link.child, link.latency, link.rate), (link.child, link.parent, link.latency, link.rate)]

mutual

theorem groups_adjacencyOf {ret : Adjacency} {l : List (String × String × ℕ × ℚ)} (h : ret.Groups l) :
    (node : Node) → (adjacencyOf ret node).Groups (l ++ node.links.flatMap Link.arcs)
  | .node name _ _ _ _ children => by
    rw [adjacencyOf, Node.links]
    exact groups_adjacencyOfAll name h children

theorem groups_adjacencyOfAll (name : String) {ret : Adjacency} {l : List (String × String × ℕ × ℚ)}
    (h : ret.Groups l) :
    (children : List Node) →
      (adjacencyOfAll name ret children).Groups (l ++ (Node.linksAll name children).flatMap Link.arcs)
  | []            => by simpa [adjacencyOfAll, Node.linksAll] using h
  | child :: rest => by
    have hc := groups_adjacencyOf
      ((h.append (k := name) (a := (child.name, child.latency, child.rate))).append
        (k := child.name) (a := (name, child.latency, child.rate))) child
    have hr := groups_adjacencyOfAll name hc rest
    simpa [adjacencyOfAll, Node.linksAll, Link.arcs] using hr

end

def iotArc (c : String × ℕ) : String × String × ℕ × ℚ :=
  ("iot_emulation", c.1, c.2, oneGbit)

theorem groups_adjacency (iotConnection : List (String × ℕ)) (node : Node) :
    (adjacencyWithIot iotConnection node).Groups (node.links.flatMap Link.arcs ++ iotConnection.map iotArc) := by
  have h : Dict.Groups ((iotConnection.map iotArc).foldl (fun d e => d.append e.1 e.2) (adjacencyUndirected node))
      (node.links.flatMap Link.arcs ++ iotConnection.map iotArc) :=
    (groups_adjacencyOf Dict.groups_empty node).foldl
  rw [List.foldl_map] at h
  exact h

theorem mem_arcs_iff {node : Node} {u v : String} {latency : ℕ} {rate : ℚ} :
    (u, v, latency, rate) ∈ node.links.flatMap Link.arcs ↔
      ∃ link ∈ node.links, link.Joins u v ∧ link.latency = latency ∧ link.rate = rate := by
  rw [List.mem_flatMap]
  apply exists_congr
  intro link
  simp only [Link.arcs, Link.Joins, List.mem_cons, List.not_mem_nil, or_false, Prod.mk.injEq]
  grind

mutual

theorem getIotConnection_mem : (node : Node) → ∀ c ∈ getIotConnection node, c.1 ∈ node.names
  | .node name _ _ _ iotConnected children => by
    intro c h
    rw [getIotConnection, List.mem_append] at h
    cases h
    case inl h => exact .tail _ (getIotConnections_mem children c h)
    case inr h =>
      have ⟨latency, _, hc⟩ := Option.map_eq_some_iff.mp (Option.mem_toList.mp h)
      exact hc ▸ .head _

theorem getIotConnections_mem : (children : List Node) → ∀ c ∈ getIotConnections children,
    c.1 ∈ (Node.descendantsAll children).map Node.name
  | []            => fun _ h => nomatch h
  | child :: rest => by
    intro c h
    rw [getIotConnections, List.mem_append] at h
    rw [Node.descendantsAll, List.map_append, List.mem_append]
    cases h
    case inl h => exact .inl (getIotConnection_mem child c h)
    case inr h => exact .inr (getIotConnections_mem rest c h)

end

theorem iotConnection_mem {node : Node} : ∀ c ∈ iotConnection node, c.1 ∈ node.descendants.map Node.name := by
  have ⟨name, flavor, latency, rate, iotConnected, children⟩ := node
  exact getIotConnections_mem children

section Search

variable {node : Node} {u v : String} {fuel : ℕ}

theorem mem_keys_of_mem_descendants (connection : List (String × ℕ)) (h : v ∈ node.descendants.map Node.name) :
    v ∈ (adjacencyWithIot connection node).keys := by
  rw [← Node.map_child_links, List.mem_map] at h
  have ⟨link, hl, hc⟩ := h
  rw [(groups_adjacency connection node).mem_keys]
  refine ⟨(link.parent, link.latency, link.rate), List.mem_append_left _ ?_⟩
  exact mem_arcs_iff.mpr ⟨link, hl, .inr ⟨rfl, hc⟩, rfl, rfl⟩

theorem exists_link : (node : Node) → node.children ≠ [] → ∃ link ∈ node.links, link.parent = node.name
  | .node _ _ _ _ _ [],       h => absurd rfl h
  | .node _ _ _ _ _ (_ :: _), _ => ⟨_, .head _, rfl⟩

theorem mem_keys_of_mem_names (connection : List (String × ℕ)) (hc : node.children ≠ []) (h : v ∈ node.names) :
    v ∈ (adjacencyWithIot connection node).keys := by
  cases List.mem_cons.mp h
  case inr h => exact mem_keys_of_mem_descendants connection h
  case inl h =>
    have ⟨link, hl, hp⟩ := exists_link node hc
    rw [(groups_adjacency connection node).mem_keys]
    refine ⟨(link.child, link.latency, link.rate), List.mem_append_left _ ?_⟩
    exact mem_arcs_iff.mpr ⟨link, hl, .inl ⟨hp.trans h.symm, rfl⟩, rfl, rfl⟩

theorem closed_adjacency : Dijkstra.Closed (adjacencyWithIot (iotConnection node) node) := by
  intro u links hu (v, latency, rate) hm
  have hg := groups_adjacency (iotConnection node) node
  cases List.mem_append.mp ((hg.get_eq_some hu _).mp hm)
  case inl hm =>
    have ⟨link, hl, hj, _⟩ := mem_arcs_iff.mp hm
    rw [hg.mem_keys]
    refine ⟨(u, link.latency, link.rate), List.mem_append_left _ ?_⟩
    exact mem_arcs_iff.mpr ⟨link, hl, hj.symm, rfl, rfl⟩
  case inr hm =>
    have ⟨c, hc, he⟩ := List.mem_map.mp hm
    cases he
    exact mem_keys_of_mem_descendants _ (iotConnection_mem c hc)

-- Some number of steps is enough for all sources.
theorem exists_dijkstra : ∃ fuel₀, ∀ fuel ≥ fuel₀, ∀ src ∈ (adjacencyWithIot (iotConnection node) node).keys,
    dijkstra (adjacencyWithIot (iotConnection node) node) fuel src =
        dijkstra (adjacencyWithIot (iotConnection node) node) fuel₀ src ∧
      (dijkstra (adjacencyWithIot (iotConnection node) node) fuel₀ src).isSome := by
  generalize ha : adjacencyWithIot (iotConnection node) node = adjacency
  have H (sources : List String) (hs : sources ⊆ adjacency.keys) :
      ∃ fuel₀, ∀ src ∈ sources, (dijkstra adjacency fuel₀ src).isSome := by
    induction sources
    case nil => exact ⟨0, fun _ h => nomatch h⟩
    case cons src sources hi =>
      obtain ⟨hk, hs⟩ := List.cons_subset.mp hs
      obtain ⟨fuel₁, h₁⟩ := hi hs
      obtain ⟨fuel₂, h₂⟩ : ∃ fuel, (dijkstra adjacency fuel src).isSome := by
        apply Dijkstra.exists_search (ha ▸ closed_adjacency)
        simpa [Dijkstra.start] using hk
      refine ⟨max fuel₁ fuel₂, List.forall_mem_cons.mpr ⟨?_, ?_⟩⟩
      case refine_1 =>
        obtain ⟨s, h⟩ := Option.isSome_iff_exists.mp h₂
        exact Option.isSome_of_mem (Dijkstra.search_mono (le_max_right ..) h)
      case refine_2 =>
        intro src hm
        obtain ⟨s, h⟩ := Option.isSome_iff_exists.mp (h₁ src hm)
        exact Option.isSome_of_mem (Dijkstra.search_mono (le_max_left ..) h)
  obtain ⟨fuel₀, h⟩ := H adjacency.keys (List.Subset.refl _)
  refine ⟨fuel₀, ?_⟩
  intro fuel hle src hm
  obtain ⟨s, hs⟩ := Option.isSome_iff_exists.mp (h src hm)
  exact ⟨(Dijkstra.search_mono hle hs).trans hs.symm, h src hm⟩

variable (hn : ("iot_emulation" :: node.names).Nodup)
include hn

theorem mem_links_iff {adjacent : List (String × ℕ × ℚ)} {connection : List (String × ℕ)} (hu : u ∈ node.names)
    (h : (adjacencyWithIot connection node).get u = some adjacent) {latency : ℕ} {rate : ℚ} :
    (v, latency, rate) ∈ adjacent ↔
      ∃ link ∈ node.links, link.Joins u v ∧ link.latency = latency ∧ link.rate = rate := by
  have hne : u ≠ "iot_emulation" := fun he => (List.nodup_cons.mp hn).left (he ▸ hu)
  rw [(groups_adjacency connection node).get_eq_some h, List.mem_append, mem_arcs_iff, or_iff_left]
  intro hm
  have ⟨c, _, he⟩ := List.mem_map.mp hm
  exact hne (congrArg Prod.fst he).symm

theorem walk_of_path {connection : List (String × ℕ)} {vs : List String} {latency : ℕ} {rate : ℚ} (hu : u ∈ node.names)
    (p : Dijkstra.Path (adjacencyWithIot connection node) min oneGbit u vs v latency rate) :
    v ∈ node.names ∧ ∃ q : node.graph.Walk u v, q.IsPath ∧ q.support = vs.reverse ∧
      node.latencyOf q = latency ∧ node.rateOf q = rate := by
  have hnames := (List.nodup_cons.mp hn).right
  induction p
  case nil => exact ⟨hu, .nil, .nil, rfl, rfl, rfl⟩
  case snoc vs w latency rate adjacent a _ hget ha hv hi =>
    have ⟨hw, q, hq, hs, hlatency, hrate⟩ := hi
    have ⟨link, hl, hj, hlatency', hrate'⟩ := (mem_links_iff hn hw hget).mp ha
    have hadj := (Node.adj_iff hnames).mpr ⟨link, hl, hj⟩
    have hb := Node.linkBetween_eq hnames hl hj
    refine ⟨Node.mem_names_of_joins hl hj, q.concat hadj, ?_, ?_, ?_, ?_⟩
    case refine_1 => exact hq.concat (by simpa [hs] using hv) hadj
    case refine_2 => simp [SimpleGraph.Walk.support_concat, hs]
    case refine_3 => rw [Node.latencyOf_concat, hlatency, hb, Option.elim_some, hlatency']
    case refine_4 => rw [Node.rateOf_concat, hrate, hb, Option.elim_some, hrate']

theorem linked_of_walk {connection : List (String × ℕ)} (q : node.graph.Walk u v) :
    Relation.ReflTransGen (Dijkstra.Linked (adjacencyWithIot connection node)) u v := by
  induction q
  case nil => exact .refl
  case cons u w _ hadj _ hi =>
    have ⟨link, hl, hj⟩ := (Node.adj_iff (List.nodup_cons.mp hn).right).mp hadj
    have hg := groups_adjacency connection node
    have hm : (u, w, link.latency, link.rate) ∈ node.links.flatMap Link.arcs ++ connection.map iotArc :=
      List.mem_append_left _ (mem_arcs_iff.mpr ⟨link, hl, hj, rfl, rfl⟩)
    have ⟨adjacent, ha⟩ := Dict.mem_keys_iff.mp (hg.mem_keys.mpr ⟨_, hm⟩)
    exact .head ⟨adjacent, ha, _, (hg.get_eq_some ha _).mpr hm, rfl⟩ hi

-- What is found for a node of the network are the latency and the rate of the way to it.
theorem get_dijkstra {connection : List (String × ℕ)} {s : Dijkstra String ℚ} (hu : u ∈ node.names)
    (hs : dijkstra (adjacencyWithIot connection node) fuel u = some s) {p : node.graph.Walk u v} (hp : p.IsPath) :
    s.dist.get v = some (node.latencyOf p) ∧ s.labels.get v = some (node.rateOf p) := by
  apply Dijkstra.get_of_search hs (linked_of_walk hn p)
  intro vs latency rate q
  have ⟨_, q, hq, _, hlatency, hrate⟩ := walk_of_path hn hu q
  have he : q = p := congrArg Subtype.val <|
    ((Node.isAcyclic (List.nodup_cons.mp hn).right).subsingleton_path u v).elim ⟨q, hq⟩ ⟨p, hp⟩
  exact ⟨hlatency.symm.trans (he ▸ rfl), hrate.symm.trans (he ▸ rfl)⟩

theorem filter_constraints {connection : List (String × ℕ)} {s : Dijkstra String ℚ} (hu : u ∈ node.names)
    (hs : dijkstra (adjacencyWithIot connection node) fuel u = some s) {p : node.graph.Walk u v} (hp : p.IsPath) :
    (constraints u s).filter (fun c => c.source = u ∧ c.destination = v) =
      [⟨u, v, node.latencyOf p, node.rateOf p⟩] := by
  have ⟨hd, hr⟩ := get_dijkstra hn hu hs hp
  have hf : (fun c : Constraint => decide (c.source = u ∧ c.destination = v)) ∘
      (fun e : String × ℕ => ⟨u, e.1, e.2, (s.labels.get e.1).getD oneGbit⟩) = fun e => decide (e.1 = v) := by
    funext e
    simp
  rw [constraints, List.filter_map, hf, Dict.filter_entries hd]
  simp [hr]

end Search

section Calls

variable {adjacency : Adjacency} {node : Node} {u v : String} {fuel : ℕ}

def calls (adjacency : Adjacency) (fuel : ℕ) (src : String) : List Constraint :=
  ((dijkstra adjacency fuel src).map (constraints src)).getD []

theorem source_of_mem_calls {src : String} {c : Constraint} (h : c ∈ calls adjacency fuel src) : c.source = src := by
  rw [calls] at h
  cases hd : dijkstra adjacency fuel src
  case none => simp [hd] at h
  case some s =>
    rw [hd] at h
    obtain ⟨_, _, he⟩ := List.mem_map.mp h
    exact he ▸ rfl

theorem genNet_eq {connection : List (String × ℕ)}
    (h : ∀ src ∈ (adjacencyWithIot connection node).keys,
      (dijkstra (adjacencyWithIot connection node) fuel src).isSome) :
    genNet fuel connection node =
      some ((adjacencyWithIot connection node).keys.flatMap (calls (adjacencyWithIot connection node) fuel)) := by
  have hs : ∀ src ∈ (adjacencyWithIot connection node).keys,
      ((dijkstra (adjacencyWithIot connection node) fuel src).map (constraints src)).isSome := by
    intro src hm
    rw [Option.isSome_map]
    exact h src hm
  have ⟨r, hr⟩ := Option.isSome_iff_exists.mp (Lists.mapM_isSome hs)
  have ⟨he, _⟩ := Lists.mapM_eq_some hr
  simp only [genNet, hr, he, Option.map_some, List.flatMap_def]
  rfl

theorem filter_calls {connection : List (String × ℕ)} (hc : node.children ≠ [])
    (hn : ("iot_emulation" :: node.names).Nodup) (hu : u ∈ node.names)
    (h : ∀ src ∈ (adjacencyWithIot connection node).keys, (dijkstra (adjacencyWithIot connection node) fuel src).isSome)
    {p : node.graph.Walk u v} (hp : p.IsPath) :
    ((adjacencyWithIot connection node).keys.flatMap (calls (adjacencyWithIot connection node) fuel)).filter
        (fun c => c.source = u ∧ c.destination = v) = [⟨u, v, node.latencyOf p, node.rateOf p⟩] := by
  have hk := mem_keys_of_mem_names connection hc hu
  have ⟨s, hs⟩ := Option.isSome_iff_exists.mp (h u hk)
  have hd : (adjacencyWithIot connection node).keys.Nodup := (adjacencyWithIot connection node).nodup
  have hf : ∀ src ∈ (adjacencyWithIot connection node).keys, src ≠ u →
      (calls (adjacencyWithIot connection node) fuel src).filter (fun c => c.source = u ∧ c.destination = v) = [] := by
    intro src _ hne
    rw [List.filter_eq_nil_iff]
    intro c hm
    simp [source_of_mem_calls hm, hne]
  rw [List.filter_flatMap, Lists.flatMap_eq_single hd hk hf]
  rw [calls, hs, Option.map_some, Option.getD_some]
  exact filter_constraints hn hu hs hp

end Calls

-- Every pair of nodes is constrained once, by the way between them, in either direction.
theorem genNet_constrains {node : Node} (hc : node.children ≠ []) (hn : ("iot_emulation" :: node.names).Nodup) :
    ∃ fuel₀ calls, (∀ fuel ≥ fuel₀, genNet fuel (iotConnection node) node = some calls) ∧
      ∀ u ∈ node.names, ∀ v ∈ node.names, ∃ p : node.graph.Walk u v, p.IsPath ∧
        (∀ q : node.graph.Walk u v, q.IsPath → q = p) ∧
        calls.filter (fun c => c.source = u ∧ c.destination = v) = [⟨u, v, node.latencyOf p, node.rateOf p⟩] ∧
        calls.filter (fun c => c.source = v ∧ c.destination = u) = [⟨v, u, node.latencyOf p, node.rateOf p⟩] := by
  have ⟨fuel₀, h₀⟩ := @exists_dijkstra node
  refine ⟨fuel₀, (adjacencyWithIot (iotConnection node) node).keys.flatMap
    (calls (adjacencyWithIot (iotConnection node) node) fuel₀), ?_, ?_⟩
  case refine_1 =>
    intro fuel hle
    have hs src hm := (h₀ fuel hle src hm).left ▸ (h₀ fuel hle src hm).right
    rw [genNet_eq hs]
    apply congrArg some
    apply List.flatMap_congr
    intro src hm
    rw [calls, calls, (h₀ fuel hle src hm).left]
  case refine_2 =>
    intro u hu v hv
    have hs src hm := (h₀ fuel₀ le_rfl src hm).right
    have ⟨p, hp, hq⟩ := Node.existsUnique_isPath (List.nodup_cons.mp hn).right hu hv
    refine ⟨p, hp, hq, filter_calls hc hn hu hs hp, ?_⟩
    have hr := filter_calls hc hn hv hs hp.reverse
    rwa [Node.latencyOf_reverse, Node.rateOf_reverse] at hr

def tier3Flavor : Flavor where
  core              := 4
  mem               := 1024 * 6
  reservedCore      := 7 / 2
  reservedMem       := 1024 * 5
  isCloud           := none
  additionalEnvVars := 2

def tier4Flavor : Flavor where
  core              := 2
  mem               := 1024 * 4
  reservedCore      := 3 / 2
  reservedMem       := 1024 * 3
  isCloud           := none
  additionalEnvVars := 3

-- The network for the development.
def devNetwork : Node :=
  .node "market" tier1Flavor 0 oneGbit none [
    .node "node_1" tier3Flavor 3 oneGbit none [
      .node "node_2" tier3Flavor 6 oneGbit none [
        .node "node_3" tier4Flavor 10 oneGbit (some 0) [],
        .node "node_34" tier4Flavor 5 100000000 (some 0) []
      ]
    ]
  ]

theorem adj_devNetwork : devNetwork.graph.Adj "node_3" "node_2" ∧ devNetwork.graph.Adj "node_2" "node_34" := by
  simp only [Node.graph, SimpleGraph.fromRel_adj]
  decide

theorem genNet_constrains_of_dev : ∃ fuel calls, genNet fuel (iotConnection devNetwork) devNetwork = some calls ∧
    calls.filter (fun c => c.source = "node_3" ∧ c.destination = "node_34") =
      [⟨"node_3", "node_34", 15, 100000000⟩] := by
  obtain ⟨fuel, calls, hg, hc⟩ := @genNet_constrains devNetwork (by simp [devNetwork, Node.children]) (by decide)
  obtain ⟨p, _, hp, hf, _⟩ := hc "node_3" (by decide) "node_34" (by decide)
  refine ⟨fuel, calls, hg fuel le_rfl, hf.trans ?_⟩
  rw [← hp (.cons adj_devNetwork.left (.cons adj_devNetwork.right .nil)) (by simp)]
  simp only [Node.latencyOf, Node.rateOf, SimpleGraph.Walk.darts_cons, SimpleGraph.Walk.darts_nil, List.map_cons,
    List.map_nil]
  decide +kernel

end Testbed
