import FogMarket.Library.Hierarchy.Graph
import FogMarket.Testbed.Network

namespace Testbed

structure Link where
  parent  : String
  child   : String
  latency : ℕ
  rate    : ℚ

def oneGbit : ℚ :=
  1000000000

def Link.Joins (link : Link) (a b : String) : Prop :=
  link.parent = a ∧ link.child = b ∨ link.parent = b ∧ link.child = a

instance (a b : String) : DecidablePred fun link : Link => link.Joins a b :=
  fun _ => inferInstanceAs (Decidable (_ ∨ _))

namespace Node

mutual

def links : Node → List Link
  | node name _ _ _ _ children => linksAll name children

def linksAll (name : String) : List Node → List Link
  | []            => []
  | child :: rest => ⟨name, child.name, child.latency, child.rate⟩ :: links child ++ linksAll name rest

end

def names (node : Node) : List String :=
  node.name :: node.descendants.map Node.name

mutual

theorem map_child_links : (node : Node) → node.links.map Link.child = node.descendants.map Node.name
  | node name _ _ _ _ children => by rw [links, descendants, map_child_linksAll]

theorem map_child_linksAll {name : String} :
    (children : List Node) → (linksAll name children).map Link.child = (descendantsAll children).map Node.name
  | []            => rfl
  | child :: rest => by
    simp only [linksAll, descendantsAll, List.cons_append, List.map_cons, List.map_append, map_child_links child,
      map_child_linksAll rest]

end

mutual

theorem parent_mem_names : (node : Node) → ∀ link ∈ node.links, link.parent ∈ node.names
  | node name _ _ _ _ children => by
    intro link h
    cases parent_mem_namesAll children link h
    case inl h => exact h ▸ .head _
    case inr h => exact .tail _ h

theorem parent_mem_namesAll {name : String} : (children : List Node) → ∀ link ∈ linksAll name children,
    link.parent = name ∨ link.parent ∈ (descendantsAll children).map Node.name
  | []            => fun _ h => nomatch h
  | child :: rest => by
    intro link h
    rw [linksAll, List.cons_append, List.mem_cons, List.mem_append] at h
    rw [descendantsAll, List.cons_append, List.map_cons, List.map_append, List.mem_cons, List.mem_append]
    rcases h with h | h | h
    case inl => exact .inl (h ▸ rfl)
    case inr.inl =>
      have hp := parent_mem_names child link h
      rw [names, List.mem_cons] at hp
      exact .inr (hp.imp id .inl)
    case inr.inr => exact (parent_mem_namesAll rest link h).imp id fun hp => .inr (.inr hp)

end

-- A node is found by following the links down from the root.
mutual

theorem reachable {links' : List Link} : (node : Node) → node.links ⊆ links' → ∀ name ∈ node.names,
    Relation.ReflTransGen (fun a b => ∃ link ∈ links', link.parent = a ∧ link.child = b) node.name name
  | node name _ _ _ _ children => by
    intro hs name' h
    cases List.mem_cons.mp h
    case inl h => exact h ▸ .refl
    case inr h => exact reachableAll children hs name' h

theorem reachableAll {links' : List Link} {name : String} : (children : List Node) →
    linksAll name children ⊆ links' → ∀ name' ∈ (descendantsAll children).map Node.name,
    Relation.ReflTransGen (fun a b => ∃ link ∈ links', link.parent = a ∧ link.child = b) name name'
  | []            => fun _ _ h => nomatch h
  | child :: rest => by
    intro hs name' h
    rw [linksAll, List.cons_append, List.cons_subset, List.append_subset] at hs
    rw [descendantsAll, List.map_append, List.mem_append] at h
    cases h
    case inl h => exact .head ⟨_, hs.left, rfl, rfl⟩ (reachable child hs.right.left name' h)
    case inr h => exact reachableAll rest hs.right.right name' h

end

-- The nodes and the links between them.
def graph (node : Node) : SimpleGraph String :=
  .fromRel fun a b => ∃ link ∈ node.links, link.parent = a ∧ link.child = b

def parentOf (node : Node) (name : String) : Option String :=
  (node.links.find? (·.child = name)).map Link.parent

def childrenOf (node : Node) (name : String) : List String :=
  (node.links.filter (·.parent = name)).map Link.child

def linkBetween (node : Node) (a b : String) : Option Link :=
  node.links.find? (·.Joins a b)

def latencyOf (node : Node) {u v : String} (p : node.graph.Walk u v) : ℕ :=
  (p.darts.map fun d => (node.linkBetween d.fst d.snd).elim 0 Link.latency).sum

-- No way is faster than the interface of a node.
def rateOf (node : Node) {u v : String} (p : node.graph.Walk u v) : ℚ :=
  (p.darts.map fun d => (node.linkBetween d.fst d.snd).elim oneGbit Link.rate).foldl min oneGbit

section Tree

variable {node : Node} (hn : node.names.Nodup) {link link' : Link} {a b u v name : String}
include hn

theorem nodup_child : (node.links.map Link.child).Nodup :=
  map_child_links node ▸ (List.nodup_cons.mp hn).right

theorem eq_of_child (h : link ∈ node.links) (h' : link' ∈ node.links) (he : link.child = link'.child) : link = link' :=
  List.inj_on_of_nodup_map (nodup_child hn) h h' he

theorem parentOf_eq_some_iff : node.parentOf b = some a ↔ ∃ link ∈ node.links, link.parent = a ∧ link.child = b := by
  rw [parentOf, Option.map_eq_some_iff]
  constructor
  case mp =>
    intro ⟨link, hf, hp⟩
    have hc := List.find?_some hf
    exact ⟨link, List.mem_of_find?_eq_some hf, hp, of_decide_eq_true hc⟩
  case mpr =>
    intro ⟨link, hm, hp, hc⟩
    cases hf : node.links.find? (·.child = b)
    case none => simpa [hc] using List.find?_eq_none.mp hf link hm
    case some link' =>
      have hc' := List.find?_some hf
      have he := eq_of_child hn hm (List.mem_of_find?_eq_some hf) (hc.trans (of_decide_eq_true hc').symm)
      exact ⟨link', rfl, he ▸ hp⟩

omit hn in
theorem mem_childrenOf_iff : b ∈ node.childrenOf a ↔ ∃ link ∈ node.links, link.parent = a ∧ link.child = b := by
  simp [childrenOf, and_assoc]

omit hn in
theorem child_mem_descendants (h : link ∈ node.links) : link.child ∈ node.descendants.map Node.name :=
  map_child_links node ▸ List.mem_map_of_mem h

omit hn in
theorem mem_names_of_joins (h : link ∈ node.links) (hj : link.Joins a b) : b ∈ node.names := by
  cases hj
  case inl hj => exact .tail _ (hj.right ▸ child_mem_descendants h)
  case inr hj => exact hj.left ▸ parent_mem_names node link h

theorem rooted : Hierarchy.Rooted node.names.toFinset node.parentOf node.childrenOf := by
  have hroot : node.parentOf node.name = none := by
    rw [Option.eq_none_iff_forall_ne_some]
    intro p hp
    have ⟨link, hl, _, hc⟩ := (parentOf_eq_some_iff hn).mp hp
    exact (List.nodup_cons.mp hn).left (hc ▸ child_mem_descendants hl)
  have hunique {v} (hv : v ∈ node.names) (hp : node.parentOf v = none) : v = node.name := by
    apply (List.mem_cons.mp hv).resolve_right
    intro hm
    rw [← map_child_links, List.mem_map] at hm
    have ⟨link, hl, hc⟩ := hm
    simp [(parentOf_eq_some_iff hn).mpr ⟨link, hl, rfl, hc⟩] at hp
  constructor
  case root => exact ⟨node.name, ⟨by simp [names], hroot⟩, fun v ⟨hv, hp⟩ => hunique (List.mem_toFinset.mp hv) hp⟩
  case parent_mem =>
    intro v _ p hp
    have ⟨link, hl, hp, _⟩ := (parentOf_eq_some_iff hn).mp hp
    exact List.mem_toFinset.mpr (hp ▸ parent_mem_names node link hl)
  case listed_once =>
    intro v _ p hp
    have hd : (node.childrenOf p).Nodup := (nodup_child hn).sublist (List.filter_sublist.map _)
    exact List.count_eq_one_of_mem hd (mem_childrenOf_iff.mpr ((parentOf_eq_some_iff hn).mp hp))
  case listed =>
    intro p _ c hc
    have ⟨link, hl, hp, hc⟩ := mem_childrenOf_iff.mp hc
    exact ⟨List.mem_toFinset.mpr (.tail _ (hc ▸ child_mem_descendants hl)),
      (parentOf_eq_some_iff hn).mpr ⟨link, hl, hp, hc⟩⟩
  case reachable =>
    intro r hr hp v hv
    rw [hunique (List.mem_toFinset.mp hr) hp]
    apply Relation.ReflTransGen.mono _ _ _ (reachable node (List.Subset.refl _) v (List.mem_toFinset.mp hv))
    exact fun a b h => mem_childrenOf_iff.mpr h

theorem graph_eq : node.graph = Hierarchy.graph node.parentOf node.childrenOf := by
  ext a b
  simp only [graph, Hierarchy.graph, SimpleGraph.fromRel_adj, Hierarchy.neighbors, List.mem_append, Option.mem_toList,
    mem_childrenOf_iff, parentOf_eq_some_iff hn]
  apply and_congr_right
  intro _
  constructor
  case mp => exact .inl
  case mpr => exact fun h => h.elim id Or.symm

theorem neighbors_of_notMem (h : v ∉ node.names.toFinset) :
    Hierarchy.neighbors node.parentOf node.childrenOf v = [] := by
  rw [List.mem_toFinset] at h
  rw [Hierarchy.neighbors, List.append_eq_nil_iff, List.eq_nil_iff_forall_not_mem, Option.toList_eq_nil_iff,
    Option.eq_none_iff_forall_ne_some]
  constructor
  case left =>
    intro c hc
    obtain ⟨link, hl, hp, _⟩ := mem_childrenOf_iff.mp hc
    exact h (hp ▸ parent_mem_names node link hl)
  case right =>
    intro p hp
    obtain ⟨link, hl, _, hc⟩ := (parentOf_eq_some_iff hn).mp hp
    exact h (.tail _ (hc ▸ child_mem_descendants hl))

theorem isAcyclic : node.graph.IsAcyclic := by
  rw [graph_eq hn]
  exact (rooted hn).isAcyclic fun _ => neighbors_of_notMem hn

theorem parent_ne_child (h : link ∈ node.links) : link.parent ≠ link.child := by
  intro he
  have hm : link.child ∈ node.names.toFinset := List.mem_toFinset.mpr (.tail _ (child_mem_descendants h))
  exact (rooted hn).parent_ne_self hm ((parentOf_eq_some_iff hn).mpr ⟨link, h, he, rfl⟩)

theorem adj_iff : node.graph.Adj a b ↔ ∃ link ∈ node.links, link.Joins a b := by
  rw [graph, SimpleGraph.fromRel_adj, ← exists_or]
  simp only [← and_or_left]
  constructor
  case mp => exact fun h => h.right
  case mpr =>
    intro ⟨link, hl, hj⟩
    refine ⟨?_, link, hl, hj⟩
    rintro rfl
    cases hj
    case inl hj => exact parent_ne_child hn hl (hj.left.trans hj.right.symm)
    case inr hj => exact parent_ne_child hn hl (hj.left.trans hj.right.symm)

-- Two links between the same nodes would lead around in a circle.
theorem eq_of_joins (h : link ∈ node.links) (h' : link' ∈ node.links) (hj : link.Joins a b) (hj' : link'.Joins a b) :
    link = link' := by
  have hm {l} (hl : l ∈ node.links) : l.child ∈ node.names.toFinset :=
    List.mem_toFinset.mpr (.tail _ (child_mem_descendants hl))
  have hw {l l'} (hl : l ∈ node.links) (hl' : l' ∈ node.links) (he : l.parent = l'.child) (he' : l.child = l'.parent) :
      False := by
    apply (rooted hn).wellFounded_parent.asymmetric l.parent l.child
    case a => exact ⟨hm hl, (parentOf_eq_some_iff hn).mpr ⟨l, hl, rfl, rfl⟩⟩
    case a => exact ⟨he ▸ hm hl', (parentOf_eq_some_iff hn).mpr ⟨l', hl', he'.symm, he.symm⟩⟩
  rcases hj with ⟨rfl, rfl⟩ | ⟨rfl, rfl⟩
  case inl =>
    cases hj'
    case inl hj' => exact eq_of_child hn h h' hj'.right.symm
    case inr hj' => exact (hw h h' hj'.right.symm hj'.left.symm).elim
  case inr =>
    cases hj'
    case inl hj' => exact (hw h h' hj'.right.symm hj'.left.symm).elim
    case inr hj' => exact eq_of_child hn h h' hj'.right.symm

theorem reachable_name (h : name ∈ node.names) : node.graph.Reachable node.name name := by
  have hr := reachable node (List.Subset.refl _) name h
  clear h
  induction hr
  case refl => exact .refl _
  case tail b c _ hl hi =>
    have ⟨link, hl, hj⟩ := hl
    exact hi.trans ((adj_iff hn).mpr ⟨link, hl, .inl hj⟩).reachable

-- There is one way from each node to each other.
theorem existsUnique_isPath (hu : u ∈ node.names) (hv : v ∈ node.names) :
    ∃! p : node.graph.Walk u v, p.IsPath := by
  have ⟨p, hp⟩ := ((reachable_name hn hu).symm.trans (reachable_name hn hv)).exists_isPath
  refine ⟨p, hp, ?_⟩
  intro q hq
  exact congrArg Subtype.val (((isAcyclic hn).subsingleton_path u v).elim ⟨q, hq⟩ ⟨p, hp⟩)

theorem linkBetween_eq (h : link ∈ node.links) (hj : link.Joins a b) : node.linkBetween a b = some link := by
  cases hf : node.linkBetween a b
  case none => simpa [hj] using List.find?_eq_none.mp hf link h
  case some link' =>
    have hj' := List.find?_some hf
    rw [eq_of_joins hn h (List.mem_of_find?_eq_some hf) hj (of_decide_eq_true hj')]

end Tree

section Walks

variable {node : Node} {u v w : String}

theorem linkBetween_comm (a b : String) : node.linkBetween a b = node.linkBetween b a := by
  rw [linkBetween, linkBetween]
  congr 1
  funext link
  rw [decide_eq_decide]
  exact or_comm

theorem latencyOf_concat (p : node.graph.Walk u v) (h : node.graph.Adj v w) :
    node.latencyOf (p.concat h) = node.latencyOf p + (node.linkBetween v w).elim 0 Link.latency := by
  simp [latencyOf, List.concat_eq_append]

theorem rateOf_concat (p : node.graph.Walk u v) (h : node.graph.Adj v w) :
    node.rateOf (p.concat h) = min (node.rateOf p) ((node.linkBetween v w).elim oneGbit Link.rate) := by
  simp [rateOf, List.concat_eq_append]

theorem linkBetween_symm (d : node.graph.Dart) :
    node.linkBetween d.symm.fst d.symm.snd = node.linkBetween d.fst d.snd :=
  linkBetween_comm ..

-- The way back is as long and as fast.
theorem latencyOf_reverse (p : node.graph.Walk u v) : node.latencyOf p.reverse = node.latencyOf p := by
  simp only [latencyOf, SimpleGraph.Walk.darts_reverse, List.map_reverse, List.sum_reverse, List.map_map,
    Function.comp_def, linkBetween_symm]

theorem rateOf_reverse (p : node.graph.Walk u v) : node.rateOf p.reverse = node.rateOf p := by
  simp only [rateOf, SimpleGraph.Walk.darts_reverse, List.map_reverse, List.map_map, Function.comp_def,
    linkBetween_symm]
  exact (List.reverse_perm _).foldl_eq _

end Walks

end Node

end Testbed
