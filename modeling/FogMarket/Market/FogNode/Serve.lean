import FogMarket.Market.FogNode.Traversal

open Hierarchy

namespace Market.FogNode

variable {nodes nodes' : FogNode} {node : Node NodeRecord} {record : NodeRecord}
variable {id root parent child x y : NodeId} {outcome : Outcome} {fuel : ℕ}
variable {ip : IpAddr} {portHttp portFaas : BitVec 16} {tags : List String}

-- `check_tree` accepts: there is one root, and nothing to report below it.
def Accepted (nodes : FogNode) : Prop :=
  ∃ r, nodes.roots = {r} ∧ nodes.Sound [r]

theorem checkTree_spec (h : nodes.checkTree fuel = some outcome) :
    (outcome = .ok ∧ nodes.Accepted) ∨ (∃ e, outcome = .err e ∧ ¬nodes.Accepted) := by
  simp only [checkTree] at h
  split at h
  case isTrue hc =>
    refine .inr ⟨.noRoot, by simpa [eq_comm] using h, ?_⟩
    rintro ⟨r, hr, _⟩
    simp [hr] at hc
  case isFalse =>
    split at h
    case isTrue hc =>
      have hr := roots_eq hc
      have ha : nodes.Accepted ↔ nodes.Sound [nodes.root hc] := by
        constructor
        · rintro ⟨r, hr', hs⟩
          rwa [Finset.singleton_inj.mp (hr.symm.trans hr')]
        · exact fun hs => ⟨_, hr, hs⟩
      have hp : nodes.traverse fuel [nodes.root hc] ≠ some .panic := by
        refine traverse_ne_panic fun x hx => ?_
        rw [List.mem_singleton.mp hx]
        exact (mem_roots.mp (root_mem_roots hc)).1
      have ho := traverse_eq_ok_iff h
      rw [ha, ← ho]
      cases outcome
      case ok    => exact .inl ⟨rfl, rfl⟩
      case err e => exact .inr ⟨e, rfl, by rintro ⟨⟩⟩
      case panic => exact absurd h hp
    case isFalse hc =>
      refine .inr ⟨.severalRoots, by simpa [eq_comm] using h, ?_⟩
      rintro ⟨r, hr, _⟩
      simp [hr] at hc

theorem checkTree_ends {rank : NodeId → ℕ} (h : Ranked nodes.children rank) :
    ∃ fuel, ∀ m ≥ fuel, ∃ outcome, nodes.checkTree m = some outcome := by
  by_cases hc : nodes.roots.card = 1
  case neg =>
    refine ⟨0, fun m _ => ?_⟩
    simp only [checkTree, hc]
    split <;> exact ⟨_, rfl⟩
  case pos =>
    refine ⟨weight h (fun _ => 1) (nodes.root hc), fun m hm => ?_⟩
    obtain ⟨outcome, ho⟩ : ∃ outcome, nodes.traverse m [nodes.root hc] = some outcome :=
      traverse_ends h (by simpa using hm)
    exact ⟨outcome, by simp [checkTree, hc, ho]⟩

section Append

variable (hp : nodes.lookup parent = some node)

include hp

theorem mem_append : x ∈ nodes.append parent node child record ↔ x = child ∨ x ∈ nodes := by
  have := Map.mem_of_lookup hp
  simp only [append, Finmap.mem_insert]
  grind

theorem parent_append :
    (nodes.append parent node child record).parent x =
      if x = child then some parent else nodes.parent x := by
  simp only [append, parent_insert, fresh]
  split <;> try rfl
  split <;> try rfl
  case isTrue h => rw [h, parent_of_lookup hp]

theorem children_append :
    (nodes.append parent node child record).children x =
      if x = child then [] else if x = parent then nodes.children parent ++ [child] else
        nodes.children x := by
  simp only [append, children_insert, fresh, children_of_lookup hp]

end Append

-- The map after the rollback. The position of the child is zero when counted from the end, so that
-- the first child of the parent is dropped.
def undo (nodes : FogNode) (parent : NodeId) (node : Node NodeRecord) (child : NodeId) : FogNode :=
  let dropped := { node with children := (node.children ++ [child]).tail }
  Finmap.erase child (nodes.insert parent dropped)

theorem lookup_undo :
    (nodes.undo parent node child).lookup x =
      if x = child then none else if x = parent then
        some { node with children := (node.children ++ [child]).tail } else nodes.lookup x := by
  simp only [undo, Map.lookup_erase_eq, Map.lookup_insert_eq]

theorem parent_undo (hp : nodes.lookup parent = some node) :
    (nodes.undo parent node child).parent x = if x = child then none else nodes.parent x := by
  rw [FogNode.parent, lookup_undo]
  split
  case isTrue => rfl
  case isFalse =>
    split
    case isTrue he => rw [he, parent_of_lookup hp]; rfl
    case isFalse   => rfl

theorem rollback_append (h : parent ≠ child) (e : Error) :
    rollback (nodes.append parent node child record) parent child e =
      (.err e, nodes.undo parent node child) := by
  have hl : (nodes.append parent node child record).lookup parent =
      some { node with children := node.children ++ [child] } := by
    simp [append, h]
  simp only [rollback, hl, List.reverse_append, List.reverse_singleton, List.singleton_append,
    List.findIdx?_cons, decide_true, if_true, List.length_append, List.length_singleton,
    Nat.zero_lt_succ, Prod.mk.injEq, true_and, List.eraseIdx_zero]
  apply Finmap.ext_lookup
  intro x
  simp only [lookup_undo, append, Map.lookup_erase_eq, Map.lookup_insert_eq]
  grind

-- A node which is registered as its own child has lost its children by the time of the rollback.
theorem rollback_append_self (e : Error) :
    rollback (nodes.append parent node parent record) parent parent e =
      (.err (.unlistedChild parent parent), nodes.append parent node parent record) := by
  simp [rollback, append, fresh]

theorem appendNewChild_spec
    (h : nodes.appendNewChild fuel parent child ip portHttp portFaas tags = some (outcome, nodes')) :
    (parent ∉ nodes ∧ outcome = .err (.unknownParent child parent) ∧ nodes' = nodes) ∨
    ∃ node, nodes.lookup parent = some node ∧
      let written := nodes.append parent node child (NodeRecord.new ip portHttp portFaas tags)
      (written.Accepted ∧ outcome = .ok ∧ nodes' = written) ∨
      (¬written.Accepted ∧ ∃ e, outcome = .err e ∧
        nodes' = if parent = child then written else nodes.undo parent node child) := by
  simp only [appendNewChild] at h
  split at h
  case h_1 hl =>
    cases h
    exact .inl ⟨Finmap.lookup_eq_none.mp hl, rfl, rfl⟩
  case h_2 node hl =>
    refine .inr ⟨node, hl, ?_⟩
    split at h
    case h_1 => contradiction
    case h_2 e hc =>
      have ha : ¬(nodes.append parent node child (NodeRecord.new ip portHttp portFaas tags)).Accepted := by
        cases checkTree_spec hc
        case inl h' =>
          have ⟨he, _⟩ := h'
          contradiction
        case inr h' =>
          have ⟨_, _, hn⟩ := h'
          exact hn
      refine .inr ⟨ha, ?_⟩
      split
      case isTrue he =>
        subst he
        rw [rollback_append_self] at h
        cases h
        exact ⟨_, rfl, rfl⟩
      case isFalse he =>
        rw [rollback_append he] at h
        cases h
        exact ⟨_, rfl, rfl⟩
    case h_3 hc =>
      cases h
      rcases checkTree_spec hc with ⟨rfl, ha⟩ | ⟨e, rfl, _⟩
      · exact .inl ⟨ha, rfl, rfl⟩
      · simp_all

theorem roots_insert_root : x ∈ roots (nodes.insert root (fresh none record)) ↔
    x = root ∨ (x ∈ nodes ∧ nodes.parent x = none) := by
  simp only [mem_roots, Finmap.mem_insert, parent_insert, fresh]
  grind

-- A root which is written over anything is accepted if it is the only one.
theorem accepted_insert_root_iff :
    Accepted (nodes.insert root (fresh none record)) ↔
      ∀ x ∈ nodes, nodes.parent x = none → x = root := by
  constructor
  case mp =>
    intro ⟨r, hr, _⟩ x hx hn
    have h₁ := hr ▸ roots_insert_root.mpr (.inl rfl : root = root ∨ _)
    have h₂ := hr ▸ roots_insert_root.mpr (.inr ⟨hx, hn⟩)
    exact (Finset.mem_singleton.mp h₂).trans (Finset.mem_singleton.mp h₁).symm
  case mpr =>
    intro h
    refine ⟨root, ?_, ?_⟩
    case refine_1 =>
      ext x
      simp only [roots_insert_root, Finset.mem_singleton]
      exact ⟨fun hx => hx.elim id fun hx => h x hx.1 hx.2, .inl⟩
    case refine_2 =>
      have hc : children (nodes.insert root (fresh none record)) root = [] := by
        simp [children_insert, fresh]
      intro x hx y hy
      cases List.mem_singleton.mp hx
      cases Relation.ReflTransGen.cases_head hy
      case inl he =>
        cases he
        exact ⟨by simp, by simp [hc], by simp [hc]⟩
      case inr h' =>
        have ⟨z, hz, _⟩ := h'
        simp [ListsChild, hc] at hz

theorem appendRoot_spec
    (h : nodes.appendRoot fuel root ip portHttp portFaas tags = some (outcome, nodes')) :
    ((∀ x ∈ nodes, nodes.parent x = none → x = root) ∧ outcome = .ok ∧
      nodes' = nodes.insert root (fresh none (NodeRecord.new ip portHttp portFaas tags))) ∨
    ((∃ x ∈ nodes, nodes.parent x = none ∧ x ≠ root) ∧ (∃ e, outcome = .err e) ∧
      nodes' = nodes.erase root) := by
  simp only [appendRoot] at h
  split at h
  case h_1 => contradiction
  case h_2 e hc =>
    cases h
    cases checkTree_spec hc
    case inl h' =>
      have ⟨he, _⟩ := h'
      contradiction
    case inr h' =>
      have ⟨_, _, hn⟩ := h'
      rw [accepted_insert_root_iff] at hn
      push Not at hn
      refine .inr ⟨hn, ⟨_, rfl⟩, ?_⟩
      apply Finmap.ext_lookup
      intro x
      simp only [Map.lookup_erase_eq, Map.lookup_insert_eq]
      split <;> rfl
  case h_3 hc =>
    cases h
    rcases checkTree_spec hc with ⟨rfl, ha⟩ | ⟨e, rfl, _⟩
    · exact .inl ⟨accepted_insert_root_iff.mp ha, rfl, rfl⟩
    · simp_all

theorem mem_update : x ∈ nodes.update id record ↔ x ∈ nodes := by
  simp only [update]
  split
  case h_1 => rfl
  case h_2 hl =>
    have := Map.mem_of_lookup hl
    simp only [Finmap.mem_insert]
    grind

theorem parent_update : (nodes.update id record).parent x = nodes.parent x := by
  simp only [update]
  split
  case h_1 => rfl
  case h_2 hl =>
    rw [parent_insert]
    split
    case isTrue h => rw [h, parent_of_lookup hl]
    case isFalse  => rfl

theorem children_update : (nodes.update id record).children x = nodes.children x := by
  simp only [update]
  split
  case h_1 => rfl
  case h_2 hl =>
    rw [children_insert]
    split
    case isTrue h => rw [h, children_of_lookup hl]
    case isFalse  => rfl

-- The traversal meets no cycle, because whatever is listed has been written after the node which
-- lists it, and had no children then.
def Acyclic (nodes : FogNode) : Prop :=
  ∃ rank, Ranked nodes.children rank

theorem Acyclic.append (h : nodes.Acyclic) (hp : nodes.lookup parent = some node) (child : NodeId)
    (record : NodeRecord) :
    (nodes.append parent node child record).Acyclic := by
  have ⟨rank, hr⟩ := h
  refine ⟨_, hr.addLeaf child (by simp [children_append hp]) ?_⟩
  intro x c hc
  rw [children_append hp] at hc
  grind

theorem Acyclic.mono (h : nodes.Acyclic) (hs : ∀ x, nodes'.children x ⊆ nodes.children x) :
    nodes'.Acyclic := by
  have ⟨rank, hr⟩ := h
  exact ⟨rank, hr.mono hs⟩

theorem children_undo (record : NodeRecord) (hp : nodes.lookup parent = some node) :
    (nodes.undo parent node child).children x ⊆ (nodes.append parent node child record).children x := by
  rw [children_append hp, children, lookup_undo, children_of_lookup hp]
  split
  case isTrue => simp
  case isFalse =>
    split
    case isTrue  => exact List.tail_subset _
    case isFalse => exact List.Subset.refl _

theorem acyclic_step {r : Request} (h : nodes.Acyclic) (hs : nodes.step r = some nodes') :
    nodes'.Acyclic := by
  have ⟨⟨outcome, _⟩, ho, he⟩ := Option.map_eq_some_iff.mp hs
  cases he
  match r with
  | ⟨fuel, .appendRoot root ..⟩ =>
    rcases appendRoot_spec ho with ⟨_, _, rfl⟩ | ⟨_, _, rfl⟩
    · refine h.mono fun x => ?_
      rw [children_insert]
      split <;> simp [fresh]
    · refine h.mono fun x => ?_
      rw [children_erase]
      split <;> simp
  | ⟨fuel, .appendNewChild parent child ..⟩ =>
    rcases appendNewChild_spec ho with ⟨_, _, rfl⟩ | ⟨node, hp, ⟨_, _, rfl⟩ | ⟨_, _, _, rfl⟩⟩
    · exact h
    · exact h.append hp child _
    · split
      · exact h.append hp child _
      · exact (h.append hp child _).mono fun x => children_undo (NodeRecord.new (.v4 0) 0 0 []) hp
  | ⟨fuel, .update id record⟩ =>
    cases ho
    exact h.mono fun x => by rw [children_update]; exact List.Subset.refl _

-- Every call on an acyclic registry returns.
theorem serve_ends (h : nodes.Acyclic) (call : Call) :
    ∃ fuel, ∀ m ≥ fuel, ∃ res, nodes.serve m call = some res := by
  cases call
  case appendRoot root ip portHttp portFaas tags =>
    have ha : Acyclic (nodes.insert root (fresh none (NodeRecord.new ip portHttp portFaas tags))) := by
      refine h.mono fun x => ?_
      rw [children_insert]
      split <;> simp [fresh]
    have ⟨rank, hr⟩ := ha
    have ⟨fuel, hf⟩ := checkTree_ends hr
    refine ⟨fuel, fun m hm => ?_⟩
    have ⟨outcome, ho⟩ := hf m hm
    simp only [serve, appendRoot, ho]
    cases outcome <;> exact ⟨_, rfl⟩
  case appendNewChild parent child ip portHttp portFaas tags =>
    cases hp : nodes.lookup parent
    case none => exact ⟨0, fun m _ => ⟨_, by simp [serve, appendNewChild, hp]; rfl⟩⟩
    case some node =>
      have ⟨rank, hr⟩ := h.append hp child (NodeRecord.new ip portHttp portFaas tags)
      have ⟨fuel, hf⟩ := checkTree_ends hr
      refine ⟨fuel, fun m hm => ?_⟩
      have ⟨outcome, ho⟩ := hf m hm
      simp only [serve, appendNewChild, hp, ho]
      cases outcome <;> exact ⟨_, rfl⟩
  case update id record => exact ⟨0, fun m _ => ⟨_, rfl⟩⟩

end Market.FogNode
