import FogMarket.Library.Hierarchy
import FogMarket.Market.FogNode.Basic

open Hierarchy

namespace Market.FogNode

variable {nodes : FogNode} {node : Node NodeRecord} {id child p c x y : NodeId}
variable {stack cs : List NodeId} {outcome : Outcome} {n m : ℕ}

theorem parent_insert : parent (nodes.insert id node) x = if x = id then node.parent else nodes.parent x := by
  rw [parent, Map.lookup_insert_eq]
  split <;> rfl

theorem children_insert :
    children (nodes.insert id node) x = if x = id then node.children else nodes.children x := by
  rw [children, Map.lookup_insert_eq]
  split <;> rfl

theorem children_erase : children (nodes.erase id) x = if x = id then [] else nodes.children x := by
  rw [children, Map.lookup_erase_eq]
  split <;> rfl

theorem parent_of_lookup (h : nodes.lookup id = some node) : nodes.parent id = node.parent := by
  simp [parent, h]

theorem children_of_lookup (h : nodes.lookup id = some node) : nodes.children id = node.children := by
  simp [children, h]

theorem mem_of_parent (h : nodes.parent c = some p) : c ∈ nodes := by
  have ⟨_, h, _⟩ := Option.bind_eq_some_iff.mp h
  exact Map.mem_of_lookup h

theorem mem_of_mem_children (h : c ∈ nodes.children p) : p ∈ nodes := by
  cases hl : nodes.lookup p
  case none      => simp [children, hl] at h
  case some node => exact Map.mem_of_lookup hl

theorem misplaced_iff : nodes.Misplaced id child = true ↔ ∃ p, nodes.parent child = some p ∧ p ≠ id := by
  simp [Misplaced, Option.any_eq_true]

theorem mem_roots : x ∈ nodes.roots ↔ x ∈ nodes ∧ nodes.parent x = none := by
  simp [roots, Finmap.mem_keys]

theorem root_mem_roots (h : nodes.roots.card = 1) : nodes.root h ∈ nodes.roots :=
  Finset.choose_mem ..

theorem roots_eq (h : nodes.roots.card = 1) : nodes.roots = {nodes.root h} := by
  obtain ⟨r, hr⟩ := Finset.card_eq_one.mp h
  have hm := root_mem_roots h
  simp only [hr, Finset.mem_singleton] at hm ⊢
  rw [hm]

-- What the loop of `check_tree` checks at the node `id`.
structure Consistent (nodes : FogNode) (id : NodeId) : Prop where
  mem    : id ∈ nodes
  listed : ∀ c ∈ nodes.children id, c ∈ nodes
  placed : ∀ c ∈ nodes.children id, ∀ p, nodes.parent c = some p → p = id

theorem visit_eq_ok_iff : nodes.visit id = .ok cs ↔ nodes.Consistent id ∧ cs = nodes.children id := by
  cases hl : nodes.lookup id
  case none =>
    have : ¬nodes.Consistent id := fun h => Finmap.lookup_eq_none.mp hl h.mem
    simp [visit, hl, this]
  case some node =>
    have hc := children_of_lookup hl
    cases hm : node.children.find? (· ∉ nodes)
    case some child =>
      have hn : child ∉ nodes := by simpa using List.find?_some hm
      have : ¬nodes.Consistent id := fun h => hn (h.listed child (hc ▸ List.mem_of_find?_eq_some hm))
      simp only [visit, hl, hm, this]
      simp
    case none =>
      cases hw : node.children.find? (nodes.Misplaced id)
      case some child =>
        have ⟨p, hp, hn⟩ := misplaced_iff.mp (List.find?_some hw)
        have : ¬nodes.Consistent id :=
          fun h => hn (h.placed child (hc ▸ List.mem_of_find?_eq_some hw) p hp)
        simp only [visit, hl, hm, hw, this]
        simp
      case none =>
        have : nodes.Consistent id := {
          mem    := Map.mem_of_lookup hl
          listed := fun c h => by simpa using List.find?_eq_none.mp hm c (hc ▸ h)
          placed := fun c h p hp => by
            by_contra hn
            exact List.find?_eq_none.mp hw c (hc ▸ h) (misplaced_iff.mpr ⟨p, hp, hn⟩)
        }
        simp only [visit, hl, hm, hw, this, hc]
        simp [eq_comm]

theorem visit_eq_error (h : nodes.visit id = .error outcome) :
    (outcome = .panic ∧ id ∉ nodes) ∨ (∃ e, outcome = .err e) := by
  simp only [visit] at h
  split at h
  case h_1 hl => exact .inl ⟨by simpa [eq_comm] using h, Finmap.lookup_eq_none.mp hl⟩
  case h_2 =>
    split at h
    case h_1 => exact .inr ⟨_, by simpa [eq_comm] using h⟩
    case h_2 =>
      split at h
      case h_1 => exact .inr ⟨_, by simpa [eq_comm] using h⟩
      case h_2 => contradiction

-- All nodes found when descending from the stack are consistent.
def Sound (nodes : FogNode) (stack : List NodeId) : Prop :=
  ∀ x ∈ stack, ∀ y, Below nodes.children x y → nodes.Consistent y

theorem sound_cons : nodes.Sound (id :: stack) ↔
    nodes.Consistent id ∧ nodes.Sound ((nodes.children id).reverse ++ stack) := by
  constructor
  case mp =>
    intro h
    refine ⟨h id List.mem_cons_self id .refl, ?_⟩
    intro x hx y hy
    cases List.mem_append.mp hx
    case inl hx => exact h id List.mem_cons_self y (.head (List.mem_reverse.mp hx) hy)
    case inr hx => exact h x (List.mem_cons_of_mem _ hx) y hy
  case mpr =>
    intro ⟨hc, h⟩ x hx y hy
    cases hx
    case head =>
      cases Relation.ReflTransGen.cases_head hy
      case inl he =>
        cases he
        exact hc
      case inr h' =>
        have ⟨z, hz, hy⟩ := h'
        exact h z (List.mem_append_left _ (List.mem_reverse.mpr hz)) y hy
    case tail hx => exact h x (List.mem_append_right _ hx) y hy

-- If the loop ends, then it accepts if and only if there is nothing to report.
theorem traverse_eq_ok_iff (h : nodes.traverse n stack = some outcome) :
    outcome = .ok ↔ nodes.Sound stack := by
  induction n generalizing stack <;> cases stack
  case zero.nil | succ.nil => simp_all [traverse, Sound, eq_comm]
  case zero.cons => simp [traverse] at h
  case succ.cons n hi id stack =>
    rw [sound_cons]
    simp only [traverse] at h
    split at h
    case h_1 hv =>
      have hn : ¬nodes.Consistent id := fun hc => by simp [visit_eq_ok_iff.mpr ⟨hc, rfl⟩] at hv
      cases h
      rcases visit_eq_error hv with ⟨rfl, _⟩ | ⟨_, rfl⟩ <;> simp [hn]
    case h_2 hv =>
      have ⟨hc, he⟩ := visit_eq_ok_iff.mp hv
      simp [hi h, he, hc]

-- The loop only meets nodes which have been found to be registered.
theorem traverse_ne_panic (h : ∀ x ∈ stack, x ∈ nodes) : nodes.traverse n stack ≠ some .panic := by
  induction n generalizing stack <;> cases stack <;> simp only [traverse, ne_eq] <;> try simp
  case succ.cons n hi id stack =>
    split
    case h_1 hv =>
      rcases visit_eq_error hv with ⟨_, hn⟩ | ⟨_, rfl⟩
      · exact absurd (h id List.mem_cons_self) hn
      · simp
    case h_2 hv =>
      have ⟨hc, he⟩ := visit_eq_ok_iff.mp hv
      refine hi fun x hx => ?_
      cases List.mem_append.mp hx
      case inl hx => exact hc.listed x (he ▸ List.mem_reverse.mp hx)
      case inr hx => exact h x (List.mem_cons_of_mem _ hx)

theorem traverse_mono (h : nodes.traverse n stack = some outcome) (hl : n ≤ m) :
    nodes.traverse m stack = some outcome := by
  induction n generalizing stack m <;> cases stack
  case zero.nil | succ.nil => cases m <;> exact h
  case zero.cons => contradiction
  case succ.cons n hi id stack =>
    cases m
    case zero => contradiction
    case succ m =>
      simp only [traverse] at h ⊢
      split at h
      case h_1 => exact h
      case h_2 => exact hi h (Nat.le_of_succ_le_succ hl)

-- Without cycles the loop ends.
theorem traverse_ends {rank : NodeId → ℕ} (hr : Ranked nodes.children rank)
    (hn : (stack.map (weight hr fun _ => 1)).sum ≤ n) : ∃ outcome, nodes.traverse n stack = some outcome := by
  induction n generalizing stack <;> cases stack
  case zero.nil | succ.nil => exact ⟨.ok, rfl⟩
  case zero.cons id stack => simp [weight_eq hr id] at hn
  case succ.cons n hi id stack =>
    simp only [traverse]
    split
    case h_1 => exact ⟨_, rfl⟩
    case h_2 hv =>
      obtain ⟨_, he⟩ := visit_eq_ok_iff.mp hv
      apply hi
      simp only [List.map_cons, List.sum_cons, weight_eq hr id] at hn
      simp only [he, List.map_append, List.map_reverse, List.sum_append, List.sum_reverse]
      omega

end Market.FogNode
