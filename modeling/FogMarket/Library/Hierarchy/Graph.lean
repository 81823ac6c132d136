import FogMarket.Library.Hierarchy
import Mathlib.Combinatorics.SimpleGraph.Acyclic
import Mathlib.SetTheory.Ordinal.Rank

open SimpleGraph

namespace Hierarchy

variable {ν : Type*} (parent : ν → Option ν) (children : ν → List ν)

-- The nodes which are one step away.
def neighbors (v : ν) : List ν :=
  children v ++ (parent v).toList

def graph : SimpleGraph ν :=
  fromRel fun v w => w ∈ neighbors parent children v

namespace Rooted

variable {parent : ν → Option ν} {children : ν → List ν} [DecidableEq ν] {nodes : Finset ν} {v w p r : ν}

theorem mem_neighbors_iff (t : Rooted nodes parent children) (hv : v ∈ nodes) :
    w ∈ neighbors parent children v ↔ w ∈ nodes ∧ (parent w = some v ∨ parent v = some w) := by
  rw [neighbors, List.mem_append, Option.mem_toList]
  constructor
  case mp =>
    intro h
    cases h
    case inl h => exact ⟨(t.listed v hv w h).1, .inl (t.listed v hv w h).2⟩
    case inr h => exact ⟨t.parent_mem v hv w h, .inr h⟩
  case mpr =>
    intro ⟨hw, h⟩
    cases h
    case inl h => exact .inl (t.mem_children hw h)
    case inr h => exact .inr h

-- The way up from a node ends at the root.
theorem wellFounded_parent (t : Rooted nodes parent children) :
    WellFounded fun p v => v ∈ nodes ∧ parent v = some p := by
  have ⟨r, ⟨hr, hn⟩, _⟩ := t.root
  have hacc {v} (h : Below children r v) : Acc (fun p v => v ∈ nodes ∧ parent v = some p) v := by
    induction h
    case refl => exact ⟨_, fun p ⟨_, hp⟩ => absurd hp (by simp [hn])⟩
    case tail u v hu hv hi =>
      have hp := (t.listed u (t.below_mem hr hu) v hv).2
      exact ⟨_, fun p ⟨_, hp'⟩ => Option.some.inj (hp.symm.trans hp') ▸ hi⟩
  refine ⟨fun v => ?_⟩
  by_cases hv : v ∈ nodes
  case pos => exact hacc (t.reachable r hr hn v hv)
  case neg => exact ⟨_, fun p ⟨hv', _⟩ => absurd hv' hv⟩

-- Nodes which are not part of the tree have no neighbors.
variable (hout : ∀ v ∉ nodes, neighbors parent children v = [])
include hout

theorem mem_of_mem_neighbors (h : w ∈ neighbors parent children v) : v ∈ nodes := by
  by_contra hv
  simp [hout v hv] at h

theorem mem_neighbors_iff_adj (t : Rooted nodes parent children) :
    w ∈ neighbors parent children v ↔ (graph parent children).Adj v w := by
  have hsymm {v w} (h : w ∈ neighbors parent children v) : v ∈ neighbors parent children w := by
    have hv := mem_of_mem_neighbors hout h
    have ⟨hw, h⟩ := (t.mem_neighbors_iff hv).mp h
    exact (t.mem_neighbors_iff hw).mpr ⟨hv, h.symm⟩
  rw [graph, fromRel_adj]
  constructor
  case mp =>
    intro h
    refine ⟨?_, .inl h⟩
    rintro rfl
    have hv := mem_of_mem_neighbors hout h
    exact t.parent_ne_self hv (or_self_iff.mp ((t.mem_neighbors_iff hv).mp h).2)
  case mpr => exact fun h => h.2.elim id hsymm

theorem adj_iff (t : Rooted nodes parent children) :
    (graph parent children).Adj v w ↔ v ∈ nodes ∧ w ∈ nodes ∧ (parent w = some v ∨ parent v = some w) := by
  rw [← t.mem_neighbors_iff_adj hout]
  constructor
  case mp =>
    intro h
    have hv := mem_of_mem_neighbors hout h
    exact ⟨hv, (t.mem_neighbors_iff hv).mp h⟩
  case mpr => exact fun ⟨hv, h⟩ => (t.mem_neighbors_iff hv).mpr h

-- Parents lie above their children, and each node has only one of them. That is, there is no way back
-- up from the lowest node of a cycle.
theorem isAcyclic (t : Rooted nodes parent children) : (graph parent children).IsAcyclic := by
  have : IsWellFounded ν fun p v => v ∈ nodes ∧ parent v = some p := ⟨t.wellFounded_parent⟩
  intro u c hc
  have ⟨v, hv, hmax⟩ := c.support.toFinset.exists_max_image
    (IsWellFounded.rank fun p v => v ∈ nodes ∧ parent v = some p) ⟨u, by simp⟩
  rw [List.mem_toFinset] at hv
  have hup {w} (hadj : (graph parent children).Adj v w) (hw : w ∈ (c.rotate v hv).support) :
      parent v = some w := by
    have ⟨_, hwn, h⟩ := (t.adj_iff hout).mp hadj
    cases h
    case inr h => exact h
    case inl h =>
      have hle := hmax w (by simpa using hw)
      exact absurd (IsWellFounded.rank_lt_of_rel (r := fun p v => v ∈ nodes ∧ parent v = some p) ⟨hwn, h⟩)
        hle.not_gt
  have hc : (c.rotate v hv).IsCycle := by simpa using hc
  have hsnd := hup ((c.rotate v hv).adj_snd hc.not_nil) (Walk.getVert_mem_support _ 1)
  have hpen := hup ((c.rotate v hv).adj_penultimate hc.not_nil).symm (Walk.getVert_mem_support _ _)
  exact hc.snd_ne_penultimate (Option.some.inj (hsnd.symm.trans hpen))

theorem nodup_neighbors (t : Rooted nodes parent children) (v : ν) : (neighbors parent children v).Nodup := by
  by_cases hv : v ∈ nodes
  case neg => simp [hout v hv]
  case pos =>
    rw [neighbors, List.nodup_append]
    refine ⟨?_, ?_, ?_⟩
    case refine_1 =>
      refine List.nodup_iff_count_le_one.mpr fun c => ?_
      by_cases hc : c ∈ children v
      case pos => exact (t.listed_once c (t.listed v hv c hc).1 v (t.listed v hv c hc).2).le
      case neg => simp [List.count_eq_zero_of_not_mem hc]
    case refine_2 => cases parent v <;> simp
    case refine_3 =>
      -- Otherwise, there would be a way up from the node to itself.
      intro c hc p hp he
      have hp := Option.mem_toList.mp hp
      have ⟨hcn, hc⟩ := t.listed v hv c hc
      exact t.wellFounded_parent.asymmetric v c ⟨hcn, hc⟩ ⟨hv, he ▸ hp⟩

end Rooted
end Hierarchy
