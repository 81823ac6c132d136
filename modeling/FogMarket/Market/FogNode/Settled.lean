import Mathlib.Algebra.BigOperators.Group.Finset.Basic
import Mathlib.Algebra.Order.BigOperators.Group.Finset
import Mathlib.Algebra.Order.BigOperators.Group.List
import Mathlib.Data.List.Perm.Subperm
import FogMarket.Market.FogNode.Rooted
import FogMarket.Market.FogNode.Registering

open Transition Hierarchy
open scoped List

namespace Market.FogNode

variable {ι : Type*} {nodes₀ nodes nodes' : FogNode} {regs : ι → Registration} {r : Registration}
variable {id c x : NodeId} {p p' : Progress} {i : ι}

namespace Progress

def Inserted (p : Progress) : Prop :=
  p ≠ .push ∧ p ≠ .insert

-- The call fails, or is going to.
def Doomed : Progress → Prop
  | .position _ | .remove .. | .forget _ | .done (.err _) | .done .panic => True
  | _                                                                  => False

def Returned (p : Progress) : Prop :=
  ∃ outcome, p = .done outcome

-- A call which has not failed is where its checks have led it. The children it goes through are still
-- children of the same node.
def Fine (nodes : FogNode) : Progress → Prop
  | .push | .insert | .roots | .done .ok => True
  | .pop stack => ∀ x ∈ stack, x ∈ nodes
  | .contains id rest children stack =>
    children <+~ nodes.children id ∧ rest ⊆ children ∧ (∀ c ∈ children, c ∈ rest ∨ c ∈ nodes) ∧
      ∀ x ∈ stack, x ∈ nodes
  | .parents id rest children stack =>
    children <+~ nodes.children id ∧ rest ⊆ children ∧ (∀ c ∈ children, c ∈ nodes) ∧
      ∀ x ∈ stack, x ∈ nodes
  | _ => False

theorem Fine.not_doomed (h : p.Fine nodes) : ¬p.Doomed := by
  cases p
  case done outcome => cases outcome <;> simp_all [Fine, Doomed]
  all_goals simp_all [Fine, Doomed]

theorem Fine.mono (h : p.Fine nodes) (hm : ∀ x ∈ nodes, x ∈ nodes')
    (hc : ∀ x, nodes.children x <+~ nodes'.children x) : p.Fine nodes' := by
  cases p
  case pop stack => exact fun x hx => hm x (h x hx)
  case contains id rest children stack =>
    have ⟨h₁, h₂, h₃, h₄⟩ := h
    exact ⟨h₁.trans (hc id), h₂, fun c hc => (h₃ c hc).imp_right (hm c), fun x hx => hm x (h₄ x hx)⟩
  case parents id rest children stack =>
    have ⟨h₁, h₂, h₃, h₄⟩ := h
    exact ⟨h₁.trans (hc id), h₂, fun c hc => hm c (h₃ c hc), fun x hx => hm x (h₄ x hx)⟩
  case done outcome => cases outcome <;> exact h
  all_goals exact h

end Progress

-- Once the rollback has been reached, the call fails.
theorem doomed_advance (h : p.Doomed) (e : advance nodes r p = some (nodes', p')) : p'.Doomed := by
  cases p
  case position | remove =>
    simp only [advance] at e
    repeat' split at e
    all_goals cases e; trivial
  case forget => cases e; trivial
  case done => contradiction
  all_goals contradiction

-- Distinct ids which are not registered are to be registered below registered ones.
structure Plans (nodes₀ : FogNode) (regs : ι → Registration) : Prop where
  distinct : Function.Injective fun i => (regs i).child
  new      : ∀ i, (regs i).child ∉ nodes₀
  parents  : ∀ i, (regs i).parent ∈ nodes₀

-- The registry is the initial one with what the calls have written so far.
structure Extends (nodes₀ : FogNode) (regs : ι → Registration) (s : Registering ι) : Prop where
  old  : ∀ x node, nodes₀.lookup x = some node →
    ∃ l, s.nodes.lookup x = some { node with children := node.children ++ l } ∧ l.Nodup ∧
      ∀ c, c ∈ l ↔ ∃ i, s.progress i ≠ .push ∧ (regs i).parent = x ∧ (regs i).child = c
  new  : ∀ i, (s.progress i).Inserted →
    s.nodes.lookup (regs i).child = some (fresh (some (regs i).parent) (regs i).record)
  only : ∀ x ∈ s.nodes, x ∈ nodes₀ ∨ ∃ i, (s.progress i).Inserted ∧ (regs i).child = x

namespace Extends

variable {s s' : Registering ι}

theorem start : Extends nodes₀ regs (.start nodes₀) where
  old x node h := ⟨[], by simp [Registering.start, h], List.nodup_nil, by simp [Registering.start]⟩
  new i h      := absurd rfl h.1
  only x h     := .inl h

theorem mem (h : Extends nodes₀ regs s) (hx : x ∈ nodes₀) : x ∈ s.nodes := by
  have ⟨node, hl⟩ := Map.lookup_of_mem hx
  have ⟨_, hl, _⟩ := h.old x node hl
  exact Map.mem_of_lookup hl

theorem parent (h : Extends nodes₀ regs s) (hx : x ∈ nodes₀) : s.nodes.parent x = nodes₀.parent x := by
  have ⟨node, hl⟩ := Map.lookup_of_mem hx
  have ⟨_, hl', _⟩ := h.old x node hl
  rw [parent_of_lookup hl, parent_of_lookup hl']

theorem children (h : Extends nodes₀ regs s) (hx : x ∈ nodes₀) :
    ∃ l, s.nodes.children x = nodes₀.children x ++ l ∧ l.Nodup ∧
      ∀ c, c ∈ l ↔ ∃ i, s.progress i ≠ .push ∧ (regs i).parent = x ∧ (regs i).child = c := by
  have ⟨node, hl⟩ := Map.lookup_of_mem hx
  have ⟨l, hl', h⟩ := h.old x node hl
  exact ⟨l, by rw [children_of_lookup hl, children_of_lookup hl'], h⟩

theorem children_nil (h : Extends nodes₀ regs s) (hx : x ∉ nodes₀) : s.nodes.children x = [] := by
  by_cases hm : x ∈ s.nodes
  case pos =>
    have ⟨i, hi, he⟩ := (h.only x hm).resolve_left hx
    rw [← he, children_of_lookup (h.new i hi), fresh]
  case neg => simp [FogNode.children, Finmap.lookup_eq_none.mpr hm]

-- A child is listed because it has been before, or because one of the calls has pushed it.
theorem listed (h : Extends nodes₀ regs s) (hc : c ∈ s.nodes.children x) :
    c ∈ nodes₀.children x ∨ ∃ i, s.progress i ≠ .push ∧ (regs i).parent = x ∧ (regs i).child = c := by
  by_cases hx : x ∈ nodes₀
  case pos =>
    have ⟨l, hl, _, hm⟩ := h.children hx
    exact (List.mem_append.mp (hl ▸ hc)).imp_right (hm c).mp
  case neg => simp [h.children_nil hx] at hc

-- An inserted child is found under the parent of its registration.
theorem parent_of_listed (h : Extends nodes₀ regs s) (t : nodes₀.IsTree) (p : Plans nodes₀ regs)
    (hc : c ∈ s.nodes.children x) (hm : c ∈ s.nodes) : s.nodes.parent c = some x := by
  rcases h.listed hc with hc | ⟨i, _, rfl, rfl⟩
  · have ⟨hc, hp⟩ := t.listed hc
    exact (h.parent hc).trans hp
  · have ⟨j, hj, he⟩ := (h.only _ hm).resolve_left (p.new i)
    rw [parent_of_lookup (p.distinct he ▸ h.new j hj), fresh]

-- Only a child whose own registration is between its two writes is listed without being registered.
theorem mem_of_listed (h : Extends nodes₀ regs s) (t : nodes₀.IsTree) (hc : c ∈ s.nodes.children x)
    (hs : ∀ i, (regs i).child = c → s.progress i ≠ .insert) : c ∈ s.nodes := by
  cases h.listed hc
  case inl hc => exact h.mem (t.listed hc).1
  case inr h' =>
    have ⟨i, hi, _, he⟩ := h'
    exact he ▸ Map.mem_of_lookup (h.new i ⟨hi, hs i he⟩)

theorem roots_eq (h : Extends nodes₀ regs s) : s.nodes.roots = nodes₀.roots := by
  ext x
  simp only [mem_roots]
  by_cases hx : x ∈ nodes₀
  case pos => simp [hx, h.mem hx, h.parent hx]
  case neg =>
    refine iff_of_false (fun ⟨hm, hn⟩ => ?_) (fun ⟨hx', _⟩ => hx hx')
    have ⟨i, hi, he⟩ := (h.only x hm).resolve_left hx
    rw [← he, parent_of_lookup (h.new i hi)] at hn
    contradiction

end Extends

-- What a call does which is not disturbed.
inductive Advances (nodes : FogNode) (r : Registration) : Progress → FogNode → Progress → Prop
  | push {node} (h : nodes.lookup r.parent = some node) :
      Advances nodes r .push
        (nodes.insert r.parent { node with children := node.children ++ [r.child] }) .insert
  | insert : Advances nodes r .insert (nodes.insert r.child (fresh (some r.parent) r.record)) .roots
  | roots {root} (h : nodes.roots = {root}) : Advances nodes r .roots nodes (.pop [root])
  | leave : Advances nodes r (.pop []) nodes (.done .ok)
  | pop {id stack} (h : id ∈ nodes) :
      Advances nodes r (.pop (id :: stack)) nodes
        (.contains id (nodes.children id) (nodes.children id) stack)
  | contains {id c rest cs stack} (h : c ∈ nodes) :
      Advances nodes r (.contains id (c :: rest) cs stack) nodes (.contains id rest cs stack)
  | contained {id cs stack} :
      Advances nodes r (.contains id [] cs stack) nodes (.parents id cs cs stack)
  | parents {id c rest cs stack} :
      Advances nodes r (.parents id (c :: rest) cs stack) nodes (.parents id rest cs stack)
  | placed {id cs stack} :
      Advances nodes r (.parents id [] cs stack) nodes (.pop (cs.reverse ++ stack))

-- A child is not looked up while its own registration is between its two writes.
def Settled (regs : ι → Registration) (s : Registering ι) (i : ι) : Prop :=
  match s.progress i with
  | .contains _ (c :: _) _ _ => ∀ j, (regs j).child = c → s.progress j ≠ .insert
  | _                        => True

instance [Fintype ι] (s : Registering ι) (i : ι) : Decidable (Settled regs s i) := by
  unfold Settled
  split <;> infer_instance

section Step

variable {s : Registering ι}

theorem advances (t : nodes₀.IsTree) (pl : Plans nodes₀ regs) (h : Extends nodes₀ regs s)
    (hf : (s.progress i).Fine s.nodes) (hs : Settled regs s i)
    (e : advance s.nodes (regs i) (s.progress i) = some (nodes', p')) :
    Advances s.nodes (regs i) (s.progress i) nodes' p' := by
  simp only [Settled] at hs
  match hp : s.progress i with
  | .push =>
    obtain ⟨node, hl⟩ := Map.lookup_of_mem (h.mem (pl.parents i))
    simp only [hp, advance, hl, Option.some.injEq, Prod.mk.injEq] at e
    exact e.1 ▸ e.2 ▸ .push hl
  | .insert =>
    simp only [hp, advance, Option.some.injEq, Prod.mk.injEq] at e
    exact e.1 ▸ e.2 ▸ .insert
  | .roots =>
    obtain ⟨root, hr, _⟩ := t.accepted
    have hr := h.roots_eq.trans hr
    have hc : s.nodes.roots.card = 1 := by rw [hr, Finset.card_singleton]
    simp only [hp, advance, hc, one_ne_zero, if_false, dif_pos, Option.some.injEq, Prod.mk.injEq] at e
    exact e.1 ▸ e.2 ▸ .roots (FogNode.roots_eq hc)
  | .pop [] =>
    simp only [hp, advance, Option.some.injEq, Prod.mk.injEq] at e
    exact e.1 ▸ e.2 ▸ .leave
  | .pop (id :: stack) =>
    rw [hp] at hf
    have hm := hf id List.mem_cons_self
    obtain ⟨node, hl⟩ := Map.lookup_of_mem hm
    simp only [hp, advance, hl, Option.some.injEq, Prod.mk.injEq, ← children_of_lookup hl] at e
    exact e.1 ▸ e.2 ▸ .pop hm
  | .contains id [] cs stack =>
    simp only [hp, advance, Option.some.injEq, Prod.mk.injEq] at e
    exact e.1 ▸ e.2 ▸ .contained
  | .contains id (c :: rest) cs stack =>
    rw [hp] at hf hs
    have hc := hf.1.subset (hf.2.1 List.mem_cons_self)
    have hm := h.mem_of_listed t hc hs
    simp only [hp, advance, hm, if_true, Option.some.injEq, Prod.mk.injEq] at e
    exact e.1 ▸ e.2 ▸ .contains hm
  | .parents id [] cs stack =>
    simp only [hp, advance, Option.some.injEq, Prod.mk.injEq] at e
    exact e.1 ▸ e.2 ▸ .placed
  | .parents id (c :: rest) cs stack =>
    rw [hp] at hf
    have hc := hf.2.1 List.mem_cons_self
    have hm := hf.2.2.1 c hc
    obtain ⟨node, hl⟩ := Map.lookup_of_mem hm
    have hpar := h.parent_of_listed t pl (hf.1.subset hc) hm
    have hmis : s.nodes.Misplaced id c = false := by simp [Misplaced, hpar]
    simp only [hp, advance, hl, hmis, Bool.false_eq_true, if_false, Option.some.injEq,
      Prod.mk.injEq] at e
    exact e.1 ▸ e.2 ▸ .parents
  | .position e' | .remove e' pos | .forget e' =>
    rw [hp] at hf
    contradiction
  | .done outcome =>
    rw [hp] at e
    contradiction

-- An access which is not settled finds that the child is missing.
theorem doomed_of_not_settled (pl : Plans nodes₀ regs) (h : Extends nodes₀ regs s)
    (hs : ¬Settled regs s i) (e : advance s.nodes (regs i) (s.progress i) = some (nodes', p')) :
    p'.Doomed := by
  simp only [Settled] at hs
  split at hs
  case h_2 => contradiction
  case h_1 id c rest cs stack hp =>
    push Not at hs
    have ⟨j, hj, hpj⟩ := hs
    have hn : c ∉ s.nodes := by
      intro hm
      cases h.only c hm
      case inl hm => exact pl.new j (hj ▸ hm)
      case inr h' =>
        have ⟨k, hk, he⟩ := h'
        exact hk.2 (pl.distinct (hj.trans he.symm) ▸ hpj)
    simp only [hp, advance, hn, if_false, Option.some.injEq, Prod.mk.injEq] at e
    exact e.2 ▸ trivial

theorem Advances.children (a : Advances s.nodes (regs i) p nodes' p')
    (pl : Plans nodes₀ regs) (h : Extends nodes₀ regs s) (x : NodeId) :
    s.nodes.children x <+~ nodes'.children x := by
  cases a
  case push node hl =>
    rw [children_insert]
    split
    case isTrue he =>
      rw [he, children_of_lookup hl]
      exact (List.sublist_append_left ..).subperm
    case isFalse => exact .refl _
  case insert =>
    rw [children_insert]
    split
    case isTrue he => simp [h.children_nil (he ▸ pl.new i), List.nil_subperm]
    case isFalse   => exact .refl _
  all_goals exact .refl _

theorem Advances.mem (a : Advances nodes r p nodes' p') (h : x ∈ nodes) : x ∈ nodes' := by
  cases a
  case push | insert => simp [h]
  all_goals exact h

theorem Advances.fine (a : Advances nodes r p nodes' p') (hf : p.Fine nodes) : p'.Fine nodes' := by
  cases a
  case push | insert | leave => trivial
  case roots root hr =>
    intro x hx
    have : x ∈ nodes.roots := by simpa [hr] using hx
    exact (mem_roots.mp this).1
  case pop id stack hm =>
    exact ⟨.refl _, List.Subset.refl _, fun c hc => .inl hc, fun x hx => hf x (List.mem_cons_of_mem _ hx)⟩
  case contains id c rest cs stack hm =>
    have ⟨h₁, h₂, h₃, h₄⟩ := hf
    refine ⟨h₁, fun x hx => h₂ (List.mem_cons_of_mem _ hx), fun x hx => ?_, h₄⟩
    cases h₃ x hx
    case inl hx => exact (List.mem_cons.mp hx).elim (fun he => .inr (he ▸ hm)) .inl
    case inr hx => exact .inr hx
  case contained id cs stack =>
    have ⟨h₁, _, h₃, h₄⟩ := hf
    exact ⟨h₁, List.Subset.refl _, fun x hx => (h₃ x hx).resolve_left List.not_mem_nil, h₄⟩
  case parents id c rest cs stack =>
    have ⟨h₁, h₂, h₃, h₄⟩ := hf
    exact ⟨h₁, fun x hx => h₂ (List.mem_cons_of_mem _ hx), h₃, h₄⟩
  case placed id cs stack =>
    have ⟨_, _, h₃, h₄⟩ := hf
    intro x hx
    cases List.mem_append.mp hx
    case inl hx => exact h₃ x (List.mem_reverse.mp hx)
    case inr hx => exact h₄ x hx

section Write

variable [DecidableEq ι] (pl : Plans nodes₀ regs) (h : Extends nodes₀ regs s)

include h

-- Nothing changes unless the call is at one of its two writes.
theorem Extends.read (hp : (s.progress i).Inserted) (hp' : p'.Inserted) :
    Extends nodes₀ regs { nodes := s.nodes, progress := Function.update s.progress i p' } := by
  have hpush j : Function.update s.progress i p' j ≠ .push ↔ s.progress j ≠ .push := by
    by_cases hj : j = i
    · simp [hj, hp.1, hp'.1]
    · simp [hj]
  have hins j : (Function.update s.progress i p' j).Inserted ↔ (s.progress j).Inserted := by
    by_cases hj : j = i
    · simp [hj, hp, hp']
    · simp [hj]
  constructor
  case old  => simpa only [hpush] using h.old
  case new  => simpa only [hins] using h.new
  case only => simpa only [hins] using h.only

include pl

theorem Extends.push {node : Node NodeRecord} (hp : s.progress i = .push)
    (hl : s.nodes.lookup (regs i).parent = some node) :
    Extends nodes₀ regs {
      nodes    := s.nodes.insert (regs i).parent { node with children := node.children ++ [(regs i).child] }
      progress := Function.update s.progress i .insert
    } := by
  constructor
  case old =>
    intro x n hx
    have ⟨l, hx', hd, hm⟩ := h.old x n hx
    by_cases he : x = (regs i).parent
    case neg =>
      refine ⟨l, by simpa [Map.lookup_insert_eq, he] using hx', hd, fun c => ?_⟩
      rw [hm]
      refine exists_congr fun j => and_congr_left fun hj => ?_
      have : j ≠ i := by
        rintro rfl
        exact he hj.1.symm
      simp [this]
    case pos =>
      cases he
      cases hx'.symm.trans hl
      refine ⟨l ++ [(regs i).child], by simp, ?_, fun c => ?_⟩
      · refine List.nodup_append.mpr ⟨hd, List.nodup_singleton _, ?_⟩
        rintro c hc _ hc' rfl
        have ⟨j, hj, _, he⟩ := (hm c).mp hc
        exact hj (pl.distinct (he.trans (List.mem_singleton.mp hc')) ▸ hp)
      · rw [List.mem_append, hm, List.mem_singleton]
        constructor
        · rintro (⟨j, hj, hj'⟩ | rfl)
          · have : j ≠ i := fun he => hj (he ▸ hp)
            exact ⟨j, by simpa [this] using hj, hj'⟩
          · exact ⟨i, by simp, rfl, rfl⟩
        · intro ⟨j, hj, hj'⟩
          by_cases he : j = i
          · exact .inr (he ▸ hj'.2.symm)
          · exact .inl ⟨j, by simpa [he] using hj, hj'⟩
  case new =>
    intro j hj
    have he : j ≠ i := by
      rintro rfl
      simp [Progress.Inserted] at hj
    have hc : (regs j).child ≠ (regs i).parent := fun hc => pl.new j (hc ▸ pl.parents i)
    rw [Map.lookup_insert_eq, if_neg hc]
    exact h.new j (by simpa [he] using hj)
  case only =>
    intro x hx
    cases Finmap.mem_insert.mp hx
    case inl he =>
      cases he
      exact .inl (pl.parents i)
    case inr hx =>
      refine (h.only x hx).imp_right ?_
      intro ⟨j, hj, he⟩
      have : j ≠ i := by
        rintro rfl
        exact hj.1 hp
      exact ⟨j, by simpa [this] using hj, he⟩

theorem Extends.insert (hp : s.progress i = .insert) :
    Extends nodes₀ regs {
      nodes    := s.nodes.insert (regs i).child (fresh (some (regs i).parent) (regs i).record)
      progress := Function.update s.progress i .roots
    } := by
  constructor
  case old =>
    intro x n hx
    have hxc : x ≠ (regs i).child := fun he => pl.new i (he ▸ Map.mem_of_lookup hx)
    have hpush j : Function.update s.progress i .roots j ≠ .push ↔ s.progress j ≠ .push := by
      by_cases hj : j = i
      · simp [hj, hp]
      · simp [hj]
    simpa only [hpush, Map.lookup_insert_eq, if_neg hxc] using h.old x n hx
  case new =>
    intro j hj
    by_cases he : j = i
    case pos =>
      subst he
      simp
    case neg =>
      have hc : (regs j).child ≠ (regs i).child := fun hc => he (pl.distinct hc)
      rw [Map.lookup_insert_eq, if_neg hc]
      exact h.new j (by simpa [he] using hj)
  case only =>
    intro x hx
    cases Finmap.mem_insert.mp hx
    case inl he =>
      cases he
      exact .inr ⟨i, by simp [Progress.Inserted], rfl⟩
    case inr hx =>
      refine (h.only x hx).imp_right ?_
      intro ⟨j, hj, he⟩
      refine ⟨j, ?_, he⟩
      by_cases hji : j = i
      · simp [hji, Progress.Inserted]
      · simpa [hji] using hj

theorem Advances.extends (a : Advances s.nodes (regs i) p nodes' p') (hp : s.progress i = p) :
    Extends nodes₀ regs { nodes := nodes', progress := Function.update s.progress i p' } := by
  cases a
  case push node hl => exact h.push pl hp hl
  case insert       => exact h.insert pl hp
  all_goals exact h.read (by simp [hp, Progress.Inserted]) (by simp [Progress.Inserted])

end Write

end Step

-- The calls have been answered, and what they have asked for has been registered.
structure Registered (nodes₀ : FogNode) (regs : ι → Registration) (nodes : FogNode) : Prop where
  old  : ∀ x node, nodes₀.lookup x = some node →
    ∃ l, nodes.lookup x = some { node with children := node.children ++ l } ∧ l.Nodup ∧
      ∀ c, c ∈ l ↔ ∃ i, (regs i).parent = x ∧ (regs i).child = c
  new  : ∀ i, nodes.lookup (regs i).child = some (fresh (some (regs i).parent) (regs i).record)
  only : ∀ x ∈ nodes, x ∈ nodes₀ ∨ ∃ i, (regs i).child = x
  tree : nodes.IsTree

-- Nodes are only added below those which have been there before.
theorem Extends.leaves {s : Registering ι} (h : Extends nodes₀ regs s) (pl : Plans nodes₀ regs)
    (hd : ∀ i, s.progress i = .done .ok) :
    Hierarchy.Leaves nodes₀.keys s.nodes.keys nodes₀.parent s.nodes.parent nodes₀.children s.nodes.children
      fun x => if x ∈ nodes₀ then none else s.nodes.parent x := by
  have hins i : (s.progress i).Inserted := by simp [hd, Progress.Inserted]
  have hnew {c p} (hc : c ∉ nodes₀) (hp : s.nodes.parent c = some p) :
      ∃ i, (regs i).parent = p ∧ (regs i).child = c := by
    obtain ⟨i, _, he⟩ := (h.only c (mem_of_parent hp)).resolve_left hc
    rw [← he, parent_of_lookup (h.new i (hins i))] at hp
    exact ⟨i, Option.some.inj hp, he⟩
  constructor
  case placed =>
    intro c p hc
    split at hc
    case isTrue => contradiction
    case isFalse hm =>
      obtain ⟨i, he, _⟩ := hnew hm hc
      exact ⟨mt Finmap.mem_keys.mp hm, Finmap.mem_keys.mpr (he ▸ pl.parents i)⟩
  case mem =>
    intro x
    simp only [Finmap.mem_keys]
    by_cases hx : x ∈ nodes₀
    case pos => simp [hx, h.mem hx]
    case neg =>
      simp only [hx, if_false, false_or]
      refine ⟨fun hm => ?_, fun ⟨p, hp⟩ => mem_of_parent hp⟩
      obtain ⟨i, _, he⟩ := (h.only x hm).resolve_left hx
      exact ⟨(regs i).parent, by rw [← he, parent_of_lookup (h.new i (hins i)), fresh]⟩
  case above =>
    intro x _
    simp only [Finmap.mem_keys]
    split
    case isTrue hx => exact h.parent hx
    case isFalse   => rfl
  case leaf =>
    intro c p hc
    split at hc
    case isTrue     => contradiction
    case isFalse hm => exact h.children_nil hm
  case appended =>
    intro p hp
    obtain ⟨l, hl, hnd, hm⟩ := h.children (Finmap.mem_keys.mp hp)
    refine ⟨l, hl, hnd, fun c => ?_⟩
    rw [hm]
    constructor
    · rintro ⟨i, _, rfl, rfl⟩
      rw [if_neg (pl.new i), parent_of_lookup (h.new i (hins i)), fresh]
    · intro hc
      split at hc
      case isTrue => contradiction
      case isFalse hn =>
        obtain ⟨i, hi⟩ := hnew hn hc
        exact ⟨i, by simp [hd], hi⟩

theorem Extends.registered {s : Registering ι} (h : Extends nodes₀ regs s) (t : nodes₀.IsTree)
    (pl : Plans nodes₀ regs) (hd : ∀ i, s.progress i = .done .ok) : Registered nodes₀ regs s.nodes where
  old  := by simpa [hd] using h.old
  new  := fun i => h.new i (by simp [hd, Progress.Inserted])
  only := by simpa [hd, Progress.Inserted] using h.only
  tree := Hierarchy.Rooted.addLeaves t (h.leaves pl hd)

end Market.FogNode
