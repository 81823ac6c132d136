import Mathlib.Algebra.Ring.Nat
import Mathlib.Data.Finset.Basic
import Mathlib.Data.List.Count
import Mathlib.Logic.Relation

namespace Hierarchy

variable {ν : Type*}

section Weight

variable {children : ν → List ν} {rank cost : ν → ℕ}

-- Descending into a list of children decreases the rank.
def Ranked (children : ν → List ν) (rank : ν → ℕ) : Prop :=
  ∀ x, ∀ c ∈ children x, rank c < rank x

-- The total cost of the nodes met when descending from `x`, counted once for each way down.
def weight (h : Ranked children rank) (cost : ν → ℕ) (x : ν) : ℕ :=
  cost x + ((children x).attach.map fun c => weight h cost c.1).sum
termination_by rank x
decreasing_by exact h x c.1 c.2

theorem weight_eq (h : Ranked children rank) (x : ν) :
    weight h cost x = cost x + ((children x).map (weight h cost)).sum := by
  rw [weight]
  simp

-- Edges may be removed.
theorem Ranked.mono {children' : ν → List ν} (h : Ranked children rank)
    (hs : ∀ x, children' x ⊆ children x) : Ranked children' rank :=
  fun x c hc => h x c (hs x hc)

-- A node without children may be listed anywhere.
theorem Ranked.addLeaf [DecidableEq ν] {children' : ν → List ν} (h : Ranked children rank) (leaf : ν)
    (hl : children' leaf = []) (hs : ∀ x, ∀ c ∈ children' x, c = leaf ∨ c ∈ children x) :
    Ranked children' fun x => if x = leaf then 0 else rank x + 1 := by
  intro x c hc
  have hx : x ≠ leaf := by
    rintro rfl
    simp [hl] at hc
  by_cases he : c = leaf
  case pos => simp [he, hx]
  case neg =>
    have := h x c (hs x c hc |>.resolve_left he)
    simp [he, hx, this]

end Weight

-- `a` lists `b` as a child.
def ListsChild (children : ν → List ν) (a b : ν) : Prop :=
  b ∈ children a

-- `b` is found by descending from `a`.
abbrev Below (children : ν → List ν) : ν → ν → Prop :=
  Relation.ReflTransGen (ListsChild children)

theorem Below.mono {children children' : ν → List ν} {a b : ν} (h : Below children a b)
    (hs : ∀ x, children x ⊆ children' x) : Below children' a b :=
  Relation.ReflTransGen.mono (fun x _ hc => hs x hc) _ _ h

-- A finite set of nodes with mutually consistent parents and children.
structure Rooted [DecidableEq ν] (nodes : Finset ν) (parent : ν → Option ν) (children : ν → List ν) :
    Prop where
  root        : ∃! r, r ∈ nodes ∧ parent r = none
  parent_mem  : ∀ v ∈ nodes, ∀ p, parent v = some p → p ∈ nodes
  listed_once : ∀ v ∈ nodes, ∀ p, parent v = some p → (children p).count v = 1
  listed      : ∀ p ∈ nodes, ∀ c ∈ children p, c ∈ nodes ∧ parent c = some p
  reachable   : ∀ r ∈ nodes, parent r = none → ∀ v ∈ nodes, Below children r v

namespace Rooted

variable [DecidableEq ν] {nodes nodes' : Finset ν} {parent parent' : ν → Option ν}
variable {children children' : ν → List ν} {r v p c : ν}

theorem mem_children (t : Rooted nodes parent children) (hv : v ∈ nodes) (h : parent v = some p) :
    v ∈ children p :=
  List.count_pos_iff.mp (by simp [t.listed_once v hv p h])

theorem below_mem (t : Rooted nodes parent children) (hv : v ∈ nodes) (h : Below children v c) :
    c ∈ nodes := by
  induction h
  case refl => exact hv
  case tail hl hi => exact (t.listed _ hi _ hl).1

-- A node is not its own parent: the way down from the root would have to go through it before.
theorem parent_ne_self (t : Rooted nodes parent children) (hv : v ∈ nodes) : parent v ≠ some v := by
  intro hp
  have ⟨r, ⟨hr, hn⟩, _⟩ := t.root
  have H : ∀ u, Below children r u → u ≠ v := by
    intro u hu
    induction hu
    case refl =>
      rintro rfl
      simp [hn] at hp
    case tail u w hu hl hi =>
      rintro rfl
      have := (t.listed u (t.below_mem hr hu) w hl).2
      exact hi (Option.some.inj (this.symm.trans hp))
  exact H v (t.reachable r hr hn v hv) rfl

end Rooted

-- Nodes without children are placed below the nodes of a tree, where they are listed in any order.
structure Leaves [DecidableEq ν] (nodes nodes' : Finset ν) (parent parent' : ν → Option ν)
    (children children' : ν → List ν) (place : ν → Option ν) : Prop where
  placed   : ∀ c p, place c = some p → c ∉ nodes ∧ p ∈ nodes
  mem      : ∀ x, x ∈ nodes' ↔ x ∈ nodes ∨ ∃ p, place x = some p
  above    : ∀ x ∈ nodes', parent' x = if x ∈ nodes then parent x else place x
  leaf     : ∀ c p, place c = some p → children' c = []
  appended : ∀ p ∈ nodes, ∃ l, children' p = children p ++ l ∧ l.Nodup ∧ ∀ c, c ∈ l ↔ place c = some p

namespace Leaves

variable [DecidableEq ν] {nodes nodes' : Finset ν} {parent parent' : ν → Option ν}
variable {children children' : ν → List ν} {place : ν → Option ν} {r p c x q : ν}

theorem parent_old (h : Leaves nodes nodes' parent parent' children children' place) (hx : x ∈ nodes) :
    parent' x = parent x := by
  rw [h.above x ((h.mem x).mpr (.inl hx)), if_pos hx]

theorem parent_new (h : Leaves nodes nodes' parent parent' children children' place) (hc : place c = some p) :
    parent' c = some p := by
  rw [h.above c ((h.mem c).mpr (.inr ⟨p, hc⟩)), if_neg (h.placed c p hc).1, hc]

theorem eq_root (h : Leaves nodes nodes' parent parent' children children' place)
    (hr : ∀ x, x ∈ nodes ∧ parent x = none → x = r) (hx : x ∈ nodes') (hn : parent' x = none) : x = r := by
  cases (h.mem x).mp hx
  case inl hx => exact hr x ⟨hx, h.parent_old hx ▸ hn⟩
  case inr h' =>
    have ⟨p, hp⟩ := h'
    exact absurd (h.parent_new hp) (by simp [hn])

theorem count_children (t : Rooted nodes parent children)
    (h : Leaves nodes nodes' parent parent' children children' place) (hx : x ∈ nodes') (hq : parent' x = some q) :
    (children' q).count x = 1 := by
  cases (h.mem x).mp hx
  case inl hx =>
    rw [h.parent_old hx] at hq
    have ⟨l, hl, _, hm⟩ := h.appended q (t.parent_mem x hx q hq)
    have : x ∉ l := fun hxl => (h.placed x q ((hm x).mp hxl)).1 hx
    rw [hl, List.count_append, t.listed_once x hx q hq, List.count_eq_zero_of_not_mem this]
  case inr h' =>
    have ⟨p, hp⟩ := h'
    cases (h.parent_new hp).symm.trans hq
    have ⟨hc, hq⟩ := h.placed x _ hp
    have ⟨l, hl, hone, hm⟩ := h.appended _ hq
    have : x ∉ children q := fun hxq => hc (t.listed _ hq x hxq).1
    rw [hl, List.count_append, List.count_eq_zero_of_not_mem this,
      List.count_eq_one_of_mem hone ((hm x).mpr hp)]

theorem mem_of_mem_children (t : Rooted nodes parent children)
    (h : Leaves nodes nodes' parent parent' children children' place) (hq : q ∈ nodes') (hx : x ∈ children' q) :
    x ∈ nodes' ∧ parent' x = some q := by
  cases (h.mem q).mp hq
  case inl hq =>
    have ⟨l, hl, _, hm⟩ := h.appended q hq
    cases List.mem_append.mp (hl ▸ hx)
    case inl hx =>
      have ⟨hx, hp⟩ := t.listed q hq x hx
      exact ⟨(h.mem x).mpr (.inl hx), (h.parent_old hx).trans hp⟩
    case inr hx =>
      have hp := (hm x).mp hx
      exact ⟨(h.mem x).mpr (.inr ⟨q, hp⟩), h.parent_new hp⟩
  case inr h' =>
    have ⟨p, hp⟩ := h'
    simp [h.leaf q p hp] at hx

-- The ways down the tree are still there.
theorem below (t : Rooted nodes parent children) (h : Leaves nodes nodes' parent parent' children children' place)
    (hr : r ∈ nodes) (hn : parent r = none) (hx : x ∈ nodes') : Below children' r x := by
  have hold : ∀ y ∈ nodes, Below children' r y := by
    intro y hy
    have hb := t.reachable r hr hn y hy
    induction hb
    case refl => exact .refl
    case tail u w hu hl hi =>
      have hm := t.below_mem hr hu
      have ⟨l, hl', _⟩ := h.appended u hm
      exact .tail (hi hm) (by rw [ListsChild, hl']; exact List.mem_append_left l hl)
  cases (h.mem x).mp hx
  case inl hx => exact hold x hx
  case inr h' =>
    have ⟨p, hp⟩ := h'
    have hm := (h.placed x p hp).2
    have ⟨l, hl, _, hc⟩ := h.appended p hm
    refine .tail (hold p hm) ?_
    rw [ListsChild, hl]
    exact List.mem_append_right _ ((hc x).mpr hp)

end Leaves

namespace Rooted

variable [DecidableEq ν] {nodes nodes' : Finset ν} {parent parent' : ν → Option ν}
variable {children children' : ν → List ν} {place : ν → Option ν} {p c : ν}

theorem addLeaves (t : Rooted nodes parent children)
    (h : Leaves nodes nodes' parent parent' children children' place) : Rooted nodes' parent' children' := by
  have ⟨r, ⟨hr, hn⟩, hu⟩ := t.root
  constructor
  case root =>
    exact ⟨r, ⟨(h.mem r).mpr (.inl hr), (h.parent_old hr).trans hn⟩, fun x hx => h.eq_root hu hx.1 hx.2⟩
  case parent_mem =>
    intro x hx q hq
    cases (h.mem x).mp hx
    case inl hx => exact (h.mem q).mpr (.inl (t.parent_mem x hx q (h.parent_old hx ▸ hq)))
    case inr h' =>
      have ⟨p, hp⟩ := h'
      cases (h.parent_new hp).symm.trans hq
      exact (h.mem _).mpr (.inl (h.placed x _ hp).2)
  case listed_once => exact fun x hx q hq => h.count_children t hx hq
  case listed      => exact fun q hq x hx => h.mem_of_mem_children t hq hx
  case reachable   =>
    intro r' hr' hn' x hx
    rw [h.eq_root hu hr' hn']
    exact h.below t hr hn hx

theorem addLeaf (t : Rooted nodes parent children) (hp : p ∈ nodes) (hc : c ∉ nodes)
    (hnodes : ∀ x, x ∈ nodes' ↔ x = c ∨ x ∈ nodes)
    (hparent : ∀ x, parent' x = if x = c then some p else parent x)
    (hchildren : ∀ x ∈ nodes', children' x =
      if x = c then [] else if x = p then children p ++ [c] else children x) :
    Rooted nodes' parent' children' := by
  have hmem {x} (hx : x ∈ nodes) : x ∈ nodes' := (hnodes x).mpr (.inr hx)
  have hne {x} (hx : x ∈ nodes) : x ≠ c := fun he => hc (he ▸ hx)
  suffices h : Leaves nodes nodes' parent parent' children children' fun x => if x = c then some p else none from
    t.addLeaves h
  constructor
  case placed => grind
  case mem =>
    intro x
    rw [hnodes]
    by_cases he : x = c <;> simp [he]
  case above =>
    intro x hx
    rw [hparent]
    grind
  case leaf =>
    intro x q hq
    rw [hchildren x ((hnodes x).mpr (.inl (by grind)))]
    grind
  case appended =>
    intro x hx
    rw [hchildren x (hmem hx), if_neg (hne hx)]
    split
    case isTrue he => exact ⟨[c], by rw [he], List.nodup_singleton c, by grind⟩
    case isFalse   => exact ⟨[], by simp, List.nodup_nil, by grind⟩

end Rooted
end Hierarchy
