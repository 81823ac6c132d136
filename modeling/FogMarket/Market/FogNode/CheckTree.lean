import FogMarket.Market.FogNode.Serve

open Hierarchy

namespace Market.FogNode

-- The number of steps up to the root by way of the parents.
inductive Depth (nodes : FogNode) (root : NodeId) : ℕ → NodeId → Prop
  | root : root ∈ nodes → Depth nodes root 0 root
  | child {c x k} :
    c ∈ nodes → c ≠ root → nodes.parent c = some x → Depth nodes root k x → Depth nodes root (k + 1) c

-- From `x` the loop comes back to the root. The children are popped from the last one on, and nothing is reported
-- for those which are popped before the one that leads there.
inductive Circles (nodes : FogNode) (root : NodeId) : NodeId → Prop
  | back {x popped rest} :
    nodes.Consistent x → (nodes.children x).reverse = popped ++ root :: rest → nodes.Sound popped →
    Circles nodes root x
  | down {x c popped rest} :
    nodes.Consistent x → (nodes.children x).reverse = popped ++ c :: rest → nodes.Sound popped →
    Circles nodes root c → Circles nodes root x

-- The nodes form a tree with a single root.
structure IsRootedTree (nodes : FogNode) : Prop where
  single : ∃ r, nodes.roots = {r} ∧ (∀ p, r ∉ nodes.children p) ∧ ∀ v ∈ nodes, Below nodes.children r v
  listed : ∀ p, ∀ c ∈ nodes.children p, c ∈ nodes ∧ nodes.parent c = some p
  nodup  : ∀ p, (nodes.children p).Nodup
  once   : ∀ p q c, c ∈ nodes.children p → c ∈ nodes.children q → p = q

-- Popping the nodes of a stack and all below them takes a fixed number of iterations, and then goes on with the rest.
def Passes (nodes : FogNode) (stack : List NodeId) : Prop :=
  ∃ k, ∀ n rest, nodes.traverse (k + n) (stack ++ rest) = nodes.traverse n rest

-- The loop ends at one of the nodes, with something to report.
def Fails (nodes : FogNode) (stack : List NodeId) : Prop :=
  ∃ k outcome, ∀ n rest, nodes.traverse (k + n) (stack ++ rest) = some outcome

variable {nodes : FogNode} {root x c : NodeId} {stack stack' : List NodeId} {k l n : ℕ}

namespace Depth

theorem unique (h : Depth nodes root k x) (h' : Depth nodes root l x) : k = l := by
  induction h generalizing l
  case root hr =>
    cases h'
    case root  => rfl
    case child => contradiction
  case child hn hp _ hi =>
    cases h'
    case root => exact absurd rfl hn
    case child h' _ _ hp' =>
      cases hp.symm.trans hp'
      rw [hi h']

-- The nodes on the way up are distinct, since each of them is at another depth.
theorem above (h : Depth nodes root k x) :
    ∃ s ⊆ nodes.keys, s.card = k + 1 ∧ ∀ y ∈ s, ∃ j ≤ k, Depth nodes root j y := by
  induction h
  case root hr =>
    exact ⟨{root}, by simpa [Finmap.mem_keys] using hr, rfl, by simpa using .root hr⟩
  case child c x k hc hn hp h hi =>
    have ⟨s, hs, hk, hd⟩ := hi
    have hm : c ∉ s := by
      intro hm
      have ⟨j, hj, hd⟩ := hd c hm
      have := hd.unique (.child hc hn hp h)
      omega
    refine ⟨insert c s, ?_, by rw [Finset.card_insert_of_notMem hm, hk], ?_⟩
    case refine_1 => exact Finset.insert_subset (Finmap.mem_keys.mpr hc) hs
    case refine_2 =>
      intro y hy
      obtain rfl | hy := Finset.mem_insert.mp hy
      case inl => exact ⟨k + 1, le_rfl, .child hc hn hp h⟩
      case inr =>
        have ⟨j, hj, hd⟩ := hd y hy
        exact ⟨j, hj.trans (Nat.le_succ k), hd⟩

theorem lt_card (h : Depth nodes root k x) : k < nodes.keys.card := by
  have ⟨s, hs, hk, _⟩ := h.above
  have := Finset.card_le_card hs
  omega

end Depth

theorem traverse_consistent (h : nodes.Consistent x) :
    nodes.traverse (n + 1) (x :: stack) = nodes.traverse n ((nodes.children x).reverse ++ stack) := by
  simp [traverse, visit_eq_ok_iff.mpr ⟨h, rfl⟩]

theorem Passes.nil : nodes.Passes [] :=
  ⟨0, fun n _ => by simp⟩

theorem Passes.append (h : nodes.Passes stack) (h' : nodes.Passes stack') : nodes.Passes (stack ++ stack') := by
  have ⟨k, hk⟩ := h
  have ⟨l, hl⟩ := h'
  refine ⟨k + l, fun n rest => ?_⟩
  rw [Nat.add_assoc, List.append_assoc, hk, hl]

theorem Passes.append_fails (h : nodes.Passes stack) (h' : nodes.Fails stack') : nodes.Fails (stack ++ stack') := by
  have ⟨k, hk⟩ := h
  have ⟨l, outcome, hl⟩ := h'
  refine ⟨k + l, outcome, fun n rest => ?_⟩
  rw [Nat.add_assoc, List.append_assoc, hk, hl]

theorem Fails.append (h : nodes.Fails stack) : nodes.Fails (stack ++ stack') := by
  have ⟨k, outcome, hk⟩ := h
  exact ⟨k, outcome, fun n rest => by rw [List.append_assoc, hk]⟩

theorem Passes.sound (h : nodes.Passes stack) : nodes.Sound stack := by
  have ⟨k, hk⟩ := h
  have ht : nodes.traverse (k + 0) stack = some .ok := by simpa [traverse] using hk 0 []
  exact (traverse_eq_ok_iff ht).mp rfl

theorem Passes.of_children (h : nodes.Consistent x) (hp : nodes.Passes (nodes.children x).reverse) :
    nodes.Passes [x] := by
  have ⟨k, hk⟩ := hp
  refine ⟨k + 1, fun n rest => ?_⟩
  rw [Nat.add_right_comm, List.singleton_append, traverse_consistent h, hk]

theorem Fails.of_children (h : nodes.Consistent x) (hf : nodes.Fails (nodes.children x).reverse) :
    nodes.Fails [x] := by
  have ⟨k, outcome, hk⟩ := hf
  refine ⟨k + 1, outcome, fun n rest => ?_⟩
  rw [Nat.add_right_comm, List.singleton_append, traverse_consistent h, hk]

theorem Fails.of_inconsistent (h : ¬nodes.Consistent x) : nodes.Fails [x] := by
  cases hv : nodes.visit x
  case error outcome => exact ⟨1, outcome, fun n rest => by simp [Nat.add_comm 1, traverse, hv]⟩
  case ok children   => exact absurd (visit_eq_ok_iff.mp hv).1 h

-- The loop gets through a stack if it gets through each of its nodes, as long as nothing has been reported before.
theorem passes_or_fails_of_each
    (h : ∀ popped c rest, stack = popped ++ c :: rest → nodes.Sound popped → nodes.Passes [c] ∨ nodes.Fails [c]) :
    nodes.Passes stack ∨ nodes.Fails stack := by
  induction stack using List.reverseRecOn
  case nil => exact .inl .nil
  case append_singleton stack c hi =>
    have hs := hi fun popped d rest he => h popped d (rest ++ [c]) (by simp [he])
    cases hs
    case inr hf => exact .inr hf.append
    case inl hp =>
      cases h stack c [] rfl hp.sound
      case inl hc => exact .inl (hp.append hc)
      case inr hf => exact .inr (hp.append_fails hf)

-- If the loop does not come back to the root, then it ends: it descends to greater and greater depths.
theorem passes_or_fails (hr : nodes.roots = {root}) (hd : Depth nodes root k x) (hc : ¬nodes.Circles root x) :
    nodes.Passes [x] ∨ nodes.Fails [x] := by
  induction hm : nodes.keys.card - k generalizing k x
  case zero =>
    have := hd.lt_card
    omega
  case succ m hi =>
    by_cases h : nodes.Consistent x
    case neg => exact .inr (.of_inconsistent h)
    case pos =>
      refine (passes_or_fails_of_each ?_).imp (.of_children h) (.of_children h)
      intro popped c rest he hs
      have hx : c ∈ nodes.children x := by
        rw [← List.mem_reverse, he]
        simp
      have hn : c ≠ root := by
        rintro rfl
        exact hc (.back h he hs)
      have hp : nodes.parent c = some x := by
        cases hp : nodes.parent c
        case none =>
          have : c ∈ nodes.roots := mem_roots.mpr ⟨h.listed c hx, hp⟩
          simp [hr, hn] at this
        case some p => rw [h.placed c hx p hp]
      have := hd.lt_card
      exact hi (.child (h.listed c hx) hn hp hd) (fun hb => hc (.down h he hs hb)) (by omega)

-- Either the loop does not get through a sound part of the stack, or it has used up some of its iterations.
theorem traverse_sound (h : nodes.Sound stack) :
    nodes.traverse n (stack ++ stack') = none ∨
      ∃ m ≤ n, nodes.traverse n (stack ++ stack') = nodes.traverse m stack' := by
  induction n generalizing stack <;> cases stack
  case zero.nil | succ.nil => exact .inr ⟨_, le_rfl, rfl⟩
  case zero.cons => exact .inl rfl
  case succ.cons n hi x stack =>
    have ⟨hc, hs⟩ := sound_cons.mp h
    rw [List.cons_append, traverse_consistent hc, ← List.append_assoc]
    refine (hi hs).imp_right ?_
    intro ⟨m, hm, he⟩
    exact ⟨m, hm.trans (Nat.le_succ n), he⟩

theorem Circles.traverse (h : nodes.Circles root x)
    (hn : ∀ m < n, ∀ rest, nodes.traverse m (root :: rest) = none) : nodes.traverse n (x :: stack) = none := by
  induction h generalizing n stack <;> cases n
  case back.zero | down.zero => rfl
  case back.succ hc he hs n =>
    rw [traverse_consistent hc, he, List.append_assoc]
    obtain hp | ⟨m, hm, hp⟩ := traverse_sound hs
    case inl => exact hp
    case inr => exact hp.trans (hn m (Nat.lt_succ_of_le hm) _)
  case down.succ hc he hs _ hi n =>
    rw [traverse_consistent hc, he, List.append_assoc]
    obtain hp | ⟨m, hm, hp⟩ := traverse_sound hs
    case inl => exact hp
    case inr => exact hp.trans (hi fun l hl => hn l (by omega))

theorem Circles.diverges (h : nodes.Circles root root) : nodes.traverse n (root :: stack) = none := by
  induction n using Nat.strong_induction_on generalizing stack
  case h n hi => exact h.traverse fun m hm _ => hi m hm

theorem checkTree_of_roots (hr : nodes.roots = {root}) : nodes.checkTree n = nodes.traverse n [root] := by
  have h : nodes.roots.card = 1 := by rw [hr, Finset.card_singleton]
  have he : nodes.root h = root := Finset.singleton_inj.mp ((roots_eq h).symm.trans hr)
  simp [checkTree, h, he]

theorem checkTree_ends_iff (hr : nodes.roots = {root}) :
    (∃ fuel outcome, nodes.checkTree fuel = some outcome) ↔ ¬nodes.Circles root root := by
  simp only [checkTree_of_roots hr]
  constructor
  case mp =>
    rintro ⟨fuel, outcome, ht⟩ h
    simp [h.diverges] at ht
  case mpr =>
    intro h
    have hm : root ∈ nodes := (mem_roots.mp (hr ▸ Finset.mem_singleton_self root)).1
    cases passes_or_fails hr (.root hm) h
    case inl hp =>
      obtain ⟨k, hk⟩ := hp
      exact ⟨k + 0, .ok, by simpa [traverse] using hk 0 []⟩
    case inr hf =>
      obtain ⟨k, outcome, hk⟩ := hf
      exact ⟨k + 0, outcome, hk 0 []⟩

-- Where nothing is to be reported, the loop comes back to the root if it is listed as a child.
theorem Circles.of_below {p : NodeId} (hs : nodes.Sound [root]) (hx : Below nodes.children root x)
    (h : Below nodes.children x p) (hp : root ∈ nodes.children p) : nodes.Circles root x := by
  have hsound {y popped c rest} (hy : Below nodes.children root y)
      (he : (nodes.children y).reverse = popped ++ c :: rest) : nodes.Sound popped := by
    intro z hz w hw
    have hz : z ∈ nodes.children y := by
      rw [← List.mem_reverse, he]
      exact List.mem_append_left _ hz
    exact hs root (List.mem_singleton_self root) w ((hy.tail hz).trans hw)
  have hc {y} (hy : Below nodes.children root y) : nodes.Consistent y :=
    hs root (List.mem_singleton_self root) y hy
  induction h using Relation.ReflTransGen.head_induction_on
  case refl =>
    have ⟨popped, rest, he⟩ := List.append_of_mem (List.mem_reverse.mpr hp)
    exact .back (hc hx) he (hsound hx he)
  case head y z hz _ hi =>
    have ⟨popped, rest, he⟩ := List.append_of_mem (List.mem_reverse.mpr hz)
    exact .down (hc hx) he (hsound hx he) (hi (hx.tail hz))

theorem Circles.listed (h : nodes.Circles root x) : ∃ p, root ∈ nodes.children p := by
  induction h
  case back x _ _ _ he _ => exact ⟨x, by rw [← List.mem_reverse, he]; simp⟩
  case down hi           => exact hi

namespace IsRootedTree

theorem below (t : nodes.IsRootedTree) (hr : nodes.roots = {root}) (h : x ∈ nodes) :
    Below nodes.children root x := by
  have ⟨r, hr', _, hb⟩ := t.single
  exact Finset.singleton_inj.mp (hr'.symm.trans hr) ▸ hb x h

theorem sound (t : nodes.IsRootedTree) (hr : nodes.roots = {root}) : nodes.Sound [root] := by
  intro x hx y hy
  rw [List.mem_singleton.mp hx] at hy
  have hm : y ∈ nodes := by
    cases Relation.ReflTransGen.cases_tail hy
    case inl he => exact he ▸ (mem_roots.mp (hr ▸ Finset.mem_singleton_self root)).1
    case inr h  =>
      have ⟨p, _, hl⟩ := h
      exact (t.listed p y hl).1
  refine ⟨hm, fun c hc => (t.listed y c hc).1, ?_⟩
  intro c hc p hp
  exact Option.some.inj (hp.symm.trans (t.listed y c hc).2)

-- What the loop does not look at: children which are listed twice, and nodes it does not come by.
theorem of_sound (hr : nodes.roots = {root}) (hs : nodes.Sound [root]) (hc : ¬nodes.Circles root root)
    (hn : ∀ x, Below nodes.children root x → (nodes.children x).Nodup)
    (hb : ∀ v ∈ nodes, Below nodes.children root v) : nodes.IsRootedTree := by
  have hu : ∀ p, root ∉ nodes.children p :=
    fun p hp => hc (.of_below hs .refl (hb p (mem_of_mem_children hp)) hp)
  have hl : ∀ p, ∀ c ∈ nodes.children p, c ∈ nodes ∧ nodes.parent c = some p := by
    intro p c h
    have hp := hs root (List.mem_singleton_self root) p (hb p (mem_of_mem_children h))
    refine ⟨hp.listed c h, ?_⟩
    cases he : nodes.parent c
    case some q => rw [hp.placed c h q he]
    case none   =>
      have hm : c ∈ nodes.roots := mem_roots.mpr ⟨hp.listed c h, he⟩
      rw [hr, Finset.mem_singleton] at hm
      exact absurd (hm ▸ h) (hu p)
  refine ⟨⟨root, hr, hu, hb⟩, hl, ?_, ?_⟩
  case refine_1 =>
    intro p
    by_cases hp : p ∈ nodes
    case pos => exact hn p (hb p hp)
    case neg =>
      have : nodes.children p = [] := List.eq_nil_iff_forall_not_mem.mpr fun c h => hp (mem_of_mem_children h)
      simp [this]
  case refine_2 =>
    intro p q c hp hq
    exact Option.some.inj ((hl p c hp).2.symm.trans (hl q c hq).2)

end IsRootedTree

-- With a single root, the answer is the right one unless the loop comes back to that root, or ends with nothing to
-- report although a child is listed twice or a node has not been met.
theorem checkTree_iff (nodes : FogNode) :
    (∃ fuel outcome, nodes.checkTree fuel = some outcome ∧ (outcome = .ok ↔ nodes.IsRootedTree)) ↔
      ∀ root, nodes.roots = {root} →
        ¬nodes.Circles root root ∧
        (nodes.Sound [root] →
          (∀ x, Below nodes.children root x → (nodes.children x).Nodup) ∧
          ∀ v ∈ nodes, Below nodes.children root v) := by
  constructor
  case mp =>
    rintro ⟨fuel, outcome, ht, ho⟩ root hr
    refine ⟨(checkTree_ends_iff hr).mp ⟨fuel, outcome, ht⟩, ?_⟩
    intro hs
    rw [checkTree_of_roots hr] at ht
    have t := ho.mp ((traverse_eq_ok_iff ht).mpr hs)
    exact ⟨fun x _ => t.nodup x, fun v hv => t.below hr hv⟩
  case mpr =>
    intro h
    by_cases hc : nodes.roots.card = 1
    case pos =>
      obtain ⟨root, hr⟩ := Finset.card_eq_one.mp hc
      obtain ⟨hn, hs⟩ := h root hr
      obtain ⟨fuel, outcome, ht⟩ := (checkTree_ends_iff hr).mpr hn
      refine ⟨fuel, outcome, ht, ?_⟩
      rw [checkTree_of_roots hr] at ht
      rw [traverse_eq_ok_iff ht]
      constructor
      case mp  => exact fun hs' => .of_sound hr hs' hn (hs hs').1 (hs hs').2
      case mpr => exact fun t => t.sound hr
    case neg =>
      have hn : ¬nodes.IsRootedTree := by
        intro t
        obtain ⟨r, hr, _⟩ := t.single
        simp [hr] at hc
      by_cases h0 : nodes.roots.card = 0
      case pos => exact ⟨0, .err .noRoot, by simp [checkTree, h0], by simp [hn]⟩
      case neg => exact ⟨0, .err .severalRoots, by simp [checkTree, h0, hc], by simp [hn]⟩

def listing (parent : Option NodeId) (children : List NodeId) : Node NodeRecord where
  parent   := parent
  children := children
  data     := NodeRecord.new (.v4 0) 0 0 []

-- A node has registered twice, which leaves it listed twice.
def registeredTwice : FogNode :=
  (∅ : FogNode).insert ⟨0⟩ (listing none [⟨1⟩, ⟨1⟩]) |>.insert ⟨1⟩ (listing (some ⟨0⟩) [])

-- The root is its own child.
def looped : FogNode :=
  (∅ : FogNode).insert ⟨0⟩ (listing none [⟨0⟩])

theorem checkTree_slip :
    (∃ fuel, registeredTwice.checkTree fuel = some .ok) ∧ ¬registeredTwice.IsRootedTree ∧
      ∀ fuel, looped.checkTree fuel = none := by
  refine ⟨⟨3, ?_⟩, ?_, ?_⟩
  case refine_1 =>
    have hr : registeredTwice.roots = {⟨0⟩} := by decide
    rw [checkTree_of_roots hr]
    decide
  case refine_2 =>
    intro t
    exact absurd (t.nodup ⟨0⟩) (by decide)
  case refine_3 =>
    intro fuel
    have hr : looped.roots = {⟨0⟩} := by decide
    have hv : looped.visit ⟨0⟩ = .ok [⟨0⟩] := by decide
    have ⟨hc, he⟩ := visit_eq_ok_iff.mp hv
    rw [checkTree_of_roots hr]
    have hs : (looped.children ⟨0⟩).reverse = [] ++ ⟨0⟩ :: [] := by rw [← he]; rfl
    exact Circles.diverges (.back hc hs (by simp [Sound]))

end Market.FogNode
