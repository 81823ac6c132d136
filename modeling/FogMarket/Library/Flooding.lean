import Mathlib.Combinatorics.SimpleGraph.Acyclic
import FogMarket.Library.Lists

open SimpleGraph Lists

namespace Flooding

variable {ν α : Type*} {G : SimpleGraph ν} {u v w x origin : ν} {a b : α} {fuel : ℕ} {l : List (ν × α)}

-- What arrives at the end of a walk, if it gets there.
def Carries (forward : ν → ν → α → Option α) : ∀ {u v : ν}, G.Walk u v → α → α → Prop
  | _, _, .nil, a, b                        => a = b
  | _, _, .cons (u := u) (v := w) _ p, a, b => ∃ c, forward u w a = some c ∧ Carries forward p c b

theorem Carries.mono {forward relay : ν → ν → α → Option α} {p : G.Walk u v}
    (h : ∀ v w a b, relay v w a = some b → forward v w a = some b) (hc : Carries relay p a b) :
    Carries forward p a b := by
  induction p generalizing a
  case nil => exact hc
  case cons hi =>
    have ⟨c, hf, hc⟩ := hc
    exact ⟨c, h _ _ _ _ hf, hi hc⟩

-- On a given way, only one thing arrives.
theorem Carries.unique {forward : ν → ν → α → Option α} {p : G.Walk u v} {c : α} (h : Carries forward p a b)
    (h' : Carries forward p a c) : b = c := by
  induction p generalizing a
  case nil => exact h.symm.trans h'
  case cons hi =>
    have ⟨d, hf, h⟩ := h
    have ⟨e, hf', h'⟩ := h'
    cases hf.symm.trans hf'
    exact hi h h'

-- Without cycles, a path from `w` only gets to `v` over the edge between them.
theorem isPath_cons (hG : G.IsAcyclic) (hadj : G.Adj v w) {q : G.Walk w x} (hq : q.IsPath)
    (hne : s(w, v) ∉ q.edges) : (Walk.cons hadj q).IsPath := by
  refine hq.cons fun hv => ?_
  have hsnd := hG.eq_snd_of_adj_start hq hadj.symm hv
  cases q
  case nil => exact hadj.ne (List.mem_singleton.mp hv)
  case cons h q =>
    apply hne
    rw [hsnd, Walk.snd_cons, Walk.edges_cons]
    exact List.mem_cons_self

theorem notMem_edges_cons (hadj : G.Adj v w) {q : G.Walk w x} (hq : (Walk.cons hadj q).IsPath)
    (ho : w ≠ origin) : s(v, origin) ∉ (Walk.cons hadj q).edges := by
  rw [Walk.edges_cons, List.mem_cons, not_or]
  constructor
  · exact fun he => ho (Sym2.congr_right.mp he).symm
  · exact fun he => ((Walk.cons_isPath_iff hadj q).mp hq).2 (Walk.fst_mem_support_of_mem_edges q he)

-- A path visits every node at most once.
theorem length_lt_card {nodes : Finset ν} (hv : ∀ v w, G.Adj v w → w ∈ nodes) (hu : u ∈ nodes)
    {p : G.Walk u v} (hp : p.IsPath) : p.length < nodes.card := by
  classical
  have hsub : ∀ x ∈ p.support, x ∈ nodes := by
    clear hp
    induction p with
    | nil => exact fun x hx => List.mem_singleton.mp hx ▸ hu
    | cons h q hi =>
      intro x hx
      rw [Walk.support_cons, List.mem_cons] at hx
      cases hx
      case inl hx => exact hx ▸ hu
      case inr hx => exact hi (hv _ _ h) x hx
  have hc := Finset.card_le_card (s := p.support.toFinset) fun x hx => hsub x (List.mem_toFinset.mp hx)
  rw [List.toFinset_card_of_nodup hp.support_nodup, Walk.length_support] at hc
  omega

variable [DecidableEq ν] (neighbors : ν → List ν) (forward : ν → ν → α → Option α)

-- Every node passes on what it receives to its neighbors, but not back to where it has come from. The
-- result is what the nodes receive, one after the other.
def flood : ℕ → ν → ν → α → Option (List (ν × α))
  | 0, _, _, _ => none
  | fuel + 1, v, origin, a =>
    let below := (neighbors v).mapM fun w =>
      if w = origin then
        some []
      else
        match forward v w a with
        | none   => some []
        | some b => flood fuel w v b
    below.map fun below => (v, a) :: below.flatten

-- What the nodes beyond one neighbor receive.
def branch (fuel : ℕ) (v origin : ν) (a : α) (w : ν) : Option (List (ν × α)) :=
  if w = origin then
    some []
  else
    match forward v w a with
    | none   => some []
    | some b => flood neighbors forward fuel w v b

variable {neighbors forward}

theorem flood_eq : flood neighbors forward (fuel + 1) v origin a =
    ((neighbors v).mapM (branch neighbors forward fuel v origin a)).map fun below => (v, a) :: below.flatten :=
  rfl

theorem flood_succ (h : flood neighbors forward (fuel + 1) v origin a = some l) :
    l = (v, a) :: (neighbors v).flatMap (fun w => (branch neighbors forward fuel v origin a w).getD []) ∧
      ∀ w ∈ neighbors v, (branch neighbors forward fuel v origin a w).isSome = true := by
  have ⟨below, hb, h⟩ := Option.map_eq_some_iff.mp h
  have ⟨hr, hs⟩ := mapM_eq_some hb
  cases h
  exact ⟨by rw [hr]; rfl, hs⟩

-- A node which does not pass anything on is the only one that receives something.
theorem flood_of_none (h : ∀ w, forward v w a = none) :
    flood neighbors forward (fuel + 1) v origin a = some [(v, a)] := by
  have hb : branch neighbors forward fuel v origin a = fun _ => some [] := by
    ext1 w
    simp [branch, h]
  have hm : ∀ ws : List ν, ws.mapM (fun _ => some ([] : List (ν × α))) = some (ws.map fun _ => []) := by
    intro ws
    induction ws
    case nil => rfl
    case cons w ws hi => simp [List.mapM_cons, hi]
  rw [flood_eq, hb, hm]
  simp

theorem exists_flood (hs : (branch neighbors forward fuel v origin a w).isSome = true) (ho : w ≠ origin)
    (hc : forward v w a = some b) : ∃ below, flood neighbors forward fuel w v b = some below := by
  simpa [branch, ho, hc, Option.isSome_iff_exists] using hs

theorem mem_branch {y : ν × α} (hs : (branch neighbors forward fuel v origin a w).isSome = true) :
    y ∈ (branch neighbors forward fuel v origin a w).getD [] ↔ w ≠ origin ∧ ∃ c below,
      forward v w a = some c ∧ flood neighbors forward fuel w v c = some below ∧ y ∈ below := by
  by_cases ho : w = origin
  case pos => simp [branch, ho]
  case neg =>
    cases hc : forward v w a
    case none => simp [branch, ho, hc]
    case some c =>
      have ⟨below, hf⟩ := exists_flood hs ho hc
      simp [branch, ho, hc, hf]

-- In a tree, the nodes are reached on the paths which lead away from the origin.
theorem mem_flood (hG : G.IsAcyclic) (hn : ∀ v w, w ∈ neighbors v ↔ G.Adj v w)
    (h : flood neighbors forward fuel v origin a = some l) :
    (x, b) ∈ l ↔ ∃ p : G.Walk v x, p.IsPath ∧ s(v, origin) ∉ p.edges ∧ Carries forward p a b := by
  induction fuel generalizing v origin a l
  case zero => contradiction
  case succ fuel hi =>
    have ⟨hl, hs⟩ := flood_succ h
    rw [hl, List.mem_cons, List.mem_flatMap]
    constructor
    case mp =>
      rintro (he | ⟨w, hw, hx⟩)
      · cases he
        exact ⟨.nil, .nil, by simp, rfl⟩
      · have ⟨ho, c, below, hc, hf, hx⟩ := (mem_branch (hs w hw)).mp hx
        have ⟨q, hq, hne, hcarry⟩ := (hi hf).mp hx
        have hadj := (hn v w).mp hw
        have hp := isPath_cons hG hadj hq hne
        exact ⟨.cons hadj q, hp, notMem_edges_cons hadj hp ho, c, hc, hcarry⟩
    case mpr =>
      intro ⟨p, hp, hne, hcarry⟩
      cases p
      case nil => exact .inl (by rw [show a = b from hcarry])
      case cons w hadj q =>
        have ⟨c, hc, hcarry⟩ := hcarry
        have ⟨hq, hv⟩ := (Walk.cons_isPath_iff hadj q).mp hp
        have hw := (hn v w).mpr hadj
        have hsw := hs w hw
        have ho : w ≠ origin := fun he => hne (by simp [he])
        have ⟨below, hf⟩ := exists_flood hsw ho hc
        refine .inr ⟨w, hw, (mem_branch hsw).mpr ⟨ho, c, below, hc, hf, ?_⟩⟩
        exact (hi hf).mpr ⟨q, hq, fun he => hv (Walk.snd_mem_support_of_mem_edges q he), hcarry⟩

-- The first node may receive as if from itself.
theorem mem_flood_self (hG : G.IsAcyclic) (hn : ∀ v w, w ∈ neighbors v ↔ G.Adj v w)
    (h : flood neighbors forward fuel v v a = some l) :
    (x, b) ∈ l ↔ ∃ p : G.Walk v x, p.IsPath ∧ Carries forward p a b := by
  rw [mem_flood hG hn h]
  constructor
  case mp  => exact fun ⟨p, hp, _, h⟩ => ⟨p, hp, h⟩
  case mpr => exact fun ⟨p, hp, h⟩ => ⟨p, hp, fun he => (p.adj_of_mem_edges he).ne rfl, h⟩

-- Two paths to the same node begin in the same way, so that no node is reached twice.
theorem nodup_flood (hG : G.IsAcyclic) (hn : ∀ v w, w ∈ neighbors v ↔ G.Adj v w)
    (hd : ∀ v, (neighbors v).Nodup) (h : flood neighbors forward fuel v origin a = some l) :
    (l.map Prod.fst).Nodup := by
  induction fuel generalizing v origin a l
  case zero => contradiction
  case succ fuel hi =>
    have ⟨hl, hs⟩ := flood_succ h
    -- The nodes beyond `w` are reached on paths through `w`.
    have hbranch {w x} (hw : w ∈ neighbors v)
        (hx : x ∈ ((branch neighbors forward fuel v origin a w).getD []).map Prod.fst) :
        ∃ (hadj : G.Adj v w) (q : G.Walk w x), (Walk.cons hadj q).IsPath := by
      have ⟨y, hy, he⟩ := List.mem_map.mp hx
      have ⟨_, c, below, _, hf, hy⟩ := (mem_branch (hs w hw)).mp hy
      have ⟨q, hq, hne, _⟩ := (mem_flood hG hn hf).mp hy
      subst he
      exact ⟨(hn v w).mp hw, q, isPath_cons hG _ hq hne⟩
    rw [hl, List.map_cons, List.map_flatMap, List.nodup_cons, List.nodup_flatMap]
    refine ⟨?_, ?_, ?_⟩
    case refine_1 =>
      intro hv
      have ⟨w, hw, hv⟩ := List.mem_flatMap.mp hv
      have ⟨hadj, q, hq⟩ := hbranch hw hv
      exact ((Walk.cons_isPath_iff hadj q).mp hq).2 q.end_mem_support
    case refine_2 =>
      intro w hw
      by_cases ho : w = origin
      case pos => simp [branch, ho]
      case neg =>
        cases hc : forward v w a
        case none => simp [branch, ho, hc]
        case some c =>
          have ⟨below, hf⟩ := exists_flood (hs w hw) ho hc
          simpa [branch, ho, hc, hf] using hi hf
    case refine_3 =>
      refine (hd v).imp_of_mem fun {w w'} hw hw' hne => ?_
      rw [Function.onFun, List.disjoint_left]
      intro x hx hx'
      have ⟨hadj, q, hq⟩ := hbranch hw hx
      have ⟨hadj', q', hq'⟩ := hbranch hw' hx'
      have he := (hG.subsingleton_path v x).elim ⟨_, hq⟩ ⟨_, hq'⟩
      have he := congrArg (fun p : G.Path v x => p.1.snd) he
      exact hne (by simpa using he)

-- The longest path which leads away from the origin bounds the recursion.
theorem flood_isSome (hG : G.IsAcyclic) (hn : ∀ v w, w ∈ neighbors v ↔ G.Adj v w)
    (h : ∀ x, ∀ p : G.Walk v x, p.IsPath → s(v, origin) ∉ p.edges → p.length < fuel) :
    (flood neighbors forward fuel v origin a).isSome = true := by
  induction fuel generalizing v origin a
  case zero => exact absurd (h v .nil .nil (by simp)) (by simp)
  case succ fuel hi =>
    have hs : ((neighbors v).mapM (branch neighbors forward fuel v origin a)).isSome = true := by
      refine mapM_isSome fun w hw => ?_
      have hadj := (hn v w).mp hw
      simp only [branch]
      split
      case isTrue => rfl
      case isFalse ho =>
        split
        case h_1 => rfl
        case h_2 c hc =>
          refine hi fun x q hq hne => ?_
          have hp := isPath_cons hG hadj hq hne
          have := h x (.cons hadj q) hp (notMem_edges_cons hadj hp ho)
          rw [Walk.length_cons] at this
          omega
    have ⟨below, hb⟩ := Option.isSome_iff_exists.mp hs
    exact Option.isSome_iff_exists.mpr ⟨_, Option.map_eq_some_iff.mpr ⟨below, hb, rfl⟩⟩

end Flooding
