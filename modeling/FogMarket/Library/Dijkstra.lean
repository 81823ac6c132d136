import FogMarket.Library.Dict
import Mathlib.Algebra.Order.Group.Nat
import Mathlib.Data.DFinsupp.WellFounded
import Mathlib.Data.Fintype.Sets
import Mathlib.Data.List.Sort

-- The ways from a source which have been found so far, by their lengths and labels. The neighbors of the nodes in the
-- queue are to be visited.
structure Dijkstra (ν ρ : Type*) where
  pq     : List (ℕ × ν)
  dist   : Dict ν ℕ
  labels : Dict ν ρ

namespace Dijkstra

variable {ν ρ : Type*} [LinearOrder ν]

-- The second components only matter if the first ones are the same.
def le (a b : ℕ × ν) : Prop :=
  a.1 < b.1 ∨ a.1 = b.1 ∧ a.2 ≤ b.2

instance : DecidableRel (le : ℕ × ν → ℕ × ν → Prop) :=
  fun _ _ => inferInstanceAs (Decidable (_ ∨ _))

-- The smallest element of the queue is its head.
def heappush (pq : List (ℕ × ν)) (e : ℕ × ν) : List (ℕ × ν) :=
  pq.orderedInsert le e

section Search

-- Each node has a list of its neighbors, with the length and the label of the link to them.
variable (neighbors : Dict ν (List (ν × ℕ × ρ))) (extend : ρ → ρ → ρ) (top : ρ)

def start (src : ν) : Dijkstra ν ρ where
  pq     := heappush [] (0, src)
  dist   := Dict.empty.set src 0
  labels := Dict.empty.set src top

-- A neighbor which has not been met is infinitely far away.
def relax (u : ν) (s : Dijkstra ν ρ) (link : ν × ℕ × ρ) : Dijkstra ν ρ :=
  match s.dist.get u with
  | none   => s
  | some d =>
    if (s.dist.get link.1).all (d + link.2.1 < ·) then {
      pq     := heappush s.pq (d + link.2.1, link.1)
      dist   := s.dist.set link.1 (d + link.2.1)
      labels := s.labels.set link.1 (extend ((s.labels.get u).getD top) link.2.2)
    }
    else s

-- Without a list of neighbors, there is no result.
def search : ℕ → Dijkstra ν ρ → Option (Dijkstra ν ρ)
  | 0,        _ => none
  | fuel + 1, s =>
    match s.pq with
    | []             => some s
    | (_, u) :: rest => do
      let links ← neighbors.get u
      search fuel (links.foldl (relax extend top u) { s with pq := rest })

end Search

variable {neighbors : Dict ν (List (ν × ℕ × ρ))} {extend : ρ → ρ → ρ} {top : ρ}
variable {src u v : ν} {s s' : Dijkstra ν ρ} {link : ν × ℕ × ρ} {links : List (ν × ℕ × ρ)} {fuel : ℕ}

@[simp]
theorem mem_heappush {pq : List (ℕ × ν)} {e e' : ℕ × ν} : e' ∈ heappush pq e ↔ e' = e ∨ e' ∈ pq :=
  List.mem_orderedInsert ..

-- A node is met for the first time, or on a shorter way.
theorem relax_cases (extend : ρ → ρ → ρ) (top : ρ) (u : ν) (s : Dijkstra ν ρ) (link : ν × ℕ × ρ) :
    relax extend top u s link = s ∨ ∃ d, s.dist.get u = some d ∧
      (∀ d', s.dist.get link.1 = some d' → d + link.2.1 < d') ∧ relax extend top u s link = {
        pq     := heappush s.pq (d + link.2.1, link.1)
        dist   := s.dist.set link.1 (d + link.2.1)
        labels := s.labels.set link.1 (extend ((s.labels.get u).getD top) link.2.2)
      } := by
  rw [relax]
  cases hu : s.dist.get u
  case none => exact .inl rfl
  case some d =>
    simp only
    split
    case isTrue h =>
      apply Or.inr
      refine ⟨d, rfl, ?_, rfl⟩
      intro d' hd
      simpa [hd] using h
    case isFalse => exact .inl rfl

section Soundness

-- A way which does not meet a node twice, by the nodes from its end on.
inductive Path (neighbors : Dict ν (List (ν × ℕ × ρ))) (extend : ρ → ρ → ρ) (top : ρ) (src : ν) :
    List ν → ν → ℕ → ρ → Prop
  | nil                                  : Path neighbors extend top src [src] src 0 top
  | snoc {vs u d r links link} (p : Path neighbors extend top src vs u d r) (hn : neighbors.get u = some links)
    (hl : link ∈ links) (hv : link.1 ∉ vs) :
    Path neighbors extend top src (link.1 :: vs) link.1 (d + link.2.1) (extend r link.2.2)

-- The lengths are those of ways whose nodes are not farther away than the end.
def Sound (neighbors : Dict ν (List (ν × ℕ × ρ))) (extend : ρ → ρ → ρ) (top : ρ) (src : ν) (s : Dijkstra ν ρ) : Prop :=
  ∀ v d, s.dist.get v = some d → ∃ vs r, s.labels.get v = some r ∧ Path neighbors extend top src vs v d r ∧
    ∀ x ∈ vs, ∃ d' ≤ d, s.dist.get x = some d'

theorem sound_start : Sound neighbors extend top src (start top src) := by
  intro v d hd
  rw [start, Dict.get_set] at hd
  split at hd
  case isTrue h =>
    cases hd
    subst h
    exact ⟨[v], top, by simp [start], .nil, by simp [start]⟩
  case isFalse => cases hd

theorem Sound.relax (h : Sound neighbors extend top src s) (hn : neighbors.get u = some links) (hl : link ∈ links) :
    Sound neighbors extend top src (relax extend top u s link) := by
  cases relax_cases extend top u s link
  case inl he =>
    rw [he]
    exact h
  case inr he =>
    obtain ⟨d, hd, hlt, he⟩ := he
    rw [he]
    have hget x : (s.dist.set link.1 (d + link.2.1)).get x = if x = link.1 then some (d + link.2.1) else s.dist.get x :=
      Dict.get_set
    intro v dv hv
    simp only [hget] at hv ⊢
    split at hv
    case isTrue hv' =>
      cases hv
      subst hv'
      obtain ⟨vs, r, hr, p, hvs⟩ := h u d hd
      -- Otherwise, the way would have been longer before.
      have hnm : link.1 ∉ vs := by
        intro hm
        obtain ⟨d', hle, hd'⟩ := hvs link.1 hm
        have := hlt d' hd'
        omega
      refine ⟨link.1 :: vs, extend r link.2.2, by simp [hr], p.snoc hn hl hnm, ?_⟩
      intro x hx
      split
      case isTrue => exact ⟨_, le_refl _, rfl⟩
      case isFalse hne =>
        obtain ⟨d', hle, hd'⟩ := hvs x ((List.mem_cons.mp hx).resolve_left hne)
        exact ⟨d', by omega, hd'⟩
    case isFalse hne =>
      obtain ⟨vs, r, hr, p, hvs⟩ := h v dv hv
      refine ⟨vs, r, by simp [hr, hne], p, ?_⟩
      intro x hx
      obtain ⟨d', hle, hd'⟩ := hvs x hx
      split
      case isTrue he =>
        have := hlt d' (he ▸ hd')
        exact ⟨_, by omega, rfl⟩
      case isFalse => exact ⟨d', hle, hd'⟩

theorem Sound.foldl (h : Sound neighbors extend top src s) (hn : neighbors.get u = some links) :
    Sound neighbors extend top src (links.foldl (Dijkstra.relax extend top u) s) := by
  have H (l : List (ν × ℕ × ρ)) (hl : l ⊆ links) :
      Sound neighbors extend top src (l.foldl (Dijkstra.relax extend top u) s) := by
    induction l generalizing s
    case nil => exact h
    case cons link l hi =>
      have ⟨hm, hl⟩ := List.cons_subset.mp hl
      exact hi (h.relax hn hm) hl
  exact H links (List.Subset.refl links)

theorem Sound.search (h : Sound neighbors extend top src s) (hs : search neighbors extend top fuel s = some s') :
    Sound neighbors extend top src s' := by
  induction fuel generalizing s
  case zero => cases hs
  case succ fuel hi =>
    rw [Dijkstra.search] at hs
    split at hs
    case h_1 =>
      cases hs
      exact h
    case h_2 rest hp =>
      have ⟨links, hn, hs⟩ := Option.bind_eq_some_iff.mp hs
      have h : Sound neighbors extend top src { s with pq := rest } := h
      exact hi (h.foldl hn) hs

end Soundness

section Completeness

-- What has been met is not forgotten, and is put into the queue.
structure Grows (s s' : Dijkstra ν ρ) : Prop where
  dist   : ∀ v, (s.dist.get v).isSome → (s'.dist.get v).isSome
  pq     : ∀ e ∈ s.pq, e ∈ s'.pq
  new    : ∀ v, (s'.dist.get v).isSome → (s.dist.get v).isSome ∨ ∃ d, (d, v) ∈ s'.pq
  queued : ∀ e ∈ s'.pq, e ∈ s.pq ∨ (s'.dist.get e.2).isSome

theorem Grows.refl : Grows s s where
  dist _ h   := h
  pq _ h     := h
  new _ h    := .inl h
  queued _ h := .inl h

theorem Grows.trans {s'' : Dijkstra ν ρ} (h : Grows s s') (h' : Grows s' s'') : Grows s s'' where
  dist v hv := h'.dist v (h.dist v hv)
  pq e he   := h'.pq e (h.pq e he)
  new v hv  := by
    cases h'.new v hv
    case inl hv =>
      cases h.new v hv
      case inl hv => exact .inl hv
      case inr hq =>
        have ⟨d, hq⟩ := hq
        exact .inr ⟨d, h'.pq _ hq⟩
    case inr hq => exact .inr hq
  queued e he := by
    cases h'.queued e he
    case inl he => exact (h.queued e he).imp id (h'.dist e.2)
    case inr hd => exact .inr hd

theorem grows_relax : Grows s (relax extend top u s link) := by
  cases relax_cases extend top u s link
  case inl he =>
    rw [he]
    exact .refl
  case inr he =>
    have ⟨d, _, _, he⟩ := he
    rw [he]
    constructor
    case dist =>
      intro v hv
      rw [Dict.get_set]
      split
      case isTrue => rfl
      case isFalse => exact hv
    case pq => exact fun e he => mem_heappush.mpr (.inr he)
    case new =>
      intro v hv
      rw [Dict.get_set] at hv
      split at hv
      case isTrue h =>
        subst h
        exact .inr ⟨_, mem_heappush.mpr (.inl rfl)⟩
      case isFalse => exact .inl hv
    case queued =>
      intro e he
      cases mem_heappush.mp he
      case inl he => exact .inr (by simp [he])
      case inr he => exact .inl he

theorem grows_foldl : Grows s (links.foldl (relax extend top u) s) := by
  induction links generalizing s
  case nil => exact .refl
  case cons link links hi => exact grows_relax.trans hi

theorem isSome_dist_relax (hu : (s.dist.get u).isSome) : ((relax extend top u s link).dist.get link.1).isSome := by
  have ⟨d, hd⟩ := Option.isSome_iff_exists.mp hu
  rw [relax, hd]
  simp only
  split
  case isTrue => simp
  case isFalse h =>
    cases hl : s.dist.get link.1
    case none => simp [hl] at h
    case some => rfl

theorem isSome_dist_foldl (hu : (s.dist.get u).isSome) (hl : link ∈ links) :
    ((links.foldl (relax extend top u) s).dist.get link.1).isSome := by
  induction links generalizing s
  case nil => cases hl
  case cons link' links hi =>
    rw [List.foldl_cons]
    cases List.mem_cons.mp hl
    case inl he => exact he ▸ grows_foldl.dist _ (isSome_dist_relax hu)
    case inr hl => exact hi (grows_relax.dist u hu) hl

def Linked (neighbors : Dict ν (List (ν × ℕ × ρ))) (u v : ν) : Prop :=
  ∃ links, neighbors.get u = some links ∧ ∃ link ∈ links, link.1 = v

-- The neighbors of a node have been met, or it is in the queue.
structure Covered (neighbors : Dict ν (List (ν × ℕ × ρ))) (src : ν) (s : Dijkstra ν ρ) : Prop where
  src    : (s.dist.get src).isSome
  queued : ∀ e ∈ s.pq, (s.dist.get e.2).isSome
  links  : ∀ u, (s.dist.get u).isSome → (∃ d, (d, u) ∈ s.pq) ∨
    ∀ links, neighbors.get u = some links → ∀ link ∈ links, (s.dist.get link.1).isSome

theorem covered_start : Covered neighbors src (start top src) where
  src        := by simp [start]
  queued e h := by
    have he : e = (0, src) := by simpa [start] using h
    simp [start, he]
  links u h  := by
    have hu : u = src := by
      rw [start, Dict.get_set] at h
      split at h
      case isTrue he => exact he
      case isFalse => cases h
    exact .inl ⟨0, by simp [start, hu]⟩

theorem Covered.foldl {d : ℕ} {rest : List (ℕ × ν)} (h : Covered neighbors src s) (hp : s.pq = (d, u) :: rest)
    (hn : neighbors.get u = some links) :
    Covered neighbors src (links.foldl (relax extend top u) { s with pq := rest }) := by
  have hg : Grows { s with pq := rest } (links.foldl (relax extend top u) { s with pq := rest }) := grows_foldl
  have hu : (s.dist.get u).isSome := h.queued (d, u) (hp ▸ .head _)
  constructor
  case src => exact hg.dist src h.src
  case queued =>
    intro e he
    cases hg.queued e he
    case inl he => exact hg.dist e.2 (h.queued e (hp ▸ .tail _ he))
    case inr hd => exact hd
  case links =>
    intro v hv
    cases hg.new v hv
    case inr hq => exact .inl hq
    case inl hv =>
      cases h.links v hv
      case inl hq =>
        have ⟨d', hq⟩ := hq
        rw [hp, List.mem_cons] at hq
        cases hq
        case inl he =>
          cases he
          apply Or.inr
          intro links' hn' link hl
          cases hn.symm.trans hn'
          exact isSome_dist_foldl hu hl
        case inr hq => exact .inl ⟨d', hg.pq _ hq⟩
      case inr hl => exact .inr fun links hn link hm => hg.dist _ (hl links hn link hm)

theorem Covered.search (h : Covered neighbors src s) (hs : search neighbors extend top fuel s = some s') :
    Covered neighbors src s' ∧ s'.pq = [] := by
  induction fuel generalizing s
  case zero => cases hs
  case succ fuel hi =>
    rw [Dijkstra.search] at hs
    split at hs
    case h_1 hp =>
      cases hs
      exact ⟨h, hp⟩
    case h_2 d u rest hp =>
      have ⟨links, hn, hs⟩ := Option.bind_eq_some_iff.mp hs
      exact hi (h.foldl hp hn) hs

-- What can be reached has been met when there is nothing left to be visited.
theorem Covered.isSome_dist (h : Covered neighbors src s) (hp : s.pq = [])
    (hr : Relation.ReflTransGen (Linked neighbors) src v) : (s.dist.get v).isSome := by
  induction hr
  case refl => exact h.src
  case tail u v _ hl hi =>
    have ⟨links, hn, link, hm, hv⟩ := hl
    cases h.links u hi
    case inl hq =>
      have ⟨d, hq⟩ := hq
      rw [hp] at hq
      cases hq
    case inr hs => exact hv ▸ hs links hn link hm

end Completeness

-- If there is only one way to a node, what is found is its length and its label.
theorem get_of_search (hs : search neighbors extend top fuel (start top src) = some s)
    (hr : Relation.ReflTransGen (Linked neighbors) src v) {d : ℕ} {r : ρ}
    (hu : ∀ vs d' r', Path neighbors extend top src vs v d' r' → d' = d ∧ r' = r) :
    s.dist.get v = some d ∧ s.labels.get v = some r := by
  have ⟨hc, hp⟩ := covered_start.search hs
  have ⟨d', hd⟩ := Option.isSome_iff_exists.mp (hc.isSome_dist hp hr)
  have ⟨vs, r', hr', p, _⟩ := (sound_start.search hs) v d' hd
  have ⟨he, he'⟩ := hu vs d' r' p
  exact ⟨he ▸ hd, he' ▸ hr'⟩

section Minimality

-- A way which may meet a node more than once.
inductive Way (neighbors : Dict ν (List (ν × ℕ × ρ))) (src : ν) : ν → ℕ → Prop
  | nil                       : Way neighbors src src 0
  | snoc {u d links link} (w : Way neighbors src u d) (hn : neighbors.get u = some links) (hl : link ∈ links) :
    Way neighbors src link.1 (d + link.2.1)

-- A node is at most that far away.
def Within (s : Dijkstra ν ρ) (v : ν) (d : ℕ) : Prop :=
  ∃ d' ≤ d, s.dist.get v = some d'

-- Nodes only come nearer, and then they are to be visited again.
structure Nears (s s' : Dijkstra ν ρ) : Prop where
  dist : ∀ v d, Within s v d → Within s' v d
  pq   : ∀ e ∈ s.pq, e ∈ s'.pq
  same : ∀ v, s'.dist.get v = s.dist.get v ∨ ∃ d, (d, v) ∈ s'.pq

theorem Nears.refl : Nears s s where
  dist _ _ h := h
  pq _ h     := h
  same _     := .inl rfl

theorem Nears.trans {s'' : Dijkstra ν ρ} (h : Nears s s') (h' : Nears s' s'') : Nears s s'' where
  dist v d hv := h'.dist v d (h.dist v d hv)
  pq e he     := h'.pq e (h.pq e he)
  same v      := by
    cases h'.same v
    case inr hq => exact .inr hq
    case inl he =>
      cases h.same v
      case inl he' => exact .inl (he.trans he')
      case inr hq =>
        obtain ⟨d, hq⟩ := hq
        exact .inr ⟨d, h'.pq _ hq⟩

theorem nears_relax : Nears s (relax extend top u s link) := by
  cases relax_cases extend top u s link
  case inl he =>
    rw [he]
    exact .refl
  case inr he =>
    obtain ⟨d, _, hlt, he⟩ := he
    rw [he]
    constructor
    case dist =>
      rintro v d' ⟨d'', hle, hd⟩
      rw [Within, Dict.get_set]
      split
      case isTrue h =>
        have := hlt d'' (h ▸ hd)
        exact ⟨_, by omega, rfl⟩
      case isFalse => exact ⟨d'', hle, hd⟩
    case pq => exact fun e he => mem_heappush.mpr (.inr he)
    case same =>
      intro v
      rw [Dict.get_set]
      split
      case isTrue h => exact .inr ⟨d + link.2.1, by simp [h]⟩
      case isFalse => exact .inl rfl

theorem nears_foldl : Nears s (links.foldl (relax extend top u) s) := by
  induction links generalizing s
  case nil => exact .refl
  case cons link links hi => exact nears_relax.trans hi

-- A node does not come nearer by its own links.
theorem dist_relax_self {d : ℕ} (hu : s.dist.get u = some d) : (relax extend top u s link).dist.get u = some d := by
  cases relax_cases extend top u s link
  case inl he => rwa [he]
  case inr he =>
    obtain ⟨d', hd, hlt, he⟩ := he
    rw [he, Dict.get_set]
    split
    case isTrue h =>
      have := hlt d' (h ▸ hd)
      omega
    case isFalse => exact hu

theorem within_relax {d : ℕ} (hu : s.dist.get u = some d) :
    Within (relax extend top u s link) link.1 (d + link.2.1) := by
  rw [relax, hu]
  simp only
  split
  case isTrue => exact ⟨_, le_rfl, by simp⟩
  case isFalse h =>
    cases hl : s.dist.get link.1
    case none => simp [hl] at h
    case some d' => exact ⟨d', by simpa [hl] using h, hl⟩

theorem within_foldl {d : ℕ} (hu : s.dist.get u = some d) (hl : link ∈ links) :
    Within (links.foldl (relax extend top u) s) link.1 (d + link.2.1) := by
  induction links generalizing s
  case nil => cases hl
  case cons link' links hi =>
    rw [List.foldl_cons]
    cases List.mem_cons.mp hl
    case inl he => exact he ▸ nears_foldl.dist _ _ (within_relax hu)
    case inr hl => exact hi (dist_relax_self hu) hl

-- A node is in the queue, or its neighbors are not farther away than by their links to it.
structure Relaxed (neighbors : Dict ν (List (ν × ℕ × ρ))) (src : ν) (s : Dijkstra ν ρ) : Prop where
  src   : Within s src 0
  links : ∀ u d, s.dist.get u = some d → (∃ d', (d', u) ∈ s.pq) ∨
    ∀ links, neighbors.get u = some links → ∀ link ∈ links, Within s link.1 (d + link.2.1)

theorem relaxed_start : Relaxed neighbors src (start top src) where
  src         := ⟨0, le_rfl, by simp [start]⟩
  links u d h := by
    rw [start, Dict.get_set] at h
    split at h
    case isTrue he => exact .inl ⟨0, by simp [start, he]⟩
    case isFalse => cases h

theorem Relaxed.foldl {d : ℕ} {rest : List (ℕ × ν)} (h : Relaxed neighbors src s) (hp : s.pq = (d, u) :: rest)
    (hn : neighbors.get u = some links) :
    Relaxed neighbors src (links.foldl (relax extend top u) { s with pq := rest }) := by
  have hg : Nears { s with pq := rest } (links.foldl (relax extend top u) { s with pq := rest }) := nears_foldl
  constructor
  case src => exact hg.dist src 0 h.src
  case links =>
    intro v d' hv
    cases hg.same v
    case inr hq => exact .inl hq
    case inl he =>
      have hd : s.dist.get v = some d' := he.symm.trans hv
      cases h.links v d' hd
      case inr hl => exact .inr fun links hn link hm => hg.dist _ _ (hl links hn link hm)
      case inl hq =>
        obtain ⟨e, hq⟩ := hq
        rw [hp, List.mem_cons] at hq
        cases hq
        case inr hq => exact .inl ⟨e, hg.pq _ hq⟩
        case inl he =>
          cases he
          apply Or.inr
          intro links' hn' link hl
          cases hn.symm.trans hn'
          exact within_foldl (s := { s with pq := rest }) hd hl

theorem Relaxed.search (h : Relaxed neighbors src s) (hs : search neighbors extend top fuel s = some s') :
    Relaxed neighbors src s' ∧ s'.pq = [] := by
  induction fuel generalizing s
  case zero => cases hs
  case succ fuel hi =>
    rw [Dijkstra.search] at hs
    split at hs
    case h_1 hp =>
      cases hs
      exact ⟨h, hp⟩
    case h_2 d u rest hp =>
      obtain ⟨links, hn, hs⟩ := Option.bind_eq_some_iff.mp hs
      exact hi (h.foldl hp hn) hs

theorem Relaxed.within {d : ℕ} (h : Relaxed neighbors src s) (hp : s.pq = []) (w : Way neighbors src v d) :
    Within s v d := by
  induction w
  case nil => exact h.src
  case snoc u d links link _ hn hl hi =>
    obtain ⟨d', hle, hd⟩ := hi
    cases h.links u d' hd
    case inl hq =>
      obtain ⟨e, hq⟩ := hq
      rw [hp] at hq
      cases hq
    case inr hs =>
      obtain ⟨d'', hle', hd'⟩ := hs links hn link hl
      exact ⟨d'', by omega, hd'⟩

-- What is found for a node are the length and the label of a way to it, and no way to it is shorter.
theorem shortest_of_search {d : ℕ} (hs : search neighbors extend top fuel (start top src) = some s)
    (w : Way neighbors src v d) :
    ∃ vs d' r, Path neighbors extend top src vs v d' r ∧ s.dist.get v = some d' ∧ s.labels.get v = some r ∧
      ∀ d, Way neighbors src v d → d' ≤ d := by
  obtain ⟨hr, hp⟩ := relaxed_start.search hs
  obtain ⟨d', _, hd⟩ := hr.within hp w
  obtain ⟨vs, r, hl, p, _⟩ := (sound_start.search hs) v d' hd
  refine ⟨vs, d', r, p, hd, hl, ?_⟩
  intro d w
  obtain ⟨d'', hle, hd'⟩ := hr.within hp w
  cases hd.symm.trans hd'
  exact hle

end Minimality

theorem search_succ (hs : search neighbors extend top fuel s = some s') :
    search neighbors extend top (fuel + 1) s = some s' := by
  induction fuel generalizing s
  case zero => cases hs
  case succ fuel hi =>
    rw [search] at hs ⊢
    split at hs
    case h_1 => exact hs
    case h_2 =>
      have ⟨links, hn, hs⟩ := Option.bind_eq_some_iff.mp hs
      exact Option.bind_eq_some_iff.mpr ⟨links, hn, hi hs⟩

theorem search_mono {fuel' : ℕ} (hle : fuel ≤ fuel') (hs : search neighbors extend top fuel s = some s') :
    search neighbors extend top fuel' s = some s' := by
  induction fuel', hle using Nat.le_induction
  case base => exact hs
  case succ fuel' _ hi => exact search_succ hi

section Termination

-- The distances, where a node which has not been met is infinitely far away.
def distances (neighbors : Dict ν (List (ν × ℕ × ρ))) (s : Dijkstra ν ρ) : { v // v ∈ neighbors.keys } → WithTop ℕ :=
  fun v => (s.dist.get v.1).elim ⊤ (WithTop.some ·)

theorem distances_relax (extend : ρ → ρ → ρ) (top : ρ) (u : ν) (s : Dijkstra ν ρ) (hk : link.1 ∈ neighbors.keys) :
    relax extend top u s link = s ∨ distances neighbors (relax extend top u s link) < distances neighbors s := by
  apply (relax_cases extend top u s link).imp id
  intro ⟨d, _, hlt, he⟩
  have hd : ((d + link.2.1 : ℕ) : WithTop ℕ) < (s.dist.get link.1).elim ⊤ (WithTop.some ·) := by
    cases hl : s.dist.get link.1
    case none => exact WithTop.coe_lt_top _
    case some d' => exact WithTop.coe_lt_coe.mpr (hlt d' hl)
  have hv v : distances neighbors (relax extend top u s link) v =
      if v.1 = link.1 then ((d + link.2.1 : ℕ) : WithTop ℕ) else distances neighbors s v := by
    rw [he, distances, Dict.get_set]
    split
    case isTrue => rfl
    case isFalse => rfl
  rw [Pi.lt_def]
  constructor
  case left =>
    intro v
    rw [hv]
    split
    case isTrue h =>
      rw [distances, h]
      exact hd.le
    case isFalse => exact le_refl _
  case right =>
    refine ⟨⟨link.1, hk⟩, ?_⟩
    rw [hv, if_pos rfl]
    exact hd

theorem distances_foldl (extend : ρ → ρ → ρ) (top : ρ) (u : ν) (s : Dijkstra ν ρ)
    (hk : ∀ link ∈ links, link.1 ∈ neighbors.keys) :
    links.foldl (relax extend top u) s = s ∨
      distances neighbors (links.foldl (relax extend top u) s) < distances neighbors s := by
  induction links generalizing s
  case nil => exact .inl rfl
  case cons link links hi =>
    have ⟨hl, hk⟩ := List.forall_mem_cons.mp hk
    rw [List.foldl_cons]
    cases distances_relax extend top u s hl
    case inl he =>
      rw [he]
      exact hi s hk
    case inr hlt =>
      cases hi (relax extend top u s link) hk
      case inl he => exact .inr (by rwa [he])
      case inr hi => exact .inr (hi.trans hlt)

-- Every neighbor has a list of neighbors.
def Closed (neighbors : Dict ν (List (ν × ℕ × ρ))) : Prop :=
  ∀ u links, neighbors.get u = some links → ∀ link ∈ links, link.1 ∈ neighbors.keys

theorem queued_foldl (hl : ∀ link ∈ links, link.1 ∈ neighbors.keys) (hq : ∀ e ∈ s.pq, e.2 ∈ neighbors.keys) :
    ∀ e ∈ (links.foldl (relax extend top u) s).pq, e.2 ∈ neighbors.keys := by
  induction links generalizing s
  case nil => exact hq
  case cons link links hi =>
    have ⟨hk, hl⟩ := List.forall_mem_cons.mp hl
    apply hi hl
    cases relax_cases extend top u s link
    case inl he => rwa [he]
    case inr he =>
      have ⟨d, _, _, he⟩ := he
      rw [he]
      intro e hm
      cases mem_heappush.mp hm
      case inl he => exact he ▸ hk
      case inr hm => exact hq e hm

-- Every visit makes the queue shorter, or else some node comes nearer.
theorem exists_search (hc : Closed neighbors) (hq : ∀ e ∈ s.pq, e.2 ∈ neighbors.keys) :
    ∃ fuel, (search neighbors extend top fuel s).isSome := by
  generalize hd : distances neighbors s = distance
  induction distance using WellFoundedLT.induction generalizing s
  case ind distance hi =>
    generalize hp : s.pq = pq
    induction pq generalizing s
    case nil => exact ⟨1, by simp [search, hp]⟩
    case cons e rest hr =>
      have ⟨links, hn⟩ := Dict.mem_keys_iff.mp (hq e (hp ▸ .head _))
      have hl := hc e.2 links hn
      have hq' : ∀ e ∈ rest, e.2 ∈ neighbors.keys := fun e he => hq e (hp ▸ .tail _ he)
      have ⟨fuel, hf⟩ : ∃ fuel, (search neighbors extend top fuel
          (links.foldl (relax extend top e.2) { s with pq := rest })).isSome := by
        cases distances_foldl extend top e.2 { s with pq := rest } hl
        case inl he =>
          rw [he]
          exact hr hq' hd rfl
        case inr hlt => exact hi _ (hd ▸ hlt) (queued_foldl hl hq') rfl
      exact ⟨fuel + 1, by simpa [search, hp, hn] using hf⟩

end Termination

end Dijkstra
