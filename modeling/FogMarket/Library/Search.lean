import Mathlib.Logic.Relation
import FogMarket.Library.Lists

open Relation

namespace Search

variable {σ β : Type*} {next : σ → List σ} {place : σ → List σ → List σ} {f : σ → Option β}
variable {fuel : ℕ} {s t x : σ} {l l' : List σ} {b : β}

-- The states which are reached from a state, depth first. The state itself has its place among those which
-- are reached through its successors.
def traverse (place : σ → List σ → List σ) (next : σ → List σ) : ℕ → σ → Option (List σ)
  | 0, _ => none
  | fuel + 1, s => ((next s).mapM (traverse place next fuel)).map fun below => place s below.flatten

abbrev preorder : (σ → List σ) → ℕ → σ → Option (List σ) :=
  traverse List.cons

abbrev postorder : (σ → List σ) → ℕ → σ → Option (List σ) :=
  traverse fun s below => below ++ [s]

theorem traverse_succ (h : traverse place next (fuel + 1) s = some l) :
    l = place s ((next s).flatMap fun t => (traverse place next fuel t).getD []) ∧
      ∀ t ∈ next s, (traverse place next fuel t).isSome = true := by
  have ⟨below, hb, h⟩ := Option.map_eq_some_iff.mp h
  have ⟨hr, hs⟩ := Lists.mapM_eq_some hb
  cases h
  exact ⟨by rw [hr]; rfl, hs⟩

-- Nothing is missing.
theorem mem_traverse (hp : ∀ s l x, x ∈ place s l ↔ x = s ∨ x ∈ l) (h : traverse place next fuel s = some l) :
    x ∈ l ↔ ReflTransGen (fun s t => t ∈ next s) s x := by
  induction fuel generalizing s l
  case zero => contradiction
  case succ fuel hi =>
    have ⟨hl, hs⟩ := traverse_succ h
    rw [hl, hp, List.mem_flatMap, ReflTransGen.cases_head_iff, eq_comm]
    refine or_congr_right (exists_congr fun t => and_congr_right fun ht => ?_)
    have ⟨l, hl⟩ := Option.isSome_iff_exists.mp (hs t ht)
    rw [hl, Option.getD_some]
    exact hi hl

-- A bound which decreases from a state to its successors.
theorem traverse_isSome (bound : ℕ → σ → Prop) (hz : ∀ s, ¬ bound 0 s)
    (hs : ∀ n s t, bound (n + 1) s → t ∈ next s → bound n t) (h : bound fuel s) :
    (traverse place next fuel s).isSome = true := by
  induction fuel generalizing s
  case zero => exact absurd h (hz s)
  case succ fuel hi =>
    have hm : ((next s).mapM (traverse place next fuel)).isSome = true :=
      Lists.mapM_isSome fun t ht => hi (hs fuel s t h ht)
    rw [traverse, Option.isSome_map]
    exact hm

-- What a search looks at before it has found something.
def searched (f : σ → Option β) : List σ → List σ
  | [] => []
  | s :: l =>
    match f s with
    | none   => s :: searched f l
    | some _ => [s]

theorem searched_cons_none (h : f s = none) : searched f (s :: l) = s :: searched f l := by
  rw [searched, h]

theorem searched_cons_some (h : f s = some b) : searched f (s :: l) = [s] := by
  rw [searched, h]

theorem searched_append_none (h : l.findSome? f = none) : searched f (l ++ l') = searched f l ++ searched f l' := by
  induction l
  case nil => rfl
  case cons s l hi =>
    rw [List.findSome?_cons] at h
    split at h
    case h_1 => contradiction
    case h_2 hs => rw [List.cons_append, searched_cons_none hs, searched_cons_none hs, hi h, List.cons_append]

theorem searched_append_some (h : l.findSome? f = some b) : searched f (l ++ l') = searched f l := by
  induction l
  case nil => contradiction
  case cons s l hi =>
    rw [List.findSome?_cons] at h
    split at h
    case h_1 hs => rw [List.cons_append, searched_cons_some hs, searched_cons_some hs]
    case h_2 hs => rw [List.cons_append, searched_cons_none hs, searched_cons_none hs, hi h]

theorem findSome?_eq_bind (f : σ → Option β) (l : List σ) :
    l.findSome? f = (l.find? fun s => (f s).isSome).bind f := by
  induction l
  case nil => rfl
  case cons s l hi =>
    rw [List.findSome?_cons, List.find?_cons]
    cases hs : f s
    case none => simpa using hi
    case some => simp [hs]

end Search
