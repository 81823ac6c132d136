import Mathlib.Algebra.Order.Group.Nat
import Mathlib.Data.List.Basic
import Mathlib.Order.Basic

-- Items of one size are packed in their order. The group which is opened is closed when there is an item too many,
-- where the items are counted up to a bound.
structure Packing (α : Type*) where
  closed  : List (List α) := []
  opened  : List α := []
  counted : ℕ := 0

namespace Packing

variable {α : Type*} (fits : ℕ → Prop) [DecidablePred fits]

-- The item which opens a group, other than the first one, is not counted.
def place (p : Packing α) (x : α) : Option (Packing α) :=
  if fits (p.counted + 1) then
    some { p with opened := p.opened ++ [x], counted := p.counted + 1 }
  else if p.opened = [] then
    none
  else
    some { closed := p.closed ++ [p.opened], opened := [x], counted := 0 }

def groups (p : Packing α) : List (List α) :=
  if p.opened = [] then p.closed else p.closed ++ [p.opened]

def pack (items : List α) : Option (List (List α)) :=
  (items.foldlM (place fits) {}).map groups

variable {fits} {p p' : Packing α} {x : α} {items : List α} {gs : List (List α)} {n : ℕ}

theorem flatten_groups : p.groups.flatten = p.closed.flatten ++ p.opened := by
  rw [groups]
  split
  case isTrue h => simp [h]
  case isFalse => simp

theorem flatten_place (h : place fits p x = some p') : p'.groups.flatten = p.groups.flatten ++ [x] := by
  rw [flatten_groups, flatten_groups]
  rw [place] at h
  split at h
  case isTrue =>
    cases h
    simp
  case isFalse =>
    split at h
    case isTrue => cases h
    case isFalse =>
      cases h
      simp

-- What holds of the items which have been placed is preserved by each of them.
theorem foldlM_invariant {I : Packing α → List α → Prop} {placed : List α} (h₀ : I p placed)
    (hI : ∀ p p' x placed, I p placed → place fits p x = some p' → I p' (placed ++ [x]))
    (h : items.foldlM (place fits) p = some p') : I p' (placed ++ items) := by
  induction items generalizing p placed
  case nil =>
    cases h
    rw [List.append_nil]
    exact h₀
  case cons x items hi =>
    rw [List.foldlM_cons, Option.bind_eq_bind, Option.bind_eq_some_iff] at h
    have ⟨p₁, h₁, h₂⟩ := h
    rw [← List.singleton_append, ← List.append_assoc]
    exact hi (hI p p₁ x placed h₀ h₁) h₂

theorem invariant_of_pack {I : Packing α → List α → Prop} (h₀ : I {} [])
    (hI : ∀ p p' x placed, I p placed → place fits p x = some p' → I p' (placed ++ [x]))
    (h : pack fits items = some gs) : ∃ p : Packing α, p.groups = gs ∧ I p items := by
  have ⟨p, hp, hg⟩ := Option.map_eq_some_iff.mp h
  exact ⟨p, hg, foldlM_invariant h₀ hI hp⟩

-- The groups are the items, cut into pieces.
theorem flatten_pack (h : pack fits items = some gs) : gs.flatten = items := by
  have ⟨p, hg, hp⟩ : ∃ p : Packing α, p.groups = gs ∧ p.groups.flatten = items := by
    apply invariant_of_pack (I := fun p placed => p.groups.flatten = placed) rfl _ h
    intro p p' x placed hp h
    rw [flatten_place h, hp]
  exact hg ▸ hp

-- How many items there are in the groups after `n` of them, where `q` is how many fit. All groups but the first one
-- take one more.
inductive Sized (fits : ℕ → Prop) (p : Packing α) (n : ℕ) : Prop
  | first (hc : p.closed = []) (ho : p.opened.length = n) (hn : p.counted = n) (hf : 0 < n → fits n)
  | later (q : ℕ) (group : List α) (rest : List (List α)) (hq : fits q) (hq' : ¬fits (q + 1))
    (hc : p.closed = group :: rest) (hg : group.length = q) (hr : ∀ g ∈ rest, g.length = q + 1)
    (ho : p.opened.length = p.counted + 1) (hl : p.counted ≤ q)
    (hn : n = q + (q + 1) * rest.length + p.counted + 1)

section Bound

variable (hfits : ∀ k, 1 ≤ k → fits (k + 1) → fits k)
include hfits

omit [DecidablePred fits] in
theorem fits_of_le {k m : ℕ} (hk : 1 ≤ k) (hm : k ≤ m) (h : fits m) : fits k := by
  induction m, hm using Nat.le_induction
  case base => exact h
  case succ m hkm hi => exact hi (hfits m (hk.trans hkm) h)

omit [DecidablePred fits] in
theorem fits_iff {q k : ℕ} (h : fits q) (hn : ¬fits (q + 1)) (hk : 1 ≤ k) : fits k ↔ k ≤ q := by
  constructor
  case mp =>
    intro hf
    by_contra hq
    exact hn (fits_of_le hfits (Nat.le_add_left 1 q) (Nat.lt_of_not_le hq) hf)
  case mpr => exact fun hq => fits_of_le hfits hk hq h

theorem Sized.place (hs : Sized fits p n) (h : p.place fits x = some p') : Sized fits p' (n + 1) := by
  rw [Packing.place] at h
  cases hs
  case first hc ho hn hf =>
    subst hn
    split at h
    case isTrue hf' =>
      cases h
      exact .first hc (by simp [ho]) rfl fun _ => hf'
    case isFalse hf' =>
      split at h
      case isTrue => cases h
      case isFalse hne =>
        cases h
        have hp := hf (ho ▸ List.length_pos_of_ne_nil hne)
        exact .later p.counted p.opened [] hp hf' (by simp [hc]) ho (by simp) rfl (Nat.zero_le _) (by simp)
  case later q group rest hq hq' hc hg hr ho hl hn =>
    split at h
    case isTrue hf =>
      cases h
      have hl := (fits_iff hfits hq hq' (Nat.le_add_left 1 p.counted)).mp hf
      exact .later q group rest hq hq' hc hg hr (by simp [ho]) hl (congrArg (· + 1) hn)
    case isFalse hf =>
      split at h
      case isTrue => cases h
      case isFalse =>
        cases h
        rw [fits_iff hfits hq hq' (Nat.le_add_left 1 p.counted)] at hf
        have hl : p.counted = q := by omega
        have hr : ∀ g ∈ rest ++ [p.opened], g.length = q + 1 := by
          simp only [List.mem_append, List.mem_singleton]
          intro g hm
          cases hm
          case inl hm => exact hr g hm
          case inr hm => rw [hm, ho, hl]
        refine .later q group (rest ++ [p.opened]) hq hq' (by simp [hc]) hg hr rfl (Nat.zero_le q) ?_
        simp only [hn, hl, List.length_append, List.length_singleton, Nat.mul_add]
        omega

-- Every group fits if half of the items do.
omit [DecidablePred fits] in
theorem Sized.forall_fits_iff (hs : Sized fits p n) (hn : 0 < n) :
    (∀ g ∈ p.groups, fits g.length) ↔ fits ((n + 1) / 2) := by
  cases hs
  case first hc ho _ hf =>
    have hne : p.opened ≠ [] := List.length_pos_iff.mp (ho ▸ hn)
    have hh : fits ((n + 1) / 2) := fits_of_le hfits (by omega) (by omega) (hf hn)
    simp [groups, hne, hc, ho, hf hn, hh]
  case later q group rest hq hq' hc hg hr ho hl hn =>
    have hne : p.opened ≠ [] := List.length_pos_iff.mp (by omega)
    have hk : fits ((n + 1) / 2) ↔ (n + 1) / 2 ≤ q := fits_iff hfits hq hq' (by omega)
    have hc' : fits (p.counted + 1) ↔ p.counted + 1 ≤ q := fits_iff hfits hq hq' (by omega)
    rw [hk]
    cases rest
    case nil =>
      simp [groups, hne, hc, hg, hq, ho, hc']
      simp at hn
      omega
    case cons g rest =>
      have hf : ¬fits g.length := hr g (.head _) ▸ hq'
      have hq : ¬(n + 1) / 2 ≤ q := by
        rw [List.length_cons, Nat.mul_add] at hn
        omega
      simp [groups, hne, hc, hf, hq]

theorem forall_fits_iff (h : pack fits items = some gs) (hn : items ≠ []) :
    (∀ g ∈ gs, fits g.length) ↔ fits ((items.length + 1) / 2) := by
  have ⟨p, hg, hs⟩ : ∃ p : Packing α, p.groups = gs ∧ Sized fits p items.length := by
    apply invariant_of_pack (I := fun p placed => Sized fits p placed.length) (h := h)
    case h₀ => exact .first rfl rfl rfl fun h => absurd h (Nat.lt_irrefl 0)
    case hI =>
      intro p p' x placed hs h
      rw [List.length_append]
      exact hs.place hfits h
  rw [← hg, hs.forall_fits_iff hfits (List.length_pos_of_ne_nil hn)]

end Bound

theorem ne_nil_of_place (h : place fits p x = some p') : p'.opened ≠ [] := by
  rw [place] at h
  split at h
  case isTrue =>
    cases h
    simp
  case isFalse =>
    split at h
    case isTrue => cases h
    case isFalse =>
      cases h
      simp

-- The last item is in the group which is open.
theorem opened_ne_nil (hn : items ≠ []) (h : items.foldlM (place fits) {} = some p) : p.opened ≠ [] := by
  have hi : [] ++ items ≠ [] → p.opened ≠ [] := by
    apply foldlM_invariant (I := fun p placed => placed ≠ [] → p.opened ≠ []) (h := h)
    case h₀ => exact fun h => absurd rfl h
    case hI => exact fun _ _ _ _ _ h _ => ne_nil_of_place h
  exact hi hn

-- There is nothing to be done if one item is too large, and a way to go on otherwise.
theorem isSome_foldlM (hp : p.opened ≠ [] ∨ fits (p.counted + 1)) : (items.foldlM (place fits) p).isSome := by
  induction items generalizing p
  case nil => rfl
  case cons x items hi =>
    have hs : (place fits p x).isSome := by
      rw [place]
      split
      case isTrue => rfl
      case isFalse hf => rw [if_neg (hp.resolve_right hf)]; rfl
    have ⟨p', h⟩ := Option.isSome_iff_exists.mp hs
    rw [List.foldlM_cons, h]
    apply hi
    rw [place] at h
    split at h
    case isTrue =>
      cases h
      exact .inl (by simp)
    case isFalse =>
      split at h
      case isTrue => cases h
      case isFalse =>
        cases h
        exact .inl (by simp)

theorem pack_isSome_iff (hn : items ≠ []) : (pack fits items).isSome ↔ fits 1 := by
  rw [pack, Option.isSome_map]
  constructor
  case mp =>
    intro h
    cases items
    case nil => contradiction
    case cons x items =>
      by_contra hf
      simp [place, hf] at h
  case mpr => exact fun hf => isSome_foldlM (.inr hf)

end Packing
