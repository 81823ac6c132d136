import Mathlib.Data.Finmap
import Mathlib.Algebra.BigOperators.Group.Finset.Basic
import Mathlib.Algebra.Order.BigOperators.Group.Finset

-- Finite maps from keys to values of one type.
abbrev Map (κ ν : Type*) :=
  Finmap fun _ : κ => ν

namespace Map

variable {κ ν μ : Type*} [DecidableEq κ] {m : Map κ ν} {k k' : κ} {v : ν}

theorem lookup_insert_eq (m : Map κ ν) (k k' : κ) (v : ν) :
    (m.insert k v).lookup k' = if k' = k then some v else m.lookup k' := by
  split
  case isTrue h  => exact h ▸ Finmap.lookup_insert m
  case isFalse h => exact Finmap.lookup_insert_of_ne m h

theorem lookup_erase_eq (m : Map κ ν) (k k' : κ) :
    (m.erase k).lookup k' = if k' = k then none else m.lookup k' := by
  split
  case isTrue h  => exact h ▸ Finmap.lookup_erase k' m
  case isFalse h => exact Finmap.lookup_erase_ne h

theorem keys_insert (m : Map κ ν) (k : κ) (v : ν) : (m.insert k v).keys = insert k m.keys := by
  ext
  simp [Finmap.mem_keys]

theorem mem_of_lookup (h : m.lookup k = some v) : k ∈ m :=
  Finmap.mem_of_lookup_eq_some h

theorem lookup_of_mem (h : k ∈ m) : ∃ v, m.lookup k = some v :=
  Finmap.mem_iff.mp h

theorem erase_of_notMem (h : k ∉ m) : m.erase k = m := by
  apply Finmap.ext_lookup
  intro k'
  rw [lookup_erase_eq]
  split
  case isTrue he => rw [he, Finmap.lookup_eq_none.mpr h]
  case isFalse   => rfl

-- The sum of `f` over the entries of a map.
def total [AddCommMonoid μ] (m : Map κ ν) (f : κ → ν → μ) : μ :=
  ∑ k ∈ m.keys, (m.lookup k).elim 0 (f k)

theorem total_empty [AddCommMonoid μ] (f : κ → ν → μ) : total (∅ : Map κ ν) f = 0 := by
  simp [total]

theorem total_insert [AddCommGroup μ] (m : Map κ ν) (k : κ) (v : ν) (f : κ → ν → μ) :
    total (m.insert k v) f = total m f - (m.lookup k).elim 0 (f k) + f k v := by
  have hr : ∑ j ∈ m.keys.erase k, ((m.insert k v).lookup j).elim 0 (f j) =
      ∑ j ∈ m.keys.erase k, (m.lookup j).elim 0 (f j) := by
    refine Finset.sum_congr rfl fun j hj => ?_
    rw [Finmap.lookup_insert_of_ne m (Finset.ne_of_mem_erase hj)]
  have hm : ∑ j ∈ m.keys.erase k, (m.lookup j).elim 0 (f j) =
      total m f - (m.lookup k).elim 0 (f k) := by
    by_cases hk : k ∈ m.keys
    case pos => exact Finset.sum_erase_eq_sub hk
    case neg =>
      have hn := Finmap.lookup_eq_none.mpr (mt Finmap.mem_keys.mpr hk)
      simp [total, Finset.erase_eq_of_notMem hk, hn]
  have hk : insert k m.keys = insert k (m.keys.erase k) := by
    ext j
    by_cases hj : j = k <;> simp [hj]
  rw [total, keys_insert, hk, Finset.sum_insert (by simp), hr, hm, Finmap.lookup_insert,
    Option.elim_some, add_comm]

theorem total_eq_zero [AddCommMonoid μ] {f : κ → ν → μ}
    (h : ∀ k v, m.lookup k = some v → f k v = 0) : total m f = 0 := by
  refine Finset.sum_eq_zero fun k _ => ?_
  cases hl : m.lookup k
  case none   => rfl
  case some v => exact h k v hl

theorem total_add [AddCommMonoid μ] (m : Map κ ν) (f g : κ → ν → μ) :
    total m (fun k v => f k v + g k v) = total m f + total m g := by
  rw [total, total, total, ← Finset.sum_add_distrib]
  refine Finset.sum_congr rfl fun k _ => ?_
  cases m.lookup k <;> simp

-- A sum to which only one key contributes.
theorem total_eq_single [AddCommMonoid μ] {f : κ → ν → μ} (h : ∀ k' v, k' ≠ k → f k' v = 0) :
    total m f = (m.lookup k).elim 0 (f k) := by
  refine Finset.sum_eq_single k (fun k' _ hk => ?_) fun hk => ?_
  · cases hl : m.lookup k'
    case none   => rfl
    case some v => exact h k' v hk
  · rw [Finmap.lookup_eq_none.mpr (mt Finmap.mem_keys.mpr hk), Option.elim_none]

section Order

variable [AddCommMonoid μ] [PartialOrder μ] [IsOrderedAddMonoid μ]

theorem total_nonneg {f : κ → ν → μ} (h : ∀ k v, m.lookup k = some v → 0 ≤ f k v) :
    0 ≤ total m f := by
  refine Finset.sum_nonneg fun k _ => ?_
  cases hl : m.lookup k
  case none   => exact le_rfl
  case some v => exact h k v hl

theorem le_total {f : κ → ν → μ} (h : ∀ k v, m.lookup k = some v → 0 ≤ f k v)
    (hl : m.lookup k = some v) : f k v ≤ total m f := by
  have hk : k ∈ m.keys := Finmap.mem_keys.mpr (mem_of_lookup hl)
  have := Finset.single_le_sum (f := fun k => (m.lookup k).elim 0 (f k)) (fun j _ => ?_) hk
  · simpa [total, hl] using this
  · cases hj : m.lookup j
    case none   => exact le_rfl
    case some v => exact h j v hj

end Order
end Map
