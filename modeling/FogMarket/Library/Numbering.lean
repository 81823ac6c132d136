import Mathlib.Data.List.Count
import Mathlib.Data.List.Nodup
import Mathlib.Logic.Function.Basic

namespace Numbering

variable {κ : Type*} [DecidableEq κ]

-- The occurrences of each key, in the order in which they are met. `count` says how many there have been before.
def number (count : κ → ℕ) : List κ → List (κ × ℕ)
  | []     => []
  | k :: l => (k, count k) :: number (Function.update count k (count k + 1)) l

variable {count : κ → ℕ} {l : List κ} {k : κ} {i : ℕ}

@[simp]
theorem length_number : (number count l).length = l.length := by
  induction l generalizing count
  case nil => rfl
  case cons k l hi => rw [number, List.length_cons, hi, List.length_cons]

theorem bounds_of_mem_number (h : (k, i) ∈ number count l) : count k ≤ i ∧ i < count k + l.count k := by
  induction l generalizing count
  case nil => cases h
  case cons k' l hi =>
    rw [number, List.mem_cons] at h
    cases h
    case inl h =>
      cases h
      rw [List.count_cons_self]
      omega
    case inr h =>
      have hb := hi h
      by_cases hk : k = k'
      case pos =>
        subst hk
        rw [Function.update_self] at hb
        rw [List.count_cons_self]
        omega
      case neg =>
        rw [Function.update_of_ne hk] at hb
        rw [List.count_cons_of_ne (Ne.symm hk)]
        exact hb

-- No two occurrences have the same number.
theorem nodup_number : (number count l).Nodup := by
  induction l generalizing count
  case nil => exact List.nodup_nil
  case cons k l hi =>
    rw [number, List.nodup_cons]
    constructor
    case left =>
      intro h
      have hb := (bounds_of_mem_number h).left
      rw [Function.update_self] at hb
      omega
    case right => exact hi

end Numbering
