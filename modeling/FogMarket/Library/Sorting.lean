import Mathlib

open Float.Model (UnpackedFloat)

namespace Sorting

section Floats

-- Where a float stands among the others. Those with the same sign are ordered by exponent and mantissa.
def position : UnpackedFloat → ℤ ×ₗ ℤ ×ₗ ℤ
  | .infinity .negative     => toLex (-2, toLex (0, 0))
  | .finite .negative m e _ => toLex (-1, toLex (-e, -m))
  | .zero _                 => toLex (0, toLex (0, 0))
  | .finite .positive m e _ => toLex (1, toLex (e, m))
  | .infinity .positive     => toLex (2, toLex (0, 0))
  | .notANumber             => toLex (3, toLex (0, 0))

-- Floats are compared with each other, except for NaN.
def partialCmp (a b : Float) : Option Ordering :=
  if a ≤ b then
    if b ≤ a then some .eq else some .lt
  else
    if b ≤ a then some .gt else none

variable {a b : Float} {u v : UnpackedFloat} {e₁ e₂ : ℤ} {m₁ m₂ : ℕ}

theorem isLE_then :
    ((compare e₁ e₂).then (compare m₁ m₂)).isLE = true ↔ e₁ < e₂ ∨ e₁ = e₂ ∧ m₁ ≤ m₂ := by
  rw [Ordering.isLE_then_iff_or]
  simp [Int.compare_eq_lt, Nat.isLE_compare]

theorem isGE_then :
    ((compare e₁ e₂).then (compare m₁ m₂)).isGE = true ↔ e₂ < e₁ ∨ e₁ = e₂ ∧ m₂ ≤ m₁ := by
  rw [← Ordering.isLE_swap, Ordering.swap_then, Ordering.isLE_then_iff_or]
  simp [Int.compare_eq_gt, Nat.isGE_compare]

theorem le_iff_of_unpacked (hu : u ≠ .notANumber) (hv : v ≠ .notANumber) :
    u.le v = true ↔ position u ≤ position v := by
  match u, v with
  | .finite .negative m₁ e₁ _, .finite .negative m₂ e₂ _ =>
    simp [UnpackedFloat.le, UnpackedFloat.compare, isGE_then, position, Prod.Lex.toLex_le_toLex]
  | .finite .positive m₁ e₁ _, .finite .positive m₂ e₂ _ =>
    simp [UnpackedFloat.le, UnpackedFloat.compare, isLE_then, position, Prod.Lex.toLex_le_toLex]
  | .finite .negative .., .finite .positive .. | .finite .positive .., .finite .negative .. =>
    simp [UnpackedFloat.le, UnpackedFloat.compare, position, Prod.Lex.toLex_le_toLex]
  | .zero _, .zero _ => simp [UnpackedFloat.le, UnpackedFloat.compare, position]
  | .infinity s, .infinity s' => cases s <;> cases s' <;> decide
  | .zero _, .finite s .. | .finite s .., .zero _ | .zero _, .infinity s | .infinity s, .zero _ =>
    cases s <;> simp [UnpackedFloat.le, UnpackedFloat.compare, position, Prod.Lex.toLex_le_toLex]
  | .infinity s, .finite s' .. | .finite s' .., .infinity s =>
    cases s <;> cases s' <;> simp [UnpackedFloat.le, UnpackedFloat.compare, position, Prod.Lex.toLex_le_toLex]

theorem isNaN_iff : a.isNaN = true ↔ a.toModel.unpack = .notANumber := by
  change a.toModel.unpack.isNaN = true ↔ _
  cases a.toModel.unpack <;> simp [UnpackedFloat.isNaN]

theorem le_iff : a ≤ b ↔
    a.isNaN = false ∧ b.isNaN = false ∧ position a.toModel.unpack ≤ position b.toModel.unpack := by
  have hle : a ≤ b ↔ a.toModel.unpack.le b.toModel.unpack = true := decide_eq_true_iff
  rw [hle, ← Bool.not_eq_true, ← Bool.not_eq_true, isNaN_iff, isNaN_iff]
  by_cases ha : a.toModel.unpack = .notANumber
  case pos => simp [ha, UnpackedFloat.le, UnpackedFloat.compare]
  case neg =>
    by_cases hb : b.toModel.unpack = .notANumber
    case pos => cases h : a.toModel.unpack <;> simp [hb, UnpackedFloat.le, UnpackedFloat.compare]
    case neg => simp [ha, hb, le_iff_of_unpacked ha hb]

theorem partialCmp_isSome : (partialCmp a b).isSome = true ↔ a.isNaN = false ∧ b.isNaN = false := by
  have ht := le_total (position a.toModel.unpack) (position b.toModel.unpack)
  simp only [partialCmp, le_iff]
  grind

theorem partialCmp_ne_gt (ha : a.isNaN = false) (hb : b.isNaN = false) :
    partialCmp a b ≠ some .gt ↔ position a.toModel.unpack ≤ position b.toModel.unpack := by
  have ht := le_total (position a.toModel.unpack) (position b.toModel.unpack)
  simp only [partialCmp, le_iff]
  grind

end Floats

variable {α κ : Type*} [LinearOrder κ] {compare : α → α → Option Ordering} {l l' : List α}

-- The sort is stable, and only succeeds if every comparison does.
def sortBy (compare : α → α → Option Ordering) (l : List α) : Option (List α) :=
  if l.Pairwise fun a b => (compare a b).isSome = true then
    some (l.mergeSort fun a b => compare a b != some .gt)
  else
    none

theorem perm_of_sortBy (h : sortBy compare l = some l') : l'.Perm l := by
  simp only [sortBy] at h
  split at h <;> cases h
  exact List.mergeSort_perm ..

-- If more than one element is sorted, each of them has been compared with another one.
theorem pairwise_of_sortBy (valid : α → Prop) (key : α → κ)
    (hvalid : ∀ a b, (compare a b).isSome = true → valid a ∧ valid b)
    (hle : ∀ a b, valid a → valid b → (compare a b ≠ some .gt ↔ key a ≤ key b))
    (h : sortBy compare l = some l') : l'.Pairwise fun a b => valid a ∧ valid b ∧ key a ≤ key b := by
  simp only [sortBy] at h
  split at h <;> cases h
  case isTrue hp =>
    match l with
    | []  => simp
    | [x] => simp
    | x :: y :: l =>
      have ⟨hx, _⟩ := List.pairwise_cons.mp hp
      have hall : ∀ z ∈ x :: y :: l, valid z := by
        intro z hz
        cases List.mem_cons.mp hz
        case inl he => exact he ▸ (hvalid _ _ (hx y List.mem_cons_self)).1
        case inr hz => exact (hvalid _ _ (hx z hz)).2
      have hkey : ∀ a ∈ x :: y :: l, ∀ b ∈ x :: y :: l,
          (compare a b != some .gt) = decide (key a ≤ key b) := by
        intro a ha b hb
        rw [Bool.eq_iff_iff, bne_iff_ne, decide_eq_true_iff]
        exact hle a b (hall a ha) (hall b hb)
      have hmap := List.map_mergeSort (f := key) (s := (· ≤ ·)) hkey
      have hsorted := @List.pairwise_mergeSort κ (fun a b => decide (a ≤ b))
        (fun _ _ _ => by simpa using le_trans) (fun a b => by simpa using le_total a b) ((x :: y :: l).map key)
      rw [← hmap, List.pairwise_map] at hsorted
      refine hsorted.imp_of_mem fun ha hb hle => ?_
      exact ⟨hall _ (List.mem_mergeSort.mp ha), hall _ (List.mem_mergeSort.mp hb), by simpa using hle⟩

theorem pairwise_sortBy {f : α → Float} (h : sortBy (fun a b => partialCmp (f a) (f b)) l = some l') :
    l'.Pairwise (f · ≤ f ·) :=
  have h := pairwise_of_sortBy (fun a => (f a).isNaN = false) (fun a => position (f a).toModel.unpack)
    (fun _ _ => partialCmp_isSome.mp) (fun _ _ => partialCmp_ne_gt) h
  h.imp le_iff.mpr

theorem pairwise_sortBy_reverse {f : α → Float} (h : sortBy (fun a b => partialCmp (f b) (f a)) l = some l') :
    l'.Pairwise (f · ≥ f ·) := by
  have h := pairwise_of_sortBy (fun a => (f a).isNaN = false)
    (fun a => OrderDual.toDual (position (f a).toModel.unpack))
    (fun _ _ hs => (partialCmp_isSome.mp hs).symm) (fun _ _ ha hb => partialCmp_ne_gt hb ha) h
  exact h.imp fun ⟨ha, hb, hle⟩ => le_iff.mpr ⟨hb, ha, hle⟩

end Sorting
