import Mathlib.Algebra.Order.Ring.Rat
import Mathlib.Data.List.TakeWhile

namespace Decimal

-- The number which is written with digits, and possibly a fraction behind a point. One of the parts may be empty.
def value (l : List Char) : Option ℚ :=
  let whole := l.takeWhile (· != '.')
  let fraction := (l.dropWhile (· != '.')).tail
  if whole ++ fraction ≠ [] ∧ (whole ++ fraction).all Char.isDigit then
    some (Nat.ofDigitChars 10 (whole ++ fraction) 0 / 10 ^ fraction.length)
  else
    none

variable {l : List Char} {n : ℕ} {c : Char}

theorem isDigit_toDigits (h : c ∈ Nat.toDigits 10 n) : c.isDigit = true :=
  Nat.isDigit_of_mem_toDigits (by decide) (by decide) h

theorem all_toDigits {p : Char → Bool} (hp : ∀ c, c.isDigit = true → p c = true) :
    ∀ c ∈ Nat.toDigits 10 n, p c = true :=
  fun c h => hp c (isDigit_toDigits h)

theorem ne_of_isDigit {d : Char} (h : c.isDigit = true) (hd : d.isDigit = false) : c ≠ d := by
  rintro rfl
  simp [hd] at h

theorem value_toDigits : value (Nat.toDigits 10 n) = some (n : ℚ) := by
  have hp : ∀ c ∈ Nat.toDigits 10 n, (c != '.') = true :=
    all_toDigits fun c hc => by simpa using ne_of_isDigit hc (by decide : '.'.isDigit = false)
  have ht := List.takeWhile_eq_self_iff.mpr hp
  have hd := List.dropWhile_eq_nil_iff.mpr hp
  have ha : (Nat.toDigits 10 n).all Char.isDigit = true := List.all_eq_true.mpr fun c => isDigit_toDigits
  simp [value, ht, hd, ha, Nat.toDigits_ne_nil, Nat.ofDigitChars_ten_toDigits]

theorem toNat_sub_eq_zero_iff (h : c.isDigit = true) : c.toNat - '0'.toNat = 0 ↔ c = '0' := by
  have hd : '0'.toNat ≤ c.toNat := by
    simp only [Char.isDigit, Bool.and_eq_true, decide_eq_true_eq, ge_iff_le, UInt32.le_iff_toNat_le] at h
    exact h.left
  rw [Nat.sub_eq_zero_iff_le, ← Char.toNat_inj]
  exact ⟨fun hc => Nat.le_antisymm hc hd, Nat.le_of_eq⟩

-- Only zeros stand for zero.
theorem ofDigitChars_eq_zero_iff (h : ∀ c ∈ l, c.isDigit = true) :
    Nat.ofDigitChars 10 l 0 = 0 ↔ ∀ c ∈ l, c = '0' := by
  induction l
  case nil => simp
  case cons c l hi =>
    have hl := hi fun c hc => h c (.tail _ hc)
    rw [Nat.ofDigitChars_cons, Nat.ofDigitChars_eq_ofDigitChars_zero, Nat.add_eq_zero_iff, hl, Nat.mul_zero,
      Nat.zero_add, Nat.mul_eq_zero, toNat_sub_eq_zero_iff (h c (.head _)), List.forall_mem_cons]
    simp

-- There is no number with anything but digits and a point.
theorem value_eq_none (hm : c ∈ l) (hd : c.isDigit = false) (hp : c ≠ '.') : value l = none := by
  have h : c ∈ l.takeWhile (· != '.') ++ (l.dropWhile (· != '.')).tail := by
    rw [← List.takeWhile_append_dropWhile (p := (· != '.')) (l := l), List.mem_append] at hm
    cases hm
    case inl h => exact List.mem_append_left _ h
    case inr h =>
      apply List.mem_append_right
      cases hl : l.dropWhile (· != '.')
      case nil => exact absurd (hl ▸ h) List.not_mem_nil
      case cons point fraction =>
        have hn : point = '.' := by
          have := List.head?_dropWhile_not (· != '.') l
          simpa [hl] using this
        rw [hl, List.mem_cons] at h
        exact h.resolve_left (hn ▸ hp)
  refine if_neg fun ⟨_, ha⟩ => ?_
  rw [List.all_eq_true.mp ha c h] at hd
  contradiction

end Decimal
