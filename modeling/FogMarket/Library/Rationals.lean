import Mathlib.Algebra.Order.Field.Rat
import Mathlib.Data.Nat.Factorization.Basic
import Mathlib.Tactic.FieldSimp
import Mathlib.Tactic.Linarith

-- How rational numbers are computed with. A quotient may panic.
structure Rationals where
  add : ℚ → ℚ → ℚ
  sub : ℚ → ℚ → ℚ
  mul : ℚ → ℤ → ℚ
  div : ℚ → ℚ → Option ℚ

namespace Rationals

def exact : Rationals where
  add p q := p + q
  sub p q := p - q
  mul p n := p * n
  div p q := if q = 0 then none else some (p / q)

-- The integer of 64 bits which is left of one after it has wrapped around.
def wrap (n : ℤ) : ℤ :=
  n.bmod (2 ^ 64)

def gcd (m n : ℤ) : ℤ :=
  wrap (Int.gcd m n)

def lcm (m n : ℤ) : ℤ :=
  |wrap (m * (n / gcd m n))|

-- A fraction is reduced, and its denominator becomes positive.
def ratio (numer denom : ℤ) : Option ℚ :=
  let g := gcd numer denom
  if denom = 0 then
    none
  else if denom / g < 0 then
    some (wrap (-(numer / g)) / wrap (-(denom / g)))
  else
    some (numer / denom)

-- Sums and differences of fractions with positive denominators.
def combine (f : ℤ → ℤ → ℤ) (p q : ℚ) : ℚ :=
  if p.den = q.den then
    wrap (f p.num q.num) / p.den
  else
    let lcm := lcm p.den q.den
    wrap (f (wrap (p.num * (lcm / p.den))) (wrap (q.num * (lcm / q.den)))) / lcm

-- The arithmetic of fractions whose numerators and denominators are integers of 64 bits.
def i64 : Rationals where
  add     := combine (· + ·)
  sub     := combine (· - ·)
  mul p n := wrap (p.num * (n / gcd p.den n)) / wrap (p.den / gcd p.den n)
  div p q :=
    let gcdNumer := gcd p.num q.num
    let gcdDenom := gcd p.den q.den
    ratio (wrap (p.num / gcdNumer * (q.den / gcdDenom))) (wrap (p.den / gcdDenom * (q.num / gcdNumer)))

-- The integers of 64 bits.
def Fits (n : ℤ) : Prop :=
  -2 ^ 63 ≤ n ∧ n < 2 ^ 63

-- The numerator of a fraction over a multiple of its denominator.
def numerOver (p : ℚ) (denom : ℕ) : ℤ :=
  p.num * (denom / p.den)

-- All that is computed for a sum or a difference fits.
structure Combinable (f : ℤ → ℤ → ℤ) (p q : ℚ) : Prop where
  denom : Fits (Nat.lcm p.den q.den)
  left  : Fits (numerOver p (Nat.lcm p.den q.den))
  right : Fits (numerOver q (Nat.lcm p.den q.den))
  numer : Fits (f (numerOver p (Nat.lcm p.den q.den)) (numerOver q (Nat.lcm p.den q.den)))

structure Scalable (p : ℚ) (n : ℤ) : Prop where
  denom : Fits p.den
  numer : Fits (p.num * (n / Int.gcd p.den n))

variable {f : ℤ → ℤ → ℤ} {n : ℤ} {a b : ℕ} {p q : ℚ}

theorem wrap_of_fits (h : Fits n) : wrap n = n := by
  simp only [Fits] at h
  exact Int.bmod_eq_of_le_mul_two (by omega) (by omega)

theorem Fits.of_le (h : Fits b) (hle : a ≤ b) : Fits a := by
  simp only [Fits] at h ⊢
  omega

theorem mul_div_gcd (a b : ℕ) (hg : Fits (Nat.gcd a b)) : (a : ℤ) * (b / gcd a b) = Nat.lcm a b := by
  rw [gcd, Int.gcd_natCast_natCast, wrap_of_fits hg, Nat.lcm_eq_mul_div, Nat.mul_div_assoc a (Nat.gcd_dvd_right a b)]
  norm_cast

theorem lcm_of_fits (h : Fits (Nat.lcm a b)) (ha : 0 < a) (hb : 0 < b) : lcm a b = Nat.lcm a b := by
  have hg : Nat.gcd a b ≤ Nat.lcm a b :=
    (Nat.gcd_le_left b ha).trans (Nat.le_of_dvd (Nat.lcm_pos ha hb) (Nat.dvd_lcm_left a b))
  rw [lcm, mul_div_gcd a b (h.of_le hg), wrap_of_fits h, Nat.abs_cast]

-- A common denominator never wraps around to zero: it has no more factors of two than one of the two.
theorem lcm_pos (ha : 0 < a) (hb : 0 < b) (hfa : Fits a) (hfb : Fits b) : 0 < lcm a b := by
  rw [lcm, mul_div_gcd a b (hfa.of_le (Nat.gcd_le_left b ha)), abs_pos, wrap, ne_eq, ← Int.dvd_iff_bmod_eq_zero]
  intro hd
  have hd : 2 ^ 64 ∣ Nat.lcm a b := by exact_mod_cast hd
  rw [Nat.prime_two.pow_dvd_iff_le_factorization (Nat.lcm_pos ha hb).ne', Nat.factorization_lcm ha.ne' hb.ne',
    Finsupp.sup_apply, le_sup_iff, ← Nat.prime_two.pow_dvd_iff_le_factorization ha.ne',
    ← Nat.prime_two.pow_dvd_iff_le_factorization hb.ne'] at hd
  simp only [Fits] at hfa hfb
  cases hd
  case inl hd =>
    have := Nat.le_of_dvd ha hd
    omega
  case inr hd =>
    have := Nat.le_of_dvd hb hd
    omega

theorem numerOver_div (h : p.den ∣ b) (hb : 0 < b) : (numerOver p b : ℚ) / b = p := by
  obtain ⟨k, rfl⟩ := h
  have hp : (p.den : ℤ) ≠ 0 := by exact_mod_cast p.den_ne_zero
  have hk : (k : ℚ) ≠ 0 := by exact_mod_cast (Nat.pos_of_mul_pos_left hb).ne'
  rw [numerOver, Nat.cast_mul, Int.mul_ediv_cancel_left _ hp]
  push_cast
  rw [mul_div_mul_right _ _ hk, Rat.num_div_den]

theorem combine_of_combinable (h : Combinable f p q) : combine f p q =
    (f (numerOver p (Nat.lcm p.den q.den)) (numerOver q (Nat.lcm p.den q.den)) : ℚ) / Nat.lcm p.den q.den := by
  rw [combine]
  split
  case isTrue he =>
    have hn := h.numer
    have hq : (q.den : ℤ) ≠ 0 := by exact_mod_cast q.den_ne_zero
    simp only [numerOver, he, Nat.lcm_self, Int.ediv_self hq, mul_one] at hn ⊢
    rw [wrap_of_fits hn]
  case isFalse =>
    simp only [lcm_of_fits h.denom p.den_pos q.den_pos]
    rw [← numerOver, ← numerOver, wrap_of_fits h.left, wrap_of_fits h.right, wrap_of_fits h.numer, Int.cast_natCast]

-- What fits is exact.
theorem add_of_combinable (h : Combinable (· + ·) p q) : i64.add p q = p + q := by
  have hl := Nat.lcm_pos p.den_pos q.den_pos
  have he : i64.add p q = combine (· + ·) p q := rfl
  rw [he, combine_of_combinable h, Int.cast_add, add_div, numerOver_div (Nat.dvd_lcm_left ..) hl,
    numerOver_div (Nat.dvd_lcm_right ..) hl]

theorem sub_of_combinable (h : Combinable (· - ·) p q) : i64.sub p q = p - q := by
  have hl := Nat.lcm_pos p.den_pos q.den_pos
  have he : i64.sub p q = combine (· - ·) p q := rfl
  rw [he, combine_of_combinable h, Int.cast_sub, sub_div, numerOver_div (Nat.dvd_lcm_left ..) hl,
    numerOver_div (Nat.dvd_lcm_right ..) hl]

theorem mul_of_scalable (h : Scalable p n) : i64.mul p n = p * n := by
  have hpos : 0 < Int.gcd p.den n := Int.gcd_pos_of_ne_zero_left n (by exact_mod_cast p.den_ne_zero)
  have hg : gcd p.den n = Int.gcd p.den n :=
    wrap_of_fits (h.denom.of_le (Nat.le_of_dvd p.den_pos (Int.gcd_dvd_natAbs_left ..)))
  have hn := h.numer
  have ⟨d, hd⟩ := Int.gcd_dvd_natAbs_left (p.den : ℤ) n
  have ⟨m, hm⟩ := Int.gcd_dvd_right (p.den : ℤ) n
  rw [Int.natAbs_natCast] at hd
  generalize Int.gcd p.den n = g at hpos hg hd hm hn
  have hz : (g : ℤ) ≠ 0 := by exact_mod_cast hpos.ne'
  have hden : (p.den : ℤ) / g = d := by rw [hd, Nat.cast_mul, Int.mul_ediv_cancel_left _ hz]
  have hnum : n / g = m := by rw [hm, Int.mul_ediv_cancel_left _ hz]
  have hfd : Fits d := h.denom.of_le (hd ▸ Nat.le_mul_of_pos_left d hpos)
  calc
    i64.mul p n = wrap (p.num * (n / g)) / wrap (p.den / g) := by simp only [i64, hg]
    _ = (p.num * m : ℤ) / (d : ℤ)                           := by
      rw [hnum] at hn
      rw [hnum, hden, wrap_of_fits hn, wrap_of_fits hfd]
    _ = p.num / p.den * n                                   := by
      have hz : (g : ℚ) ≠ 0 := by exact_mod_cast hpos.ne'
      have hd' : (p.den : ℚ) = g * d := by exact_mod_cast hd
      rw [hd', hm]
      push_cast
      field_simp
    _ = p * n                                               := by rw [Rat.num_div_den]

end Rationals
