import Mathlib.Analysis.SpecialFunctions.Pow.Real

-- What floats can do.
class Arithmetic (τ : Type) extends Add τ, Sub τ, Mul τ, Div τ, Pow τ τ, LT τ, OfScientific τ where
  ofNat : ℕ → τ
  ofInt : ℤ → τ
  sqrt  : τ → τ
  decLt : ∀ a b : τ, Decidable (a < b)

namespace Arithmetic

scoped instance {τ : Type} {n : ℕ} [Arithmetic τ] : OfNat τ n :=
  ⟨ofNat n⟩

scoped instance {τ : Type} {a b : τ} [Arithmetic τ] : Decidable (a < b) :=
  decLt a b

end Arithmetic

instance : Arithmetic Float where
  ofNat     := Float.ofNat
  ofInt     := Float.ofInt
  sqrt      := Float.sqrt
  decLt _ _ := inferInstance

-- The results of exact arithmetic with guarded divisions. Whatever depends on an undefined one is not defined either,
-- and compares as false.
inductive ExtendedReal
  | finite (x : ℝ)
  | infinite (negative : Bool)
  | undefined

namespace ExtendedReal

open Arithmetic

open Classical in
noncomputable instance : Arithmetic ExtendedReal where
  ofNat n           := finite n
  ofInt n           := finite n
  ofScientific m s e := finite (OfScientific.ofScientific m s e)
  add
    | finite x, finite y     => finite (x + y)
    | infinite s, finite _   => infinite s
    | finite _, infinite t   => infinite t
    | infinite s, infinite t => if s = t then infinite s else undefined
    | _, _                   => undefined
  sub
    | finite x, finite y     => finite (x - y)
    | infinite s, finite _   => infinite s
    | finite _, infinite t   => infinite !t
    | infinite s, infinite t => if s = t then undefined else infinite s
    | _, _                   => undefined
  mul
    | finite x, finite y     => finite (x * y)
    | infinite s, finite x   => if x = 0 then undefined else infinite (s ^^ decide (x < 0))
    | finite x, infinite s   => if x = 0 then undefined else infinite (s ^^ decide (x < 0))
    | infinite s, infinite t => infinite (s ^^ t)
    | _, _                   => undefined
  div
    | finite x, finite y     =>
      if y ≠ 0 then finite (x / y) else if x = 0 then undefined else infinite (decide (x < 0))
    | infinite s, finite y   => infinite (s ^^ decide (y < 0))
    | finite _, infinite _   => finite 0
    | _, _                   => undefined
  pow
    | finite x, finite y     => if 0 ≤ x then finite (x ^ y) else undefined
    | _, _                   => undefined
  sqrt
    | finite x               => if 0 ≤ x then finite √x else undefined
    | infinite false         => infinite false
    | _                      => undefined
  lt
    | finite x, finite y     => x < y
    | finite _, infinite t   => t = false
    | infinite s, finite _   => s = true
    | infinite s, infinite t => s = true ∧ t = false
    | _, _                   => False
  decLt _ _                  := Classical.propDecidable _

variable {x y : ℝ}

theorem literal_eq (n : ℕ) [n.AtLeastTwo] : (OfNat.ofNat n : ExtendedReal) = finite (OfNat.ofNat n) :=
  congrArg finite Nat.cast_ofNat

theorem zero_eq : (0 : ExtendedReal) = finite 0 :=
  congrArg finite Nat.cast_zero

theorem one_eq : (1 : ExtendedReal) = finite 1 :=
  congrArg finite Nat.cast_one

theorem finite_add : finite x + finite y = finite (x + y) :=
  rfl

theorem finite_sub : finite x - finite y = finite (x - y) :=
  rfl

theorem finite_mul : finite x * finite y = finite (x * y) :=
  rfl

theorem finite_lt : finite x < finite y ↔ x < y :=
  Iff.rfl

theorem finite_div (h : y ≠ 0) : finite x / finite y = finite (x / y) :=
  if_pos h

theorem zero_div_zero : finite 0 / finite 0 = undefined := by
  change (if (0 : ℝ) ≠ 0 then _ else if (0 : ℝ) = 0 then undefined else _) = undefined
  simp

theorem finite_div_zero (h : 0 < x) : finite x / finite 0 = infinite false := by
  change (if (0 : ℝ) ≠ 0 then _ else if x = 0 then undefined else infinite (decide (x < 0))) = infinite false
  simp [h.ne', h.le]

theorem finite_pow (h : 0 ≤ x) : finite x ^ finite y = finite (x ^ y) :=
  if_pos h

theorem sqrt_finite (h : 0 ≤ x) : Arithmetic.sqrt (finite x) = finite √x :=
  if_pos h

theorem finite_lt_infinite : finite x < infinite false :=
  rfl

theorem undefined_add : undefined + finite y = undefined :=
  rfl

theorem undefined_mul : undefined * finite y = undefined :=
  rfl

theorem not_lt_undefined (a : ExtendedReal) : ¬a < undefined := by
  cases a <;> exact id

end ExtendedReal
