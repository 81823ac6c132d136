import FogMarket.Library.Decimal
import FogMarket.Objects.Sla

namespace Quantity

inductive Error
  | quantityParsing (quantity : String)
  | failedConversion (quantity target : String)
deriving DecidableEq

-- What is used of the third-party libraries: the classes of characters in `regex`, decimal numbers as floats of type
-- `φ` and their conversion by `num_rational`, and the quantities of `uom`, written as a number, a space, and a unit.
-- They are in bits per second and in bytes.
structure Libraries (φ : Type) where
  isWord          : Char → Bool
  isSpace         : Char → Bool
  parseFloat      : String → Option φ
  fromFloat       : φ → Option ℚ
  informationRate : String → Option InformationRate
  information     : String → Option Information

variable {φ : Type} (lib : Libraries φ)

-- `[0-9\.eE\-+]`
def inMeasure (c : Char) : Bool :=
  c.isDigit || ['.', 'e', 'E', '-', '+'].contains c

-- `\w+`
def isUnit (unit : List Char) : Bool :=
  unit ≠ [] && unit.all lib.isWord

-- `\w+/\w+`
def isRateUnit (unit : List Char) : Bool :=
  match unit.dropWhile lib.isWord with
  | '/' :: duration => unit.takeWhile lib.isWord ≠ [] && isUnit lib duration
  | _               => false

-- The captures of `^([0-9\.eE\-+]+)\s*(unit)$`: the first one is as long as possible.
def captures (isUnit : List Char → Bool) (quantity : List Char) : Option (List Char × List Char) :=
  (List.range (quantity.takeWhile inMeasure).length).reverse.findSome? fun i =>
    let unit := (quantity.drop (i + 1)).dropWhile lib.isSpace
    if isUnit unit then some (quantity.take (i + 1), unit) else none

-- How `num_rational` displays a ratio.
def displayRatio (q : ℚ) : String :=
  if q.den = 1 then toString q.num else toString q.num ++ "/" ++ toString q.den

def parse (isUnit : List Char → Bool) (uom : String → Option ℚ) (quantity : String) : Except Error ℚ :=
  match captures lib isUnit quantity.toList with
  | none => .error (.quantityParsing quantity)
  | some (measure, unit) =>
    match lib.parseFloat (String.ofList measure) with
    | none       => .error (.quantityParsing quantity)
    | some float =>
      match lib.fromFloat float with
      | none         => .error (.failedConversion quantity "rational number")
      | some measure =>
        match uom (displayRatio measure ++ " " ++ String.ofList unit) with
        | none          => .error (.quantityParsing quantity)
        | some quantity => .ok quantity

namespace Information

def parseQuantity (quantity : String) : Except Error Information :=
  parse lib (isUnit lib) lib.information quantity

end Information

namespace InformationRate

def parseQuantity (quantity : String) : Except Error InformationRate :=
  parse lib (isRateUnit lib) lib.informationRate quantity

-- The denominator is not written.
def serializeQuantity (value : InformationRate) : String :=
  toString value.num ++ " b/s"

end InformationRate

-- What `regex` documents of some characters.
structure Lawful : Prop where
  word  : ∀ c : Char, c.isAlphanum = true → lib.isWord c = true
  slash : lib.isWord '/' = false
  blank : lib.isSpace ' ' = true
  ink   : ∀ c : Char, c.isAlphanum = true → lib.isSpace c = false

-- The conversions of the numerator of `r` are exact.
structure Exact (r : InformationRate) : Prop where
  decimal : (lib.parseFloat (toString r.num)).bind lib.fromFloat = some (r.num : ℚ)
  unit    : lib.informationRate (toString r.num ++ " b/s") = some (r.num : ℚ)

variable {lib} {isUnit : List Char → Bool} {measure unit : List Char} {r : ℚ}

-- A number, a space and a unit are told apart.
theorem captures_eq (lawful : Lawful lib) (hm : measure ≠ []) (hd : ∀ c ∈ measure, inMeasure c = true)
    (hs : (unit.dropWhile lib.isSpace) = unit) (hu : isUnit unit = true) :
    captures lib isUnit (measure ++ ' ' :: unit) = some (measure, unit) := by
  have ht : (measure ++ ' ' :: unit).takeWhile inMeasure = measure := by
    rw [List.takeWhile_append_of_pos hd, List.takeWhile_cons_of_neg (by decide), List.append_nil]
  obtain ⟨n, hn⟩ : ∃ n, measure.length = n + 1 :=
    Nat.exists_eq_succ_of_ne_zero (mt List.length_eq_zero_iff.mp hm)
  have hdrop : (measure ++ ' ' :: unit).drop (n + 1) = ' ' :: unit := by rw [← hn, List.drop_left]
  have htake : (measure ++ ' ' :: unit).take (n + 1) = measure := by rw [← hn, List.take_left]
  rw [captures, ht, hn, List.range_succ, List.reverse_append, List.reverse_singleton, List.singleton_append,
    List.findSome?_cons, hdrop, htake]
  simp [lawful.blank, hs, hu]

theorem displayRatio_of_den (h : r.den = 1) : displayRatio r = toString r.num :=
  if_pos h

theorem toList_toString_num (h : 0 ≤ r) : (toString r.num).toList = Nat.toDigits 10 r.num.natAbs := by
  have hn : r.num = (r.num.natAbs : ℤ) := (Int.natAbs_of_nonneg (Rat.num_nonneg.mpr h)).symm
  rw [hn]
  exact Nat.toList_repr

namespace InformationRate

-- What has been written is read as the numerator.
theorem parseQuantity_serializeQuantity (lawful : Lawful lib) (hr : 0 ≤ r) (exact : Exact lib r) :
    parseQuantity lib (serializeQuantity r) = .ok (r.num : ℚ) := by
  have hl : (serializeQuantity r).toList = Nat.toDigits 10 r.num.natAbs ++ ' ' :: ['b', '/', 's'] := by
    rw [serializeQuantity, String.toList_append, toList_toString_num hr]
    rfl
  have hc : captures lib (isRateUnit lib) (serializeQuantity r).toList =
      some (Nat.toDigits 10 r.num.natAbs, ['b', '/', 's']) := by
    rw [hl]
    apply captures_eq lawful Nat.toDigits_ne_nil
    case hd => exact Decimal.all_toDigits fun c hc => by simp [inMeasure, hc]
    case hs => simp [lawful.ink]
    case hu => simp [isRateUnit, Quantity.isUnit, lawful.word, lawful.slash]
  have hs : String.ofList (Nat.toDigits 10 r.num.natAbs) = toString r.num := by
    rw [← toList_toString_num hr, String.ofList_toList]
  have ⟨float, hf, hq⟩ := Option.bind_eq_some_iff.mp exact.decimal
  have hd : displayRatio (r.num : ℚ) ++ " " ++ String.ofList ['b', '/', 's'] = toString r.num ++ " b/s" := by
    rw [displayRatio_of_den (Rat.den_intCast _), Rat.num_intCast, String.append_assoc]
    rfl
  simp only [parseQuantity, parse, hc, hs, hf, hq, hd, exact.unit]

-- A rate survives if it is a whole number of bits per second.
theorem parseQuantity_serializeQuantity_iff (lawful : Lawful lib) (hr : 0 ≤ r) (exact : Exact lib r) :
    parseQuantity lib (serializeQuantity r) = .ok r ↔ r.den = 1 := by
  rw [parseQuantity_serializeQuantity lawful hr exact, Except.ok.injEq]
  exact Rat.den_eq_one_iff r |>.symm

end InformationRate

section Exactly

-- The quotient of two numbers, or a number.
def readRatio (ratio : List Char) : Option ℚ :=
  match ratio.dropWhile (· != '/') with
  | []               => Decimal.value ratio
  | _ :: denominator => do
    let n ← Decimal.value (ratio.takeWhile (· != '/'))
    let d ← Decimal.value denominator
    some (n / d)

def readUnit (units : List (String × ℚ)) (quantity : String) : Option ℚ := do
  let coefficient ← units.lookup (String.ofList (quantity.toList.dropWhile (· != ' ')).tail)
  let number ← readRatio (quantity.toList.takeWhile (· != ' '))
  some (number * coefficient)

-- Libraries which convert without rounding, and know some of the units.
def Libraries.exactly : Libraries ℚ where
  isWord c        := c.isAlphanum || c = '_'
  isSpace         := Char.isWhitespace
  parseFloat s    := Decimal.value s.toList
  fromFloat       := some
  informationRate := readUnit [("b/s", 1), ("kb/s", 1000), ("kB/s", 8000)]
  information     := readUnit [("kilobytes", 1000), ("KiB", 1024), ("MB", 1000000), ("GB", 1000000000)]

theorem Lawful.exactly : Lawful .exactly where
  word c h  := by simp [Libraries.exactly, h]
  slash     := by decide
  blank     := by decide
  ink c h   := by
    by_contra hs
    simp only [Libraries.exactly, Char.isWhitespace, Bool.not_eq_false, Bool.or_eq_true, decide_eq_true_eq] at hs
    rcases hs with ((rfl | rfl) | rfl) | rfl <;> contradiction

namespace InformationRate

theorem parseQuantity_serializeQuantity_whole :
    parseQuantity .exactly (serializeQuantity 7680000) = .ok 7680000 ↔ (7680000 : ℚ).den = 1 :=
  parseQuantity_serializeQuantity_iff .exactly (by decide +kernel) ⟨by decide +kernel, by decide +kernel⟩

theorem parseQuantity_serializeQuantity_slip :
    parseQuantity .exactly "0.5 b/s" = .ok (1 / 2) ∧
      parseQuantity .exactly (serializeQuantity (1 / 2)) = .ok 1 := by
  refine ⟨by decide +kernel, by decide +kernel⟩

end InformationRate

end Exactly

end Quantity
