import Mathlib.Algebra.Field.Basic
import Mathlib.Data.List.Sort
import Mathlib.Tactic.Ring

-- An ordered list has as many values below its middle as above. If there are two in the middle, it is their mean.
inductive Middle {α : Type _} [Add α] [Div α] [OfNat α 2] : List α → α → Prop
  | odd  {below m above} : below.length = above.length → Middle (below ++ m :: above) m
  | even {below a b above} : below.length = above.length → Middle (below ++ a :: b :: above) ((a + b) / 2)

namespace Middle

-- The halves of a list, whose middle element, if there is one, is in neither.
def lowerHalf {α : Type _} (l : List α) : List α :=
  l.take (l.length / 2)

def upperHalf {α : Type _} (l : List α) : List α :=
  l.drop ((l.length + 1) / 2)

variable {α : Type _} {l : List α} {i k : Nat} {m a b : α}

theorem split_at (h : l[i]? = some m) : l = l.take i ++ m :: l.drop (i + 1) := by
  have ⟨hi, he⟩ := List.getElem?_eq_some_iff.mp h
  rw [← he, List.getElem_cons_drop, List.take_append_drop]

theorem getElem?_lowerHalf (h : i < l.length / 2) : (lowerHalf l)[i]? = l[i]? :=
  List.getElem?_take_of_lt h

theorem getElem?_upperHalf : (upperHalf l)[i]? = l[(l.length + 1) / 2 + i]? :=
  List.getElem?_drop

theorem length_lowerHalf : (lowerHalf l).length = l.length / 2 := by
  simp [lowerHalf]
  omega

theorem length_upperHalf : (upperHalf l).length = l.length / 2 := by
  simp [upperHalf]
  omega

theorem lowerHalf_map_reverse (f : α → α) : lowerHalf (l.map f).reverse = ((upperHalf l).map f).reverse := by
  have : l.length - l.length / 2 = (l.length + 1) / 2 := by omega
  simp [lowerHalf, upperHalf, List.take_reverse, this]

variable [Add α] [Div α] [OfNat α 2]

theorem of_odd (hl : l.length = 2 * k + 1) (h : l[k]? = some m) : Middle l m := by
  rw [split_at h]
  apply Middle.odd
  simp
  omega

theorem of_even (hl : l.length = 2 * k + 2) (ha : l[k]? = some a) (hb : l[k + 1]? = some b) :
    Middle l ((a + b) / 2) := by
  have hd : (l.drop (k + 1))[0]? = some b := by rwa [List.getElem?_drop]
  rw [split_at ha, split_at hd]
  simp only [List.take_zero, List.nil_append, List.drop_drop]
  apply Middle.even
  simp
  omega

-- The indices at which the middle is found.
theorem index (h : Middle l m) :
    (∃ k, l.length = 2 * k + 1 ∧ l[k]? = some m) ∨
    (∃ k a b, l.length = 2 * k + 2 ∧ l[k]? = some a ∧ l[k + 1]? = some b ∧ m = (a + b) / 2) := by
  cases h
  case odd below above h =>
    refine .inl ⟨below.length, ?_, by simp⟩
    simp
    omega
  case even below a b above h =>
    refine .inr ⟨below.length, a, b, ?_, by simp, by simp, rfl⟩
    simp
    omega

theorem unique {m' : α} (h : Middle l m) (h' : Middle l m') : m = m' := by
  have := h.index
  have := h'.index
  grind

theorem exists_middle (h : 0 < l.length) : ∃ m, Middle l m := by
  obtain ⟨k, hk | hk⟩ : ∃ k, l.length = 2 * k + 1 ∨ l.length = 2 * k + 2 := ⟨(l.length - 1) / 2, by omega⟩
  case inl => exact ⟨_, of_odd hk (List.getElem?_eq_getElem (by omega))⟩
  case inr => exact ⟨_, of_even hk (List.getElem?_eq_getElem (by omega)) (List.getElem?_eq_getElem (by omega))⟩

end Middle

-- Seen from above and below, the middle is the same.
theorem Middle.neg_reverse {α : Type _} [Field α] {l : List α} {m : α} (h : Middle l m) :
    Middle (l.map (-·)).reverse (-m) := by
  cases h
  case odd below above h =>
    simp only [List.map_append, List.map_cons, List.reverse_append, List.reverse_cons, List.append_assoc,
      List.singleton_append]
    apply Middle.odd
    simp [h]
  case even below a b above h =>
    have hm : -((a + b) / 2) = (-b + -a) / 2 := by ring
    rw [hm]
    simp only [List.map_append, List.map_cons, List.reverse_append, List.reverse_cons, List.append_assoc,
      List.singleton_append]
    apply Middle.even
    simp [h]
