import Mathlib.Data.List.DropRight
import Mathlib.Data.List.Rotate

-- A ring of `size` places holds the last values of a history. As long as it is not filled it is that history,
-- afterwards its oldest value is the one at the cursor.
structure Window {α : Type _} (size : Nat) (ring : List α) (cursor : Nat) (history : List α) : Prop where
  cursor_lt : cursor < size
  filling   : history.length < size → ring = history
  turned    : size ≤ history.length → ring.rotate cursor = history.rtake size

namespace Window

variable {α : Type _} {size cursor cursor' : Nat} {ring history : List α} {v : α}

theorem rtake_of_length_le (h : history.length ≤ size) : history.rtake size = history := by
  simp [List.rtake, Nat.sub_eq_zero_of_le h]

theorem length_rtake : (history.rtake size).length = min size history.length := by
  simp [List.rtake]
  omega

theorem empty (h : 0 < size) : Window size ([] : List α) 0 [] where
  cursor_lt   := h
  filling _   := rfl
  turned hs   := absurd h (by simpa using hs)

theorem perm (w : Window size ring cursor history) : ring.Perm (history.rtake size) := by
  by_cases h : history.length < size
  case pos =>
    rw [w.filling h, rtake_of_length_le h.le]
  case neg =>
    rw [← w.turned (not_lt.mp h)]
    exact (List.rotate_perm ring cursor).symm

theorem length_eq (w : Window size ring cursor history) : ring.length = min size history.length :=
  w.perm.length_eq.trans length_rtake

theorem history_lt (w : Window size ring cursor history) (h : ring.length < size) : history.length < size := by
  have := w.length_eq
  omega

theorem le_history (w : Window size ring cursor history) (h : ring.length = size) : size ≤ history.length := by
  have := w.length_eq
  omega

-- While there is room, the cursor is only of interest once the last place has been taken.
theorem push (w : Window size ring cursor history) (h : ring.length < size) (hc : cursor' < size)
    (hl : ring.length + 1 = size → cursor' = 0) : Window size (ring ++ [v]) cursor' (history ++ [v]) where
  cursor_lt := hc
  filling _ := by rw [w.filling (w.history_lt h)]
  turned hs := by
    have hr := w.filling (w.history_lt h)
    have he : ring.length + 1 = size := by
      simp [← hr] at hs
      omega
    rw [hl he, ← hr, List.rotate_zero]
    exact (rtake_of_length_le (by simpa using he.le)).symm

-- Reading from behind the place just written, the ring has lost its oldest value and ends with the new one.
theorem rotate_set (h : cursor < ring.length) :
    (ring.set cursor v).rotate (cursor + 1) = (ring.rotate cursor).tail ++ [v] := by
  have hs := List.set_eq_take_append_cons_drop (l := ring) (i := cursor) (a := v)
  rw [if_pos h] at hs
  have hl : (ring.set cursor v).length = ring.length := by simp
  rw [List.rotate_eq_drop_append_take (by omega), List.rotate_eq_drop_append_take h.le, hs]
  have ht : (ring.take cursor).length = cursor := by simp [h.le]
  have hd : ring.drop cursor ≠ [] := by simpa using h
  rw [List.drop_append, List.take_append, List.tail_append_of_ne_nil hd]
  simp [ht, List.drop_eq_nil_of_le, List.take_of_length_le]

theorem overwrite (w : Window size ring cursor history) (h : ring.length = size) :
    Window size (ring.set cursor v) ((cursor + 1) % size) (history ++ [v]) where
  cursor_lt := Nat.mod_lt _ (Nat.zero_lt_of_lt w.cursor_lt)
  filling hf := by
    have := w.le_history h
    simp at hf
    omega
  turned _ := by
    have hl : (ring.set cursor v).length = size := by simpa using h
    have hr := w.turned (w.le_history h)
    rw [← hl, List.rotate_mod, rotate_set (h ▸ w.cursor_lt), hr, hl]
    obtain _ | n := size
    case zero => exact absurd w.cursor_lt (Nat.not_lt_zero _)
    case succ =>
      rw [List.rtake_concat_succ, List.rtake, List.tail_drop, List.rtake]
      have := w.le_history h
      congr 2
      omega

-- The value about to be overwritten is the oldest of those in the window.
theorem oldest (w : Window size ring cursor history) (h : ring.length = size) :
    ∃ old, ring[cursor]? = some old ∧ history.rtake size = old :: history.rtake (size - 1) := by
  have hc : cursor < ring.length := h ▸ w.cursor_lt
  have hle := w.le_history h
  have hs : 0 < size := Nat.zero_lt_of_lt w.cursor_lt
  refine ⟨ring[cursor], List.getElem?_eq_getElem hc, ?_⟩
  have hh : (history.rtake size).head? = some ring[cursor] := by
    rw [← w.turned hle, List.head?_rotate hc, List.getElem?_eq_getElem hc]
  have ht : (history.rtake size).tail = history.rtake (size - 1) := by
    rw [List.rtake, List.tail_drop, List.rtake]
    congr 1
    omega
  rw [← ht]
  exact (List.cons_head?_tail hh).symm

theorem rtake_concat (hs : 0 < size) : (history ++ [v]).rtake size = history.rtake (size - 1) ++ [v] := by
  obtain _ | n := size
  case zero => exact absurd hs (lt_irrefl 0)
  case succ => exact List.rtake_concat_succ history n v

end Window
