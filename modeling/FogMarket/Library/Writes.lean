import Mathlib.Data.List.Basic
import Mathlib.Logic.Function.Basic

-- Tables which are written to, one entry after the other.
namespace Writes

variable {κ ν σ β : Type*} [DecidableEq κ]

def write (table : κ → Option ν) (w : κ × ν) : κ → Option ν :=
  Function.update table w.1 (some w.2)

def after (table : κ → Option ν) (ws : List (κ × ν)) : κ → Option ν :=
  ws.foldl write table

variable {table : κ → Option ν} {w : κ × ν} {ws ws' : List (κ × ν)} {k : κ} {v : ν}

theorem after_append : after table (ws ++ ws') = after (after table ws) ws' :=
  List.foldl_append

theorem after_of_ne (h : ∀ w ∈ ws, w.1 ≠ k) : after table ws k = table k := by
  induction ws generalizing table
  case nil => rfl
  case cons w ws hi =>
    obtain ⟨hw, h⟩ := List.forall_mem_cons.mp h
    rw [after, List.foldl_cons]
    exact (hi h).trans (Function.update_of_ne hw.symm ..)

-- It does not matter how often the same value is written.
theorem after_eq (hm : ∃ w ∈ ws, w.1 = k) (h : ∀ w ∈ ws, w.1 = k → w.2 = v) : after table ws k = some v := by
  induction ws generalizing table
  case nil => simp at hm
  case cons w ws hi =>
    obtain ⟨hw, h⟩ := List.forall_mem_cons.mp h
    rw [after, List.foldl_cons]
    by_cases hm' : ∃ w ∈ ws, w.1 = k
    case pos => exact hi hm' h
    case neg =>
      have hk : w.1 = k := by
        obtain ⟨x, hx, hk⟩ := hm
        cases List.mem_cons.mp hx
        case inl hx => exact hx ▸ hk
        case inr hx => exact absurd ⟨x, hx, hk⟩ hm'
      have hne : ∀ w ∈ ws, w.1 ≠ k := fun x hx hk => hm' ⟨x, hx, hk⟩
      refine (after_of_ne hne).trans ?_
      rw [write, hk, Function.update_self, hw hk]

-- A loop writes what its steps write.
theorem exists_foldlM {R : σ → (κ → Option ν) → Prop} {step : σ → β → Option σ} {writes : β → List (κ × ν)}
    {bs : List β} {s : σ} (h : R s table)
    (hstep : ∀ b ∈ bs, ∀ s table, R s table → ∃ s', step s b = some s' ∧ R s' (after table (writes b))) :
    ∃ s', bs.foldlM step s = some s' ∧ R s' (after table (bs.flatMap writes)) := by
  induction bs generalizing s table
  case nil => exact ⟨s, rfl, h⟩
  case cons b bs hi =>
    obtain ⟨hb, hbs⟩ := List.forall_mem_cons.mp hstep
    obtain ⟨s₁, hs₁, h₁⟩ := hb s table h
    obtain ⟨s₂, hs₂, h₂⟩ := hi h₁ hbs
    refine ⟨s₂, ?_, by rwa [List.flatMap_cons, after_append]⟩
    rw [List.foldlM_cons, hs₁]
    exact hs₂

end Writes
