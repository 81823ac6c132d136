import Mathlib.Init

variable {σ α β : Type}

-- A program with a state does not fail, and its result and the state after it are as stated.
def Returns (m : StateT σ Option α) (s : σ) (P : α → σ → Prop) : Prop :=
  ∃ a s', m s = some (a, s') ∧ P a s'

namespace Returns

variable {m : StateT σ Option α} {f : α → StateT σ Option β} {s s' : σ} {a : α} {P P' : α → σ → Prop}
variable {Q : β → σ → Prop}

theorem pure (h : P a s) : Returns (pure a) s P :=
  ⟨a, s, rfl, h⟩

theorem mono (h : Returns m s P) (hp : ∀ a s', P a s' → P' a s') : Returns m s P' := by
  obtain ⟨a, s', hm, h⟩ := h
  exact ⟨a, s', hm, hp a s' h⟩

theorem bind (h : Returns m s P) (hf : ∀ a s', P a s' → Returns (f a) s' Q) : Returns (m >>= f) s Q := by
  obtain ⟨a, s', hm, h⟩ := h
  obtain ⟨b, s'', hb, h⟩ := hf a s' h
  exact ⟨b, s'', by simp [StateT.bind, Bind.bind, hm, hb], h⟩

theorem lift {o : Option α} (ho : o = some a) (h : P a s) : Returns (liftM o) s P := by
  subst ho
  exact ⟨a, s, rfl, h⟩

theorem of_some (h : Returns m s P) (hm : m s = some (a, s')) : P a s' := by
  obtain ⟨b, s'', hb, h⟩ := h
  cases hb.symm.trans hm
  exact h

-- A program fails if its rest fails.
theorem fails (h : ∀ a s', m s = some (a, s') → f a s' = none) : (m >>= f) s = none := by
  cases hm : m s
  case none => simp [StateT.bind, Bind.bind, hm]
  case some r =>
    obtain ⟨a, s'⟩ := r
    simp [StateT.bind, Bind.bind, hm, h a s' hm]

end Returns
