import Mathlib.Data.List.Defs

namespace Except

universe u

variable {ε : Type*} {α β σ : Type u}

theorem bind_eq_ok_iff {x : Except ε α} {f : α → Except ε β} {b : β} :
    x >>= f = .ok b ↔ ∃ a, x = .ok a ∧ f a = .ok b := by
  cases x
  case error e => simp [bind, Except.bind]
  case ok a =>
    constructor
    case mp => exact fun h => ⟨a, rfl, h⟩
    case mpr =>
      intro ⟨a', ha, h⟩
      cases ha
      exact h

theorem elim_eq_ok_iff {o : Option α} {e : ε} {a : α} :
    o.elim (.error e : Except ε α) .ok = .ok a ↔ o = some a := by
  cases o
  case none => simp
  case some a' => simp

-- What each step of a loop preserves holds when the loop ends.
theorem foldlM_invariant {I : σ → Prop} {step : σ → β → Except ε σ} {l : List β} {s s' : σ} (hs : I s)
    (hI : ∀ a ∈ l, ∀ s s', I s → step s a = .ok s' → I s') (h : l.foldlM step s = .ok s') : I s' := by
  induction l generalizing s
  case nil =>
    cases h
    exact hs
  case cons a l hi =>
    rw [List.foldlM_cons, bind_eq_ok_iff] at h
    have ⟨s₁, h₁, h₂⟩ := h
    exact hi (hI a (.head _) s s₁ hs h₁) (fun a ha => hI a (.tail _ ha)) h₂

-- A computation which fails with an error whenever another one has no result.
inductive Refines (error : ε) (R : α → β → Prop) : Option α → Except ε β → Prop
  | none                             : Refines error R none (.error error)
  | some {a : α} {b : β} (h : R a b) : Refines error R (some a) (.ok b)

namespace Refines

variable {error : ε} {R : α → β → Prop} {x : Option α} {y : Except ε β}

theorem eq_error (h : Refines error R Option.none y) : y = .error error := by
  cases h
  rfl

theorem exists_of_some {a : α} (h : Refines error R (Option.some a) y) : ∃ b, y = .ok b ∧ R a b := by
  cases h
  case some b h => exact ⟨b, rfl, h⟩

theorem of_eq (h : Refines error R x y) : Refines error (fun a b => R a b ∧ x = Option.some a) x y := by
  cases h
  case none => exact .none
  case some h => exact .some ⟨h, rfl⟩

theorem bind {γ δ : Type u} {S : γ → δ → Prop} {f : α → Option γ} {g : β → Except ε δ} (h : Refines error R x y)
    (hf : ∀ a b, R a b → Refines error S (f a) (g b)) : Refines error S (x >>= f) (y >>= g) := by
  cases h
  case none => exact .none
  case some a b h => exact hf a b h

theorem foldlM {γ : Type*} {f : α → γ → Option α} {g : β → γ → Except ε β} {l : List γ} {a : α} {b : β} (h : R a b)
    (hf : ∀ c ∈ l, ∀ a b, R a b → Refines error R (f a c) (g b c)) :
    Refines error R (l.foldlM f a) (l.foldlM g b) := by
  induction l generalizing a b
  case nil => exact .some h
  case cons c l hi =>
    rw [List.foldlM_cons, List.foldlM_cons]
    apply (hf c (.head _) a b h).bind
    exact fun a b h => hi h fun c hc => hf c (.tail _ hc)

end Refines

end Except
