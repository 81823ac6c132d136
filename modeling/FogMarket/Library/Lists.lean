import Mathlib.Data.List.Forall2
import Mathlib.Data.List.Nodup
import Mathlib.Data.Option.Basic

-- Lists of which each element is mapped to an optional value, or to a list of its own.
namespace Lists

variable {α β γ δ ε ι : Type*} {f : ι → Option β} {is : List ι} {R : β → γ → Prop}

-- `mapM` succeeds if and only if it does so for all elements.
theorem mapM_eq_some {f : ι → Option (List β)} {r : List (List β)} (h : is.mapM f = some r) :
    r = is.map (fun i => (f i).getD []) ∧ ∀ i ∈ is, (f i).isSome = true := by
  induction is generalizing r
  case nil =>
    cases h
    exact ⟨rfl, by simp⟩
  case cons i is hi =>
    rw [List.mapM_cons] at h
    have ⟨y, hy, h⟩ := Option.bind_eq_some_iff.mp h
    have ⟨ys, hys, h⟩ := Option.bind_eq_some_iff.mp h
    cases h
    have ⟨hr, hs⟩ := hi hys
    exact ⟨by simp [hy, hr], by simpa [hy] using hs⟩

theorem mapM_isSome (h : ∀ i ∈ is, (f i).isSome = true) : (is.mapM f).isSome = true := by
  induction is
  case nil => rfl
  case cons i is hi =>
    have ⟨y, hy⟩ := Option.isSome_iff_exists.mp (h i List.mem_cons_self)
    have ⟨ys, hys⟩ := Option.isSome_iff_exists.mp (hi fun j hj => h j (List.mem_cons_of_mem i hj))
    simp [List.mapM_cons, hy, hys]

theorem isSome_of_mapM (h : (is.mapM f).isSome = true) : ∀ i ∈ is, (f i).isSome = true := by
  induction is
  case nil => simp
  case cons i is hi =>
    have ⟨r, h⟩ := Option.isSome_iff_exists.mp h
    rw [List.mapM_cons] at h
    have ⟨y, hy, h⟩ := Option.bind_eq_some_iff.mp h
    have ⟨ys, hys, _⟩ := Option.bind_eq_some_iff.mp h
    simpa [hy] using hi (Option.isSome_iff_exists.mpr ⟨ys, hys⟩)

theorem forall₂_of_mapM {r : List β} (h : is.mapM f = some r) : List.Forall₂ (fun i b => f i = some b) is r := by
  induction is generalizing r
  case nil =>
    cases h
    exact .nil
  case cons i is hi =>
    rw [List.mapM_cons] at h
    have ⟨y, hy, h⟩ := Option.bind_eq_some_iff.mp h
    have ⟨ys, hys, h⟩ := Option.bind_eq_some_iff.mp h
    cases h
    exact .cons hy (hi hys)

theorem rel_map {S : δ → ε → Prop} {f : β → δ} {g : γ → ε} {x : Option β} {y : Option γ} (h : Option.Rel R x y)
    (hf : ∀ b c, R b c → S (f b) (g c)) : Option.Rel S (x.map f) (y.map g) := by
  cases h
  case none => exact .none
  case some h => exact .some (hf _ _ h)

theorem eq_some_of_rel {x : Option β} {c : γ} (h : Option.Rel R x (some c)) :
    ∃ b, x = some b ∧ R b c := by
  cases h
  case some h => exact ⟨_, rfl, h⟩

-- Related elements give related lists.
theorem rel_mapM {g : ι → Option γ} (h : ∀ i ∈ is, Option.Rel R (f i) (g i)) :
    Option.Rel (List.Forall₂ R) (is.mapM f) (is.mapM g) := by
  induction is
  case nil => exact .some .nil
  case cons i is hi =>
    have hh := h i List.mem_cons_self
    have ht := hi fun j hj => h j (List.mem_cons_of_mem i hj)
    rw [List.mapM_cons, List.mapM_cons]
    revert hh ht
    generalize f i = x, g i = y, is.mapM f = xs, is.mapM g = ys
    intro hh ht
    cases hh
    case none => exact .none
    case some hr =>
      cases ht
      case none => exact .none
      case some hrs => exact .some (.cons hr hrs)

theorem flatMap_eq_single {l : List α} {f : α → List β} {a : α} (hl : l.Nodup) (ha : a ∈ l)
    (h : ∀ b ∈ l, b ≠ a → f b = []) : l.flatMap f = f a := by
  induction l
  case nil => cases ha
  case cons b l hi =>
    have ⟨hb, hl⟩ := List.nodup_cons.mp hl
    have ⟨hf, h⟩ := List.forall_mem_cons.mp h
    rw [List.flatMap_cons]
    by_cases he : b = a
    case pos =>
      subst he
      have hr : l.flatMap f = [] := List.flatMap_eq_nil_iff.mpr fun c hc => h c hc fun he => hb (he ▸ hc)
      rw [hr, List.append_nil]
    case neg => rw [hf he, List.nil_append, hi hl ((List.mem_cons.mp ha).resolve_left (Ne.symm he)) h]

end Lists
