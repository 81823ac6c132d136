import Mathlib.Data.List.Sort
import Mathlib.Data.Option.Basic
import Mathlib.Data.Rat.Defs

-- What a member of a message can hold. Numbers are exact.
inductive Json
  | null
  | number (n : ℚ)
  | string (s : String)
  deriving DecidableEq

namespace Json

abbrev Object := List (String × Json)

-- The members of a map are written in the order of their keys.
def marshal (m : List (String × Json)) : Object :=
  m.insertionSort (·.1 ≤ ·.1)

-- A field of a structure which messages are read into. Storing is `none` if the value is not of the field's type.
structure Field (σ : Type*) where
  tag   : String
  store : Json → σ → Option σ

namespace Field

variable {σ α : Type*}

-- A `null` leaves the field as it is.
def string (tag : String) (set : String → σ → σ) : Field σ where
  tag := tag
  store
    | .null,     s => some s
    | .string t, s => some (set t s)
    | .number _, _ => none

def float64 (tag : String) (set : ℚ → σ → σ) : Field σ where
  tag := tag
  store
    | .null,     s => some s
    | .number n, s => some (set n s)
    | .string _, _ => none

-- What is read by `get` is not changed by the field.
def Keeps (f : Field σ) (get : σ → α) : Prop :=
  ∀ v s s', f.store v s = some s' → get s' = get s

variable {tag : String} {get : σ → α}

theorem string_keeps {set : String → σ → σ} (h : ∀ t s, get (set t s) = get s) : (string tag set).Keeps get := by
  intro v s s' hs
  cases v
  case null =>
    cases hs
    rfl
  case number => cases hs
  case string t =>
    cases hs
    exact h t s

theorem float64_keeps {set : ℚ → σ → σ} (h : ∀ n s, get (set n s) = get s) : (float64 tag set).Keeps get := by
  intro v s s' hs
  cases v
  case null =>
    cases hs
    rfl
  case number n =>
    cases hs
    exact h n s
  case string => cases hs

end Field

variable {σ α : Type*}

-- Upper and lower case letters of ASCII are the same.
def fold (key : String) : List Char :=
  key.toList.map Char.toLower

-- The field with the tag, and if there is none the one with the tag up to the case of its letters.
def taker (fields : List (Field σ)) (key : String) : Option (Field σ) :=
  fields.find? (·.tag = key) <|> fields.find? (fold ·.tag = fold key)

-- Members which no field takes are dropped.
def unmarshal (fields : List (Field σ)) : Object → σ → Option σ
  | [],               s => some s
  | (key, v) :: rest, s =>
    match taker fields key with
    | none   => unmarshal fields rest s
    | some f => (f.store v s).bind (unmarshal fields rest)

variable {fields : List (Field σ)} {f : Field σ} {o : Object} {m : String × Json} {s s' : σ} {get : σ → α}

@[simp]
theorem mem_marshal : m ∈ marshal o ↔ m ∈ o :=
  List.mem_insertionSort _

theorem taker_eq_some (h : taker fields m.1 = some f) : f ∈ fields ∧ fold f.tag = fold m.1 := by
  cases (Option.orElse_eq_some _ _ _).mp h
  case inl h =>
    have ht := List.find?_some h
    exact ⟨List.mem_of_find?_eq_some h, congrArg fold (of_decide_eq_true ht)⟩
  case inr h =>
    have ht := List.find?_some h.right
    exact ⟨List.mem_of_find?_eq_some h.right, of_decide_eq_true ht⟩

theorem unmarshal_cons_of_none (h : taker fields m.1 = none) :
    unmarshal fields (m :: o) s = unmarshal fields o s := by
  simp [unmarshal, h]

theorem unmarshal_cons_of_some (h : taker fields m.1 = some f) :
    unmarshal fields (m :: o) s = (f.store m.2 s).bind (unmarshal fields o) := by
  simp [unmarshal, h]

-- A field keeps its value if every member is taken by another one.
theorem get_unmarshal_of_keeps (hk : ∀ m ∈ o, ∀ f, taker fields m.1 = some f → f.Keeps get)
    (h : unmarshal fields o s = some s') : get s' = get s := by
  induction o generalizing s
  case nil =>
    cases h
    rfl
  case cons m o hi =>
    have hi {s : σ} := hi (s := s) fun m hm => hk m (.tail _ hm)
    cases hf : taker fields m.1
    case none =>
      rw [unmarshal_cons_of_none hf] at h
      exact hi h
    case some f =>
      rw [unmarshal_cons_of_some hf, Option.bind_eq_some_iff] at h
      have ⟨s₁, hs, h⟩ := h
      rw [hi h]
      exact hk m (.head _) f hf _ _ _ hs

end Json
