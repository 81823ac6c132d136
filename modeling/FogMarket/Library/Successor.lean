import Mathlib.Data.List.Nodup
import Mathlib.Data.List.Perm.Subperm
import Mathlib.Logic.Relation

-- The ways along the successors of elements, of which there is at most one from each.
namespace Successor

variable {α : Type*} (next : α → Option α)

-- The way from an element up to one without a successor, if it has at most this many elements.
def walk : ℕ → α → Option (List α)
  | 0, _ => none
  | n + 1, a =>
    match next a with
    | none   => some [a]
    | some b => (walk n b).map (a :: ·)

inductive Ends : α → List α → Prop
  | last {a} : next a = none → Ends a [a]
  | cons {a b l} : next a = some b → Ends b l → Ends a (a :: l)

def Leads (a b : α) : Prop :=
  next a = some b

variable {next} {a b : α} {l l' s visited : List α} {n : ℕ}

namespace Ends

theorem exists_cons (h : Ends next a l) : ∃ l', l = a :: l' := by
  cases h
  all_goals exact ⟨_, rfl⟩

theorem mem (h : Ends next a l) : a ∈ l := by
  obtain ⟨l', rfl⟩ := h.exists_cons
  exact List.mem_cons_self

theorem of_none (h : Ends next a l) (hn : next a = none) : l = [a] := by
  induction h
  case last => rfl
  case cons hs _ _ => cases hn.symm.trans hs

theorem of_some (h : Ends next a l) (hn : next a = some b) : ∃ l', l = a :: l' ∧ Ends next b l' := by
  induction h
  case last hs => cases hn.symm.trans hs
  case cons hs he _ =>
    cases hn.symm.trans hs
    exact ⟨_, rfl, he⟩

theorem unique (h : Ends next a l) (h' : Ends next a l') : l = l' := by
  induction h generalizing l'
  case last hn => exact (h'.of_none hn).symm
  case cons hn _ hi =>
    obtain ⟨l', rfl, he⟩ := h'.of_some hn
    rw [hi he]

-- What comes after an element on a way which ends is a way of its own.
theorem suffix (h : Ends next a l) (hb : b ∈ l) : ∃ l', Ends next b l' ∧ l' <:+ l := by
  induction h
  case last a hn =>
    cases List.mem_singleton.mp hb
    exact ⟨_, .last hn, List.suffix_rfl⟩
  case cons a c l hn he hi =>
    cases hb
    case head => exact ⟨_, .cons hn he, List.suffix_rfl⟩
    case tail hb =>
      obtain ⟨l', he', hs⟩ := hi hb
      exact ⟨l', he', hs.trans (List.suffix_cons a l)⟩

theorem nodup (h : Ends next a l) : l.Nodup := by
  induction h
  case last => exact List.nodup_singleton _
  case cons a b l hn he hi =>
    apply List.nodup_cons.mpr ⟨_, hi⟩
    intro ha
    obtain ⟨l', he', hs⟩ := he.suffix ha
    have hl := congrArg List.length (he'.unique (.cons hn he))
    have := hs.length_le
    rw [List.length_cons] at hl
    omega

theorem exists_next_of_mem_dropLast (h : Ends next a l) (hb : b ∈ l.dropLast) : ∃ c, next b = some c := by
  induction h
  case last => simp at hb
  case cons a c l hn he hi =>
    rw [List.dropLast_cons_of_ne_nil (List.ne_nil_of_mem he.mem)] at hb
    cases hb
    case head => exact ⟨c, hn⟩
    case tail hb => exact hi hb

-- A way passes each of the elements with a successor once.
theorem length_le (h : Ends next a l) (hs : ∀ b c, next b = some c → b ∈ s) : l.length ≤ s.length + 1 := by
  have hd : l.dropLast ⊆ s := by
    intro b hb
    obtain ⟨c, hc⟩ := h.exists_next_of_mem_dropLast hb
    exact hs b c hc
  have := (h.nodup.sublist l.dropLast_sublist).length_le_of_subset hd
  rw [List.length_dropLast] at this
  omega

-- A way which ends gets shorter and shorter, and comes back nowhere.
theorem exists_of_transGen (h : Ends next a l) (hb : Relation.TransGen (Leads next) a b) :
    ∃ l', Ends next b l' ∧ l'.length < l.length := by
  induction hb
  case single b hn =>
    obtain ⟨l', rfl, h'⟩ := h.of_some hn
    exact ⟨l', h', Nat.lt_succ_self _⟩
  case tail b c _ hn hi =>
    obtain ⟨l', he, hl⟩ := hi
    obtain ⟨l', rfl, h'⟩ := he.of_some hn
    exact ⟨l', h', Nat.lt_of_succ_lt hl⟩

theorem not_transGen (h : Ends next a l) : ¬Relation.TransGen (Leads next) a a := by
  intro ht
  obtain ⟨l', he, hl⟩ := h.exists_of_transGen ht
  rw [he.unique h] at hl
  exact Nat.lt_irrefl _ hl

end Ends

theorem walk_eq_some_iff : walk next n a = some l ↔ Ends next a l ∧ l.length ≤ n := by
  constructor
  case mp =>
    intro h
    induction n generalizing a l
    case zero => cases h
    case succ n hi =>
      rw [walk] at h
      split at h
      case h_1 hn =>
        cases h
        exact ⟨.last hn, Nat.succ_le_succ n.zero_le⟩
      case h_2 b hn =>
        obtain ⟨l, hl, rfl⟩ := Option.map_eq_some_iff.mp h
        obtain ⟨he, hl⟩ := hi hl
        exact ⟨.cons hn he, Nat.succ_le_succ hl⟩
  case mpr =>
    rintro ⟨he, hl⟩
    induction he generalizing n
    all_goals
      obtain ⟨n, rfl⟩ := Nat.exists_eq_succ_of_ne_zero (Nat.pos_iff_ne_zero.mp (Nat.lt_of_lt_of_le (by simp) hl))
    case last hn => rw [walk, hn]
    case cons hn _ hi =>
      rw [walk, hn]
      simp [hi (Nat.succ_le_succ_iff.mp hl)]

theorem exists_ends_or_circle (hs : ∀ b c, next b = some c → b ∈ s) (hn : s.length < n + visited.length)
    (hd : visited.Nodup) (hv : ∀ b ∈ visited, b ∈ s ∧ Relation.TransGen (Leads next) b a) :
    (∃ l, Ends next a l) ∨
      ∃ b, Relation.ReflTransGen (Leads next) a b ∧ Relation.TransGen (Leads next) b b := by
  induction n generalizing a visited
  case zero =>
    have := hd.length_le_of_subset fun b hb => (hv b hb).left
    omega
  case succ n hi =>
    cases hb : next a
    case none => exact Or.inl ⟨_, .last hb⟩
    case some b =>
      by_cases ha : a ∈ visited
      case pos => exact Or.inr ⟨a, .refl, (hv a ha).right⟩
      case neg =>
        have hl : s.length < n + (a :: visited).length := by
          rw [List.length_cons]
          omega
        have hc := hi (a := b) hl (List.nodup_cons.mpr ⟨ha, hd⟩) (by
            intro c hc
            cases hc
            case head => exact ⟨hs a b hb, .single hb⟩
            case tail hc => exact ⟨(hv c hc).left, (hv c hc).right.tail hb⟩)
        obtain ⟨l, he⟩ | ⟨c, hl, hc⟩ := hc
        case inl => exact Or.inl ⟨_, .cons hb he⟩
        case inr => exact Or.inr ⟨c, .head hb hl, hc⟩

-- Among finitely many elements with a successor, a way ends unless it runs into a circle.
theorem exists_ends_iff (hs : ∀ b c, next b = some c → b ∈ s) :
    (∃ l, Ends next a l) ↔
      ∀ b, Relation.ReflTransGen (Leads next) a b → ¬Relation.TransGen (Leads next) b b := by
  constructor
  case mp =>
    rintro ⟨l, h⟩ b hb ht
    cases Relation.reflTransGen_iff_eq_or_transGen.mp hb
    case inl he => exact h.not_transGen (he ▸ ht)
    case inr hb =>
      obtain ⟨l', h', _⟩ := h.exists_of_transGen hb
      exact h'.not_transGen ht
  case mpr =>
    intro h
    have hc := exists_ends_or_circle (a := a) (n := s.length + 1) hs (by simp) List.nodup_nil (by simp)
    obtain he | ⟨b, hb, hc⟩ := hc
    case inl => exact he
    case inr => exact absurd hc (h b hb)

end Successor
