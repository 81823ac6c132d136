import Mathlib.Algebra.Order.Group.Defs
import Mathlib.Algebra.Order.Ring.Rat
import Mathlib.Data.List.Sort
import FogMarket.Objects.Bid

open List

namespace Market.Auction

variable {β : Type*} [LinearOrder β]

-- The references of `bids.iter().collect()` after `sort_unstable_by`. A reference is a proposal
-- together with its position in `bids`. The sort may leave proposals of equal bid in any order, so
-- that every sorted permutation is a possible outcome.
structure SortUnstable (bids : List (BidProposal β)) where
  refs   : List (BidProposal β × ℕ)
  perm   : refs ~ bids.zipIdx
  sorted : refs.Pairwise (·.1.bid ≤ ·.1.bid)

-- One of the outcomes.
def SortUnstable.stable (bids : List (BidProposal β)) : SortUnstable bids where
  refs   := bids.zipIdx.mergeSort (·.1.bid ≤ ·.1.bid)
  perm   := mergeSort_perm _ _
  sorted := by
    have h := @pairwise_mergeSort (BidProposal β × ℕ) (fun a b => decide (a.1.bid ≤ b.1.bid))
      (fun a b c hab hbc => by simp only [decide_eq_true_eq] at *; exact hab.trans hbc)
      (fun a b => by simpa using le_total a.1.bid b.1.bid)
      bids.zipIdx
    simpa using h

variable {bids : List (BidProposal β)} {x y : BidProposal β} {c b : β} {i k : ℕ}

-- The non-random rule: the first proposal wins and is paid the bid of the second one.
def auction (s : SortUnstable bids) : Option (ChosenBid β) :=
  match s.refs[0]?, s.refs[1]? with
  | some first, some second => some { price := second.1.bid, bid := first.1 }
  | some first, none        => some { price := first.1.bid, bid := first.1 }
  | none, _                 => none

-- The position of the chosen proposal.
def winner (s : SortUnstable bids) : Option ℕ :=
  s.refs[0]?.map (·.2)

-- What the bidder whose proposal is at position `k` gains when serving the function costs it `c`.
def utility [AddCommGroup β] (s : SortUnstable bids) (k : ℕ) (c : β) : β :=
  match auction s with
  | none        => 0
  | some chosen => if winner s = some k then chosen.price - c else 0

namespace SortUnstable

theorem mem_refs_iff (s : SortUnstable bids) : (x, i) ∈ s.refs ↔ bids[i]? = some x := by
  rw [s.perm.mem_iff, mk_mem_zipIdx_iff_getElem?]

theorem positions_nodup (s : SortUnstable bids) : (s.refs.map (·.2)).Nodup := by
  rw [(s.perm.map _).nodup_iff, zipIdx_map_snd]
  exact nodup_range'

theorem length_refs (s : SortUnstable bids) : s.refs.length = bids.length := by
  simp [s.perm.length_eq]

theorem perm_bids (s : SortUnstable bids) : s.refs.map (·.1) ~ bids := by
  simpa using s.perm.map Prod.fst

-- However the sort has ordered equal bids, the bids themselves come out in one order.
theorem bids_eq {bids' : List (BidProposal β)} (s : SortUnstable bids) (s' : SortUnstable bids') (h : bids ~ bids') :
    s'.refs.map (·.1.bid) = s.refs.map (·.1.bid) := by
  have hp : s'.refs.map (·.1.bid) ~ s.refs.map (·.1.bid) := by
    have hb := (s'.perm_bids.trans (h.symm.trans s.perm_bids.symm)).map (·.bid)
    rwa [map_map, map_map] at hb
  exact hp.eq_of_pairwise (fun _ _ _ _ => le_antisymm) (pairwise_map.mpr s'.sorted) (pairwise_map.mpr s.sorted)

-- With at least two proposals the outcome is read off the first two references.
theorem refs_eq_cons_cons (s : SortUnstable bids) (h : 2 ≤ bids.length) :
    ∃ first second rest, s.refs = first :: second :: rest := by
  have hl := s.length_refs
  match hr : s.refs with
  | []                      => simp [hr] at hl; omega
  | [_]                     => simp [hr] at hl; omega
  | first :: second :: rest => exact ⟨first, second, rest, rfl⟩

end SortUnstable

-- Who wins bids at most the price, and the price is the lowest of the other bids.
theorem winner_spec {s : SortUnstable bids} (h : 2 ≤ bids.length) (hw : winner s = some k)
    (hx : bids[k]? = some x) :
    ∃ y i, i ≠ k ∧ bids[i]? = some y ∧ auction s = some { price := y.bid, bid := x } ∧
      x.bid ≤ y.bid ∧ ∀ z j, j ≠ k → bids[j]? = some z → y.bid ≤ z.bid := by
  have ⟨first, second, rest, hr⟩ := s.refs_eq_cons_cons h
  have hn := s.positions_nodup
  have hs := s.sorted
  simp only [hr, map_cons, nodup_cons, mem_cons, not_or, pairwise_cons] at hn hs
  have hk : first.2 = k := by simpa [winner, hr] using hw
  have hf : first.1 = x := by
    have := s.mem_refs_iff.mp (hr ▸ mem_cons_self : first ∈ s.refs)
    simpa [hk, hx, eq_comm] using this
  have hy := s.mem_refs_iff.mp (hr ▸ mem_cons_of_mem _ mem_cons_self : second ∈ s.refs)
  refine ⟨second.1, second.2, ?_, hy, ?_, ?_, ?_⟩
  case refine_1 => exact fun he => hn.1.1 (hk.trans he.symm)
  case refine_2 => simp [auction, hr, hf]
  case refine_3 => exact hf ▸ hs.1 second (by simp)
  case refine_4 =>
    intro z j hj hz
    have hm := s.mem_refs_iff.mpr hz
    simp only [hr, mem_cons] at hm
    rcases hm with rfl | rfl | hm
    · exact absurd hk hj
    · exact le_rfl
    · exact hs.2.1 _ hm

-- Who loses is outbid, or at least equalled, by another proposal.
theorem loser_spec {s : SortUnstable bids} (h : 2 ≤ bids.length) (hw : winner s ≠ some k)
    (hx : bids[k]? = some x) : ∃ y i, i ≠ k ∧ bids[i]? = some y ∧ y.bid ≤ x.bid := by
  have ⟨first, second, rest, hr⟩ := s.refs_eq_cons_cons h
  have hs := s.sorted
  simp only [hr, pairwise_cons] at hs
  have hk : first.2 ≠ k := by simpa [winner, hr] using hw
  have hf := s.mem_refs_iff.mp (hr ▸ mem_cons_self : first ∈ s.refs)
  refine ⟨first.1, first.2, hk, hf, ?_⟩
  have hm := s.mem_refs_iff.mpr hx
  rw [hr, mem_cons] at hm
  cases hm
  case inl he => exact absurd (congrArg Prod.snd he).symm hk
  case inr hm => exact hs.1 _ hm

section Utility

variable [AddCommGroup β]

theorem utility_of_loses {s : SortUnstable bids} (hw : winner s ≠ some k) : utility s k c = 0 := by
  simp only [utility, hw, if_false]
  split <;> rfl

theorem utility_of_wins {s : SortUnstable bids} (hw : winner s = some k)
    (ha : auction s = some { price := b, bid := x }) : utility s k c = b - c := by
  simp [utility, hw, ha]

-- A truthful bidder never loses anything.
theorem utility_nonneg [IsOrderedAddMonoid β] {s : SortUnstable bids} (h : 2 ≤ bids.length)
    (hx : bids[k]? = some x) : 0 ≤ utility s k x.bid := by
  by_cases hw : winner s = some k
  case pos =>
    have ⟨y, _, _, _, ha, hle, _⟩ := winner_spec h hw hx
    rw [utility_of_wins hw ha]
    exact sub_nonneg.mpr hle
  case neg => rw [utility_of_loses hw]

end Utility

variable {own : BidProposal β} {pre post : List (BidProposal β)}

omit [LinearOrder β] in
-- The other proposals do not depend on the bid of the proposal at position `pre.length`.
theorem getElem?_bid_agnostic (h : i ≠ pre.length) :
    (pre ++ { own with bid := b } :: post)[i]? = (pre ++ { own with bid := c } :: post)[i]? := by
  rw [getElem?_append, getElem?_append]
  split
  case isTrue => rfl
  case isFalse hi =>
    have ⟨j, hj⟩ := Nat.exists_eq_succ_of_ne_zero (Nat.sub_ne_zero_of_lt (by omega : pre.length < i))
    simp [hj]

theorem truthful [AddCommGroup β] [IsOrderedAddMonoid β] (own : BidProposal β)
    (pre post : List (BidProposal β)) (others : pre ++ post ≠ []) (c b : β)
    (truth : SortUnstable (pre ++ { own with bid := c } :: post))
    (deviation : SortUnstable (pre ++ { own with bid := b } :: post)) :
    utility deviation pre.length c ≤ utility truth pre.length c := by
  have hl (b : β) : 2 ≤ (pre ++ { own with bid := b } :: post).length := by
    have := length_pos_iff.mpr others
    simp only [length_append, length_cons] at this ⊢
    omega
  have hx (b : β) : (pre ++ { own with bid := b } :: post)[pre.length]? = some { own with bid := b } := by
    simp
  have h₀ : 0 ≤ utility truth pre.length c := utility_nonneg (hl c) (hx c)
  by_cases hd : winner deviation = some pre.length
  case neg => rwa [utility_of_loses hd]
  case pos =>
    have ⟨y, i, hi, hy, ha, _, hmin⟩ := winner_spec (hl b) hd (hx b)
    rw [utility_of_wins hd ha]
    by_cases ht : winner truth = some pre.length
    case pos =>
      -- Both runs are won and paid the lowest of the same other bids.
      have ⟨z, j, hj, hz, ha', _, _⟩ := winner_spec (hl c) ht (hx c)
      rw [utility_of_wins ht ha']
      exact sub_le_sub_right (hmin z j hj (getElem?_bid_agnostic hj ▸ hz)) c
    case neg =>
      -- Only the deviation wins: some other bid is at most `c`, and with it the price.
      have ⟨z, j, hj, hz, hle⟩ := loser_spec (hl c) ht (hx c)
      have hp := (hmin z j hj (getElem?_bid_agnostic hj ▸ hz)).trans hle
      exact (sub_nonpos.mpr hp).trans h₀

section SecondPrice

theorem auction_eq_none_iff (s : SortUnstable bids) : auction s = none ↔ bids = [] := by
  rw [← length_eq_zero_iff, ← s.length_refs, length_eq_zero_iff, auction]
  match s.refs with
  | []               => simp
  | [first]          => simp
  | first :: _ :: _  => simp

-- The price is the second of the sorted bids, or the only one.
theorem price_eq (s : SortUnstable bids) :
    (auction s).map (·.price) =
      (s.refs.map (·.1.bid))[1]?.or (s.refs.map (·.1.bid))[0]? := by
  match h : s.refs with
  | []                   => simp [auction, h]
  | [first]              => simp [auction, h]
  | first :: second :: _ => simp [auction, h]

-- The chosen proposal is the first of the sorted ones, and all others come behind it.
theorem chosen_spec {s : SortUnstable bids} {chosen : ChosenBid β} (h : auction s = some chosen) :
    ∃ rest, bids ~ chosen.bid :: rest ∧ (chosen.bid :: rest).Pairwise (·.bid ≤ ·.bid) ∧
      chosen.price = (rest.head?.getD chosen.bid).bid := by
  have hp := s.perm_bids.symm
  match hr : s.refs with
  | [] => simp [auction, hr] at h
  | [first] =>
    simp only [auction, hr, getElem?_cons_zero, getElem?_cons_succ, getElem?_nil, Option.some.injEq] at h
    subst h
    exact ⟨[], by simpa [hr] using hp, by simp, rfl⟩
  | first :: second :: rest =>
    simp only [auction, hr, getElem?_cons_zero, getElem?_cons_succ, Option.some.injEq] at h
    subst h
    exact ⟨second.1 :: rest.map (·.1), by simpa [hr] using hp, by simpa [hr, pairwise_map] using s.sorted, rfl⟩

theorem second_price (s : SortUnstable bids) :
    (auction s = none ↔ bids = []) ∧
    (∀ chosen, auction s = some chosen →
      chosen.bid ∈ bids ∧ (∀ y ∈ bids, chosen.bid.bid ≤ y.bid) ∧
      (∀ rest, bids ~ chosen.bid :: rest →
        rest = [] ∧ chosen.price = chosen.bid.bid ∨
        ∃ y ∈ rest, chosen.price = y.bid ∧ ∀ z ∈ rest, y.bid ≤ z.bid) ∧
      chosen.bid.bid ≤ chosen.price) ∧
    (∀ bids' (s' : SortUnstable bids'), bids ~ bids' → (auction s').map (·.price) = (auction s).map (·.price)) := by
  refine ⟨auction_eq_none_iff s, ?_, ?_⟩
  case refine_1 =>
    intro chosen h
    have ⟨rest, hp, hs, hr⟩ := chosen_spec h
    rw [pairwise_cons] at hs
    refine ⟨hp.mem_iff.mpr mem_cons_self, ?_, ?_, ?_⟩
    case refine_1 =>
      intro y hy
      obtain rfl | hy := mem_cons.mp (hp.mem_iff.mp hy)
      case inl => exact le_rfl
      case inr => exact hs.1 y hy
    case refine_2 =>
      intro rest' hp'
      have he := (hp'.symm.trans hp).cons_inv
      cases rest
      case nil => exact .inl ⟨he.eq_nil, hr⟩
      case cons second rest =>
        refine .inr ⟨second, he.mem_iff.mpr mem_cons_self, hr, ?_⟩
        intro z hz
        obtain rfl | hz := mem_cons.mp (he.mem_iff.mp hz)
        case inl => exact le_rfl
        case inr => exact (pairwise_cons.mp hs.2).1 z hz
    case refine_3 =>
      rw [hr]
      cases rest
      case nil              => exact le_rfl
      case cons second rest => exact hs.1 second mem_cons_self
  case refine_2 =>
    intro bids' s' h
    rw [price_eq, price_eq, s.bids_eq s' h]

end SecondPrice

def proposal (n : ℕ) (bid : ℚ) : BidProposal ℚ where
  nodeId := ⟨n⟩
  id     := ⟨n⟩
  bid    := bid

theorem truthful_of_three :
    utility (SortUnstable.stable [proposal 1 5, { proposal 2 0 with bid := 3 }, proposal 3 4]) 1 (4 : ℚ) ≤
      utility (SortUnstable.stable [proposal 1 5, { proposal 2 0 with bid := 4 }, proposal 3 4]) 1 (4 : ℚ) :=
  truthful (proposal 2 0) [proposal 1 5] [proposal 3 4] (by simp) 4 3 (.stable _) (.stable _)

end Market.Auction
