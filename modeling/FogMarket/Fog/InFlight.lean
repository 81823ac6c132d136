import FogMarket.Fog.Steps

namespace Fog

-- `check_in_flight` without interruption. The first counter is the one of the even seconds.
def checkInFlight (max : ℕ) (now : ℤ) (inFlight : BitVec 32 × BitVec 32) : Bool × (BitVec 32 × BitVec 32) :=
  if now / 1000 % 2 = 0 then
    (inFlight.1.toNat ≤ max, (inFlight.1 + 1, 0))
  else
    (inFlight.2.toNat ≤ max, (0, inFlight.2 + 1))

-- The points in time of calls which are executed one at a time, the latest call first.
abbrev Calls :=
  List ℤ

namespace Calls

def counters (max : ℕ) : Calls → BitVec 32 × BitVec 32
  | []            => (0, 0)
  | now :: before => (checkInFlight max now (counters max before)).2

-- Whether a call returns `Ok`.
def ok (max : ℕ) (now : ℤ) (before : Calls) : Bool :=
  (checkInFlight max now (counters max before)).1

-- The calls of a second which have returned `Ok`.
def accepted (max : ℕ) (second : ℤ) : Calls → ℕ
  | []            => 0
  | now :: before => accepted max second before + if now / 1000 = second ∧ ok max now before then 1 else 0

-- The calls of a second.
def arrived (second : ℤ) (calls : Calls) : ℕ :=
  calls.countP (· / 1000 = second)

-- The calls since the last one in a second of the other parity.
def streak (now : ℤ) (before : Calls) : ℕ :=
  (before.takeWhile (· / 1000 % 2 = now / 1000 % 2)).length

-- The calls of earlier seconds which have not been forgotten when a second begins: no second of the other parity has
-- seen a call since.
def carried (second : ℤ) (calls : Calls) : ℕ :=
  ((calls.filter (· / 1000 < second)).takeWhile (· / 1000 % 2 = second % 2)).length

-- A call is accepted as long as its second has seen less than `max` accepted ones.
def MeetsReference (max : ℕ) (calls : Calls) : Prop :=
  ∀ now before, now :: before <:+ calls → (ok max now before = true ↔ accepted max (now / 1000) before < max)

-- The counter tells whether `max` calls have come in the current second, although it also counts those of
-- earlier seconds, allows for one more, and wraps around.
def Distinguished (max : ℕ) (calls : Calls) : Prop :=
  ∀ now before, now :: before <:+ calls →
    (streak now before % 2 ^ 32 ≤ max ↔ arrived (now / 1000) before < max)

-- A second with `n` calls after `b` ones which are carried over. The limit is one call too high, so that either it is
-- not reached, or exactly one call makes up for it. A counter which wraps around always is below a limit of 32 bits.
def Limited (max n b : ℕ) : Prop :=
  if max < 2 ^ 32 - 1 then
    (n ≤ max ∧ b % 2 ^ 32 + n ≤ max + 1) ∨ (max < n ∧ n < 2 ^ 32 ∧ b % 2 ^ 32 = 1)
  else
    n ≤ max

variable {max n b : ℕ} {now second : ℤ} {before calls : Calls}

instance : Decidable (Limited max n b) := by
  unfold Limited
  infer_instance

theorem forall_suffix_cons {P : ℤ → Calls → Prop} :
    (∀ t ts, t :: ts <:+ now :: before → P t ts) ↔ P now before ∧ ∀ t ts, t :: ts <:+ before → P t ts := by
  simp only [List.suffix_cons_iff, List.cons.injEq]
  constructor
  case mp  => exact fun h => ⟨h now before (.inl ⟨rfl, rfl⟩), fun t ts hs => h t ts (.inr hs)⟩
  case mpr =>
    intro h t ts hs
    cases hs
    case inl he => exact he.1 ▸ he.2 ▸ h.1
    case inr hs => exact h.2 t ts hs

-- A counter counts the calls of its parity, until one of the other parity resets it.
theorem counters_eq (even odd : ℤ) (he : even / 1000 % 2 = 0) (ho : odd / 1000 % 2 = 1) :
    counters max calls = (.ofNat 32 (streak even calls), .ofNat 32 (streak odd calls)) := by
  induction calls
  case nil => rfl
  case cons now before hi =>
    rw [counters, checkInFlight, hi]
    simp only [streak, he, ho, List.takeWhile_cons]
    split
    case isTrue h  => simp [h, BitVec.ofNat_add]
    case isFalse h =>
      have h : now / 1000 % 2 = 1 := by omega
      simp [h, BitVec.ofNat_add]

theorem ok_iff : ok max now before = true ↔ streak now before % 2 ^ 32 ≤ max := by
  have hc := @counters_eq max before
  rw [ok, checkInFlight]
  split
  case isTrue h  => simp [hc now 1000 h rfl]
  case isFalse h => simp [hc 0 now rfl (by omega)]

-- As long as all calls have met the reference, the first `max` ones of each second have been accepted.
theorem accepted_eq (h : MeetsReference max calls) (second : ℤ) :
    accepted max second calls = min max (arrived second calls) := by
  induction calls
  case nil => simp [accepted, arrived]
  case cons now before hi =>
    have ⟨hn, hb⟩ := forall_suffix_cons.mp h
    have hi := hi hb
    rw [accepted, hi]
    simp only [arrived, List.countP_cons, decide_eq_true_eq]
    by_cases hs : now / 1000 = second
    case neg => simp [hs]
    case pos =>
      rw [hs, hi] at hn
      simp only [hs, true_and, hn, if_true, arrived]
      split <;> omega

-- The limiter equals its reference exactly on the calls which its counters tell apart.
theorem meetsReference_iff_distinguished : MeetsReference max calls ↔ Distinguished max calls := by
  induction calls
  case nil => simp [MeetsReference, Distinguished]
  case cons now before hi =>
    rw [MeetsReference, forall_suffix_cons, Distinguished, forall_suffix_cons]
    refine (and_congr_right' hi).trans (and_congr_left fun hd => ?_)
    rw [ok_iff, accepted_eq (hi.mpr hd)]
    exact iff_congr .rfl (by omega)

-- While the clock does not go back, a counter counts the calls of the current second and those carried over.
theorem streak_eq (h : (now :: before).Pairwise (· ≥ ·)) :
    streak now before = arrived (now / 1000) before + carried (now / 1000) before := by
  induction before
  case nil => rfl
  case cons t before hi =>
    simp only [List.pairwise_cons, List.mem_cons, forall_eq_or_imp] at h
    obtain ⟨⟨ht, hn⟩, htb, hb⟩ := h
    by_cases hs : t / 1000 = now / 1000
    case pos =>
      have hi := hi (List.pairwise_cons.mpr ⟨hn, hb⟩)
      simp only [streak, arrived, carried] at hi ⊢
      simp only [List.takeWhile_cons, hs, decide_true, if_true, List.length_cons, List.countP_cons, List.filter_cons,
        lt_self_iff_false, decide_false, Bool.false_eq_true, if_false, hi]
      omega
    case neg =>
      -- All calls from here on are those of earlier seconds.
      have hlt : ∀ x ∈ t :: before, x / 1000 < now / 1000 := by
        have ht : t / 1000 < now / 1000 := by omega
        intro x hx
        cases List.mem_cons.mp hx
        case inl he => exact he ▸ ht
        case inr hx => exact (Int.ediv_le_ediv (by norm_num) (htb x hx)).trans_lt ht
      have hz : arrived (now / 1000) (t :: before) = 0 :=
        List.countP_eq_zero.mpr fun x hx => by simpa using (hlt x hx).ne
      rw [hz, carried, List.filter_eq_self.mpr fun x hx => by simpa using hlt x hx, zero_add]
      rfl

-- Later calls do not change what is carried over.
theorem carried_suffix (h : calls.Pairwise (· ≥ ·)) (hs : now :: before <:+ calls) :
    carried (now / 1000) calls = carried (now / 1000) before := by
  obtain ⟨after, rfl⟩ := hs
  have hz : ∀ x ∈ after ++ [now], ¬ x / 1000 < now / 1000 := by
    intro x hx
    refine not_lt.mpr (Int.ediv_le_ediv (by norm_num) ?_)
    cases List.mem_append.mp hx
    case inl hx => exact (List.pairwise_append.mp h).2.2 x hx now List.mem_cons_self
    case inr hx => exact (List.mem_singleton.mp hx).ge
  have he : after ++ now :: before = (after ++ [now]) ++ before := by simp
  rw [carried, carried, he, List.filter_append, List.filter_eq_nil_iff.mpr fun x hx => by simpa using hz x hx,
    List.nil_append]

theorem arrived_lt (hs : now :: before <:+ calls) : arrived (now / 1000) before < arrived (now / 1000) calls := by
  have hle : arrived (now / 1000) (now :: before) ≤ arrived (now / 1000) calls := hs.sublist.countP_le
  have hc : arrived (now / 1000) (now :: before) = arrived (now / 1000) before + 1 := by
    simp [arrived]
  omega

-- The calls of a second come one after the other.
theorem exists_of_lt_arrived (h : n < arrived second calls) :
    ∃ now before, now :: before <:+ calls ∧ now / 1000 = second ∧ arrived second before = n := by
  induction calls
  case nil => simp [arrived] at h
  case cons now before hi =>
    have hb (h : n < arrived second before) : ∃ t ts, t :: ts <:+ now :: before ∧ t / 1000 = second ∧
        arrived second ts = n := by
      obtain ⟨t, ts, hs, ht⟩ := hi h
      exact ⟨t, ts, hs.trans (List.suffix_cons ..), ht⟩
    simp only [arrived, List.countP_cons, decide_eq_true_eq] at h
    by_cases hs : now / 1000 = second
    case neg => exact hb (by simpa [arrived, hs] using h)
    case pos =>
      rw [if_pos hs] at h
      by_cases he : arrived second before = n
      case pos => exact ⟨now, before, List.suffix_refl _, hs, he⟩
      case neg =>
        simp only [arrived] at he hb
        exact hb (by omega)

theorem limited_iff (hm : 1 ≤ max) (hn : 1 ≤ n) :
    (∀ k < n, (k + b) % 2 ^ 32 ≤ max ↔ k < max) ↔ Limited max n b := by
  constructor
  case mp =>
    intro h
    have h₀ := h 0 hn
    -- The first call whose counter is above the limit, the first one above the reference, and one which wraps around.
    have h₁ := h (max + 1 - b % 2 ^ 32)
    have h₂ := h max
    have h₃ := h (2 ^ 32 - 1)
    rw [Limited]
    split <;> omega
  case mpr =>
    intro h k hk
    rw [Limited] at h
    split at h <;> omega

-- The limiter equals its reference exactly if in every second with a call the calls are limited, those carried over
-- included.
theorem meetsReference_iff (hm : 1 ≤ max) (h : calls.Pairwise (· ≥ ·)) : MeetsReference max calls ↔
    ∀ second ∈ calls.map (· / 1000), Limited max (arrived second calls) (carried second calls) := by
  rw [meetsReference_iff_distinguished]
  have hcount {now : ℤ} {before : Calls} (hs : now :: before <:+ calls) :
      streak now before = arrived (now / 1000) before + carried (now / 1000) calls := by
    rw [streak_eq (h.sublist hs.sublist), carried_suffix h hs]
  have harrived {second : ℤ} (hmem : second ∈ calls.map (· / 1000)) : 1 ≤ arrived second calls := by
    obtain ⟨now, hnow, he⟩ := List.mem_map.mp hmem
    exact List.countP_pos_iff.mpr ⟨now, hnow, by simpa using he⟩
  constructor
  case mp =>
    intro hd second hmem
    refine (limited_iff hm (harrived hmem)).mp fun k hk => ?_
    obtain ⟨now, before, hs, rfl, rfl⟩ := exists_of_lt_arrived hk
    rw [← hcount hs]
    exact hd now before hs
  case mpr =>
    intro hl now before hs
    have hmem : now / 1000 ∈ calls.map (· / 1000) := List.mem_map.mpr ⟨now, hs.subset List.mem_cons_self, rfl⟩
    rw [hcount hs]
    exact (limited_iff hm (harrived hmem)).mpr (hl _ hmem) _ (arrived_lt hs)

-- The call of an earlier second makes up for the one which is let through in addition.
theorem meetsReference_of_carried : MeetsReference 1 [2500, 2000, 0] :=
  (meetsReference_iff le_rfl (by decide)).mpr (by decide)

-- In each of the first two calls of a second the counter is not above one.
theorem not_meetsReference :
    ∃ calls : Calls, calls.Pairwise (· ≥ ·) ∧ ¬ MeetsReference 1 calls := by
  refine ⟨[500, 0], by decide, fun h => ?_⟩
  have := h 500 [0] (List.suffix_refl _)
  revert this
  decide

end Calls

variable {config : Config} {s : State} {i : ℕ} {sla : Sla} {name : String} {bid : ℚ}

-- A bid which passes the limiter without interruption does so by a call of `check_in_flight`.
theorem step_limiting (h : s.bids[i]? = some (.limiting sla name bid)) :
    (step config s (.bidding i)).bind (step config · (.bidding i)) =
      let (ok, inFlight) := checkInFlight config.maxInFlight s.now s.inFlight
      let checked := { s with inFlight := inFlight }
      some (if ok then checked.setBid i (.inserting sla name bid) else checked.endBid i) := by
  have hi := (List.getElem?_eq_some_iff.mp h).1
  simp only [step, h, Option.map_some, Option.bind_some, advanceBid, checkInFlight]
  split
  all_goals
    simp only [State.setBid, List.getElem?_set_self hi, Option.map_some, advanceBid]
    split
    all_goals simp_all [State.endBid, List.eraseIdx_set_eq]

end Fog
