import Mathlib.Tactic.Positivity
import FogMarket.Fog.Accounting

open Transition

namespace Fog

def Pricing.Positive : Pricing → Prop
  | .linear cpuInitial memInitial => 0 < cpuInitial ∧ 0 < memInitial
  | .quadratic ratios             => 0 < ratios.aa ∧ 0 < ratios.bb ∧ 0 < ratios.electricityPrice

-- The price of an SLA is positive however busy the node is. Neither of its shares panics or is negative.
def Config.Priceable (config : Config) (sla : Sla) : Prop :=
  match config.pricing with
  | .linear ..        =>
    ∃ ram ∈ config.rationals.div sla.memory config.reservedMemory,
      ∃ cpu ∈ config.rationals.div sla.cpu config.reservedCpu, 0 ≤ ram ∧ 0 ≤ cpu ∧ (0 < cpu ∨ 0 < ram)
  | .quadratic ratios =>
    ∃ cpu ∈ config.rationals.div sla.cpu config.reservedCpu,
      0 ≤ cpu ∧ 1 / 1000000 < ratios.electricityPrice * cpu * ((ratios.aa * cpu + ratios.bb) * (sla.duration / 1000))

-- The share of the cpu which counts for the prices of other functions.
def Config.Shared (config : Config) (sla : Sla) : Prop :=
  ∀ ratios, config.pricing = .quadratic ratios → ∃ cpu ∈ config.rationals.div sla.cpu config.reservedCpu, 0 ≤ cpu

namespace State

-- The SLA which has passed the admission check of `bid_on`.
def quotes (s : State) : Act → Option Sla
  | .bidding i =>
    match s.bids[i]? with
    | some (.quoting sla ..) => some sla
    | _                      => none
  | _ => none

-- The entry of the queue whose end is computed, with the SLA of its function.
def estimates (s : State) : Act → Option (TaskEntry × Sla)
  | .bidding i =>
    match s.bids[i]? with
    | some (.utilising _ _ _ _ _ (entry :: _) _) => (s.tracking.getFinishableSla entry.sla).map (entry, ·)
    | _                                          => none
  | _ => none

end State

-- What is admitted is worth something, and ends at a point in time. The functions which come to life are
-- those which have been paid. What is booked and released does not overflow.
structure Harmless (config : Config) (s : State) (a : Act) : Prop where
  quoted    : ∀ sla ∈ s.quotes a, sla.Nonneg ∧ config.Priceable sla
  spawned   : ∀ duration ∈ s.spawns a, (sleepMillis duration).isSome = true
  estimated : ∀ x ∈ s.estimates a, (x.1.timestamp x.2).isSome = true
  current   : Current s a
  precise   : Precise config s a

-- What has been found out about an SLA on the way to its bid.
def Bidding.Priced (config : Config) : Bidding → Prop
  | .searching .. => True
  | .quoting _ _ available => available = config.reserved
  | .utilising ratios sla _ available _ _ events =>
    available = config.reserved ∧ config.pricing = .quadratic ratios ∧ sla.Nonneg ∧ config.Priceable sla ∧
      ∀ event ∈ events, config.Shared event.sla
  | .limiting sla _ bid | .resetting sla _ bid _ _ | .inserting sla _ bid =>
    sla.Nonneg ∧ config.Shared sla ∧ 0 < bid

variable {config : Config} {s s' : State} {a : Act} {ok : Bool} {l : Locked} {id : SlaId} {now : ℤ} {b : Bidding}
variable {as : List Act} {sla : Sla} {i : ℕ} {events : List UnprovisionEvent} {ratios : Quadratic} {u : ℚ}

instance : Decidable (config.Priceable sla) :=
  match h : config.pricing with
  | .linear .. =>
    decidable_of_iff (∃ ram ∈ config.rationals.div sla.memory config.reservedMemory,
      ∃ cpu ∈ config.rationals.div sla.cpu config.reservedCpu, 0 ≤ ram ∧ 0 ≤ cpu ∧ (0 < cpu ∨ 0 < ram))
      (by simp only [Config.Priceable, h])
  | .quadratic ratios =>
    decidable_of_iff (∃ cpu ∈ config.rationals.div sla.cpu config.reservedCpu, 0 ≤ cpu ∧
      1 / 1000000 < ratios.electricityPrice * cpu * ((ratios.aa * cpu + ratios.bb) * (sla.duration / 1000)))
      (by simp only [Config.Priceable, h])

instance : Decidable (Harmless config s a) :=
  decidable_of_iff
    ((∀ sla ∈ s.quotes a, sla.Nonneg ∧ config.Priceable sla) ∧
      (∀ duration ∈ s.spawns a, (sleepMillis duration).isSome = true) ∧
      (∀ x ∈ s.estimates a, (x.1.timestamp x.2).isSome = true) ∧ Current s a ∧ Precise config s a)
    ⟨fun ⟨h₁, h₂, h₃, h₄, h₅⟩ => ⟨h₁, h₂, h₃, h₄, h₅⟩, fun ⟨h₁, h₂, h₃, h₄, h₅⟩ => ⟨h₁, h₂, h₃, h₄, h₅⟩⟩

theorem shared_of_priceable (h : config.Priceable sla) : config.Shared sla := by
  intro ratios hp
  simp only [Config.Priceable, hp] at h
  obtain ⟨cpu, hd, hc, _⟩ := h
  exact ⟨cpu, hd, hc⟩

theorem linearBid_pos {cpuInitial memInitial : ℚ} (hp : config.pricing = .linear cpuInitial memInitial)
    (hpos : config.pricing.Positive) (h : config.Priceable sla) :
    ∃ bid, linearBid config.rationals cpuInitial memInitial config.reserved sla = some bid ∧ 0 < bid := by
  rw [hp] at hpos
  have ⟨hcpu, hmem⟩ := hpos
  simp only [Config.Priceable, hp] at h
  obtain ⟨ram, hm, cpu, hc, h₁, h₂, h⟩ := h
  have hb : linearBid config.rationals cpuInitial memInitial config.reserved sla =
      some (ram * memInitial + cpu * cpuInitial) := by
    rw [linearBid, Config.reserved, Option.mem_def.mp hm, Option.mem_def.mp hc]
    rfl
  refine ⟨_, hb, ?_⟩
  cases h
  case inl h => exact add_pos_of_nonneg_of_pos (mul_nonneg h₁ hmem.le) (mul_pos h hcpu)
  case inr h => exact add_pos_of_pos_of_nonneg (mul_pos h hmem) (mul_nonneg h₂ hcpu.le)

-- The price only grows with the utilisation.
theorem quadraticBid_pos (hp : config.pricing = .quadratic ratios) (hpos : config.pricing.Positive)
    (h : config.Priceable sla) (hu : 0 ≤ u) :
    ∃ cpu ∈ config.rationals.div sla.cpu config.reservedCpu, 1 / 1000000 < quadraticBid ratios cpu u sla := by
  rw [hp] at hpos
  have ⟨haa, hbb, he⟩ := hpos
  simp only [Config.Priceable, hp] at h
  obtain ⟨cpu, hd, hc, h⟩ := h
  refine ⟨cpu, hd, lt_of_lt_of_le h ?_⟩
  rw [quadraticBid]
  refine mul_le_mul_of_nonneg_left ?_ (mul_nonneg he.le hc)
  exact le_add_of_nonneg_left (by positivity)

theorem utilisation_spec (now : ℤ) (hc : Configured config s.resources) (hp : config.pricing = .quadratic ratios)
    (he : ∀ event ∈ events, config.Shared event.sla) :
    utilisation config.rationals s.resources now events = .error .error ∨
      ∃ u, utilisation config.rationals s.resources now events = .ok u ∧ 0 ≤ u := by
  induction events
  case nil => exact .inr ⟨0, rfl, le_rfl⟩
  case cons event events hi =>
    have ⟨hs, he⟩ := List.forall_mem_cons.mp he
    rw [utilisation]
    split
    case h_1 => exact .inl rfl
    case h_2 memory cpu ha =>
      have ha := hc.available_eq (ResourceTracking.getAvailable_eq_some ha)
      cases ha
      obtain ⟨share, hd, hn⟩ := hs ratios hp
      rw [Option.mem_def.mp hd]
      cases hi he
      case inl hi => exact .inl (by rw [hi]; rfl)
      case inr hi =>
        have ⟨u, hu, h₀⟩ := hi
        refine .inr ⟨_, by rw [hu]; rfl, add_nonneg (mul_nonneg hn ?_) h₀⟩
        exact_mod_cast Int.ediv_nonneg (le_max_right ..) (by norm_num)

-- What is found out about an SLA does not lead to a panic.
theorem priced_advanceBid (hpos : config.pricing.Positive) (hc : Configured config s.resources)
    (hr : Recorded (fun _ sla => sla.Nonneg ∧ config.Shared sla) s) (hbs : ∀ b ∈ s.bids, b.Priced config)
    (hi : s.bids[i]? = some b) (h : Harmless config s (.bidding i)) :
    (advanceBid config s i b).panics = s.panics ∧ ∀ b' ∈ (advanceBid config s i b).bids, b'.Priced config := by
  have hb := hbs b (List.mem_of_getElem? hi)
  have hset {b'} (hb' : b'.Priced config) : ∀ x ∈ s.bids.set i b', x.Priced config := by
    intro x hx
    cases List.mem_or_eq_of_mem_set hx
    case inl hx => exact hbs x hx
    case inr he => exact he ▸ hb'
  have herase : ∀ x ∈ s.bids.eraseIdx i, x.Priced config := fun x hx => hbs x (List.mem_of_mem_eraseIdx hx)
  match b with
  | .searching sla [] => exact ⟨rfl, herase⟩
  | .searching sla (name :: rest) =>
    simp only [advanceBid]
    split
    case h_2 => exact ⟨rfl, herase⟩
    case h_1 ha =>
      split
      case isFalse => exact ⟨rfl, hset trivial⟩
      case isTrue  => exact ⟨rfl, hset (hc.available_eq (ResourceTracking.getAvailable_eq_some ha))⟩
  | .quoting sla name available =>
    obtain ⟨hn, hprice⟩ := h.quoted sla (by simp [State.quotes, hi])
    have ha : available = config.reserved := hb
    simp only [advanceBid]
    split
    case h_1 cpuInitial memInitial hp =>
      obtain ⟨bid, hbid, hpos⟩ := linearBid_pos hp hpos hprice
      rw [ha, hbid]
      exact ⟨rfl, hset ⟨hn, shared_of_priceable hprice, hpos⟩⟩
    case h_2 ratios hp => exact ⟨rfl, hset ⟨ha, hp, hn, hprice, by simp⟩⟩
  | .utilising ratios sla name available now (entry :: rest) events =>
    obtain ⟨ha, hp, hn, hprice, he⟩ := hb
    simp only [advanceBid]
    split
    case h_1 => exact ⟨rfl, hset ⟨ha, hp, hn, hprice, he⟩⟩
    case h_2 other ho =>
      obtain ⟨timestamp, ht⟩ := Option.isSome_iff_exists.mp
        (h.estimated (entry, other) (by simp [State.estimates, hi, ho]))
      obtain ⟨r, hl, _, hs⟩ := FunctionTracking.getFinishableSla_eq_some.mp ho
      rw [ht]
      refine ⟨rfl, hset ⟨ha, hp, hn, hprice, fun event hm => ?_⟩⟩
      cases List.mem_append.mp hm
      case inl hm => exact he event hm
      case inr hm =>
        rw [List.mem_singleton.mp hm]
        exact hs ▸ (hr.tracking _ r hl).2
  | .utilising ratios sla name available now [] events =>
    obtain ⟨ha, hp, hn, hprice, he⟩ := hb
    simp only [advanceBid]
    cases utilisation_spec now hc hp he
    case inl hu => rw [hu]; exact ⟨rfl, herase⟩
    case inr hu =>
      obtain ⟨u, hu, h₀⟩ := hu
      obtain ⟨cpu, hd, hbid⟩ := quadraticBid_pos hp hpos hprice h₀
      have hd : config.rationals.div sla.cpu available.2 = some cpu := ha ▸ hd
      simp only [hu, hd, if_pos hbid]
      exact ⟨rfl, hset ⟨hn, shared_of_priceable hprice, lt_trans (by norm_num) hbid⟩⟩
  | .limiting sla name bid =>
    simp only [advanceBid]
    split <;> exact ⟨rfl, hset hb⟩
  | .resetting sla name bid even inc =>
    simp only [advanceBid]
    split
    case isTrue  => exact ⟨rfl, herase⟩
    case isFalse => exact ⟨rfl, hset hb⟩
  | .inserting sla name bid =>
    simp only [advanceBid]
    rw [if_pos hb.2.2]
    exact ⟨rfl, herase⟩

-- What every panic comes from.
theorem panics_step (e : step config s a = some s') :
    s'.panics = s.panics ∨
    (∃ i b, a = .bidding i ∧ s.bids[i]? = some b ∧ s' = advanceBid config s i b) ∨
    (∃ ok l, a = .locked ok ∧ s.locked = some l ∧ s' = advanceLocked config s ok l) ∨
    ∃ id duration, .spawned id duration ∈ s.timers ∧ sleepMillis duration = none := by
  cases a <;> simp only [step] at e
  case tick | bid => cases e; exact .inl rfl
  case pay | provision =>
    split at e <;> cases e
    exact .inl rfl
  case bidding i =>
    obtain ⟨b, hb, e⟩ := Option.map_eq_some_iff.mp e
    exact .inr (.inl ⟨i, b, rfl, hb, e.symm⟩)
  case locked ok =>
    obtain ⟨l, hl, e⟩ := Option.map_eq_some_iff.mp e
    exact .inr (.inr (.inl ⟨ok, l, rfl, hl, e.symm⟩))
  case liveness i ok giveUp =>
    obtain ⟨l, _, e⟩ := Option.bind_eq_some_iff.mp e
    cases l <;> simp only [advanceLiveness] at e <;> (repeat' split at e) <;> cases e <;> exact .inl rfl
  case timer i =>
    obtain ⟨t, ht, e⟩ := Option.bind_eq_some_iff.mp e
    cases t <;> simp only [advanceTimer] at e
    case spawned id duration =>
      split at e <;> cases e
      case h_1 hs => exact .inr (.inr (.inr ⟨id, duration, List.mem_of_getElem? ht, hs⟩))
      case h_2    => exact .inl rfl
    case sleeping | waiting =>
      split at e <;> cases e
      exact .inl rfl

-- No assertion is in reach.
structure Solvent (config : Config) (s : State) : Prop where
  configured  : Configured config s.resources
  reads       : Reads s
  recorded    : Recorded (fun _ sla => sla.Nonneg ∧ config.Shared sla) s
  priced      : ∀ b ∈ s.bids, b.Priced config
  matching    : Matching s
  used_nonneg : ∀ name used, s.resources.used.lookup name = some used → 0 ≤ used
  backed      : ∀ name used, s.resources.used.lookup name = some used → s.owed (bookedOn name) ≤ used
  sleeps      : ∀ id duration, .spawned id duration ∈ s.timers → (sleepMillis duration).isSome = true
  books       : Accepted config.Books s
  unharmed    : s.panics = []

namespace Solvent

theorem nonneg (h : Solvent config s) : Recorded (fun _ sla => sla.Nonneg) s :=
  h.recorded.mono fun _ _ hs => hs.1

theorem payable (h : Solvent config s) : Payable config s :=
  payable_of_affords h.configured h.reads (affords_of_books h.reads h.nonneg h.used_nonneg h.books)

-- What is released has been booked, even if other bookings have been lost.
theorem setUsed_ok {caller : Caller} {record : Finished} {used : Information × Ratio} (h : Solvent config s)
    (hp : Precise config s (.locked ok)) (hl : s.locked = some (.finish caller (.setUsed id record used))) :
    ∃ resources, s.resources.setUsed record.node (releasing config.rationals used record.sla).1
      (releasing config.rationals used record.sla).2 = .ok resources := by
  have hu : s.resources.used.lookup record.node = some used := h.reads _ hl
  refine ResourceTracking.setUsed_of_nonneg (h.configured.keyExists (Map.mem_of_lookup hu)) ?_
  have he : releasing config.rationals used record.sla = used - record.sla.booked :=
    hp.frees (record.sla, used) (by simp [State.frees, hl])
  have hb : s.tracking.load (bookedOn record.node) + record.sla.booked ≤ used := by
    simpa [State.owed, hl, Locked.pending, bookedOn] using h.backed _ _ hu
  rw [Prod.mk.eta, he]
  exact sub_nonneg.mpr ((le_add_of_nonneg_left (load_bookedOn_nonneg h.nonneg _)).trans hb)

theorem inserts (h : Solvent config s) : ∀ sla ∈ s.inserts a, sla.Nonneg ∧ config.Shared sla := by
  intro sla hs
  cases a <;> try contradiction
  case bidding i =>
    simp only [State.inserts] at hs
    split at hs <;> cases hs
    case h_1 hb =>
      have hb := h.priced _ (List.mem_of_getElem? hb)
      exact ⟨hb.1, hb.2.1⟩

theorem priced_step (hpos : config.pricing.Positive) (h : Solvent config s) (hh : Harmless config s a)
    (e : Fog.step config s a = some s') : ∀ b ∈ s'.bids, b.Priced config := by
  cases bids_step e
  case inl he => exact he ▸ h.priced
  case inr he =>
    cases he
    case inl he =>
      have ⟨sla, _, he⟩ := he
      intro b hb
      cases List.mem_append.mp (he ▸ hb)
      case inl hb => exact h.priced b hb
      case inr hb => exact List.mem_singleton.mp hb ▸ trivial
    case inr he =>
      have ⟨i, b, ha, hb, hs⟩ := he
      subst ha hs
      exact (priced_advanceBid hpos h.configured h.recorded h.priced hb hh).2

theorem unharmed_step (hpos : config.pricing.Positive) (h : Solvent config s) (hh : Harmless config s a)
    (e : Fog.step config s a = some s') : s'.panics = [] := by
  rcases panics_step e with he | ⟨i, b, ha, hb, he⟩ | ⟨ok, l, ha, hl, he⟩ | ⟨id, duration, hm, hs⟩
  · exact he.trans h.unharmed
  · subst ha he
    exact (priced_advanceBid hpos h.configured h.recorded h.priced hb hh).1.trans h.unharmed
  · subst ha he
    rcases panics_advanceLocked config s ok l with he | ⟨_, _, _, _, _, rfl, hs⟩ | ⟨_, _, _, _, _, rfl, hs⟩
    · exact he.trans h.unharmed
    · have ⟨_, hr⟩ := h.payable _ _ _ _ hl
      cases hr.symm.trans hs
    · have ⟨_, hr⟩ := h.setUsed_ok hh.precise hl
      cases hr.symm.trans hs
  · have := h.sleeps id duration hm
    simp [hs] at this

theorem step (hpos : config.pricing.Positive) (h : Solvent config s) (hh : Harmless config s a)
    (e : Fog.step config s a = some s') : Solvent config s' where
  configured  := configured_step h.configured e
  reads       := reads_step h.reads e
  recorded    := h.recorded.step h.inserts e
  priced      := h.priced_step hpos hh e
  matching    := matching_step h.matching hh.current e
  used_nonneg := used_nonneg_step h.used_nonneg e
  backed      := backed_step h.reads h.nonneg h.matching hh.current h.books h.payable hh.precise h.backed e
  sleeps      := by
    intro id duration ht
    cases spawned_step e ht
    case inl ht => exact h.sleeps id duration ht
    case inr hs => exact hh.spawned duration hs
  books       := accepted_step h.books hh.precise.admits e
  unharmed    := h.unharmed_step hpos hh e

theorem new : Solvent config (.new config now) where
  configured  := configured_new
  reads       := fun l hl => by simp [State.new] at hl
  recorded    := {
    tracking := by simp [State.new]
    locked   := by simp [State.new]
    lives    := by simp [State.new]
  }
  priced      := by simp [State.new]
  matching    := fun l hl => by simp [State.new] at hl
  used_nonneg := used_nonneg_new
  backed      := backed_new
  sleeps      := by simp [State.new]
  books       := accepted_new
  unharmed    := rfl

end Solvent

end Fog
