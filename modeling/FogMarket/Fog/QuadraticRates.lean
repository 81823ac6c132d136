import Mathlib.Algebra.BigOperators.Group.List.Basic
import Mathlib.Data.List.Forall2
import Mathlib.Tactic.Ring
import FogMarket.Fog.Steps

open Transition

namespace Fog

-- The acts of a call of `bid_on` and of a call of `pay_function` on the way to their end. The callbacks
-- of functions which have been paid before go on beside them.
def Act.Bids : Act → Prop
  | .bidding _ | .timer _ => True
  | _                     => False

def Act.Pays : Act → Prop
  | .locked _ | .timer _ => True
  | _                    => False

instance : DecidablePred Act.Bids := fun a => by
  cases a <;> unfold Act.Bids <;> infer_instance

instance : DecidablePred Act.Pays := fun a => by
  cases a <;> unfold Act.Pays <;> infer_instance

-- A call of `bid_on` which comes to a bid.
structure Quotes (config : Config) (s : State) (sla : Sla) (bid : ℚ) (s' : State) : Prop where
  run      : ∃ s₁ as, step config s (.bid sla) = some s₁ ∧ Run (step config) (fun _ => Act.Bids) s₁ as s'
  ended    : s'.bids = []
  proposal : ∃ proposal, s'.tracking.getProposed sla.id = some proposal ∧ proposal.bid = bid

-- A call of `pay_function` which succeeds, i.e. which puts the expiry of the function into the queue.
structure Accepts (config : Config) (s : State) (id : SlaId) (s' : State) : Prop where
  run    : ∃ s₁ as, step config s (.pay id) = some s₁ ∧ Run (step config) (fun _ => Act.Pays) s₁ as s'
  ended  : s'.locked = none
  queued : s'.tasks.length = s.tasks.length + 1

-- SLAs which are quoted and then paid, one after the other, while the clock stands still.
inductive Deals (config : Config) : State → List (Sla × ℚ) → State → Prop
  | nil {s} : Deals config s [] s
  | timer {s₁ s₂ s₃ i deals} (e : step config s₁ (.timer i) = some s₂) (r : Deals config s₂ deals s₃) :
      Deals config s₁ deals s₃
  | cons {s₁ s₂ s₃ s₄ sla bid deals} (q : Quotes config s₁ sla bid s₂) (a : Accepts config s₂ sla.id s₃)
      (r : Deals config s₃ deals s₄) : Deals config s₁ ((sla, bid) :: deals) s₄

-- Nothing is running, in progress or on offer.
structure Idle (config : Config) (s : State) : Prop where
  configured : Configured config s.resources
  proposed   : ∀ id, s.tracking.getProposed id = none
  tasks      : s.tasks = []
  timers     : s.timers = []
  bids       : s.bids = []
  locked     : s.locked = none

-- The share of the available cpu of a node which SLAs take together.
def share (config : Config) (slas : List Sla) : ℚ :=
  (slas.map fun sla => sla.cpu / config.reservedCpu).sum

-- What it costs to run a share of the cpu of a node for a number of seconds.
def energyCost (ratios : Quadratic) (seconds share : ℚ) : ℚ :=
  ratios.electricityPrice * seconds * (ratios.aa * share ^ 2 + ratios.bb * share)

-- An entry of the queue for an SLA which has been accepted.
structure Queued (db : FunctionTracking) (now : ℤ) (d : ℕ) (sla : Sla) (entry : TaskEntry) : Prop where
  id         : entry.sla = sla.id
  createdAt  : entry.createdAt = now
  finishable : ∃ sla' : Sla, db.getFinishableSla entry.sla = some sla' ∧ sla'.cpu = sla.cpu ∧
    sla'.duration = 1000 * d

-- The event of `get_utilisation_variations` for such an entry.
structure Expires (now : ℤ) (d : ℕ) (sla : Sla) (event : UnprovisionEvent) : Prop where
  cpu       : event.sla.cpu = sla.cpu
  timestamp : event.timestamp = now + 1000 * d

-- The callback does not begin before the clock goes on.
def Timer.Ahead (now : ℤ) : Timer → Prop
  | .spawned _ duration => 0 < duration
  | .sleeping _ due     => now < due
  | .waiting _          => False

-- The price of an SLA on a node which has accepted other ones.
def price (config : Config) (ratios : Quadratic) (d : ℕ) (accepted : List Sla) (sla : Sla) : ℚ :=
  quadraticBid ratios (sla.cpu / config.reservedCpu) (d * share config accepted) sla

-- What a call of `bid_on` has found out on the way to its bid.
def Bidding.Quoting (config : Config) (ratios : Quadratic) (d : ℕ) (accepted : List Sla) (sla : Sla)
    (db : FunctionTracking) (now : ℤ) : Bidding → Prop
  | .searching sla' _         => sla' = sla
  | .quoting sla' _ available => sla' = sla ∧ available = config.reserved
  | .utilising ratios' sla' _ available now' rest events =>
    ratios' = ratios ∧ sla' = sla ∧ available = config.reserved ∧ now' = now ∧
      ∃ done waiting, done ++ waiting = accepted ∧ List.Forall₂ (Expires now d) done events ∧
        List.Forall₂ (Queued db now d) waiting rest
  | .limiting sla' _ bid | .resetting sla' _ bid _ _ | .inserting sla' _ bid =>
    sla' = sla ∧ bid = price config ratios d accepted sla ∧ 1 / 1000000 < bid

-- What holds from the first act of a deal to its last one.
structure Beside (config : Config) (now : ℤ) (s : State) : Prop where
  configured : Configured config s.resources
  clock      : s.now = now
  timers     : ∀ t ∈ s.timers, t.Ahead now

-- A node between two deals.
structure Settled (config : Config) (now : ℤ) (d : ℕ) (accepted : List Sla) (s : State) : Prop where
  beside   : Beside config now s
  bids     : s.bids = []
  locked   : s.locked = none
  proposed : ∀ id, s.tracking.getProposed id = none
  tasks    : List.Forall₂ (Queued s.tracking now d) accepted s.tasks

-- How far a call of `bid_on` has come.
inductive Quote (config : Config) (ratios : Quadratic) (d : ℕ) (accepted : List Sla) (sla : Sla)
    (db : FunctionTracking) (s : State) : Prop
  | running {b} (hb : s.bids = [b]) (ht : s.tracking = db)
      (h : b.Quoting config ratios d accepted sla db s.now)
  | failed (hb : s.bids = []) (ht : s.tracking = db)
  | inserted {name} (hb : s.bids = []) (hl : 1 / 1000000 < price config ratios d accepted sla)
      (ht : s.tracking = db.insert { bid := price config ratios d accepted sla, sla := sla, node := name })

-- A node which quotes, after it has accepted other SLAs.
structure Quoting (config : Config) (ratios : Quadratic) (now : ℤ) (d : ℕ) (accepted : List Sla) (sla : Sla)
    (db : FunctionTracking) (s : State) : Prop where
  beside : Beside config now s
  locked : s.locked = none
  tasks  : List.Forall₂ (Queued db now d) accepted s.tasks
  quote  : Quote config ratios d accepted sla db s

-- What a call of `pay_function` has found out about the proposal it accepts.
def Paying.Accepting (proposal : Proposed) (db : FunctionTracking) (now : ℤ) (tracking : FunctionTracking) :
    Paying → Prop
  | .getProposed id => id = proposal.sla.id ∧ tracking = db
  | .check id p     => id = proposal.sla.id ∧ p = proposal ∧ tracking = db
  | .save id p _    => id = proposal.sla.id ∧ p = proposal ∧ tracking = db
  | .getPaid id p _ =>
    id = proposal.sla.id ∧ p = proposal ∧ tracking = db.savePaid proposal.sla.id proposal.toPaid
  | .setUsed id p _ paid =>
    id = proposal.sla.id ∧ p = proposal ∧ paid = proposal.toPaid ∧
      tracking = db.savePaid proposal.sla.id proposal.toPaid
  | .spawn id paid =>
    id = proposal.sla.id ∧ paid = proposal.toPaid ∧ tracking = db.savePaid proposal.sla.id proposal.toPaid
  | .push entry =>
    entry = { sla := proposal.sla.id, node := proposal.node, createdAt := now } ∧
      tracking = db.savePaid proposal.sla.id proposal.toPaid

-- How far a call of `pay_function` has come.
inductive Payment (proposal : Proposed) (db : FunctionTracking) (now : ℤ) (tasks : List TaskEntry) (s : State) : Prop
  | running {p} (hl : s.locked = some (.pay p)) (hq : s.tasks = tasks) (h : p.Accepting proposal db now s.tracking)
  | failed (hl : s.locked = none) (hq : s.tasks = tasks)
  | queued (hl : s.locked = none) (ht : s.tracking = db.savePaid proposal.sla.id proposal.toPaid)
      (hq : s.tasks = tasks ++ [{ sla := proposal.sla.id, node := proposal.node, createdAt := now }])

-- A node which is paid for a proposal.
structure Charging (config : Config) (now : ℤ) (proposal : Proposed) (db : FunctionTracking)
    (tasks : List TaskEntry) (s : State) : Prop where
  beside  : Beside config now s
  bids    : s.bids = []
  payment : Payment proposal db now tasks s

-- A node which has been asked for an SLA, before it is paid.
structure Offering (config : Config) (now : ℤ) (d : ℕ) (accepted : List Sla) (proposal : Proposed)
    (db : FunctionTracking) (s : State) : Prop where
  beside   : Beside config now s
  bids     : s.bids = []
  locked   : s.locked = none
  proposed : ∀ id, db.getProposed id = none
  tasks    : List.Forall₂ (Queued db now d) accepted s.tasks
  tracking : s.tracking = db.insert proposal

-- Deals which are not interrupted, and which come to the given bids.
def dealsExec (config : Config) (s : State) : List (Sla × ℚ) → Option State
  | [] => some s
  | (sla, bid) :: deals => do
    let bidding ← step config s (.bid sla)
    let quoted ← exec (step config) (fun _ => Act.Bids) bidding (.replicate (s.tasks.length + 6) (.bidding 0))
    let paying ← step config quoted (.pay sla.id)
    let paid ← exec (step config) (fun _ => Act.Pays) paying (.replicate 7 (.locked true))
    if quoted.bids.isEmpty ∧ (quoted.tracking.getProposed sla.id).map (·.bid) = some bid ∧
        paid.locked.isNone ∧ paid.tasks.length = quoted.tasks.length + 1 then
      dealsExec config paid deals
    else
      none

def exampleQuadratic : Config :=
  { exampleConfig ["k8s"] with pricing := .quadratic { aa := 2, bb := 3, electricityPrice := 10 } }

variable {config : Config} {s s' : State} {ratios : Quadratic} {d : ℕ} {accepted : List Sla} {sla : Sla}
variable {a : Act} {b : Bidding} {i : ℕ} {now : ℤ} {events : List UnprovisionEvent} {resources : ResourceTracking}
variable {proposal : Proposed} {db : FunctionTracking} {tasks : List TaskEntry}

-- A bid is what the accepted SLA adds to the cost.
theorem price_eq (h : sla.duration = 1000 * d) :
    price config ratios d accepted sla =
      energyCost ratios d (share config (accepted ++ [sla])) - energyCost ratios d (share config accepted) := by
  have hs : share config (accepted ++ [sla]) = share config accepted + sla.cpu / config.reservedCpu := by
    simp [share]
  simp only [price, quadraticBid, energyCost, hs, h]
  ring

theorem timestamp_eq {entry : TaskEntry} {time : ℤ} (hd : sla.duration = 1000 * d)
    (hn : minTime ≤ entry.createdAt) (h : entry.timestamp sla = some time) : time = entry.createdAt + 1000 * d := by
  have ht : truncate sla.duration = max (-2 ^ 63) (min (2 ^ 63 - 1) (1000 * (d : ℤ))) := by
    have hf : ⌊(1000 * d : ℚ)⌋ = 1000 * d := by exact_mod_cast Int.floor_natCast (R := ℚ) (1000 * d)
    have hp : (0 : ℚ) ≤ 1000 * d := by positivity
    rw [truncate, hd, if_pos hp, hf]
  simp only [TaskEntry.timestamp, ht] at h
  split at h <;> try contradiction
  split at h <;> try contradiction
  case isTrue hm =>
    -- A duration which does not fit into an `i64` ends after the last `DateTime`.
    cases h
    simp only [minTime, maxTime] at hn hm
    omega

theorem div_exact {p q r : ℚ} (h : Rationals.exact.div p q = some r) : r = p / q := by
  simp only [Rationals.exact] at h
  split at h <;> cases h
  rfl

theorem utilisation_eq {u : ℚ} (hc : Configured config resources) (h : List.Forall₂ (Expires now d) accepted events)
    (hu : utilisation .exact resources now events = .ok u) : u = d * share config accepted := by
  induction h generalizing u
  case nil =>
    cases hu
    simp [share]
  case cons sla event slas events he _ hi =>
    simp only [utilisation] at hu
    split at hu <;> try contradiction
    case h_2 memory cpu ha =>
      split at hu <;> try contradiction
      case h_2 sharing hd =>
        have hcpu : cpu = config.reservedCpu :=
          congrArg Prod.snd (hc.available_eq (ResourceTracking.getAvailable_eq_some ha))
        have hs : max (event.timestamp - now) 0 / 1000 = d := by
          rw [he.timestamp]
          omega
        cases hr : utilisation .exact resources now events
        case error => simp [hr, Except.map] at hu
        case ok r =>
          simp only [hr, Except.map, hs] at hu
          cases hu
          rw [hi hr, div_exact hd, hcpu, he.cpu]
          simp only [share, List.map_cons, List.sum_cons, Int.cast_natCast]
          ring

theorem timer_step (h : ∀ t ∈ s.timers, t.Ahead s.now) (e : step config s (.timer i) = some s') :
    ∃ timers panics, s' = { s with timers := timers, panics := panics } ∧ ∀ t ∈ timers, t.Ahead s.now := by
  have ⟨t, ht, e⟩ := Option.bind_eq_some_iff.mp e
  have ha := h t (List.mem_of_getElem? ht)
  cases t <;> simp only [advanceTimer] at e
  case spawned id duration =>
    split at e <;> cases e
    case h_1 => exact ⟨_, _, rfl, fun t ht => h t (List.mem_of_mem_eraseIdx ht)⟩
    case h_2 millis hm =>
      refine ⟨_, _, rfl, fun t ht => ?_⟩
      cases List.mem_or_eq_of_mem_set ht
      case inl ht => exact h t ht
      case inr he =>
        have hp : 0 < ⌈duration⌉ := Int.ceil_pos.mpr ha
        simp only [sleepMillis] at hm
        split at hm <;> cases hm
        subst he
        simp only [Timer.Ahead]
        omega
  case sleeping id due =>
    split at e <;> cases e
    case isTrue hd => exact absurd ha (not_lt.mpr hd)
  case waiting => exact ha.elim

theorem Queued.expires {entry : TaskEntry} {other : Sla} {time : ℤ} (hn : minTime ≤ now)
    (h : Queued db now d sla entry) (ho : db.getFinishableSla entry.sla = some other)
    (ht : entry.timestamp other = some time) :
    Expires now d sla { timestamp := time, sla := other, node := entry.node } := by
  have ⟨sla', hs, hcpu, hdur⟩ := h.finishable
  cases ho.symm.trans hs
  exact ⟨hcpu, h.createdAt ▸ timestamp_eq hdur (h.createdAt ▸ hn) ht⟩

theorem Bidding.Quoting.advance (hx : config.rationals = .exact) (hc : Configured config s.resources)
    (hp : config.pricing = .quadratic ratios) (hn : minTime ≤ s.now)
    (ht : List.Forall₂ (Queued s.tracking s.now d) accepted s.tasks) (hb : s.bids = [b])
    (h : b.Quoting config ratios d accepted sla s.tracking s.now) :
    Quote config ratios d accepted sla s.tracking (advanceBid config s 0 b) := by
  have hend : (s.endBid 0).bids = [] := by simp [State.endBid, hb]
  have hset (b' : Bidding) : (s.setBid 0 b').bids = [b'] := by simp [State.setBid, hb]
  cases b
  case searching sla' rest =>
    cases rest <;> simp only [advanceBid]
    case nil => exact .failed hend rfl
    case cons name rest =>
      split
      case h_2 => exact .failed hend rfl
      case h_1 used available hu ha =>
        have ha := hc.available_eq (ResourceTracking.getAvailable_eq_some ha)
        split
        case isTrue  => exact .running (hset _) rfl ⟨h, ha⟩
        case isFalse => exact .running (hset _) rfl h
  case quoting sla' name available =>
    obtain ⟨hs, ha⟩ := h
    simp only [advanceBid, hp]
    exact .running (hset _) rfl ⟨rfl, hs, ha, rfl, [], accepted, rfl, .nil, ht⟩
  case utilising ratios' sla' name available now rest events =>
    obtain ⟨hr, hs, ha, hw, done, waiting, hd, he, hq⟩ := h
    subst hr hs ha hw
    cases hq
    case nil =>
      rw [List.append_nil] at hd
      simp only [advanceBid]
      split
      case h_1 | h_2 => exact .failed hend rfl
      case h_3 u hu =>
        rw [hx] at hu
        have hu : u = d * share config accepted := utilisation_eq hc (hd ▸ he) hu
        split
        case h_1 => exact .failed hend rfl
        case h_2 slaCpu hdiv =>
          rw [hx] at hdiv
          have hcpu : slaCpu = sla'.cpu / config.reservedCpu := div_exact hdiv
          split
          case isTrue hl => exact .running (hset _) rfl ⟨rfl, by rw [price, hu, hcpu], hl⟩
          case isFalse   => exact .failed hend rfl
    case cons sla₁ entry waiting rest hq hrest =>
      obtain ⟨other, ho, _⟩ := hq.finishable
      simp only [advanceBid, ho]
      split
      case h_1 => exact .failed hend rfl
      case h_2 time ht =>
        have he := List.rel_append he (.cons (hq.expires hn ho ht) .nil)
        exact .running (hset _) rfl ⟨rfl, rfl, rfl, rfl, done ++ [sla₁], waiting, by simpa using hd, he, hrest⟩
  case limiting sla' name bid =>
    simp only [advanceBid]
    split <;> exact .running (hset _) rfl h
  case resetting sla' name bid even inc =>
    simp only [advanceBid]
    split
    case isTrue  => exact .failed hend rfl
    case isFalse => exact .running (hset _) rfl h
  case inserting sla' name bid =>
    obtain ⟨hs, he, hl⟩ := h
    subst hs he
    simp only [advanceBid]
    split <;> exact .inserted hend hl rfl

namespace Beside

theorem timer (h : Beside config now s) (e : step config s (.timer i) = some s') :
    Beside config now s' ∧ ∃ timers panics, s' = { s with timers := timers, panics := panics } := by
  have ⟨timers, panics, he, ht⟩ := timer_step (h.clock ▸ h.timers) e
  subst he
  exact ⟨⟨h.configured, h.clock, h.clock ▸ ht⟩, timers, panics, rfl⟩

theorem bidding (h : Beside config now s) (hb : s.bids[i]? = some b) :
    Beside config now (advanceBid config s i b) := by
  have f : Frame s (advanceBid config s i b) := frame_advanceBid
  have e : step config s (.bidding i) = some (advanceBid config s i b) := by simp [step, hb]
  exact ⟨configured_step h.configured e, rest_advanceBid.2.1.trans h.clock, f.timers ▸ h.timers⟩

end Beside

theorem Quoting.step (hx : config.rationals = .exact) (hp : config.pricing = .quadratic ratios) (hn : minTime ≤ now)
    (h : Quoting config ratios now d accepted sla db s) (ha : a.Bids) (e : step config s a = some s') :
    Quoting config ratios now d accepted sla db s' := by
  cases a <;> try contradiction
  case timer i =>
    have ⟨hb, timers, panics, he⟩ := h.beside.timer e
    subst he
    refine ⟨hb, h.locked, h.tasks, ?_⟩
    cases h.quote
    case running hb ht h  => exact .running hb ht h
    case failed hb ht     => exact .failed hb ht
    case inserted hb hl ht => exact .inserted hb hl ht
  case bidding i =>
    have ⟨b, hi, e⟩ := Option.map_eq_some_iff.mp e
    have f : Frame s (advanceBid config s i b) := frame_advanceBid
    subst e
    refine ⟨h.beside.bidding hi, f.locked.trans h.locked, f.tasks ▸ h.tasks, ?_⟩
    cases h.quote
    case failed hb _ | inserted hb _ _ => simp [hb] at hi
    case running b' hb ht hq =>
      -- There is no other call than the one which quotes.
      have ⟨hz, he⟩ : i = 0 ∧ b' = b := by
        rw [hb] at hi
        cases i <;> simp_all
      subst hz he
      subst ht
      have hn : minTime ≤ s.now := h.beside.clock ▸ hn
      exact hq.advance hx h.beside.configured hp hn (h.beside.clock ▸ h.tasks) hb

theorem Paying.Accepting.advance {p : Paying} (hg : db.getProposed proposal.sla.id = some proposal)
    (hn : s.now = now) (hq : s.tasks = tasks)
    (h : p.Accepting proposal db now s.tracking) : Payment proposal db now tasks (advancePay config s p) := by
  cases p
  case getProposed id =>
    obtain ⟨hi, ht⟩ := h
    simp only [advancePay, hi, ht, hg]
    exact .running rfl hq ⟨rfl, rfl, ht⟩
  case check id p =>
    simp only [advancePay]
    split
    case h_2 => exact .failed rfl hq
    case h_1 =>
      split
      case isTrue  => exact .running rfl hq h
      case isFalse => exact .failed rfl hq
  case save id p used =>
    obtain ⟨hi, hp, ht⟩ := h
    subst hi hp
    exact .running rfl hq ⟨rfl, rfl, ht ▸ rfl⟩
  case getPaid id p used =>
    obtain ⟨hi, hp, ht⟩ := h
    subst hi hp
    have hp : s.tracking.getPaid p.sla.id = some p.toPaid := by
      rw [FunctionTracking.getPaid_eq_some, ht,
        FunctionTracking.lookup_savePaid (FunctionTracking.getProposed_eq_some.mp hg), if_pos rfl]
    simp only [advancePay, hp]
    exact .running rfl hq ⟨rfl, rfl, rfl, ht⟩
  case setUsed id p used paid =>
    obtain ⟨hi, _, hp, ht⟩ := h
    simp only [advancePay]
    split
    case h_1 | h_2 => exact .failed rfl hq
    case h_3       => exact .running rfl hq ⟨hi, hp, ht⟩
  case spawn id paid =>
    obtain ⟨hi, hp, ht⟩ := h
    subst hi hp hn
    exact .running rfl hq ⟨rfl, ht⟩
  case push entry =>
    obtain ⟨he, ht⟩ := h
    subst he hq
    exact .queued rfl ht rfl

theorem now_advancePay (config : Config) (s : State) (p : Paying) : (advancePay config s p).now = s.now := by
  cases p <;> simp only [advancePay] <;> (repeat' split) <;> rfl

theorem Charging.step (hg : db.getProposed proposal.sla.id = some proposal) (hd : 0 < proposal.sla.duration)
    (h : Charging config now proposal db tasks s) (ha : a.Pays) (e : step config s a = some s') :
    Charging config now proposal db tasks s' := by
  cases a <;> try contradiction
  case timer i =>
    have ⟨hb, timers, panics, he⟩ := h.beside.timer e
    subst he
    refine ⟨hb, h.bids, ?_⟩
    cases h.payment
    case running hl hq h => exact .running hl hq h
    case failed hl hq    => exact .failed hl hq
    case queued hl ht hq => exact .queued hl ht hq
  case locked ok =>
    have ⟨l, hi, he⟩ := Option.map_eq_some_iff.mp e
    cases h.payment
    case failed hl _ | queued hl _ _ => simp [hl] at hi
    case running p hl hq hp =>
      cases hl.symm.trans hi
      subst he
      have hn := (now_advancePay config s p).trans h.beside.clock
      have hb := (bids_advanceLocked config s ok (.pay p)).trans h.bids
      have ht : ∀ t ∈ (advanceLocked config s ok (.pay p)).timers, t.Ahead now := by
        rcases timers_advanceLocked config s ok (.pay p) with ht | ⟨id, paid, he, ht⟩ <;> rw [ht]
        case inl => exact h.beside.timers
        case inr =>
          cases he
          have ⟨_, hpaid, _⟩ := hp
          subst hpaid
          intro t ht
          cases List.mem_append.mp ht
          case inl ht => exact h.beside.timers t ht
          case inr ht => exact List.mem_singleton.mp ht ▸ hd
      exact ⟨⟨configured_step h.beside.configured e, hn, ht⟩, hb, hp.advance hg h.beside.clock hq⟩

theorem Settled.of_idle (h : Idle config s) : Settled config s.now d [] s where
  beside   := ⟨h.configured, rfl, by simp [h.timers]⟩
  bids     := h.bids
  locked   := h.locked
  proposed := h.proposed
  tasks    := h.tasks ▸ .nil

theorem Settled.timer (h : Settled config now d accepted s) (e : step config s (.timer i) = some s') :
    Settled config now d accepted s' := by
  have ⟨hb, timers, panics, he⟩ := h.beside.timer e
  subst he
  exact { h with beside := hb }

theorem Settled.quotes {bid : ℚ} (hx : config.rationals = .exact) (hp : config.pricing = .quadratic ratios)
    (hn : minTime ≤ now) (h : Settled config now d accepted s) (q : Quotes config s sla bid s') :
    bid = price config ratios d accepted sla ∧ 1 / 1000000 < bid ∧
    ∃ name, Offering config now d accepted { bid := bid, sla := sla, node := name } s.tracking s' := by
  have ⟨s₁, as, e, r⟩ := q.run
  have ⟨proposal, hg, hb⟩ := q.proposal
  cases e
  have hs : Quoting config ratios now d accepted sla s.tracking
      { s with bids := s.bids ++ [.searching sla s.resources.nodes] } := {
    beside := ⟨h.beside.configured, h.beside.clock, h.beside.timers⟩
    locked := h.locked
    tasks  := h.tasks
    quote  := .running (b := .searching sla s.resources.nodes) (by rw [h.bids, List.nil_append]) rfl rfl
  }
  have hs' := r.invariant hs fun h ha e => h.step hx hp hn ha e
  cases hs'.quote
  case running hr _ _ => simp [q.ended] at hr
  case failed ht => simp [ht, h.proposed] at hg
  case inserted name _ hl ht =>
    -- There has been no proposal before.
    have he : bid = price config ratios d accepted sla := by
      rw [FunctionTracking.getProposed_eq_some, ht, FunctionTracking.lookup_insert, if_pos rfl] at hg
      cases hg
      exact hb.symm
    subst he
    exact ⟨rfl, hl, name, hs'.beside, q.ended, hs'.locked, h.proposed, hs'.tasks, ht⟩

theorem duration_pos (hd : sla.duration = 1000 * d) (hl : 1 / 1000000 < price config ratios d accepted sla) :
    0 < sla.duration := by
  cases d
  case zero =>
    rw [price_eq hd] at hl
    norm_num [energyCost] at hl
  case succ d =>
    rw [hd]
    positivity

-- The payment of a function changes its own record only.
theorem Queued.paid {db' : FunctionTracking} {other : Sla} {entry : TaskEntry} (hd : sla.duration = 1000 * d)
    (hid : other.id = sla.id → other.cpu = sla.cpu) {paid : Paid} (hs : paid.sla = sla)
    (ht : ∀ x, db'.lookup x = if x = sla.id then some (.paid paid) else db.lookup x)
    (h : Queued db now d other entry) : Queued db' now d other entry where
  id         := h.id
  createdAt  := h.createdAt
  finishable := by
    by_cases he : entry.sla = sla.id
    case pos =>
      refine ⟨sla, ?_, (hid (h.id.symm.trans he)).symm, hd⟩
      simp [FunctionTracking.getFinishableSla, ht, he, hs]
    case neg =>
      obtain ⟨sla', hf, hcpu, hdur⟩ := h.finishable
      refine ⟨sla', ?_, hcpu, hdur⟩
      rwa [FunctionTracking.getFinishableSla, ht, if_neg he]

theorem Offering.accepts {bid : ℚ} {name : String} (hd : sla.duration = 1000 * d) (hpos : 0 < sla.duration)
    (hid : ∀ other ∈ accepted, other.id = sla.id → other.cpu = sla.cpu)
    (h : Offering config now d accepted { bid := bid, sla := sla, node := name } db s)
    (a : Accepts config s sla.id s') : Settled config now d (accepted ++ [sla]) s' := by
  let proposal : Proposed := { bid := bid, sla := sla, node := name }
  obtain ⟨s₁, as, e, r⟩ := a.run
  simp only [step, h.locked] at e
  cases e
  have hl : s.tracking.lookup sla.id = some (.proposed proposal) := by
    rw [h.tracking, FunctionTracking.lookup_insert, if_pos rfl]
  have hg := FunctionTracking.getProposed_eq_some.mpr hl
  have hc : Charging config now proposal s.tracking s.tasks (s.enter (.pay (.getProposed sla.id))) :=
    ⟨⟨h.beside.configured, h.beside.clock, h.beside.timers⟩, h.bids, .running rfl rfl ⟨rfl, rfl⟩⟩
  have hc := r.invariant hc fun h ha e => h.step hg hpos ha e
  cases hc.payment
  case running hr _ _ => simp [a.ended] at hr
  case failed hq => exact absurd (hq ▸ a.queued) (by simp)
  case queued _ ht hq =>
    have hlookup : ∀ x, s'.tracking.lookup x = if x = sla.id then some (.paid proposal.toPaid) else db.lookup x := by
      intro x
      rw [ht, FunctionTracking.lookup_savePaid hl]
      split
      case isTrue     => rfl
      case isFalse hx => rw [h.tracking, FunctionTracking.lookup_insert, if_neg hx]
    refine ⟨hc.beside, hc.bids, a.ended, fun id => ?_, ?_⟩
    · have hn := h.proposed id
      rw [FunctionTracking.getProposed, hlookup]
      split
      case isTrue  => rfl
      case isFalse => exact hn
    · -- The accepted function is the last one to expire.
      have ho : List.Forall₂ (Queued s'.tracking now d) accepted s.tasks :=
        (List.forall₂_and_left _ _ |>.mpr ⟨hid, h.tasks⟩).imp fun _ _ hq => hq.right.paid hd hq.left rfl hlookup
      have hl : Queued s'.tracking now d sla { sla := sla.id, node := name, createdAt := now } := by
        refine ⟨rfl, rfl, sla, ?_, rfl, hd⟩
        simp [FunctionTracking.getFinishableSla, hlookup, proposal, Proposed.toPaid]
      rw [hq]
      exact List.rel_append ho (.cons hl .nil)

-- SLAs with the same id ask for the same share of the cpu.
def Consistent (slas : List Sla) : Prop :=
  ∀ sla ∈ slas, ∀ other ∈ slas, sla.id = other.id → sla.cpu = other.cpu

instance (slas : List Sla) : Decidable (Consistent slas) :=
  inferInstanceAs (Decidable (∀ sla ∈ slas, ∀ other ∈ slas, sla.id = other.id → sla.cpu = other.cpu))

-- Every bid is the change of the cost, so that all changes but the first and the last cost cancel.
theorem Deals.sum_eq {deals : List (Sla × ℚ)} (hx : config.rationals = .exact)
    (hp : config.pricing = .quadratic ratios) (hn : minTime ≤ now) (r : Deals config s deals s')
    (h : Settled config now d accepted s)
    (hd : ∀ x ∈ deals, x.1.duration = 1000 * d) (hid : Consistent (accepted ++ deals.map (·.1))) :
    (deals.map (·.2)).sum =
      energyCost ratios d (share config (accepted ++ deals.map (·.1))) -
        energyCost ratios d (share config accepted) := by
  induction r generalizing accepted
  case nil => simp
  case timer e _ hi => exact hi (h.timer e) hd hid
  case cons sla bid deals q a _ hi =>
    have hdur : sla.duration = 1000 * d := hd (sla, bid) List.mem_cons_self
    have ⟨hb, hl, name, ho⟩ := h.quotes hx hp hn q
    have hsame : ∀ other ∈ accepted, other.id = sla.id → other.cpu = sla.cpu :=
      fun other hm he => hid other (by simp [hm]) sla (by simp) he
    have hs := ho.accepts hdur (duration_pos hdur (hb ▸ hl)) hsame a
    have hsum := hi hs (fun x hx => hd x (List.mem_cons_of_mem _ hx)) (by simpa using hid)
    have hprice := hb.trans (price_eq hdur)
    simp only [List.map_cons, List.sum_cons, hsum, hprice, List.append_assoc, List.singleton_append]
    ring

theorem share_perm {slas slas' : List Sla} (h : slas.Perm slas') : share config slas = share config slas' :=
  (h.map _).sum_eq

theorem Consistent.perm {slas slas' : List Sla} (h : Consistent slas) (hp : slas.Perm slas') : Consistent slas' :=
  fun sla hs other ho he => h sla (hp.mem_iff.mpr hs) other (hp.mem_iff.mpr ho) he

theorem Deals.sum_eq_energyCost {deals : List (Sla × ℚ)} (hx : config.rationals = .exact)
    (hp : config.pricing = .quadratic ratios) (hi : Idle config s) (hn : minTime ≤ s.now)
    (hd : ∀ x ∈ deals, x.1.duration = 1000 * d) (hid : Consistent (deals.map (·.1))) (r : Deals config s deals s') :
    (deals.map (·.2)).sum = energyCost ratios d (share config (deals.map (·.1))) := by
  have h := r.sum_eq hx hp hn (.of_idle hi) hd hid
  simpa [share, energyCost] using h

-- The clock shows a `DateTime`, and the arithmetic is exact. The bids sum up to the cost of all functions together,
-- whatever the order in which they have been accepted.
theorem quadratic_total {deals : List (Sla × ℚ)} (hx : config.rationals = .exact)
    (hp : config.pricing = .quadratic ratios) (hi : Idle config s) (hn : minTime ≤ s.now)
    (hd : ∀ x ∈ deals, x.1.duration = 1000 * d) (hid : Consistent (deals.map (·.1))) (r : Deals config s deals s') :
    (deals.map (·.2)).sum = energyCost ratios d (share config (deals.map (·.1))) ∧
    ∀ {s₁ s₂ deals'}, Idle config s₁ → minTime ≤ s₁.now → Deals config s₁ deals' s₂ →
      (deals.map (·.1)).Perm (deals'.map (·.1)) → (deals'.map (·.2)).sum = (deals.map (·.2)).sum := by
  have h := r.sum_eq_energyCost hx hp hi hn hd hid
  refine ⟨h, fun {s₁ s₂ deals'} hi' hn' r' hperm => ?_⟩
  have hd' : ∀ x ∈ deals', x.1.duration = 1000 * d := by
    intro x hx
    have ⟨y, hy, he⟩ := List.mem_map.mp (hperm.mem_iff.mpr (List.mem_map_of_mem hx))
    exact he ▸ hd y hy
  rw [h, r'.sum_eq_energyCost hx hp hi' hn' hd' (hid.perm hperm), share_perm hperm]

theorem Deals.of_exec {deals : List (Sla × ℚ)} (h : dealsExec config s deals = some s') :
    Deals config s deals s' := by
  induction deals generalizing s
  case nil =>
    cases h
    exact .nil
  case cons x deals hi =>
    simp only [dealsExec, Option.bind_eq_bind, Option.bind_eq_some_iff] at h
    have ⟨bidding, hb, quoted, hq, paying, hp, paid, ha, h⟩ := h
    split at h <;> try contradiction
    case isTrue hc =>
      have ⟨he, hg, hl, ht⟩ := hc
      have hg := Option.map_eq_some_iff.mp hg
      have q : Quotes config s x.1 x.2 quoted :=
        ⟨⟨bidding, _, hb, .of_exec hq⟩, List.isEmpty_iff.mp he, hg⟩
      have a : Accepts config quoted x.1.id paid :=
        ⟨⟨paying, _, hp, .of_exec ha⟩, Option.isNone_iff_eq_none.mp hl, ht⟩
      exact .cons q a (hi h)

theorem idle_new : Idle config (.new config now) where
  configured := configured_new
  proposed   := fun _ => rfl
  tasks      := rfl
  timers     := rfl
  bids       := rfl
  locked     := rfl

-- Two functions which are accepted in either order.
theorem quadratic_total_of_two :
    ∃ s s', Deals exampleQuadratic (.new exampleQuadratic 0)
        [(exampleSla 7 1 1000 1, 16 / 5), (exampleSla 8 2 1000 1, 38 / 5)] s ∧
      Deals exampleQuadratic (.new exampleQuadratic 0)
        [(exampleSla 8 2 1000 1, 34 / 5), (exampleSla 7 1 1000 1, 4)] s' ∧
      [(16 / 5 : ℚ), 38 / 5].sum =
        energyCost { aa := 2, bb := 3, electricityPrice := 10 } (1 : ℕ)
          (share exampleQuadratic [exampleSla 7 1 1000 1, exampleSla 8 2 1000 1]) ∧
      [(34 / 5 : ℚ), 4].sum = [(16 / 5 : ℚ), 38 / 5].sum := by
  have ⟨s, h⟩ := Option.isSome_iff_exists.mp (show (dealsExec exampleQuadratic (.new exampleQuadratic 0)
    [(exampleSla 7 1 1000 1, 16 / 5), (exampleSla 8 2 1000 1, 38 / 5)]).isSome = true by decide +kernel)
  have ⟨s', h'⟩ := Option.isSome_iff_exists.mp (show (dealsExec exampleQuadratic (.new exampleQuadratic 0)
    [(exampleSla 8 2 1000 1, 34 / 5), (exampleSla 7 1 1000 1, 4)]).isSome = true by decide +kernel)
  have ⟨hs, hperm⟩ := quadratic_total (d := 1) rfl rfl idle_new (by decide) (by decide +kernel) (by decide +kernel)
    (Deals.of_exec h)
  exact ⟨s, s', .of_exec h, .of_exec h', hs, hperm idle_new (by decide) (.of_exec h') (.swap ..)⟩

end Fog
