import Mathlib.Algebra.Order.Monoid.Prod
import Mathlib.Tactic.Linarith
import FogMarket.Fog.Steps

open Transition

namespace Fog

variable {config : Config} {s s' : State} {a : Act} {ok : Bool} {now : ℤ} {as : List Act} {l : Locked}
variable {name : String} {used available : Information × Ratio} {sla : Sla}

-- The proposal which a payment is about to accept, with the used resources it has been checked against.
def State.admits (config : Config) (s : State) : Act → Option (Proposed × (Information × Ratio))
  | .locked _ =>
    match s.locked with
    | some (.pay (.check _ proposal)) =>
      match s.resources.getUsed proposal.node, s.resources.getAvailable proposal.node with
      | some used, some available =>
        if satisfiabilityCheck config.rationals used available proposal.sla then some (proposal, used) else none
      | _, _ => none
    | _ => none
  | _ => none

-- The SLA of the function which is about to be released, with the used resources.
def State.frees (s : State) : Act → Option (Sla × (Information × Ratio))
  | .locked _ =>
    match s.locked with
    | some (.finish _ (.setUsed _ record used)) => some (record.sla, used)
    | _                                         => none
  | _ => none

-- All requests are for non-negative amounts.
def Nonneg (a : Act) : Prop :=
  ∀ sla, a = .bid sla → sla.Nonneg

-- What is booked for an accepted function is not more than what has been checked to be free.
def Covered (config : Config) (s : State) (a : Act) : Prop :=
  ∀ x ∈ s.admits config a, x.1.sla.booked ≤ x.1.sla.checked

-- What is checked for an accepted function does not overflow.
def Weighed (config : Config) (s : State) (a : Act) : Prop :=
  ∀ x ∈ s.admits config a, wouldBeUsed config.rationals x.2 x.1.sla = x.2 + x.1.sla.checked

-- A booking which does not overflow.
def Config.Books (config : Config) (proposal : Proposed) (used : Information × Ratio) : Prop :=
  booking config.rationals used proposal.sla = used + proposal.sla.booked

-- What is booked and released does not overflow.
structure Precise (config : Config) (s : State) (a : Act) : Prop where
  admits : ∀ x ∈ s.admits config a, config.Books x.1 x.2
  frees  : ∀ x ∈ s.frees a, releasing config.rationals x.2 x.1 = x.2 - x.1.booked

instance : Decidable (Nonneg a) :=
  match a with
  | .bid sla => decidable_of_iff sla.Nonneg ⟨fun h _ he => Act.bid.inj he ▸ h, fun h => h sla rfl⟩
  | .tick _ | .pay _ | .provision _ | .bidding _ | .locked _ | .liveness .. | .timer _ => .isTrue nofun

instance : Decidable (Covered config s a) :=
  inferInstanceAs (Decidable (∀ x ∈ s.admits config a, x.1.sla.booked ≤ x.1.sla.checked))

instance : Decidable (Weighed config s a) :=
  inferInstanceAs (Decidable
    (∀ x ∈ s.admits config a, wouldBeUsed config.rationals x.2 x.1.sla = x.2 + x.1.sla.checked))

instance {proposal : Proposed} : Decidable (config.Books proposal used) :=
  inferInstanceAs (Decidable (booking config.rationals used proposal.sla = used + proposal.sla.booked))

instance : Decidable (Precise config s a) :=
  decidable_of_iff ((∀ x ∈ s.admits config a, config.Books x.1 x.2) ∧
      ∀ x ∈ s.frees a, releasing config.rationals x.2 x.1 = x.2 - x.1.booked)
    ⟨fun ⟨h₁, h₂⟩ => ⟨h₁, h₂⟩, fun ⟨h₁, h₂⟩ => ⟨h₁, h₂⟩⟩

-- Exactly computed amounts do not overflow.
theorem precise_of_exact (h : config.rationals = .exact) : Precise config s a where
  admits := fun _ _ => by rw [Config.Books, h, booking_exact]
  frees  := fun _ _ => by rw [h, releasing_exact]

-- So do amounts which fit into an `i64`, together with all that is computed for them.
theorem precise_of_fits (h : config.rationals = .i64)
    (ha : ∀ x ∈ s.admits config a,
      Rationals.Combinable (· + ·) x.2.1 x.1.sla.memory ∧ Rationals.Combinable (· + ·) x.2.2 x.1.sla.cpu)
    (hf : ∀ x ∈ s.frees a,
      Rationals.Combinable (· - ·) x.2.1 x.1.memory ∧ Rationals.Combinable (· - ·) x.2.2 x.1.cpu) :
    Precise config s a where
  admits := fun x hx => by rw [Config.Books, h, booking_i64 (ha x hx).1 (ha x hx).2]
  frees  := fun x hx => by rw [h, releasing_i64 (hf x hx).1 (hf x hx).2]

theorem weighed_of_fits (h : config.rationals = .i64)
    (hs : ∀ x ∈ s.admits config a, Rationals.Scalable x.1.sla.memory x.1.sla.replicas ∧
      Rationals.Scalable x.1.sla.cpu x.1.sla.replicas)
    (ha : ∀ x ∈ s.admits config a, Rationals.Combinable (· + ·) x.2.1 x.1.sla.checked.1 ∧
      Rationals.Combinable (· + ·) x.2.2 x.1.sla.checked.2) : Weighed config s a :=
  fun x hx => h ▸ wouldBeUsed_i64 (hs x hx).1 (hs x hx).2 (ha x hx).1 (ha x hx).2

-- No replicas, or too many for an `i64`, are only covered if there is nothing to book.
theorem booked_le_checked_iff_replicas (h : sla.Nonneg) :
    sla.booked ≤ sla.checked ↔ 1 ≤ sla.replicas ∨ sla.booked = 0 := by
  constructor
  case mp =>
    intro hle
    by_cases hr : 1 ≤ sla.replicas
    case pos => exact .inl hr
    case neg =>
      have hr : (sla.replicas : ℚ) ≤ 0 := by exact_mod_cast (by omega : sla.replicas ≤ 0)
      have hm := hle.1.trans (mul_nonpos_of_nonneg_of_nonpos h.memory hr)
      have hc := hle.2.trans (mul_nonpos_of_nonneg_of_nonpos h.cpu hr)
      exact .inr (le_antisymm (Prod.mk_le_mk.mpr ⟨hm, hc⟩) h.booked)
  case mpr =>
    intro hr
    cases hr
    case inl hr =>
      have hr : (1 : ℚ) ≤ sla.replicas := by exact_mod_cast hr
      exact ⟨le_mul_of_one_le_right h.memory hr, le_mul_of_one_le_right h.cpu hr⟩
    case inr hz =>
      have hm : sla.memory = 0 := congrArg Prod.fst hz
      have hc : sla.cpu = 0 := congrArg Prod.snd hz
      simp [Sla.booked, Sla.checked, hm, hc]

-- Without overflows, the check is enough for the booking, whatever is used and available, exactly if it covers it.
theorem booked_le_checked_iff : sla.booked ≤ sla.checked ↔
    ∀ used available, satisfiabilityCheck .exact used available sla = true → used + sla.booked ≤ available := by
  constructor
  case mp =>
    intro h used available hs
    exact (add_le_add_right h used).trans (le_of_satisfiabilityCheck hs)
  case mpr =>
    intro h
    simp only [satisfiabilityCheck_iff, wouldBeUsed_exact] at h
    -- The node has room for what is checked, but for nothing beyond.
    constructor <;> refine le_of_forall_pos_le_add fun ε hε => ?_
    · have := (h 0 (sla.checked.1 + ε, sla.checked.2 + 1) ⟨by simp, by simpa using hε⟩).1
      simpa using this
    · have := (h 0 (sla.checked.1 + 1, sla.checked.2 + ε) ⟨by simpa using hε, by simp⟩).2
      simpa using this

theorem check_of_admits {x : Proposed × (Information × Ratio)} (h : x ∈ s.admits config a) :
    ∃ available, s.resources.available.lookup x.1.node = some available ∧
      satisfiabilityCheck config.rationals x.2 available x.1.sla = true := by
  simp only [State.admits] at h
  repeat' split at h
  all_goals try contradiction
  case h_1.isTrue ha hs =>
    cases h
    exact ⟨_, ResourceTracking.getAvailable_eq_some ha, hs⟩

section Accepted

variable {Q : Proposed → Information × Ratio → Prop}

-- A payment which has been accepted meets `Q`, with the used resources it has read.
def Locked.Accepted (Q : Proposed → Information × Ratio → Prop) : Locked → Prop
  | .pay (.save _ proposal used)      => Q proposal used
  | .pay (.getPaid _ proposal used)   => Q proposal used
  | .pay (.setUsed _ proposal used _) => Q proposal used
  | _                                 => True

def Accepted (Q : Proposed → Information × Ratio → Prop) (s : State) : Prop :=
  ∀ l, s.locked = some l → l.Accepted Q

theorem accepted_enter (h : l.Accepted Q) : Accepted Q (s.enter l) :=
  fun _ he => Option.some.inj he ▸ h

theorem accepted_release : Accepted Q s.release :=
  fun _ he => by simp [State.release] at he

theorem accepted_advanceLocked (hl : s.locked = some l) (h : l.Accepted Q)
    (ha : ∀ x ∈ s.admits config (.locked ok), Q x.1 x.2) : Accepted Q (advanceLocked config s ok l) := by
  match l with
  | .pay (.check id proposal) =>
    simp only [advanceLocked, advancePay]
    split
    case h_1 used available hu hv =>
      split
      case isFalse   => exact accepted_release
      case isTrue hs => exact accepted_enter (ha (proposal, used) (by simp [State.admits, hl, hu, hv, hs]))
    case h_2 => exact accepted_release
  | .pay (.getProposed _) | .pay (.save ..) | .pay (.getPaid ..) | .pay (.setUsed ..)
  | .pay (.spawn ..) | .pay (.push _) =>
    simp only [advanceLocked, advancePay]
    repeat' split
    all_goals first | exact accepted_release (s := s) | exact accepted_enter h | exact accepted_enter trivial
  | .provision p =>
    cases p <;> simp only [advanceLocked, advanceProvision] <;> (repeat' split) <;>
      first | exact accepted_release (s := s) | exact accepted_enter trivial
  | .finish _ p =>
    cases p <;> simp only [advanceLocked, advanceFinish] <;> (repeat' split) <;>
      first | exact accepted_release (s := s) | exact accepted_enter trivial

theorem accepted_step (h : Accepted Q s) (ha : ∀ x ∈ s.admits config a, Q x.1 x.2)
    (e : step config s a = some s') : Accepted Q s' := by
  cases effect_of_step e
  case insert f _ | saveLive f _ | quiet f _ => exact fun l hl => h l (f.locked ▸ hl)
  case advance ok l hl => exact accepted_advanceLocked hl (h l hl) ha
  case pay | provision | fail | expire => exact accepted_enter trivial
  case wake | oversleep | pop => exact h

theorem accepted_new : Accepted Q (.new config now) :=
  fun l hl => by simp [State.new] at hl

end Accepted

def Within (config : Config) (resources : ResourceTracking) : Prop :=
  ∀ name used, resources.used.lookup name = some used → used ≤ config.reserved

-- A booking which has been checked fits.
def Config.Fits (config : Config) (proposal : Proposed) (used : Information × Ratio) : Prop :=
  booking config.rationals used proposal.sla ≤ config.reserved

theorem fits_of_covered (hc : Configured config s.resources) (hcov : Covered config s a) (hw : Weighed config s a)
    (hp : Precise config s a) : ∀ x ∈ s.admits config a, config.Fits x.1 x.2 := by
  intro x hx
  rw [Config.Fits, hp.admits x hx]
  refine le_trans (add_le_add_right (hcov x hx) x.2) ?_
  rw [← hw x hx]
  obtain ⟨available, ha, hs⟩ := check_of_admits hx
  rw [← hc.available_eq ha]
  exact le_of_satisfiabilityCheck hs

theorem within_advanceLocked (h : Within config s.resources) (hf : Accepted config.Fits s) (hr : Reads s)
    (hn : Holds (fun _ sla => sla.Nonneg) s) (hp : Precise config s (.locked ok)) (hl : s.locked = some l) :
    Within config (advanceLocked config s ok l).resources := by
  rcases resources_advanceLocked config s ok l with
    he | ⟨id, proposal, used, paid, rfl, hs⟩ | ⟨caller, id, record, used, rfl, hs⟩
  · exact he ▸ h
  · rw [(ResourceTracking.setUsed_eq_ok hs).2]
    intro x u hu
    rw [Map.lookup_insert_eq] at hu
    split at hu
    case isTrue  => exact Option.some.inj hu ▸ hf _ hl
    case isFalse => exact h x u hu
  · rw [(ResourceTracking.setUsed_eq_ok hs).2]
    intro x u hu
    rw [Map.lookup_insert_eq] at hu
    split at hu
    case isTrue =>
      have hb : 0 ≤ record.sla.booked := Sla.Nonneg.booked (hn.locked _ hl)
      have hle : used ≤ config.reserved := h _ _ (hr _ hl)
      have he : releasing config.rationals used record.sla = used - record.sla.booked :=
        hp.frees (record.sla, used) (by simp [State.frees, hl])
      cases hu
      rw [Prod.mk.eta, he]
      exact (sub_le_self used hb).trans hle
    case isFalse => exact h x u hu

-- What holds of the resources in every run with requests for non-negative amounts.
structure Sound (config : Config) (s : State) : Prop where
  configured  : Configured config s.resources
  reads       : Reads s
  nonneg      : Holds (fun _ sla => sla.Nonneg) s
  used_nonneg : ∀ name used, s.resources.used.lookup name = some used → 0 ≤ used

-- Negative amounts are never written.
theorem used_nonneg_step (h : ∀ name used, s.resources.used.lookup name = some used → 0 ≤ used)
    (e : step config s a = some s') : ∀ name used, s'.resources.used.lookup name = some used → 0 ≤ used := by
  cases effect_of_step e
  case insert f _ | saveLive f _ | quiet f _ => exact f.resources ▸ h
  case advance ok l hl =>
    have hset {resources' name memory cpu}
        (hs : s.resources.setUsed name memory cpu = .ok resources') :
        ∀ x used, resources'.used.lookup x = some used → 0 ≤ used := by
      rw [(ResourceTracking.setUsed_eq_ok hs).2]
      intro x used hu
      rw [Map.lookup_insert_eq] at hu
      split at hu
      case isTrue  => exact Option.some.inj hu ▸ ResourceTracking.nonneg_of_setUsed hs
      case isFalse => exact h x used hu
    rcases resources_advanceLocked config s ok l with hr | ⟨_, _, _, _, _, hr⟩ | ⟨_, _, _, _, _, hr⟩
    · exact hr ▸ h
    · exact hset hr
    · exact hset hr
  case pay | provision | fail | expire | wake | oversleep | pop => exact h

theorem used_nonneg_new : ∀ name used, (State.new config now).resources.used.lookup name = some used → 0 ≤ used := by
  intro name used hu
  simp only [State.new, ResourceTracking.new, lookup_foldr_insert] at hu
  split at hu <;> cases hu
  exact le_rfl

theorem sound_step (h : Sound config s) (hn : Nonneg a) (e : step config s a = some s') : Sound config s' where
  configured  := configured_step h.configured e
  reads       := reads_step h.reads e
  nonneg      := h.nonneg.step hn e
  used_nonneg := used_nonneg_step h.used_nonneg e

theorem sound_new : Sound config (.new config now) where
  configured  := configured_new
  reads       := fun l hl => by simp [State.new] at hl
  nonneg      := {
    bids     := by simp [State.new]
    tracking := by simp [State.new]
    locked   := by simp [State.new]
    lives    := by simp [State.new]
  }
  used_nonneg := used_nonneg_new

structure Bounded (config : Config) (s : State) : Prop where
  sound  : Sound config s
  within : Within config s.resources
  fits   : Accepted config.Fits s

theorem bounded_step (h : Bounded config s) (hn : Nonneg a) (hc : Covered config s a) (hw : Weighed config s a)
    (hp : Precise config s a) (e : step config s a = some s') : Bounded config s' where
  sound  := sound_step h.sound hn e
  within := by
    cases effect_of_step e
    case insert f _ | saveLive f _ | quiet f _ => exact f.resources ▸ h.within
    case advance ok l hl => exact within_advanceLocked h.within h.fits h.sound.reads h.sound.nonneg hp hl
    case pay | provision | fail | expire | wake | oversleep | pop => exact h.within
  fits   := accepted_step h.fits (fits_of_covered h.sound.configured hc hw hp) e

theorem bounded_new (hc : 0 ≤ config.reserved) : Bounded config (.new config now) where
  sound  := sound_new
  within := fun name used hu => by
    simp only [State.new, ResourceTracking.new, lookup_foldr_insert] at hu
    split at hu <;> cases hu
    exact hc
  fits   := accepted_new

def UsedLeAvailable (config : Config) (s : State) : Prop :=
  ∀ name ∈ config.names, ∃ used ∈ s.resources.used.lookup name,
    ∃ available ∈ s.resources.available.lookup name, used ≤ available

instance : Decidable (UsedLeAvailable config s) :=
  inferInstanceAs (Decidable (∀ name ∈ config.names, ∃ used ∈ s.resources.used.lookup name,
    ∃ available ∈ s.resources.available.lookup name, used ≤ available))

-- As long as bookings are covered and nothing overflows, the nodes never use more than what they have available.
theorem used_le_available (hc : 0 ≤ config.reserved)
    (r : Run (step config) (fun s a => Nonneg a ∧ Covered config s a ∧ Weighed config s a ∧ Precise config s a)
      (.new config now) as s) :
    UsedLeAvailable config s := by
  have h : Bounded config s :=
    r.invariant (bounded_new hc) fun h ⟨hn, hc, hw, hp⟩ e => bounded_step h hn hc hw hp e
  intro name hm
  have ⟨used, hu⟩ := Map.lookup_of_mem ((h.sound.configured.used name).mpr hm)
  refine ⟨used, hu, config.reserved, ?_, h.within name used hu⟩
  rw [Option.mem_def, h.sound.configured.available, if_pos hm]

theorem used_le_available_of_two_replicas :
    ∃ s, Run (step (wrappingConfig ["k8s"]))
        (fun s a => Nonneg a ∧ Covered (wrappingConfig ["k8s"]) s a ∧ Weighed (wrappingConfig ["k8s"]) s a ∧
          Precise (wrappingConfig ["k8s"]) s a)
        (.new (wrappingConfig ["k8s"]) 0) (bidActs (exampleSla 7 1 1000 2) ++ payActs 7) s ∧
      UsedLeAvailable (wrappingConfig ["k8s"]) s :=
  have ⟨s, r⟩ := Run.of_exec_isSome (by decide +kernel)
  ⟨s, r, used_le_available (by decide +kernel) r⟩

-- With no replicas, nothing is checked for, but twenty cpus are booked on a node which has ten.
theorem not_used_le_available_of_no_replicas :
    ∃ s, Run (step (wrappingConfig ["k8s"])) (fun _ => Nonneg)
        (.new (wrappingConfig ["k8s"]) 0) (bidActs (exampleSla 7 20 1000 0) ++ payActs 7) s ∧
      ¬ UsedLeAvailable (wrappingConfig ["k8s"]) s :=
  Run.of_exec_any (by decide +kernel)

end Fog
