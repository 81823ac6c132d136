import FogMarket.Library.Map
import FogMarket.Library.Rationals
import FogMarket.Objects.Sla

namespace Fog

-- Why a call does not return a value.
inductive Failure
  | error
  | panic
deriving DecidableEq

structure ResourceTracking where
  available : Map String (Information × Ratio)
  used      : Map String (Information × Ratio)
  nodes     : List String

namespace ResourceTracking

-- The resources of each node are the configured reservation, whatever the cluster has.
def new (names : List String) (reservedCpu : Ratio) (reservedMemory : Information) :
    ResourceTracking where
  available := names.foldr (fun name m => m.insert name (reservedMemory, reservedCpu)) ∅
  used      := names.foldr (fun name m => m.insert name (0, 0)) ∅
  nodes     := names

variable (resources : ResourceTracking) (name : String)

def keyExists : Bool :=
  name ∈ resources.used ∧ name ∈ resources.available

def getUsed : Option (Information × Ratio) :=
  if resources.keyExists name then resources.used.lookup name else none

def getAvailable : Option (Information × Ratio) :=
  if resources.keyExists name then resources.available.lookup name else none

-- The assertions fail on negative values.
def setUsed (memory : Information) (cpu : Ratio) : Except Failure ResourceTracking :=
  if resources.keyExists name then
    if 0 ≤ cpu ∧ 0 ≤ memory then
      .ok { resources with used := resources.used.insert name (memory, cpu) }
    else
      .error .panic
  else
    .error .error

variable {resources name} {resources' : ResourceTracking} {used available : Information × Ratio}
variable {memory : Information} {cpu : Ratio}

theorem getUsed_eq_some (h : resources.getUsed name = some used) :
    resources.keyExists name = true ∧ resources.used.lookup name = some used := by
  simp only [getUsed] at h
  split at h
  case isTrue hk => exact ⟨hk, h⟩
  case isFalse   => contradiction

theorem getAvailable_eq_some (h : resources.getAvailable name = some available) :
    resources.available.lookup name = some available := by
  simp only [getAvailable] at h
  split at h
  case isTrue  => exact h
  case isFalse => contradiction

theorem nonneg_of_setUsed (h : resources.setUsed name memory cpu = .ok resources') :
    (0 : Information × Ratio) ≤ (memory, cpu) := by
  simp only [setUsed] at h
  split at h <;> try contradiction
  split at h <;> try contradiction
  case isTrue hn => exact ⟨hn.2, hn.1⟩

theorem setUsed_of_nonneg (hk : resources.keyExists name = true)
    (h : (0 : Information × Ratio) ≤ (memory, cpu)) :
    ∃ resources', resources.setUsed name memory cpu = .ok resources' := by
  rw [setUsed, if_pos hk, if_pos ⟨h.2, h.1⟩]
  exact ⟨_, rfl⟩

theorem setUsed_eq_ok (h : resources.setUsed name memory cpu = .ok resources') :
    resources.keyExists name = true ∧
      resources' = { resources with used := resources.used.insert name (memory, cpu) } := by
  simp only [setUsed] at h
  split at h <;> try contradiction
  split at h <;> try contradiction
  cases h
  exact ⟨‹_›, rfl⟩

end ResourceTracking

variable (rationals : Rationals)

-- What is used when a function is booked, when it is released, and when all of its replicas are scaled out.
def booking (used : Information × Ratio) (sla : Sla) : Information × Ratio :=
  (rationals.add used.1 sla.memory, rationals.add used.2 sla.cpu)

def releasing (used : Information × Ratio) (sla : Sla) : Information × Ratio :=
  (rationals.sub used.1 sla.memory, rationals.sub used.2 sla.cpu)

def wouldBeUsed (used : Information × Ratio) (sla : Sla) : Information × Ratio :=
  (rationals.add used.1 (rationals.mul sla.memory sla.replicas),
    rationals.add used.2 (rationals.mul sla.cpu sla.replicas))

-- Check if the SLA is satisfiable when all replicas are scaled out.
def satisfiabilityCheck (used available : Information × Ratio) (sla : Sla) : Bool :=
  (wouldBeUsed rationals used sla).2 < available.2 ∧ (wouldBeUsed rationals used sla).1 < available.1

variable {rationals} {used available : Information × Ratio} {sla : Sla}

theorem satisfiabilityCheck_iff : satisfiabilityCheck rationals used available sla = true ↔
    (wouldBeUsed rationals used sla).2 < available.2 ∧ (wouldBeUsed rationals used sla).1 < available.1 := by
  simp [satisfiabilityCheck]

theorem le_of_satisfiabilityCheck (h : satisfiabilityCheck rationals used available sla = true) :
    wouldBeUsed rationals used sla ≤ available :=
  have ⟨hc, hm⟩ := satisfiabilityCheck_iff.mp h
  ⟨hm.le, hc.le⟩

theorem booking_exact : booking .exact used sla = used + sla.booked :=
  rfl

theorem releasing_exact : releasing .exact used sla = used - sla.booked :=
  rfl

theorem wouldBeUsed_exact : wouldBeUsed .exact used sla = used + sla.checked :=
  rfl

-- What fits into 64 bits is exact as well.
theorem booking_i64 (hm : Rationals.Combinable (· + ·) used.1 sla.memory)
    (hc : Rationals.Combinable (· + ·) used.2 sla.cpu) : booking .i64 used sla = used + sla.booked :=
  Prod.ext (Rationals.add_of_combinable hm) (Rationals.add_of_combinable hc)

theorem releasing_i64 (hm : Rationals.Combinable (· - ·) used.1 sla.memory)
    (hc : Rationals.Combinable (· - ·) used.2 sla.cpu) : releasing .i64 used sla = used - sla.booked :=
  Prod.ext (Rationals.sub_of_combinable hm) (Rationals.sub_of_combinable hc)

theorem wouldBeUsed_i64 (hm : Rationals.Scalable sla.memory sla.replicas)
    (hc : Rationals.Scalable sla.cpu sla.replicas)
    (hm' : Rationals.Combinable (· + ·) used.1 sla.checked.1)
    (hc' : Rationals.Combinable (· + ·) used.2 sla.checked.2) :
    wouldBeUsed .i64 used sla = used + sla.checked := by
  rw [wouldBeUsed, Rationals.mul_of_scalable hm, Rationals.mul_of_scalable hc]
  exact Prod.ext (Rationals.add_of_combinable hm') (Rationals.add_of_combinable hc')

end Fog
