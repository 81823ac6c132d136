import Mathlib.Algebra.Order.Ring.Rat

abbrev Uuid :=
  BitVec 128

structure NodeId where
  id : Uuid
deriving DecidableEq

structure BidId where
  id : Uuid
deriving DecidableEq

structure SlaId where
  id : Uuid
deriving DecidableEq

-- The quantities are kept in base units: bytes, cpus, milliseconds and bits per second. The source
-- holds the first two and the last as fractions of `i64` (how a node computes with these is `Rationals`),
-- and times as `f64`, which are read exactly. Only latencies are computed with as they are, and kept in seconds.
abbrev Information :=
  ℚ

abbrev Ratio :=
  ℚ

abbrev Time :=
  ℚ

abbrev InformationRate :=
  ℚ

structure Sla where
  id           : SlaId
  memory       : Information
  cpu          : Ratio
  latencyMax   : Float
  duration     : Time
  maxReplica   : BitVec 64
  inputMaxSize : Information
deriving DecidableEq

namespace Sla

-- `sla.max_replica as i64`
def replicas (sla : Sla) : ℤ :=
  sla.maxReplica.toInt

-- What is booked for a function when it is paid.
def booked (sla : Sla) : Information × Ratio :=
  (sla.memory, sla.cpu)

-- What has to be free for a function to be admitted.
def checked (sla : Sla) : Information × Ratio :=
  (sla.memory * sla.replicas, sla.cpu * sla.replicas)

-- What a function takes when it is scaled out to its ceiling.
def ceiling (sla : Sla) : Information × Ratio :=
  (sla.maxReplica.toNat * sla.memory, sla.maxReplica.toNat * sla.cpu)

structure Nonneg (sla : Sla) : Prop where
  memory : 0 ≤ sla.memory
  cpu    : 0 ≤ sla.cpu

theorem Nonneg.booked {sla : Sla} (h : sla.Nonneg) : 0 ≤ sla.booked :=
  ⟨h.memory, h.cpu⟩

instance (sla : Sla) : Decidable sla.Nonneg :=
  decidable_of_iff (0 ≤ sla.memory ∧ 0 ≤ sla.cpu)
    ⟨fun ⟨h₁, h₂⟩ => ⟨h₁, h₂⟩, fun ⟨h₁, h₂⟩ => ⟨h₁, h₂⟩⟩

theorem replicas_eq_toNat {sla : Sla} (h : sla.maxReplica.toNat < 2 ^ 63) :
    sla.replicas = sla.maxReplica.toNat := by
  simp only [replicas, BitVec.toInt]
  split <;> omega

end Sla
