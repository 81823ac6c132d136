import FogMarket.Fog.Latency
import FogMarket.Library.ExtendedReal

namespace Fog

-- The latencies of `Fog.Latency` over any arithmetic instead of `f64`.
structure LatencyOf (τ : Type*) where
  median             : τ
  average            : τ
  interquantileRange : τ
  packetLoss         : τ

structure AccumulatedLatencyOf (τ : Type*) where
  median            : τ
  average           : τ
  medianUncertainty : τ
  packetLoss        : τ
  bandwidth         : InformationRate

-- The links of a path, with the bandwidth of the neighbor which each of them leads to.
abbrev Links (τ : Type*) :=
  List (LatencyOf τ × InformationRate)

namespace AccumulatedLatencyOf

variable {τ : Type*} [Add τ] [Mul τ] [Div τ] [OfNat τ 0] [OfNat τ 1000] [OfScientific τ] [HPow τ τ τ]

def default : AccumulatedLatencyOf τ where
  median            := 0 / 1000
  average           := 0 / 1000
  medianUncertainty := 0 / 1000
  packetLoss        := 0
  bandwidth         := 80000000000

def accumulate (acc : AccumulatedLatencyOf τ) (latency : LatencyOf τ) (bandwidth : InformationRate) :
    AccumulatedLatencyOf τ :=
  let stdDeviation := latency.interquantileRange * 1000 / 1.349
  let uncertainty := acc.medianUncertainty * 1000
  { median            := acc.median + latency.median
    average           := acc.average + latency.average
    medianUncertainty := (stdDeviation * stdDeviation + uncertainty * uncertainty) ^ (0.5 : τ) / 1000
    packetLoss        := acc.packetLoss * latency.packetLoss
    bandwidth         := min acc.bandwidth bandwidth }

def along (links : Links τ) : AccumulatedLatencyOf τ :=
  links.foldl (fun acc link => acc.accumulate link.1 link.2) default

end AccumulatedLatencyOf

def Latency.toOf (latency : Latency) : LatencyOf Float where
  median             := latency.median
  average            := latency.average
  interquantileRange := latency.interquantileRange
  packetLoss         := latency.packetLoss

def AccumulatedLatency.toOf (acc : AccumulatedLatency) : AccumulatedLatencyOf Float where
  median            := acc.median
  average           := acc.average
  medianUncertainty := acc.medianUncertainty
  packetLoss        := acc.packetLoss
  bandwidth         := acc.bandwidth

theorem AccumulatedLatency.toOf_default : default.toOf = .default :=
  rfl

theorem AccumulatedLatency.toOf_accumulate
    (acc : AccumulatedLatency) (latency : Latency) (bandwidth : InformationRate) :
    (acc.accumulate latency bandwidth).toOf = acc.toOf.accumulate latency.toOf bandwidth :=
  rfl

namespace Links

variable {links : Links ℝ} {link : LatencyOf ℝ × InformationRate}

-- A packet is lost with a probability.
def Probable (links : Links ℝ) : Prop :=
  ∀ link ∈ links, link.1.packetLoss ∈ Set.Icc 0 1

-- A packet arrives if no link loses it.
def arrival (links : Links ℝ) : ℝ :=
  (links.map (1 - ·.1.packetLoss)).prod

-- The loss of a path, when links lose packets independently of each other.
structure Composes (links : Links ℝ) : Prop where
  loss      : (AccumulatedLatencyOf.along links).packetLoss = 1 - links.arrival
  le_loss   : ∀ link ∈ links, link.1.packetLoss ≤ (AccumulatedLatencyOf.along links).packetLoss
  monotonic : ∀ more : Links ℝ, Probable more →
    (AccumulatedLatencyOf.along links).packetLoss ≤ (AccumulatedLatencyOf.along (links ++ more)).packetLoss

theorem packetLoss_foldl (links : Links ℝ) (acc : AccumulatedLatencyOf ℝ) :
    (links.foldl (fun acc link => acc.accumulate link.1 link.2) acc).packetLoss =
      acc.packetLoss * (links.map (·.1.packetLoss)).prod := by
  induction links generalizing acc
  case nil => simp
  case cons link links hi =>
    rw [List.foldl_cons, hi, AccumulatedLatencyOf.accumulate, List.map_cons, List.prod_cons, mul_assoc]

-- The losses are multiplied with the one that is accumulated first, which is zero.
theorem packetLoss_along (links : Links ℝ) : (AccumulatedLatencyOf.along links).packetLoss = 0 := by
  rw [AccumulatedLatencyOf.along, packetLoss_foldl, AccumulatedLatencyOf.default, zero_mul]

theorem arrival_mem (h : Probable links) : links.arrival ∈ Set.Icc (0 : ℝ) 1 := by
  induction links
  case nil => simp [arrival]
  case cons link links hi =>
    have ⟨⟨h₀, h₁⟩, h⟩ := List.forall_mem_cons.mp h
    have ⟨ha₀, ha₁⟩ := hi h
    rw [arrival, List.map_cons, List.prod_cons]
    exact ⟨mul_nonneg (by linarith) ha₀, mul_le_one₀ (by linarith) ha₀ ha₁⟩

-- All packets arrive only if no link loses any.
theorem arrival_eq_one_iff (h : Probable links) :
    links.arrival = 1 ↔ ∀ link ∈ links, link.1.packetLoss = 0 := by
  induction links
  case nil => simp [arrival]
  case cons link links hi =>
    have ⟨⟨h₀, h₁⟩, h⟩ := List.forall_mem_cons.mp h
    have ⟨ha₀, ha₁⟩ := arrival_mem h
    have ha : arrival (link :: links) = (1 - link.1.packetLoss) * arrival links := by
      rw [arrival, List.map_cons, List.prod_cons, arrival]
    rw [List.forall_mem_cons, ← hi h, ha]
    constructor
    case mp =>
      intro he
      have hl : link.1.packetLoss = 0 := by nlinarith
      exact ⟨hl, by simpa [hl] using he⟩
    case mpr =>
      intro ⟨hl, he⟩
      rw [hl, he]
      norm_num

-- Accumulated losses are those of the path exactly if there are none.
theorem composes_iff (h : Probable links) : links.Composes ↔ ∀ link ∈ links, link.1.packetLoss = 0 := by
  constructor
  case mp =>
    intro hc
    have hl := hc.loss
    rw [packetLoss_along] at hl
    exact (arrival_eq_one_iff h).mp (by linarith)
  case mpr =>
    intro hl
    constructor
    case loss =>
      rw [packetLoss_along, (arrival_eq_one_iff h).mpr hl, sub_self]
    case le_loss =>
      intro link hm
      rw [packetLoss_along, hl link hm]
    case monotonic =>
      intro more _
      rw [packetLoss_along, packetLoss_along]

def exampleLink (packetLoss : ℝ) : LatencyOf ℝ × InformationRate :=
  ({ median := 0, average := 0, interquantileRange := 0, packetLoss := packetLoss }, 1)

theorem composes_iff_of_lossless : Composes [exampleLink 0, exampleLink 0] := by
  refine (composes_iff fun link hm => ?_).mpr fun link hm => ?_
  all_goals
    simp only [List.mem_cons, List.not_mem_nil, or_false, or_self] at hm
    simp [hm, exampleLink]

-- A link loses half of the packets, but the path is said to lose none.
theorem not_composes_of_lossy : Probable [exampleLink (1 / 2)] ∧ ¬ Composes [exampleLink (1 / 2)] := by
  constructor
  case left =>
    intro link hm
    rw [List.mem_singleton.mp hm]
    norm_num [exampleLink]
  case right =>
    intro hc
    have hl := hc.le_loss _ (List.mem_singleton_self _)
    rw [packetLoss_along] at hl
    norm_num [exampleLink] at hl

end Links
end Fog
