import FogMarket.Library.ExtendedReal
import FogMarket.Fog.PacketLoss
import FogMarket.Fog.Placement

open Arithmetic

namespace Fog

-- `get_tcp_latency` over any arithmetic, with a name for each of its quotients.
namespace TcpLatency

variable {τ : Type} [Arithmetic τ]

-- Every ratio has a positive denominator.
def ofRational (q : ℚ) : τ :=
  ofInt q.num / ofNat q.den

def defaultMtu : τ := 1500
def tcpTimeoutSec : τ := 0.020
def tcpMaxCongestionWindowSize : τ := 33

def mss : τ :=
  defaultMtu - 40

def window (dataSize : Information) : τ :=
  ofRational dataSize / mss

def cappedWindow (dataSize : Information) : τ :=
  if window dataSize < (tcpMaxCongestionWindowSize : τ) then window dataSize else tcpMaxCongestionWindowSize

def hand1 (oneWay : τ) (dataSize : Information) : τ :=
  cappedWindow dataSize / (2 * oneWay)

def subhand (packetLoss : τ) : τ :=
  let subhand1 := 1
  let subhand2 := 3 * sqrt (6 * packetLoss / 8)
  if subhand1 < subhand2 then subhand1 else subhand2

def hand2 (oneWay packetLoss : τ) : τ :=
  1 / (sqrt (packetLoss * 4 / 3) * (2 * oneWay) +
    tcpTimeoutSec * subhand packetLoss * packetLoss * (1 + 32 * packetLoss * packetLoss))

def tcpBandwidth (oneWay packetLoss : τ) (dataSize : Information) : τ :=
  (if hand1 oneWay dataSize < hand2 oneWay packetLoss then hand1 oneWay dataSize else hand2 oneWay packetLoss) * mss

def transmissionTime (oneWay packetLoss : τ) (dataSize : Information) : τ :=
  ofRational dataSize / tcpBandwidth oneWay packetLoss dataSize

end TcpLatency

open TcpLatency

def getTcpLatencyOf {τ : Type} [Arithmetic τ] (oneWay packetLoss : τ) (_bandwidth : InformationRate)
    (dataSize : Information) : τ :=
  (transmissionTime oneWay packetLoss dataSize + 1.5 * (2 * oneWay)) * 1.3

theorem getTcpLatency_eq (oneWay packetLoss : Float) (bandwidth : InformationRate) (dataSize : Information) :
    getTcpLatency oneWay packetLoss bandwidth dataSize = getTcpLatencyOf oneWay packetLoss bandwidth dataSize :=
  rfl

def computeWorseLatencyOf {τ : Type} [Arithmetic τ] (acc : AccumulatedLatencyOf τ) (dataSize : Information) : τ :=
  getTcpLatencyOf (acc.median + acc.medianUncertainty) acc.packetLoss acc.bandwidth dataSize

-- The latency with which `follow_up_to_single_neighbor` asks a neighbor, unless it skips it.
def nextLatency {τ : Type} [Arithmetic τ] (situation : NodeSituation) (latencyTo : NodeId → Option (LatencyOf τ))
    (latencyMax : τ) (inputMaxSize : Information) (origin neighbor : NodeId) (acc : AccumulatedLatencyOf τ) :
    Option (AccumulatedLatencyOf τ) :=
  if neighbor = origin then
    none
  else
    match latencyTo neighbor with
    | none         => none
    | some latency =>
      match situation.getFogNodeNeighbor neighbor with
      | none             => none
      | some description =>
        let next := acc.accumulate latency description.advertisedBandwidth
        if latencyMax < computeWorseLatencyOf next inputMaxSize then none else some next

def AccumulatedLatency.ofOf (acc : AccumulatedLatencyOf Float) : AccumulatedLatency where
  median            := acc.median
  average           := acc.average
  medianUncertainty := acc.medianUncertainty
  packetLoss        := acc.packetLoss
  bandwidth         := acc.bandwidth

theorem followUpToSingleNeighbor_eq (life : FunctionLife)
    (query : NodeId → BidRequest → Option (Reply (BidProposals ℚ))) (sla : Sla) (origin neighbor : NodeId)
    (acc : AccumulatedLatency) :
    life.followUpToSingleNeighbor query sla origin acc neighbor =
      match nextLatency life.situation (fun id => (life.latencyTo id).map Latency.toOf) sla.latencyMax
        sla.inputMaxSize origin neighbor acc.toOf with
      | none      => some ⟨[], .ok none⟩
      | some next =>
        (query neighbor ⟨life.situation.myId, sla, .ofOf next⟩).map fun reply =>
          ⟨reply.calls, reply.result.map some⟩ := by
  rw [FunctionLife.followUpToSingleNeighbor, nextLatency]
  split
  case isTrue => rfl
  case isFalse =>
    cases life.latencyTo neighbor
    case none         => rfl
    case some latency =>
      cases life.situation.getFogNodeNeighbor neighbor
      case none             => rfl
      case some description =>
        by_cases h : sla.latencyMax <
          computeWorseLatency (acc.accumulate latency description.advertisedBandwidth) sla.inputMaxSize
        case pos =>
          have h' : sla.latencyMax < computeWorseLatencyOf
              (acc.toOf.accumulate latency.toOf description.advertisedBandwidth) sla.inputMaxSize := h
          simp [h, h']
        case neg =>
          have h' : ¬sla.latencyMax < computeWorseLatencyOf
              (acc.toOf.accumulate latency.toOf description.advertisedBandwidth) sla.inputMaxSize := h
          simp only [Option.map_some, if_neg h, if_neg h']
          rfl

namespace TcpLatency

open ExtendedReal

-- None of the quotients is undefined.
structure Defined (oneWay packetLoss : ExtendedReal) (dataSize : Information) : Prop where
  window           : (window dataSize : ExtendedReal) ≠ undefined
  hand1            : hand1 oneWay dataSize ≠ undefined
  hand2            : hand2 oneWay packetLoss ≠ undefined
  transmissionTime : transmissionTime oneWay packetLoss dataSize ≠ undefined

variable {oneWay loss : ℝ} {dataSize : Information}

theorem ofRational_eq (q : ℚ) : (ofRational q : ExtendedReal) = finite q := by
  have hd : ((q.den : ℕ) : ℝ) ≠ 0 := Nat.cast_ne_zero.mpr q.den_ne_zero
  rw [Rat.cast_def]
  exact finite_div hd

theorem mss_eq : (mss : ExtendedReal) = finite 1460 := by
  rw [mss, defaultMtu, literal_eq, literal_eq, finite_sub]
  norm_num

theorem window_eq : (window dataSize : ExtendedReal) = finite (dataSize / 1460) := by
  rw [window, ofRational_eq, mss_eq, finite_div (by norm_num)]

theorem cappedWindow_eq : (cappedWindow dataSize : ExtendedReal) = finite (min ((dataSize : ℝ) / 1460) 33) := by
  rw [cappedWindow, window_eq, tcpMaxCongestionWindowSize, literal_eq]
  split
  case isTrue h  => rw [min_eq_left (le_of_lt h)]
  case isFalse h => rw [min_eq_right (not_lt.mp h)]

theorem hand1_eq (h : 0 < oneWay) :
    hand1 (finite oneWay) dataSize = finite (min ((dataSize : ℝ) / 1460) 33 / (2 * oneWay)) := by
  rw [hand1, cappedWindow_eq, literal_eq, finite_mul, finite_div (by positivity)]

theorem subhand_eq (h : 0 ≤ loss) : ∃ s ≥ 0, subhand (finite loss) = finite s := by
  have h8 : (8 : ℝ) ≠ 0 := by norm_num
  have hs : 0 ≤ 6 * loss / 8 := by positivity
  simp only [subhand, literal_eq, one_eq, finite_mul, finite_div h8, sqrt_finite hs]
  split
  case isTrue  => exact ⟨1, zero_le_one, rfl⟩
  case isFalse => exact ⟨3 * √(6 * loss / 8), by positivity, rfl⟩

-- Nothing is lost by links without loss, which bounds the bandwidth only by the window.
theorem hand2_eq (ho : 0 < oneWay) (h : 0 ≤ loss) :
    hand2 (finite oneWay) (finite loss) = infinite false ∨ ∃ x > 0, hand2 (finite oneWay) (finite loss) = finite x := by
  have ⟨s, hs, he⟩ := subhand_eq h
  have h3 : (3 : ℝ) ≠ 0 := by norm_num
  have h43 : 0 ≤ loss * 4 / 3 := by positivity
  have ht : (tcpTimeoutSec : ExtendedReal) = finite 0.020 := rfl
  simp only [hand2, he, ht, literal_eq, one_eq, finite_mul, finite_add, finite_div h3, sqrt_finite h43]
  obtain hd | hd := eq_or_lt_of_le
    (by positivity : 0 ≤ √(loss * 4 / 3) * (2 * oneWay) + 0.020 * s * loss * (1 + 32 * loss * loss))
  case inl => exact .inl (by rw [← hd, finite_div_zero one_pos])
  case inr => exact .inr ⟨_, one_div_pos.mpr hd, finite_div hd.ne'⟩

-- Without data there is no bandwidth.
theorem tcpBandwidth_eq (ho : 0 < oneWay) (h : 0 ≤ loss) (hd : 0 ≤ dataSize) :
    ∃ b, tcpBandwidth (finite oneWay) (finite loss) dataSize = finite b ∧ (0 < dataSize → 0 < b) ∧
      (dataSize = 0 → b = 0) := by
  have hc : (0 : ℝ) ≤ dataSize := Rat.cast_nonneg.mpr hd
  have hp : 0 < dataSize → 0 < min ((dataSize : ℝ) / 1460) 33 / (2 * oneWay) := by
    intro hd
    have : (0 : ℝ) < dataSize := Rat.cast_pos.mpr hd
    positivity
  have hz : dataSize = 0 → min ((dataSize : ℝ) / 1460) 33 / (2 * oneWay) = 0 := by
    rintro rfl
    simp
  rw [tcpBandwidth, hand1_eq ho, mss_eq]
  split
  case isTrue =>
    refine ⟨_, finite_mul, fun hd => ?_, fun hd => ?_⟩
    case refine_1 => exact mul_pos (hp hd) (by norm_num)
    case refine_2 => rw [hz hd, zero_mul]
  case isFalse hn =>
    obtain he | ⟨x, hx, he⟩ := hand2_eq ho h <;> rw [he] at hn ⊢
    case inl => exact absurd finite_lt_infinite hn
    case inr =>
      refine ⟨_, finite_mul, fun _ => mul_pos hx (by norm_num), fun hd => ?_⟩
      rw [finite_lt, hz hd] at hn
      exact absurd hx hn

theorem transmissionTime_pos (ho : 0 < oneWay) (h : 0 ≤ loss) (hd : 0 < dataSize) :
    ∃ t > 0, transmissionTime (finite oneWay) (finite loss) dataSize = finite t := by
  have ⟨b, he, hb, _⟩ := tcpBandwidth_eq ho h hd.le
  rw [transmissionTime, he, ofRational_eq, finite_div (hb hd).ne']
  exact ⟨_, div_pos (Rat.cast_pos.mpr hd) (hb hd), rfl⟩

theorem transmissionTime_zero (ho : 0 < oneWay) (h : 0 ≤ loss) :
    transmissionTime (finite oneWay) (finite loss) 0 = undefined := by
  have ⟨b, he, _, hb⟩ := tcpBandwidth_eq ho h le_rfl
  rw [transmissionTime, he, hb rfl, ofRational_eq, Rat.cast_zero, zero_div_zero]

theorem defined_iff (ho : 0 < oneWay) (h : 0 ≤ loss) (hd : 0 ≤ dataSize) :
    Defined (finite oneWay) (finite loss) dataSize ↔ 0 < dataSize := by
  constructor
  case mp =>
    intro hdef
    refine lt_of_le_of_ne hd fun hz => ?_
    exact hdef.transmissionTime (hz ▸ transmissionTime_zero ho h)
  case mpr =>
    intro hp
    have ⟨t, _, ht⟩ := transmissionTime_pos ho h hp
    refine ⟨by rw [window_eq]; nofun, by rw [hand1_eq ho]; nofun, ?_, by rw [ht]; nofun⟩
    obtain he | ⟨x, _, he⟩ := hand2_eq ho h <;> rw [he] <;> nofun

-- The estimate is at least the one-way time.
theorem oneWay_lt_getTcpLatency (ho : 0 < oneWay) (h : 0 ≤ loss) (hd : 0 < dataSize) (bandwidth : InformationRate) :
    ∃ x > oneWay, getTcpLatencyOf (finite oneWay) (finite loss) bandwidth dataSize = finite x := by
  have ⟨t, hp, ht⟩ := transmissionTime_pos ho h hd
  have h15 : (1.5 : ExtendedReal) = finite 1.5 := rfl
  have h13 : (1.3 : ExtendedReal) = finite 1.3 := rfl
  simp only [getTcpLatencyOf, ht, h15, h13, literal_eq, finite_mul, finite_add]
  refine ⟨_, ?_, rfl⟩
  norm_num
  linarith

theorem getTcpLatency_zero (ho : 0 < oneWay) (h : 0 ≤ loss) (bandwidth : InformationRate) :
    getTcpLatencyOf (finite oneWay) (finite loss) bandwidth 0 = undefined := by
  have h15 : (1.5 : ExtendedReal) = finite 1.5 := rfl
  have h13 : (1.3 : ExtendedReal) = finite 1.3 := rfl
  rw [getTcpLatencyOf, transmissionTime_zero ho h, h15, h13, literal_eq, finite_mul, finite_mul, undefined_add,
    undefined_mul]

end TcpLatency

open TcpLatency ExtendedReal

section Filter

variable {situation : NodeSituation} {latencyTo : NodeId → Option (LatencyOf ExtendedReal)} {origin neighbor : NodeId}
variable {acc : AccumulatedLatencyOf ExtendedReal} {latency : LatencyOf ExtendedReal} {description : NodeDescription}
variable {oneWay loss latencyMax : ℝ} {inputMaxSize : Information}

theorem nextLatency_of_neighbor {τ : Type} [Arithmetic τ] {latencyTo : NodeId → Option (LatencyOf τ)}
    {acc : AccumulatedLatencyOf τ} {latency : LatencyOf τ} {latencyMax : τ} (hn : neighbor ≠ origin)
    (hl : latencyTo neighbor = some latency) (hd : situation.getFogNodeNeighbor neighbor = some description) :
    nextLatency situation latencyTo latencyMax inputMaxSize origin neighbor acc =
      if latencyMax <
          computeWorseLatencyOf (acc.accumulate latency description.advertisedBandwidth) inputMaxSize then
        none
      else
        some (acc.accumulate latency description.advertisedBandwidth) := by
  simp only [nextLatency, if_neg hn, hl, hd]

-- Functions without input are sent to neighbors whatever their latency.
theorem nextLatency_of_empty (hn : neighbor ≠ origin) (hl : latencyTo neighbor = some latency)
    (hd : situation.getFogNodeNeighbor neighbor = some description)
    (ho : (acc.accumulate latency description.advertisedBandwidth).median +
      (acc.accumulate latency description.advertisedBandwidth).medianUncertainty = finite oneWay)
    (hp : 0 < oneWay)
    (hloss : (acc.accumulate latency description.advertisedBandwidth).packetLoss = finite loss) (h0 : 0 ≤ loss) :
    nextLatency situation latencyTo (finite latencyMax) 0 origin neighbor acc =
      some (acc.accumulate latency description.advertisedBandwidth) := by
  rw [nextLatency_of_neighbor hn hl hd, computeWorseLatencyOf, ho, hloss, getTcpLatency_zero hp h0,
    if_neg (not_lt_undefined _)]

theorem latencyFilter_iff (hn : neighbor ≠ origin) (hl : latencyTo neighbor = some latency)
    (hd : situation.getFogNodeNeighbor neighbor = some description)
    (ho : (acc.accumulate latency description.advertisedBandwidth).median +
      (acc.accumulate latency description.advertisedBandwidth).medianUncertainty = finite oneWay)
    (hp : 0 < oneWay)
    (hloss : (acc.accumulate latency description.advertisedBandwidth).packetLoss = finite loss)
    (h01 : loss ∈ Set.Icc 0 1) (hs : 0 ≤ inputMaxSize) :
    (Defined (finite oneWay) (finite loss) inputMaxSize ∧
      (latencyMax < oneWay →
        nextLatency situation latencyTo (finite latencyMax) inputMaxSize origin neighbor acc = none)) ↔
      0 < inputMaxSize := by
  rw [defined_iff hp h01.1 hs, and_iff_left_iff_imp]
  intro hpos hlt
  have ⟨x, hx, he⟩ := oneWay_lt_getTcpLatency hp h01.1 hpos
    (acc.accumulate latency description.advertisedBandwidth).bandwidth
  rw [nextLatency_of_neighbor hn hl hd, computeWorseLatencyOf, ho, hloss, he]
  exact if_pos (finite_lt.mpr (hlt.trans hx))

end Filter

def twoNodes : NodeSituation where
  myId                  := ⟨0⟩
  parentId              := some ⟨1⟩
  children              := ∅
  myAdvertisedBandwidth := 1000

-- The parent is 200 milliseconds away.
noncomputable def slowParent (_ : NodeId) : Option (LatencyOf ExtendedReal) :=
  some { median := finite (1 / 5), average := finite (1 / 5), interquantileRange := finite 0, packetLoss := finite 0 }

noncomputable def towardsParent : AccumulatedLatencyOf ExtendedReal :=
  AccumulatedLatencyOf.default.accumulate
    ⟨finite (1 / 5), finite (1 / 5), finite 0, finite 0⟩ twoNodes.myAdvertisedBandwidth

theorem oneWay_towardsParent : towardsParent.median + towardsParent.medianUncertainty = finite (1 / 5) := by
  have h1349 : (1.349 : ExtendedReal) = finite 1.349 := rfl
  have h05 : (0.5 : ExtendedReal) = finite 0.5 := rfl
  have hk : (1000 : ℝ) ≠ 0 := by norm_num
  have hd : (1.349 : ℝ) ≠ 0 := by norm_num
  simp only [towardsParent, AccumulatedLatencyOf.accumulate, AccumulatedLatencyOf.default, zero_eq, literal_eq,
    h1349, h05, finite_mul, finite_div hk, finite_div hd, finite_add, zero_mul, zero_div, add_zero, zero_add,
    finite_pow le_rfl]
  norm_num

theorem packetLoss_towardsParent : towardsParent.packetLoss = finite 0 := by
  simp only [towardsParent, AccumulatedLatencyOf.accumulate, AccumulatedLatencyOf.default, zero_eq, finite_mul,
    mul_zero]

theorem latencyFilter_iff_of_byte :
    (Defined (finite (1 / 5)) (finite 0) 1 ∧
      ((1 / 10 : ℝ) < 1 / 5 →
        nextLatency twoNodes slowParent (finite (1 / 10)) 1 ⟨0⟩ ⟨1⟩ AccumulatedLatencyOf.default = none)) ↔
      (0 : ℚ) < 1 :=
  latencyFilter_iff (by decide) rfl rfl oneWay_towardsParent (by norm_num) packetLoss_towardsParent (by norm_num)
    (by norm_num)

-- The parent is asked for a function without input although it is too far away.
theorem latencyFilter_slip :
    nextLatency twoNodes slowParent (finite (1 / 10)) 0 ⟨0⟩ ⟨1⟩ AccumulatedLatencyOf.default = some towardsParent ∧
      towardsParent.median + towardsParent.medianUncertainty = finite (1 / 5) ∧ towardsParent.packetLoss = finite 0 ∧
      transmissionTime (finite (1 / 5)) (finite 0) 0 = undefined := by
  refine ⟨?_, oneWay_towardsParent, packetLoss_towardsParent, transmissionTime_zero (by norm_num) le_rfl⟩
  exact nextLatency_of_empty (by decide) rfl rfl oneWay_towardsParent (by norm_num) packetLoss_towardsParent le_rfl

end Fog
