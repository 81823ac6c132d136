import Mathlib.Data.Rat.Init
import FogMarket.Objects.Sla

namespace Fog

-- The latency to a neighbor, as it is measured. Times are in seconds.
structure Latency where
  median             : Float
  average            : Float
  interquantileRange : Float
  packetLoss         : Float

-- The latency on the way from the node which has been asked first.
structure AccumulatedLatency where
  median            : Float
  average           : Float
  medianUncertainty : Float
  packetLoss        : Float
  bandwidth         : InformationRate

-- `Time::new::<millisecond>` and `get::<millisecond>`
def ofMillis (millis : Float) : Float :=
  millis / 1000

def toMillis (seconds : Float) : Float :=
  seconds * 1000

-- `*data_size.numer() as f64 / *data_size.denom() as f64`
def toFloat (q : ℚ) : Float :=
  Float.ofInt q.num / Float.ofNat q.den

namespace AccumulatedLatency

-- No latency, and ten gigabytes per second.
def default : AccumulatedLatency where
  median            := ofMillis 0
  average           := ofMillis 0
  medianUncertainty := ofMillis 0
  packetLoss        := 0
  bandwidth         := 80000000000

def accumulate (acc : AccumulatedLatency) (latency : Latency) (bandwidth : InformationRate) :
    AccumulatedLatency :=
  let stdDeviation := toMillis latency.interquantileRange / 1.349
  let uncertainty := toMillis acc.medianUncertainty
  { median            := acc.median + latency.median
    average           := acc.average + latency.average
    medianUncertainty := ofMillis ((stdDeviation * stdDeviation + uncertainty * uncertainty).pow 0.5)
    packetLoss        := acc.packetLoss * latency.packetLoss
    bandwidth         := min acc.bandwidth bandwidth }

end AccumulatedLatency

def defaultMtu : Float := 1500
def tcpTimeoutSec : Float := 0.020
def tcpMaxCongestionWindowSize : Float := 33

-- The time in which `dataSize` bytes are sent over TCP, whatever the bandwidth.
def getTcpLatency (oneWay packetLoss : Float) (_bandwidth : InformationRate) (dataSize : Information) :
    Float :=
  let dataSize := toFloat dataSize
  let mss := defaultMtu - 40
  let window := dataSize / mss
  let window := if window < tcpMaxCongestionWindowSize then window else tcpMaxCongestionWindowSize
  let rtt := 2 * oneWay
  let hand1 := window / rtt
  let subhand1 : Float := 1
  let subhand2 := 3 * (6 * packetLoss / 8).sqrt
  let subhand := if subhand1 < subhand2 then subhand1 else subhand2
  let hand2 := 1 / ((packetLoss * 4 / 3).sqrt * rtt +
    tcpTimeoutSec * subhand * packetLoss * (1 + 32 * packetLoss * packetLoss))
  let tcpBandwidth := (if hand1 < hand2 then hand1 else hand2) * mss
  let transmissionTime := dataSize / tcpBandwidth
  (transmissionTime + 1.5 * rtt) * 1.3

def computeWorseLatency (acc : AccumulatedLatency) (dataSize : Information) : Float :=
  getTcpLatency (acc.median + acc.medianUncertainty) acc.packetLoss acc.bandwidth dataSize

end Fog
