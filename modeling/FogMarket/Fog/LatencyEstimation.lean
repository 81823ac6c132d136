import FogMarket.Library.Map
import FogMarket.Fog.MovingMedian
import FogMarket.Fog.PacketLoss
import FogMarket.Fog.Placement

namespace Fog

-- The average gives the weight `alpha` to the newest value.
structure Alpha (τ : Type) [Zero τ] [One τ] [LE τ] where
  alpha  : τ
  nonneg : 0 ≤ alpha
  le_one : alpha ≤ 1

structure ExponentialMovingAverage (τ : Type) [Zero τ] [One τ] [LE τ] where
  alpha      : Alpha τ
  currentEma : τ

structure PacketLossRing (τ : Type) where
  buffer     : List τ
  cursor     : Nat
  windowSize : Nat

structure Latencies (σ τ : Type) [Zero τ] [One τ] [LE τ] where
  movingAverage : ExponentialMovingAverage τ
  movingMedian  : MovingMedian σ τ
  packetLoss    : PacketLossRing τ

structure LatencyEstimation (σ τ : Type) [Zero τ] [One τ] [LE τ] where
  latency                : Map NodeId (Latencies σ τ)
  alpha                  : Alpha τ
  movingMedianWindowSize : MovingMedianSize

def nbIcmpSent : Nat := 10

-- What becomes of the probes of a round: the milliseconds after which they are answered, if they are.
structure Round where
  replies : List (Option Nat)
  sent    : replies.length = nbIcmpSent

-- A neighbor is pinged, with what is known about the neighborhood at that time.
structure Ping where
  situation : NodeSituation
  node      : NodeId
  round     : Round

inductive PingError
  | failedToFindNode (node : NodeId)
  | allRequestsFailed
deriving DecidableEq

namespace PacketLossRing

variable {τ : Type}

def new (windowSize : Nat) : PacketLossRing τ where
  buffer     := []
  cursor     := 0
  windowSize := windowSize

-- Is `none` if it panics, because the index is outside of the buffer.
def update (self : PacketLossRing τ) (value : τ) : Option (PacketLossRing τ) :=
  let cursor := (self.cursor + 1) % self.windowSize
  if self.buffer.length < self.windowSize then
    some { self with buffer := self.buffer ++ [value], cursor := cursor }
  else if self.cursor < self.buffer.length then
    some { self with buffer := self.buffer.set self.cursor value, cursor := cursor }
  else
    none

def get [Zero τ] [Add τ] [Div τ] [NatCast τ] (self : PacketLossRing τ) : τ :=
  self.buffer.foldl (· + ·) 0 / self.buffer.length

end PacketLossRing

namespace ExponentialMovingAverage

variable {τ : Type} [Field τ] [LE τ]

def new (alpha : Alpha τ) (initialEma : τ) : ExponentialMovingAverage τ where
  alpha      := alpha
  currentEma := initialEma

def update (self : ExponentialMovingAverage τ) (value : τ) : ExponentialMovingAverage τ :=
  { self with currentEma := self.alpha.alpha * value + (1 - self.alpha.alpha) * self.currentEma }

def get (self : ExponentialMovingAverage τ) : τ :=
  self.currentEma

end ExponentialMovingAverage

namespace Round

variable (τ : Type) [Field τ]

-- One pass of the loop over the probes: half of the time on the way is the latency.
def probe : τ × Nat → Option Nat → τ × Nat
  | (durations, nbFailed), some millis => (durations + millis / 2 / 1000, nbFailed)
  | (durations, nbFailed), none        => (durations, nbFailed + 1)

def probes (round : Round) : τ × Nat :=
  round.replies.foldl (probe τ) (0, 0)

def durations (round : Round) : τ :=
  (round.probes τ).1

def nbFailed (round : Round) : Nat :=
  (round.probes τ).2

def rawLatency (round : Round) : τ :=
  round.durations τ / (nbIcmpSent - round.nbFailed τ : Nat)

-- The numbers are divided before they are converted.
def rawPacketLoss (round : Round) : τ :=
  (round.nbFailed τ / nbIcmpSent : Nat)

-- How many of the probes are not answered.
def failures (round : Round) : Nat :=
  round.replies.count none

end Round

namespace LatencyEstimation

variable {σ τ : Type} [Field τ] [LE τ] (list : OrderedSkipList σ τ)

def new (alpha : Alpha τ) (movingMedianWindowSize : MovingMedianSize) : LatencyEstimation σ τ where
  latency                := ∅
  alpha                  := alpha
  movingMedianWindowSize := movingMedianWindowSize

def updateLatency (self : LatencyEstimation σ τ) (key : NodeId) (value packetLoss : τ) :
    Option (LatencyEstimation σ τ) := do
  let entry ←
    match self.latency.lookup key with
    | some entry =>
      let movingAverage := entry.movingAverage.update value
      let movingMedian ← entry.movingMedian.update list value
      let packetLoss ← entry.packetLoss.update packetLoss
      some { movingAverage, movingMedian, packetLoss : Latencies σ τ }
    | none =>
      let movingAverage := .new self.alpha value
      let movingMedian ← (MovingMedian.new list self.movingMedianWindowSize).update list value
      let packetLoss ← (PacketLossRing.new self.movingMedianWindowSize.size).update packetLoss
      some { movingAverage, movingMedian, packetLoss : Latencies σ τ }
  some { self with latency := self.latency.insert key entry }

def getLatencyTo (self : LatencyEstimation σ τ) (id : NodeId) : Option (LatencyOf τ) :=
  (self.latency.lookup id).bind fun latencies =>
    match latencies.movingMedian.median list, latencies.movingMedian.interquantileRange list with
    | some median, some interquantileRange =>
      some {
        median             := median
        interquantileRange := interquantileRange
        average            := latencies.movingAverage.get
        packetLoss         := latencies.packetLoss.get
      }
    | _, _ => none

-- Is `none` if it panics. Otherwise the state is kept along with an error.
def ping (self : LatencyEstimation σ τ) (p : Ping) : Option (Except PingError Unit × LatencyEstimation σ τ) :=
  match p.situation.getFogNodeNeighbor p.node with
  | none => some (.error (.failedToFindNode p.node), self)
  | some _ =>
    if p.round.nbFailed τ = nbIcmpSent then
      some (.error .allRequestsFailed, self)
    else
      (self.updateLatency list p.node (p.round.rawLatency τ) (p.round.rawPacketLoss τ)).map (.ok (), ·)

end LatencyEstimation

-- The rounds of a neighbor which are recorded: it is known, and answers at least one of the probes.
def recorded (id : NodeId) (pings : List Ping) : List Round :=
  (pings.filter fun p =>
    p.node = id ∧ (p.situation.getFogNodeNeighbor p.node).isSome ∧ p.round.failures < nbIcmpSent).map (·.round)

namespace Round

variable {τ : Type} [Field τ] {round : Round}

theorem nbFailed_eq : round.nbFailed τ = round.failures := by
  have h : ∀ (replies : List (Option Nat)) (acc : τ × Nat),
      (replies.foldl (probe τ) acc).2 = acc.2 + replies.count none := by
    intro replies
    induction replies <;> intro acc
    case nil => rfl
    case cons reply replies hi =>
      rw [List.foldl_cons, hi]
      cases reply <;> simp [probe, Nat.add_assoc, Nat.add_comm 1]
  exact (h round.replies (0, 0)).trans (Nat.zero_add _)

theorem failures_le : round.failures ≤ nbIcmpSent :=
  round.sent ▸ List.count_le_length

-- Not all of the probes have failed, so that less than one round of them has.
theorem rawPacketLoss_eq (h : round.failures < nbIcmpSent) : round.rawPacketLoss τ = 0 := by
  rw [rawPacketLoss, nbFailed_eq, Nat.div_eq_of_lt h, Nat.cast_zero]

end Round

-- The ring holds the values of the window.
structure PacketLossRing.Holds {τ : Type} (ring : PacketLossRing τ) (values : List τ) : Prop where
  window : Window ring.windowSize ring.buffer ring.cursor values
  start  : ring.buffer.length < ring.windowSize → ring.cursor = ring.buffer.length

namespace PacketLossRing.Holds

variable {τ : Type} {self : PacketLossRing τ} {values : List τ} {n : Nat}

theorem new (h : 0 < n) : (new n : PacketLossRing τ).Holds [] where
  window  := .empty h
  start _ := rfl

theorem update (h : self.Holds values) (value : τ) :
    ∃ self', self.update value = some self' ∧ self'.windowSize = self.windowSize ∧
      self'.Holds (values ++ [value]) := by
  have hw := Nat.zero_lt_of_lt h.window.cursor_lt
  obtain hl | hl := lt_or_eq_of_le (h.window.length_eq.trans_le (min_le_left _ _))
  case inl =>
    have hc := h.start hl
    refine ⟨_, if_pos hl, rfl, h.window.push hl (Nat.mod_lt _ hw) ?_, ?_⟩
    case refine_1 =>
      intro he
      rw [hc, he, Nat.mod_self]
    case refine_2 =>
      intro he
      simp at he
      simp [hc, Nat.mod_eq_of_lt he]
  case inr =>
    have hc : self.cursor < self.buffer.length := hl ▸ h.window.cursor_lt
    have hu : self.update value = some { self with
        buffer := self.buffer.set self.cursor value
        cursor := (self.cursor + 1) % self.windowSize } := by
      simp only [PacketLossRing.update, if_neg hl.not_lt, if_pos hc]
    refine ⟨_, hu, rfl, h.window.overwrite hl, ?_⟩
    intro he
    simp [hl] at he

theorem get [Field τ] (h : self.Holds values) :
    self.get = (values.rtake self.windowSize).sum / (values.rtake self.windowSize).length := by
  rw [PacketLossRing.get, ← List.sum_eq_foldl, h.window.perm.sum_eq, h.window.perm.length_eq]

end PacketLossRing.Holds

-- What is kept of a neighbor holds its recorded rounds.
structure Latencies.Holds {σ τ : Type} [Field τ] [LinearOrder τ] (list : OrderedSkipList σ τ) (size : Nat)
    (latencies : Latencies σ τ) (rounds : List Round) : Prop where
  median     : latencies.movingMedian.window.Holds list (rounds.map (·.rawLatency τ))
  medianSize : latencies.movingMedian.window.windowSize = size
  loss       : latencies.packetLoss.Holds (rounds.map (·.rawPacketLoss τ))
  lossSize   : latencies.packetLoss.windowSize = size

-- There is an entry for each neighbor with a recorded round.
structure LatencyEstimation.Holds {σ τ : Type} [Field τ] [LinearOrder τ] (list : OrderedSkipList σ τ)
    (estimation : LatencyEstimation σ τ) (pings : List Ping) : Prop where
  missing : ∀ id, estimation.latency.lookup id = none → recorded id pings = []
  entries : ∀ id latencies, estimation.latency.lookup id = some latencies →
    latencies.Holds list estimation.movingMedianWindowSize.size (recorded id pings)

section

variable {σ τ : Type} [Field τ] [LinearOrder τ] {list : OrderedSkipList σ τ}
variable {alpha : Alpha τ} {size : MovingMedianSize} {pings : List Ping} {p : Ping} {id : NodeId}

namespace Latencies.Holds

variable {n : Nat} {latencies : Latencies σ τ} {rounds : List Round}

theorem new (lawful : list.Lawful) (movingAverage : ExponentialMovingAverage τ) (size : MovingMedianSize) :
    Latencies.Holds list size.size ⟨movingAverage, .new list size, .new size.size⟩ [] where
  median     := .withSize lawful (Nat.zero_lt_of_lt size.valid)
  medianSize := rfl
  loss       := .new (Nat.zero_lt_of_lt size.valid)
  lossSize   := rfl

theorem record (lawful : list.Lawful) (h : latencies.Holds list n rounds) (round : Round) :
    ∃ movingMedian packetLoss,
      latencies.movingMedian.update list (round.rawLatency τ) = some movingMedian ∧
      latencies.packetLoss.update (round.rawPacketLoss τ) = some packetLoss ∧
      ∀ movingAverage, Latencies.Holds list n ⟨movingAverage, movingMedian, packetLoss⟩ (rounds ++ [round]) := by
  have ⟨window, hi, hw, hm⟩ := h.median.insert lawful (round.rawLatency τ)
  have ⟨ring, hu, hs, hl⟩ := h.loss.update (round.rawPacketLoss τ)
  refine ⟨⟨window⟩, ring, by simp [MovingMedian.update, hi], hu, fun _ => ?_⟩
  refine ⟨?_, hw.trans h.medianSize, ?_, hs.trans h.lossSize⟩
  case refine_1 => simpa using hm
  case refine_2 => simpa using hl

end Latencies.Holds

namespace LatencyEstimation

variable (list) in
-- The state after the pings, one after the other.
def pingAll (self : LatencyEstimation σ τ) (pings : List Ping) : Option (LatencyEstimation σ τ) :=
  pings.foldlM (fun self p => (self.ping list p).map (·.2)) self

theorem Holds.new : (new alpha size : LatencyEstimation σ τ).Holds list [] where
  missing _ _     := rfl
  entries _ _ h   := by simp [LatencyEstimation.new] at h

variable {self : LatencyEstimation σ τ}

theorem recorded_append (pings : List Ping) (p : Ping) :
    recorded id (pings ++ [p]) = recorded id pings ++ recorded id [p] := by
  simp [recorded]

theorem recorded_of_node_ne (h : p.node ≠ id) : recorded id [p] = [] := by
  simp [recorded, h]

-- An error leaves nothing behind.
theorem Holds.skip (h : self.Holds list pings) (hr : ∀ id, recorded id [p] = []) :
    self.Holds list (pings ++ [p]) where
  missing id hn   := by rw [recorded_append, hr, h.missing id hn, List.append_nil]
  entries id l hl := by
    rw [recorded_append, hr, List.append_nil]
    exact h.entries id l hl

theorem Holds.updateLatency (lawful : list.Lawful) (h : self.Holds list pings) (key : NodeId) (round : Round) :
    ∃ entry, self.updateLatency list key (round.rawLatency τ) (round.rawPacketLoss τ) =
        some { self with latency := self.latency.insert key entry } ∧
      Latencies.Holds list self.movingMedianWindowSize.size entry (recorded key pings ++ [round]) := by
  cases hk : self.latency.lookup key
  case none =>
    have hn := Latencies.Holds.new lawful (.new self.alpha (round.rawLatency τ)) self.movingMedianWindowSize
    have ⟨median, loss, hm, hl, he⟩ := hn.record lawful round
    rw [h.missing key hk]
    refine ⟨_, ?_, he (.new self.alpha (round.rawLatency τ))⟩
    simp [LatencyEstimation.updateLatency, hk, hm, hl]
  case some latencies =>
    have ⟨median, loss, hm, hl, he⟩ := (h.entries key latencies hk).record lawful round
    refine ⟨_, ?_, he (latencies.movingAverage.update (round.rawLatency τ))⟩
    simp [LatencyEstimation.updateLatency, hk, hm, hl]

theorem Holds.insert (h : self.Holds list pings) {entry : Latencies σ τ}
    (hr : recorded p.node [p] = [p.round])
    (he : entry.Holds list self.movingMedianWindowSize.size (recorded p.node pings ++ [p.round])) :
    { self with latency := self.latency.insert p.node entry }.Holds list (pings ++ [p]) where
  missing id hn   := by
    rw [Map.lookup_insert_eq] at hn
    split at hn
    case isTrue => cases hn
    case isFalse hne =>
      rw [recorded_append, h.missing id hn, recorded_of_node_ne (Ne.symm hne), List.append_nil]
  entries id l hl := by
    rw [Map.lookup_insert_eq] at hl
    split at hl
    case isTrue heq =>
      cases hl
      rw [recorded_append, heq, hr]
      exact he
    case isFalse hne =>
      rw [recorded_append, recorded_of_node_ne (Ne.symm hne), List.append_nil]
      exact h.entries id l hl

theorem Holds.ping (lawful : list.Lawful) (h : self.Holds list pings) (p : Ping) :
    ∃ result self', self.ping list p = some (result, self') ∧
      self'.movingMedianWindowSize = self.movingMedianWindowSize ∧ self'.Holds list (pings ++ [p]) := by
  cases hd : p.situation.getFogNodeNeighbor p.node
  case none =>
    refine ⟨_, self, by rw [LatencyEstimation.ping, hd], rfl, h.skip ?_⟩
    simp [recorded, hd]
  case some description =>
    by_cases hf : p.round.failures = nbIcmpSent
    case pos =>
      refine ⟨.error .allRequestsFailed, self, ?_, rfl, h.skip ?_⟩
      case refine_1 => simp [LatencyEstimation.ping, hd, Round.nbFailed_eq, hf]
      case refine_2 => simp [recorded, hf]
    case neg =>
      have hlt := lt_of_le_of_ne Round.failures_le hf
      have ⟨entry, hu, he⟩ := h.updateLatency lawful p.node p.round
      have hr : recorded p.node [p] = [p.round] := by simp [recorded, hd, hlt]
      have hp : self.ping list p =
          some (.ok (), { self with latency := self.latency.insert p.node entry }) := by
        simp [LatencyEstimation.ping, hd, Round.nbFailed_eq, hf, hu]
      exact ⟨_, _, hp, rfl, h.insert hr he⟩

theorem pingAll_holds (lawful : list.Lawful) (alpha : Alpha τ) (size : MovingMedianSize) (pings : List Ping) :
    ∃ self : LatencyEstimation σ τ, (new alpha size).pingAll list pings = some self ∧
      self.movingMedianWindowSize = size ∧ self.Holds list pings := by
  induction pings using List.reverseRecOn
  case nil =>
    exact ⟨_, rfl, rfl, .new⟩
  case append_singleton pings p hi =>
    have ⟨self, hs, hw, hh⟩ := hi
    have ⟨result, self', hp, hw', hh'⟩ := hh.ping lawful p
    refine ⟨self', ?_, hw'.trans hw, hh'⟩
    rw [pingAll, List.foldlM_append, ← pingAll, hs]
    simp [hp]

end LatencyEstimation

namespace Latencies.Holds

variable {n : Nat} {latencies : Latencies σ τ} {rounds : List Round}

theorem hasContent (h : latencies.Holds list n rounds) :
    latencies.movingMedian.HasContent list (list.toList latencies.movingMedian.window.skiplist) :=
  ⟨h.median.len, rfl⟩

theorem length_content (h : latencies.Holds list n rounds) :
    (list.toList latencies.movingMedian.window.skiplist).length = min n rounds.length := by
  rw [h.median.skiplist.length_eq, Window.length_rtake, h.medianSize, List.length_map]

-- Each round counts as one without loss.
theorem packetLoss_eq (h : latencies.Holds list n rounds) (hr : ∀ round ∈ rounds, round.failures < nbIcmpSent) :
    latencies.packetLoss.get = 0 := by
  have hs : ((rounds.map (·.rawPacketLoss τ)).rtake latencies.packetLoss.windowSize).sum = 0 := by
    apply List.sum_eq_zero
    intro loss hl
    have ⟨round, hm, he⟩ := List.mem_map.mp (List.mem_of_mem_drop hl)
    rw [← he, Round.rawPacketLoss_eq (hr round hm)]
  rw [h.loss.get, hs, zero_div]

end Latencies.Holds

theorem recorded_failures {round : Round} (h : round ∈ recorded id pings) : round.failures < nbIcmpSent := by
  simp only [recorded, List.mem_map, List.mem_filter, decide_eq_true_eq] at h
  have ⟨p, ⟨_, _, _, hf⟩, he⟩ := h
  exact he ▸ hf

theorem sum_failures_eq_zero [IsStrictOrderedRing τ] {rounds : List Round} (h : rounds ≠ []) :
    (0 : τ) = (rounds.map (·.failures)).sum / (nbIcmpSent * rounds.length : Nat) ↔
      ∀ round ∈ rounds, round.failures = 0 := by
  have hl : rounds.length ≠ 0 := mt List.length_eq_zero_iff.mp h
  have hd : ((nbIcmpSent * rounds.length : Nat) : τ) ≠ 0 := by
    rw [Nat.cast_ne_zero]
    exact Nat.mul_ne_zero (by decide) hl
  rw [eq_comm, div_eq_zero_iff, or_iff_left hd, Nat.cast_eq_zero, List.sum_eq_zero_iff]
  simp

-- The packet loss which is reported is the one of the window, unless a probe of the window has been lost.
theorem packetLoss_iff [IsStrictOrderedRing τ] (lawful : list.Lawful) (alpha : Alpha τ) (size : MovingMedianSize)
    (pings : List Ping) (id : NodeId) :
    ∃ self, (LatencyEstimation.new alpha size).pingAll list pings = some self ∧
      ((recorded id pings).length < 4 → self.getLatencyTo list id = none) ∧
      (4 ≤ (recorded id pings).length → ∃ latency, self.getLatencyTo list id = some latency ∧
        (latency.packetLoss = (((recorded id pings).rtake size.size).map (·.failures)).sum /
            (nbIcmpSent * ((recorded id pings).rtake size.size).length : Nat) ↔
          ∀ round ∈ (recorded id pings).rtake size.size, round.failures = 0)) := by
  have ⟨self, hs, hw, hh⟩ := LatencyEstimation.pingAll_holds lawful alpha size pings
  refine ⟨self, hs, ?_⟩
  have h4 := size.valid
  cases hl : self.latency.lookup id
  case none =>
    simp [hh.missing id hl, LatencyEstimation.getLatencyTo, hl]
  case some latencies =>
    have he := hh.entries id latencies hl
    have hc := he.length_content
    rw [hw] at hc
    constructor <;> intro hn
    case left =>
      simp [LatencyEstimation.getLatencyTo, hl, he.hasContent.median_none (by omega)]
    case right =>
      have ⟨median, hm⟩ := Middle.exists_middle (l := list.toList latencies.movingMedian.window.skiplist) (by omega)
      have hm := he.hasContent.median_eq lawful (by omega) hm
      have ⟨range, hr⟩ := he.hasContent.interquantileRange_isSome lawful (by omega)
      refine ⟨⟨median, latencies.movingAverage.get, range, latencies.packetLoss.get⟩, ?_, ?_⟩
      case refine_1 => simp [LatencyEstimation.getLatencyTo, hl, hm, hr]
      case refine_2 =>
        rw [he.packetLoss_eq fun _ => recorded_failures, sum_failures_eq_zero]
        rw [← List.length_pos_iff, Window.length_rtake]
        omega

-- A round of which the first probes are lost, and the others answered after 20 milliseconds.
def Round.losing (n : Fin 11) : Round where
  replies := List.replicate n none ++ List.replicate (10 - n) (some 20)
  sent    := by
    simp [nbIcmpSent]
    omega

-- The parent is pinged, and loses probes.
def Ping.losing (node : NodeId) (losses : List (Fin 11)) : List Ping :=
  losses.map fun n => {
    situation := { myId := ⟨0⟩, parentId := some node, children := ∅, myAdvertisedBandwidth := 0 }
    node      := node
    round     := .losing n
  }

theorem packetLoss_iff_losing :
    let pings := Ping.losing ⟨1⟩ [1, 10, 0, 0, 0, 0]
    ∃ self, (LatencyEstimation.new ⟨1 / 2, by decide +kernel, by decide +kernel⟩ ⟨4, by decide⟩).pingAll
        (.ofSorted ℚ) pings = some self ∧
      ((recorded ⟨1⟩ pings).length < 4 → self.getLatencyTo (.ofSorted ℚ) ⟨1⟩ = none) ∧
      (4 ≤ (recorded ⟨1⟩ pings).length → ∃ latency, self.getLatencyTo (.ofSorted ℚ) ⟨1⟩ = some latency ∧
        (latency.packetLoss = (((recorded ⟨1⟩ pings).rtake 4).map (·.failures)).sum /
            (nbIcmpSent * ((recorded ⟨1⟩ pings).rtake 4).length : Nat) ↔
          ∀ round ∈ (recorded ⟨1⟩ pings).rtake 4, round.failures = 0)) :=
  packetLoss_iff (.ofSorted ℚ) _ _ _ _

-- One of ten probes is lost in every round, but no loss is reported.
theorem packetLoss_slip :
    let pings := Ping.losing ⟨1⟩ [1, 1, 1, 1]
    (((LatencyEstimation.new ⟨(1 / 2 : ℚ), by decide +kernel, by decide +kernel⟩ ⟨4, by decide⟩).pingAll
        (.ofSorted ℚ) pings).bind (·.getLatencyTo (.ofSorted ℚ) ⟨1⟩)).map (·.packetLoss) = some 0 ∧
      (0 : ℚ) ≠ (((recorded ⟨1⟩ pings).rtake 4).map (·.failures)).sum /
        (nbIcmpSent * ((recorded ⟨1⟩ pings).rtake 4).length : Nat) := by
  refine ⟨by decide +kernel, by decide +kernel⟩

end

end Fog
