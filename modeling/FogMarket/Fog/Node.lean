import Mathlib.Algebra.Order.Floor.Ring
import Mathlib.Data.Rat.Floor
import FogMarket.Library.Transition
import FogMarket.Fog.FunctionTracking
import FogMarket.Fog.ResourceTracking

namespace Fog

-- An entry of the queue of expiries. Points in time are in milliseconds since the epoch.
structure TaskEntry where
  sla       : SlaId
  node      : String
  createdAt : ℤ
deriving DecidableEq

structure UnprovisionEvent where
  timestamp : ℤ
  sla       : Sla
  node      : String
deriving DecidableEq

-- `duration.ceil().to_u64()`
def sleepMillis (duration : Time) : Option ℕ :=
  if 0 ≤ ⌈duration⌉ ∧ ⌈duration⌉ < 2 ^ 64 then some ⌈duration⌉.toNat else none

-- `duration as i64`
def truncate (duration : Time) : ℤ :=
  max (-2 ^ 63) (min (2 ^ 63 - 1) (if 0 ≤ duration then ⌊duration⌋ else ⌈duration⌉))

-- The first and the last millisecond of a `DateTime`.
def minTime : ℤ := -8334601228800000
def maxTime : ℤ := 8210266876799999

-- The smallest `i64` is not accepted by `try_milliseconds`, and the sum has to be a `DateTime`.
def TaskEntry.timestamp (entry : TaskEntry) (sla : Sla) : Option ℤ :=
  if truncate sla.duration = -2 ^ 63 then
    none
  else
    let time := entry.createdAt + truncate sla.duration
    if minTime ≤ time ∧ time ≤ maxTime then some time else none

-- The loop of `get_utilisation_variations`. It panics if there is no timestamp.
def utilisationVariations (tracking : FunctionTracking) : List TaskEntry → Option (List UnprovisionEvent)
  | [] => some []
  | entry :: rest =>
    match tracking.getFinishableSla entry.sla with
    | none     => utilisationVariations tracking rest
    | some sla => do
      let timestamp ← entry.timestamp sla
      let events ← utilisationVariations tracking rest
      return { timestamp := timestamp, sla := sla, node := entry.node } :: events

structure Quadratic where
  aa               : ℚ
  bb               : ℚ
  electricityPrice : ℚ

inductive Pricing
  | linear (cpuInitial memInitial : ℚ)
  | quadratic (ratios : Quadratic)

structure Config where
  rationals      : Rationals
  names          : List String
  reservedCpu    : Ratio
  reservedMemory : Information
  pricing        : Pricing
  maxInFlight    : ℕ

def Config.reserved (config : Config) : Information × Ratio :=
  (config.reservedMemory, config.reservedCpu)

-- What a call of `bid_on` does next. None of it happens under the lock.
inductive Bidding
  | searching (sla : Sla) (rest : List String)
  | quoting (sla : Sla) (name : String) (available : Information × Ratio)
  | utilising
      (ratios : Quadratic) (sla : Sla) (name : String) (available : Information × Ratio) (now : ℤ)
      (rest : List TaskEntry) (events : List UnprovisionEvent)
  | limiting (sla : Sla) (name : String) (bid : ℚ)
  | resetting (sla : Sla) (name : String) (bid : ℚ) (even : Bool) (inc : BitVec 32)
  | inserting (sla : Sla) (name : String) (bid : ℚ)

-- What a call of `pay_function` does next while it holds the lock.
inductive Paying
  | getProposed (id : SlaId)
  | check (id : SlaId) (proposal : Proposed)
  | save (id : SlaId) (proposal : Proposed) (used : Information × Ratio)
  | getPaid (id : SlaId) (proposal : Proposed) (used : Information × Ratio)
  | setUsed (id : SlaId) (proposal : Proposed) (used : Information × Ratio) (paid : Paid)
  | spawn (id : SlaId) (paid : Paid)
  | push (entry : TaskEntry)

-- What a call of `provision_function` does next while it holds the lock.
inductive Provisioning
  | getPaid (id : SlaId)
  | backend (id : SlaId) (paid : Paid)
  | save (id : SlaId) (provisioned : Provisioned)

-- What a call of `finish_function` does next while it holds the lock.
inductive Finishing
  | getRemovable (id : SlaId)
  | remove (id : SlaId) (functionName : String)
  | getFinishable (id : SlaId)
  | save (id : SlaId) (record : Finished)
  | getFinished (id : SlaId)
  | getUsed (id : SlaId) (record : Finished)
  | setUsed (id : SlaId) (record : Finished) (used : Information × Ratio)

-- A function is finished by its timer, or because it has not come to life.
inductive Caller
  | timer
  | liveness
deriving DecidableEq

inductive Locked
  | pay (p : Paying)
  | provision (p : Provisioning)
  | finish (caller : Caller) (p : Finishing)

-- What a call of `provision_function` does after it has given back the lock.
inductive Liveness
  | retrying (id : SlaId)
  | checking (id : SlaId) (function : Provisioned)
  | failed (id : SlaId)

-- What the callback of a paid function does next.
inductive Timer
  | spawned (id : SlaId) (duration : Time)
  | sleeping (id : SlaId) (due : ℤ)
  | waiting (id : SlaId)
deriving DecidableEq

inductive Panic
  | division
  | bid
  | setUsed
  | sleep
  | utilisation
deriving DecidableEq

structure State where
  tracking  : FunctionTracking
  resources : ResourceTracking
  tasks     : List TaskEntry
  now       : ℤ
  inFlight  : BitVec 32 × BitVec 32
  locked    : Option Locked
  bids      : List Bidding
  lives     : List Liveness
  timers    : List Timer
  deployed  : Finset String
  panics    : List Panic

def State.new (config : Config) (now : ℤ) : State where
  tracking  := ∅
  resources := .new config.names config.reservedCpu config.reservedMemory
  tasks     := []
  now       := now
  inFlight  := (0, 0)
  locked    := none
  bids      := []
  lives     := []
  timers    := []
  deployed  := ∅
  panics    := []

namespace State

variable (s : State)

def enter (l : Locked) : State :=
  { s with locked := some l }

def release : State :=
  { s with locked := none }

def panic (p : Panic) : State :=
  { s with panics := p :: s.panics }

def setBid (i : ℕ) (b : Bidding) : State :=
  { s with bids := s.bids.set i b }

def endBid (i : ℕ) : State :=
  { s with bids := s.bids.eraseIdx i }

end State

-- Without a share, the division panics.
def linearBid (rationals : Rationals) (cpuInitial memInitial : ℚ) (available : Information × Ratio) (sla : Sla) :
    Option ℚ := do
  let ramRatioSla ← rationals.div sla.memory available.1
  let cpuRatioSla ← rationals.div sla.cpu available.2
  some (ramRatioSla * memInitial + cpuRatioSla * cpuInitial)

-- The share of the cpu which is taken by running functions, summed over the seconds they are left with.
def utilisation (rationals : Rationals) (resources : ResourceTracking) (now : ℤ) :
    List UnprovisionEvent → Except Failure ℚ
  | [] => .ok 0
  | event :: events =>
    match resources.getAvailable event.node with
    | none          => .error .error
    | some (_, cpu) =>
      match rationals.div event.sla.cpu cpu with
      | none       => .error .panic
      | some share =>
        let seconds : ℤ := max (event.timestamp - now) 0 / 1000
        (utilisation rationals resources now events).map (share * seconds + ·)

-- The price of a share of the cpu.
def quadraticBid (ratios : Quadratic) (slaCpu utilisation : ℚ) (sla : Sla) : ℚ :=
  ratios.electricityPrice * slaCpu *
    (2 * ratios.aa * utilisation + (ratios.aa * slaCpu + ratios.bb) * (sla.duration / 1000))

-- `bid_on` from one access to the next. The available resources never change, so that they are read
-- together with the used ones. The queue is read as a whole, while its lock is held.
def advanceBid (config : Config) (s : State) (i : ℕ) : Bidding → State
  | .searching _ [] => s.endBid i
  | .searching sla (name :: rest) =>
    match s.resources.getUsed name, s.resources.getAvailable name with
    | some used, some available =>
      if satisfiabilityCheck config.rationals used available sla then
        s.setBid i (.quoting sla name available)
      else
        s.setBid i (.searching sla rest)
    | _, _ => s.endBid i
  | .quoting sla name available =>
    match config.pricing with
    | .linear cpuInitial memInitial =>
      match linearBid config.rationals cpuInitial memInitial available sla with
      | none     => (s.endBid i).panic .division
      | some bid => s.setBid i (.limiting sla name bid)
    | .quadratic ratios => s.setBid i (.utilising ratios sla name available s.now s.tasks [])
  | .utilising ratios sla name available now (entry :: rest) events =>
    match s.tracking.getFinishableSla entry.sla with
    | none       => s.setBid i (.utilising ratios sla name available now rest events)
    | some other =>
      match entry.timestamp other with
      | none           => (s.endBid i).panic .utilisation
      | some timestamp =>
        let event := { timestamp := timestamp, sla := other, node := entry.node }
        s.setBid i (.utilising ratios sla name available now rest (events ++ [event]))
  | .utilising ratios sla name available now [] events =>
    match utilisation config.rationals s.resources now events with
    | .error .error   => s.endBid i
    | .error .panic   => (s.endBid i).panic .division
    | .ok utilisation =>
      match config.rationals.div sla.cpu available.2 with
      | none        => (s.endBid i).panic .division
      | some slaCpu =>
        if 1 / 1000000 < quadraticBid ratios slaCpu utilisation sla then
          s.setBid i (.limiting sla name (quadraticBid ratios slaCpu utilisation sla))
        else
          (s.endBid i).panic .bid
  | .limiting sla name bid =>
    -- The parity of the current second selects the counter.
    if s.now / 1000 % 2 = 0 then
      { s with inFlight := (s.inFlight.1 + 1, s.inFlight.2) }.setBid i
        (.resetting sla name bid true s.inFlight.1)
    else
      { s with inFlight := (s.inFlight.1, s.inFlight.2 + 1) }.setBid i
        (.resetting sla name bid false s.inFlight.2)
  | .resetting sla name bid even inc =>
    let reset := { s with inFlight := if even then (s.inFlight.1, 0) else (0, s.inFlight.2) }
    if config.maxInFlight < inc.toNat then
      reset.endBid i
    else
      reset.setBid i (.inserting sla name bid)
  | .inserting sla name bid =>
    let inserted := { s with tracking := s.tracking.insert { bid := bid, sla := sla, node := name } }.endBid i
    if 0 < bid then inserted else inserted.panic .bid

-- `pay_function` from one access to the next.
def advancePay (config : Config) (s : State) : Paying → State
  | .getProposed id =>
    match s.tracking.getProposed id with
    | none          => s.release
    | some proposal => s.enter (.pay (.check id proposal))
  | .check id proposal =>
    match s.resources.getUsed proposal.node, s.resources.getAvailable proposal.node with
    | some used, some available =>
      if satisfiabilityCheck config.rationals used available proposal.sla then
        s.enter (.pay (.save id proposal used))
      else
        s.release
    | _, _ => s.release
  | .save id proposal used =>
    { s with tracking := s.tracking.savePaid id proposal.toPaid }.enter (.pay (.getPaid id proposal used))
  | .getPaid id proposal used =>
    match s.tracking.getPaid id with
    | none      => s.release
    | some paid => s.enter (.pay (.setUsed id proposal used paid))
  | .setUsed id proposal used paid =>
    let booked := booking config.rationals used proposal.sla
    match s.resources.setUsed proposal.node booked.1 booked.2 with
    | .error .error => s.release
    | .error .panic => s.release.panic .setUsed
    | .ok resources => { s with resources := resources }.enter (.pay (.spawn id paid))
  | .spawn id paid =>
    { s with timers := s.timers ++ [Timer.spawned id paid.sla.duration] }.enter
      (.pay (.push { sla := id, node := paid.node, createdAt := s.now }))
  | .push entry => { s with tasks := s.tasks ++ [entry] }.release

def Uuid.hyphenated (u : Uuid) : String :=
  let digits := (List.range 32).map fun i => Nat.digitChar (u.toNat / 16 ^ (31 - i) % 16)
  let group := fun i n => String.ofList (digits.drop i |>.take n)
  "-".intercalate [group 0 8, group 8 4, group 12 4, group 16 4, group 20 12]

def functionName (id : SlaId) : String :=
  "fogfn-" ++ Uuid.hyphenated id.id

-- `provision_function` from one access to the next. The backend may refuse the function.
def advanceProvision (s : State) (ok : Bool) : Provisioning → State
  | .getPaid id =>
    match s.tracking.getPaid id with
    | none      => s.release
    | some paid => s.enter (.provision (.backend id paid))
  | .backend id paid =>
    if ok then
      { s with deployed := insert (functionName id) s.deployed }.enter
        (.provision (.save id (paid.toProvisioned (functionName id))))
    else
      s.release
  | .save id provisioned =>
    { s with
      tracking := s.tracking.saveProvisioned id provisioned
      lives    := s.lives ++ [Liveness.retrying id] }.release

-- `finish_function` from one access to the next. The backend may fail to remove the function.
def advanceFinish (config : Config) (s : State) (ok : Bool) (caller : Caller) : Finishing → State
  | .getRemovable id =>
    match s.tracking.getRemovable id with
    | none      => s.enter (.finish caller (.getFinishable id))
    | some name => s.enter (.finish caller (.remove id name))
  | .remove id name =>
    { s with deployed := if ok then s.deployed.erase name else s.deployed }.enter
      (.finish caller (.getFinishable id))
  | .getFinishable id =>
    match s.tracking.getFinishable id with
    | none        => s.release
    | some record => s.enter (.finish caller (.save id record))
  | .save id record =>
    { s with tracking := s.tracking.saveFinished id record }.enter (.finish caller (.getFinished id))
  | .getFinished id =>
    match s.tracking.getFinished id with
    | none        => s.release
    | some record => s.enter (.finish caller (.getUsed id record))
  | .getUsed id record =>
    match s.resources.getUsed record.node with
    | none      => s.release
    | some used => s.enter (.finish caller (.setUsed id record used))
  | .setUsed _ record used =>
    let released := releasing config.rationals used record.sla
    match s.resources.setUsed record.node released.1 released.2 with
    | .error .error => s.release
    | .error .panic => s.release.panic .setUsed
    | .ok resources => { s with resources := resources }.release

def advanceLocked (config : Config) (s : State) (ok : Bool) : Locked → State
  | .pay p           => advancePay config s p
  | .provision p     => advanceProvision s ok p
  | .finish caller p => advanceFinish config s ok caller p

-- The loop of `provision_function` around `check_and_set_function_is_live`. After a failed attempt the
-- backoff either allows for another one, or has run out of time.
def advanceLiveness (s : State) (i : ℕ) (ok giveUp : Bool) : Liveness → Option State
  | .retrying id =>
    match s.tracking.getProvisioned id with
    | none          => some { s with lives := s.lives.set i (if giveUp then .failed id else .retrying id) }
    | some function => some { s with lives := s.lives.set i (.checking id function) }
  | .checking id function =>
    if ok then
      some { s with
        tracking := s.tracking.saveLive id function.toLive
        lives    := s.lives.eraseIdx i }
    else
      some { s with lives := s.lives.set i (if giveUp then .failed id else .retrying id) }
  | .failed id =>
    match s.locked with
    | some _ => none
    | none   => some ({ s with lives := s.lives.eraseIdx i }.enter (.finish .liveness (.getRemovable id)))

-- The task which `add_oneshot` spawns.
def advanceTimer (s : State) (i : ℕ) : Timer → Option State
  | .spawned id duration =>
    match sleepMillis duration with
    | none        => some ({ s with timers := s.timers.eraseIdx i }.panic .sleep)
    | some millis => some { s with timers := s.timers.set i (.sleeping id (s.now + millis)) }
  | .sleeping id due =>
    if due ≤ s.now then
      some { s with
        tasks  := s.tasks.tail
        timers := s.timers.set i (.waiting id) }
    else
      none
  | .waiting id =>
    match s.locked with
    | some _ => none
    | none   => some ({ s with timers := s.timers.eraseIdx i }.enter (.finish .timer (.getRemovable id)))

inductive Act
  | tick (millis : ℕ)
  | bid (sla : Sla)
  | pay (id : SlaId)
  | provision (id : SlaId)
  | bidding (i : ℕ)
  | locked (ok : Bool)
  | liveness (i : ℕ) (ok giveUp : Bool)
  | timer (i : ℕ)

-- Requests arrive at any time, and any of the calls in progress may go on next. A call which needs the
-- lock does not begin before the lock is free.
def step (config : Config) (s : State) : Act → Option State
  | .tick millis => some { s with now := s.now + millis }
  | .bid sla     => some { s with bids := s.bids ++ [.searching sla s.resources.nodes] }
  | .pay id =>
    match s.locked with
    | some _ => none
    | none   => some (s.enter (.pay (.getProposed id)))
  | .provision id =>
    match s.locked with
    | some _ => none
    | none   => some (s.enter (.provision (.getPaid id)))
  | .bidding i            => s.bids[i]?.map (advanceBid config s i)
  | .locked ok            => s.locked.map (advanceLocked config s ok)
  | .liveness i ok giveUp => s.lives[i]?.bind (advanceLiveness s i ok giveUp)
  | .timer i              => s.timers[i]?.bind (advanceTimer s i)

end Fog
