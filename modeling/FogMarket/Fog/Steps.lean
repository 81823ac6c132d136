import FogMarket.Fog.Node

open Transition

namespace Fog

-- What calls outside the lock leave alone.
structure Frame (s s' : State) : Prop where
  resources : s'.resources = s.resources
  locked    : s'.locked = s.locked
  tasks     : s'.tasks = s.tasks
  timers    : s'.timers = s.timers
  panics    : .setUsed ∈ s'.panics → .setUsed ∈ s.panics

-- The ways in which an act can affect what has been recorded, booked or scheduled.
inductive Effect (config : Config) (s : State) : Act → State → Prop
  | insert {i sla name bid} {s' : State} (hb : s.bids[i]? = some (.inserting sla name bid)) (f : Frame s s')
      (t : s'.tracking = s.tracking.insert { bid := bid, sla := sla, node := name }) :
      Effect config s (.bidding i) s'
  | saveLive {i id function giveUp} {s' : State} (hl : s.lives[i]? = some (.checking id function)) (f : Frame s s')
      (t : s'.tracking = s.tracking.saveLive id function.toLive) :
      Effect config s (.liveness i true giveUp) s'
  | pay {id} (h : s.locked = none) : Effect config s (.pay id) (s.enter (.pay (.getProposed id)))
  | provision {id} (h : s.locked = none) : Effect config s (.provision id) (s.enter (.provision (.getPaid id)))
  | fail {i id ok giveUp} (h : s.locked = none) :
      Effect config s (.liveness i ok giveUp)
        ({ s with lives := s.lives.eraseIdx i }.enter (.finish .liveness (.getRemovable id)))
  | expire {i id} (ht : s.timers[i]? = some (.waiting id)) (h : s.locked = none) :
      Effect config s (.timer i)
        ({ s with timers := s.timers.eraseIdx i }.enter (.finish .timer (.getRemovable id)))
  | advance {ok l} (h : s.locked = some l) : Effect config s (.locked ok) (advanceLocked config s ok l)
  | wake {i id duration due} (ht : s.timers[i]? = some (.spawned id duration)) :
      Effect config s (.timer i) { s with timers := s.timers.set i (.sleeping id due) }
  | oversleep {i id duration} (ht : s.timers[i]? = some (.spawned id duration)) :
      Effect config s (.timer i) ({ s with timers := s.timers.eraseIdx i }.panic .sleep)
  | pop {i id due} (ht : s.timers[i]? = some (.sleeping id due)) :
      Effect config s (.timer i) { s with
        tasks  := s.tasks.tail
        timers := s.timers.set i (.waiting id) }
  | quiet {a} {s' : State} (f : Frame s s') (t : s'.tracking = s.tracking) (h : ∀ ok, a ≠ .locked ok) :
      Effect config s a s'

-- The SLA whose record is about to be inserted.
def State.inserts (s : State) : Act → Option Sla
  | .bidding i =>
    match s.bids[i]? with
    | some (.inserting sla _ _) => some sla
    | _                         => none
  | _ => none

-- The duration after which a function expires which has been paid.
def State.spawns (s : State) : Act → Option Time
  | .locked _ =>
    match s.locked with
    | some (.pay (.spawn _ paid)) => some paid.sla.duration
    | _                           => none
  | _ => none

def Bidding.sla : Bidding → Sla
  | searching sla _ | quoting sla .. | limiting sla .. | resetting sla .. | inserting sla .. => sla
  | utilising _ sla .. => sla

-- The SLA which a call under the lock has read for an id meets `P`.
def Locked.Holds (P : SlaId → Sla → Prop) : Locked → Prop
  | .pay (.check id proposal)                 => P id proposal.sla
  | .pay (.save id proposal _)                => P id proposal.sla
  | .pay (.getPaid id proposal _)             => P id proposal.sla
  | .pay (.setUsed id proposal _ paid)        => P id proposal.sla ∧ P id paid.sla
  | .pay (.spawn id paid)                     => P id paid.sla
  | .provision (.backend id paid)             => P id paid.sla
  | .provision (.save id provisioned)         => P id provisioned.sla
  | .finish _ (.save id record)               => P id record.sla
  | .finish _ (.getUsed id record)            => P id record.sla
  | .finish _ (.setUsed id record _)          => P id record.sla
  | .pay (.getProposed _) | .pay (.push _) | .provision (.getPaid _) | .finish _ (.getRemovable _)
  | .finish _ (.remove ..) | .finish _ (.getFinishable _) | .finish _ (.getFinished _) => True

-- Every SLA which is held anywhere meets `P`, with the id under which it is held.
structure Holds (P : SlaId → Sla → Prop) (s : State) : Prop where
  bids     : ∀ b ∈ s.bids, P b.sla.id b.sla
  tracking : ∀ id r, s.tracking.lookup id = some r → P id r.sla
  locked   : ∀ l, s.locked = some l → l.Holds P
  lives    : ∀ id f, .checking id f ∈ s.lives → P id f.sla

-- The same for what has been recorded.
structure Recorded (P : SlaId → Sla → Prop) (s : State) : Prop where
  tracking : ∀ id r, s.tracking.lookup id = some r → P id r.sla
  locked   : ∀ l, s.locked = some l → l.Holds P
  lives    : ∀ id f, .checking id f ∈ s.lives → P id f.sla

variable {config : Config} {s s' : State} {a : Act} {b : Bidding} {id : SlaId} {i : ℕ}
variable {l : Locked} {ok giveUp : Bool} {P : SlaId → Sla → Prop}

-- A node with a reservation of ten cpus and ten bytes, as used in examples.
def exampleConfig (names : List String) : Config where
  rationals      := .exact
  names          := names
  reservedCpu    := 10
  reservedMemory := 10
  pricing        := .linear 1 1
  maxInFlight    := 100

-- The same node with the arithmetic which the program uses.
def wrappingConfig (names : List String) : Config :=
  { exampleConfig names with rationals := .i64 }

def exampleSla (id : Uuid) (cpu : Ratio) (duration : Time) (maxReplica : BitVec 64) : Sla where
  id           := ⟨id⟩
  memory       := 1
  cpu          := cpu
  latencyMax   := 1000
  duration     := duration
  maxReplica   := maxReplica
  inputMaxSize := 1

-- A bid on a node with a single name, and a payment, which are not interrupted.
def bidActs (sla : Sla) : List Act :=
  .bid sla :: .replicate 5 (.bidding 0)

def payActs (id : Uuid) : List Act :=
  .pay ⟨id⟩ :: .replicate 7 (.locked true)

-- The first timer goes off, and the end of its function begins.
def expireActs (millis : ℕ) : List Act :=
  [.timer 0, .tick millis, .timer 0, .timer 0]

theorem inserts_of_inserting {i : ℕ} {sla : Sla} {name : String} {bid : ℚ}
    (h : s.bids[i]? = some (.inserting sla name bid)) : s.inserts (.bidding i) = some sla := by
  simp [State.inserts, h]

theorem exists_of_inserts {sla : Sla} (h : sla ∈ s.inserts a) : ∃ b ∈ s.bids, b.sla = sla := by
  cases a <;> try contradiction
  case bidding i =>
    simp only [State.inserts] at h
    split at h <;> try contradiction
    case h_1 hb =>
      cases h
      exact ⟨_, List.mem_of_getElem? hb, rfl⟩

theorem frame_advanceBid : Frame s (advanceBid config s i b) := by
  cases b
  case searching sla rest =>
    cases rest <;> simp only [advanceBid] <;> (repeat' split) <;> constructor <;> simp [State.endBid, State.setBid]
  case utilising ratios sla name available now rest events =>
    cases rest <;> simp only [advanceBid] <;> (repeat' split) <;> constructor <;>
      simp [State.endBid, State.setBid, State.panic]
  all_goals
    simp only [advanceBid]
    repeat' split
    all_goals constructor <;> simp [State.endBid, State.setBid, State.panic]

theorem tracking_advanceBid (config : Config) (s : State) (i : ℕ) (b : Bidding) :
    (advanceBid config s i b).tracking = s.tracking ∨
    ∃ sla name bid, b = .inserting sla name bid ∧
      (advanceBid config s i b).tracking = s.tracking.insert { bid := bid, sla := sla, node := name } := by
  cases b
  case searching sla rest => cases rest <;> simp only [advanceBid] <;> (repeat' split) <;> exact .inl rfl
  case utilising ratios sla name available now rest events =>
    cases rest <;> simp only [advanceBid] <;> (repeat' split) <;> exact .inl rfl
  case inserting sla name bid =>
    simp only [advanceBid]
    split <;> exact .inr ⟨sla, name, bid, rfl, rfl⟩
  all_goals
    simp only [advanceBid]
    repeat' split
    all_goals exact .inl rfl

theorem effect_of_step (h : step config s a = some s') : Effect config s a s' := by
  cases a <;> simp only [step] at h
  case tick | bid =>
    cases h
    exact .quiet ⟨rfl, rfl, rfl, rfl, fun h => h⟩ rfl nofun
  case pay id | provision id =>
    split at h
    case h_1 => contradiction
    case h_2 hl =>
      cases h
      constructor
      exact hl
  case bidding i =>
    have ⟨b, hb, h⟩ := Option.map_eq_some_iff.mp h
    cases h
    cases tracking_advanceBid config s i b
    case inl ht => exact .quiet frame_advanceBid ht nofun
    case inr h =>
      have ⟨sla, name, bid, he, ht⟩ := h
      exact .insert (he ▸ hb) frame_advanceBid ht
  case locked ok =>
    have ⟨l, hl, h⟩ := Option.map_eq_some_iff.mp h
    cases h
    exact .advance hl
  case liveness i ok giveUp =>
    have ⟨l, hl, h⟩ := Option.bind_eq_some_iff.mp h
    cases l <;> simp only [advanceLiveness] at h
    case retrying id =>
      split at h <;> cases h <;> exact .quiet ⟨rfl, rfl, rfl, rfl, fun h => h⟩ rfl nofun
    case checking id function =>
      split at h <;> cases h
      case isTrue ho  => exact ho ▸ .saveLive hl ⟨rfl, rfl, rfl, rfl, fun h => h⟩ rfl
      case isFalse    => exact .quiet ⟨rfl, rfl, rfl, rfl, fun h => h⟩ rfl nofun
    case failed id =>
      split at h <;> cases h
      case h_2 hn => exact .fail hn
  case timer i =>
    have ⟨t, ht, h⟩ := Option.bind_eq_some_iff.mp h
    cases t <;> simp only [advanceTimer] at h
    case spawned id duration =>
      split at h <;> cases h
      case h_1 => exact .oversleep ht
      case h_2 => exact .wake ht
    case sleeping id due =>
      split at h <;> cases h
      exact .pop ht
    case waiting id =>
      split at h <;> cases h
      case h_2 hn => exact .expire ht hn

-- Besides the bids and the counters, a call of `bid_on` affects nothing but the tracking.
theorem rest_advanceBid : (advanceBid config s i b).lives = s.lives ∧ (advanceBid config s i b).now = s.now ∧
    (advanceBid config s i b).deployed = s.deployed := by
  cases b
  case searching sla rest => cases rest <;> simp only [advanceBid] <;> (repeat' split) <;> exact ⟨rfl, rfl, rfl⟩
  case utilising ratios sla name available now rest events =>
    cases rest <;> simp only [advanceBid] <;> (repeat' split) <;> exact ⟨rfl, rfl, rfl⟩
  all_goals
    simp only [advanceBid]
    repeat' split
    all_goals exact ⟨rfl, rfl, rfl⟩

theorem lives_advanceLocked (config : Config) (s : State) (ok : Bool) (l : Locked) :
    (advanceLocked config s ok l).lives = s.lives ∨
      ∃ id, (advanceLocked config s ok l).lives = s.lives ++ [.retrying id] := by
  match l with
  | .provision (.save id provisioned) => exact .inr ⟨id, rfl⟩
  | .provision (.getPaid _) | .provision (.backend ..) =>
    simp only [advanceLocked, advanceProvision]
    split <;> exact .inl rfl
  | .pay p => cases p <;> simp only [advanceLocked, advancePay] <;> (repeat' split) <;> exact .inl rfl
  | .finish _ p => cases p <;> simp only [advanceLocked, advanceFinish] <;> (repeat' split) <;> exact .inl rfl

-- A function which is checked has been read from its record.
theorem checking_step {function : Provisioned} (e : step config s a = some s')
    (h : .checking id function ∈ s'.lives) :
    .checking id function ∈ s.lives ∨ s.tracking.getProvisioned id = some function := by
  cases a <;> simp only [step] at e
  case tick | bid => cases e; exact .inl h
  case pay | provision =>
    split at e <;> cases e
    exact .inl h
  case bidding i =>
    have ⟨b, _, e⟩ := Option.map_eq_some_iff.mp e
    cases e
    exact .inl (rest_advanceBid.1 ▸ h)
  case locked ok =>
    have ⟨l, _, e⟩ := Option.map_eq_some_iff.mp e
    cases e
    cases lives_advanceLocked config s ok l
    case inl hs => exact .inl (hs ▸ h)
    case inr hs =>
      have ⟨_, hs⟩ := hs
      rw [hs] at h
      exact .inl (by simpa using h)
  case liveness i ok giveUp =>
    have ⟨l, _, e⟩ := Option.bind_eq_some_iff.mp e
    have hset {l'} (h : .checking id function ∈ s.lives.set i l') (hn : l' ≠ .checking id function) :
        .checking id function ∈ s.lives := (List.mem_or_eq_of_mem_set h).resolve_right fun he => hn he.symm
    cases l <;> simp only [advanceLiveness] at e
    case retrying id' =>
      split at e <;> cases e
      case h_1 => exact .inl (hset h (by split <;> simp))
      case h_2 hg =>
        cases List.mem_or_eq_of_mem_set h
        case inl h  => exact .inl h
        case inr he =>
          cases he
          exact .inr hg
    case checking id' function' =>
      split at e <;> cases e
      case isTrue  => exact .inl (List.mem_of_mem_eraseIdx h)
      case isFalse => exact .inl (hset h (by split <;> simp))
    case failed id' =>
      split at e <;> cases e
      exact .inl (List.mem_of_mem_eraseIdx h)
  case timer i =>
    have ⟨t, _, e⟩ := Option.bind_eq_some_iff.mp e
    cases t <;> simp only [advanceTimer] at e <;> (repeat' split at e) <;> cases e <;> exact .inl h

namespace Recorded

variable {r : States} {allowed : Phase → Bool}

theorem enter (h : Recorded P s) (hl : l.Holds P) : Recorded P (s.enter l) :=
  { h with
    locked := fun _ he => Option.some.inj he ▸ hl }

theorem release (h : Recorded P s) : Recorded P s.release :=
  { h with
    locked := fun _ he => by simp [State.release] at he }

theorem panic {p : Panic} (h : Recorded P s) : Recorded P (s.panic p) :=
  { h with }

theorem save (h : Recorded P s) (hr : P id r.sla) :
    Recorded P { s with tracking := s.tracking.save id allowed r } :=
  { h with
    tracking := fun x r' hx => by
      rw [FunctionTracking.lookup_save] at hx
      split at hx
      case isTrue hi => exact hi.1 ▸ Option.some.inj hx ▸ hr
      case isFalse   => exact h.tracking x r' hx }

theorem proposed {proposal : Proposed} (h : Recorded P s) (hg : s.tracking.getProposed id = some proposal) :
    P id proposal.sla :=
  h.tracking id _ (FunctionTracking.getProposed_eq_some.mp hg)

theorem paid {paid : Paid} (h : Recorded P s) (hg : s.tracking.getPaid id = some paid) : P id paid.sla :=
  h.tracking id _ (FunctionTracking.getPaid_eq_some.mp hg)

theorem advancePay {p : Paying} (h : Recorded P s) (hl : (Locked.pay p).Holds P) :
    Recorded P (advancePay config s p) := by
  match p with
  | .getProposed id =>
    simp only [Fog.advancePay]
    split
    case h_1    => exact h.release
    case h_2 hg => exact h.enter (h.proposed hg)
  | .check id proposal =>
    simp only [Fog.advancePay]
    repeat' split
    all_goals first | exact h.release | exact h.enter hl
  | .save id proposal used => exact (h.save (r := .paid proposal.toPaid) hl).enter hl
  | .getPaid id proposal used =>
    simp only [Fog.advancePay]
    split
    case h_1    => exact h.release
    case h_2 hg => exact h.enter ⟨hl, h.paid hg⟩
  | .setUsed id proposal used paid =>
    simp only [Fog.advancePay]
    split
    case h_1 => exact h.release
    case h_2 => exact h.release.panic
    case h_3 => exact enter { h with } hl.2
  | .spawn id paid => exact enter { h with } trivial
  | .push entry => exact release { h with }

theorem advanceProvision {p : Provisioning} (h : Recorded P s) (hl : (Locked.provision p).Holds P) :
    Recorded P (advanceProvision s ok p) := by
  match p with
  | .getPaid id =>
    simp only [Fog.advanceProvision]
    split
    case h_1    => exact h.release
    case h_2 hg => exact h.enter (h.paid hg)
  | .backend id paid =>
    simp only [Fog.advanceProvision]
    split
    case isTrue  => exact enter { h with } hl
    case isFalse => exact h.release
  | .save id provisioned =>
    refine release { h.save (r := .provisioned provisioned) hl with lives := fun x f hf => ?_ }
    exact h.lives x f (by simpa using hf)

theorem advanceFinish {caller : Caller} {p : Finishing} (h : Recorded P s) (hl : (Locked.finish caller p).Holds P) :
    Recorded P (advanceFinish config s ok caller p) := by
  match p with
  | .getRemovable id =>
    simp only [Fog.advanceFinish]
    split <;> exact h.enter trivial
  | .remove id name => exact enter { h with } trivial
  | .getFinishable id =>
    simp only [Fog.advanceFinish]
    split
    case h_1 => exact h.release
    case h_2 hg =>
      have ⟨r, hr, _, he⟩ := FunctionTracking.getFinishable_eq_some.mp hg
      exact h.enter (he ▸ h.tracking id r hr)
  | .save id record => exact (h.save (r := .finished record) hl).enter trivial
  | .getFinished id =>
    simp only [Fog.advanceFinish]
    split
    case h_1    => exact h.release
    case h_2 hg => exact h.enter (h.tracking id _ (FunctionTracking.getFinished_eq_some.mp hg))
  | .getUsed id record =>
    simp only [Fog.advanceFinish]
    split
    case h_1 => exact h.release
    case h_2 => exact h.enter hl
  | .setUsed id record used =>
    simp only [Fog.advanceFinish]
    split
    case h_1 => exact h.release
    case h_2 => exact h.release.panic
    case h_3 => exact release { h with }

theorem advanceLocked (h : Recorded P s) (hl : s.locked = some l) : Recorded P (advanceLocked config s ok l) := by
  have hl := h.locked l hl
  cases l
  case pay       => exact h.advancePay hl
  case provision => exact h.advanceProvision hl
  case finish    => exact h.advanceFinish hl

theorem step (h : Recorded P s) (hi : ∀ sla ∈ s.inserts a, P sla.id sla) (e : Fog.step config s a = some s') :
    Recorded P s' := by
  have hlives : ∀ id f, .checking id f ∈ s'.lives → P id f.sla := by
    intro id f hm
    cases checking_step e hm
    case inl hm => exact h.lives id f hm
    case inr hg => exact h.tracking id _ (FunctionTracking.getProvisioned_eq_some.mp hg)
  cases effect_of_step e
  case insert i sla name bid hb f t =>
    refine ⟨fun x r hx => ?_, f.locked ▸ h.locked, hlives⟩
    rw [t, FunctionTracking.lookup_insert] at hx
    split at hx
    case isFalse => exact h.tracking x r hx
    case isTrue hxi =>
      cases hx
      exact hxi ▸ hi sla (inserts_of_inserting hb)
  case saveLive i id f giveUp hl fr t =>
    have hs : Recorded P { s with tracking := s.tracking.save id (· = .provisioned) (.live f.toLive) } :=
      h.save (h.lives id f (List.mem_of_getElem? hl))
    exact ⟨t ▸ hs.tracking, fr.locked ▸ h.locked, hlives⟩
  case advance hl => exact h.advanceLocked hl
  case quiet f t => exact ⟨t ▸ h.tracking, f.locked ▸ h.locked, hlives⟩
  case pay | provision | fail | expire =>
    exact ⟨h.tracking, fun _ he => Option.some.inj he ▸ trivial, hlives⟩
  case wake | oversleep | pop => exact ⟨h.tracking, h.locked, hlives⟩

end Recorded

theorem bids_advanceBid (hb : s.bids[i]? = some b) :
    ∀ b' ∈ (advanceBid config s i b).bids, ∃ b₀ ∈ s.bids, b₀.sla = b'.sla := by
  have hset {b'} (hs : b'.sla = b.sla) : ∀ x ∈ s.bids.set i b', ∃ b₀ ∈ s.bids, b₀.sla = x.sla := by
    intro x hx
    cases List.mem_or_eq_of_mem_set hx
    case inl hx => exact ⟨x, hx, rfl⟩
    case inr he => exact ⟨b, List.mem_of_getElem? hb, he ▸ hs.symm⟩
  have herase : ∀ x ∈ s.bids.eraseIdx i, ∃ b₀ ∈ s.bids, b₀.sla = x.sla :=
    fun x hx => ⟨x, List.mem_of_mem_eraseIdx hx, rfl⟩
  cases b
  case searching sla rest =>
    cases rest <;> simp only [advanceBid] <;> (repeat' split) <;> first | exact hset rfl | exact herase
  case utilising ratios sla name available now rest events =>
    cases rest <;> simp only [advanceBid] <;> (repeat' split) <;> first | exact hset rfl | exact herase
  all_goals
    simp only [advanceBid]
    repeat' split
    all_goals first | exact hset rfl | exact herase

theorem bids_advanceLocked (config : Config) (s : State) (ok : Bool) (l : Locked) :
    (advanceLocked config s ok l).bids = s.bids := by
  cases l
  case pay p       => cases p <;> simp only [advanceLocked, advancePay] <;> (repeat' split) <;> rfl
  case provision p => cases p <;> simp only [advanceLocked, advanceProvision] <;> (repeat' split) <;> rfl
  case finish p    => cases p <;> simp only [advanceLocked, advanceFinish] <;> (repeat' split) <;> rfl

-- The calls of `bid_on` change by their own steps only.
theorem bids_step (e : step config s a = some s') :
    s'.bids = s.bids ∨ (∃ sla, a = .bid sla ∧ s'.bids = s.bids ++ [.searching sla s.resources.nodes]) ∨
      ∃ i b, a = .bidding i ∧ s.bids[i]? = some b ∧ s' = advanceBid config s i b := by
  cases a <;> simp only [step] at e
  case tick => cases e; exact .inl rfl
  case bid sla => cases e; exact .inr (.inl ⟨sla, rfl, rfl⟩)
  case pay | provision =>
    split at e <;> cases e
    exact .inl rfl
  case bidding i =>
    have ⟨b, hb, e⟩ := Option.map_eq_some_iff.mp e
    exact .inr (.inr ⟨i, b, rfl, hb, e.symm⟩)
  case locked ok =>
    have ⟨l, _, e⟩ := Option.map_eq_some_iff.mp e
    exact .inl (e ▸ bids_advanceLocked config s ok l)
  case liveness i ok giveUp =>
    have ⟨l, _, e⟩ := Option.bind_eq_some_iff.mp e
    cases l <;> simp only [advanceLiveness] at e <;> (repeat' split at e) <;> cases e <;> exact .inl rfl
  case timer i =>
    have ⟨t, _, e⟩ := Option.bind_eq_some_iff.mp e
    cases t <;> simp only [advanceTimer] at e <;> (repeat' split at e) <;> cases e <;> exact .inl rfl

theorem timers_advanceLocked (config : Config) (s : State) (ok : Bool) (l : Locked) :
    (advanceLocked config s ok l).timers = s.timers ∨
    ∃ id paid, l = .pay (.spawn id paid) ∧
      (advanceLocked config s ok l).timers = s.timers ++ [.spawned id paid.sla.duration] := by
  match l with
  | .pay (.spawn id paid) => exact .inr ⟨id, paid, rfl, rfl⟩
  | .pay (.getProposed _) | .pay (.check ..) | .pay (.save ..) | .pay (.getPaid ..) | .pay (.setUsed ..)
  | .pay (.push _) =>
    simp only [advanceLocked, advancePay]
    repeat' split
    all_goals exact .inl rfl
  | .provision p =>
    cases p <;> simp only [advanceLocked, advanceProvision] <;> (repeat' split) <;> exact .inl rfl
  | .finish _ p =>
    cases p <;> simp only [advanceLocked, advanceFinish] <;> (repeat' split) <;> exact .inl rfl

-- A timer which has not gone to sleep yet has just been spawned, or it has not been touched.
theorem spawned_step {duration : Time} (e : step config s a = some s') (h : .spawned id duration ∈ s'.timers) :
    .spawned id duration ∈ s.timers ∨ duration ∈ s.spawns a := by
  have hset {i t} (hn : t ≠ .spawned id duration) (h : .spawned id duration ∈ s.timers.set i t) :
      .spawned id duration ∈ s.timers := (List.mem_or_eq_of_mem_set h).resolve_right fun he => hn he.symm
  cases effect_of_step e
  case insert f _ | saveLive f _ | quiet f _ => exact .inl (f.timers ▸ h)
  case pay | provision | fail => exact .inl h
  case expire | oversleep => exact .inl (List.mem_of_mem_eraseIdx h)
  case wake id _ due _ => exact .inl (hset (t := .sleeping id due) (by simp) h)
  case pop id _ _      => exact .inl (hset (t := .waiting id) (by simp) h)
  case advance ok l hl =>
    cases timers_advanceLocked config s ok l
    case inl ht => exact .inl (ht ▸ h)
    case inr ht =>
      have ⟨id', paid, he, ht⟩ := ht
      cases List.mem_append.mp (ht ▸ h)
      case inl h => exact .inl h
      case inr h =>
        cases List.mem_singleton.mp h
        exact .inr (by simp [State.spawns, hl, he])

theorem Holds.recorded (h : Holds P s) : Recorded P s where
  tracking := h.tracking
  locked   := h.locked
  lives    := h.lives

theorem Locked.Holds.mono {Q : SlaId → Sla → Prop} (hpq : ∀ id sla, P id sla → Q id sla) (h : l.Holds P) :
    l.Holds Q := by
  match l with
  | .pay (.setUsed ..) => exact ⟨hpq _ _ h.1, hpq _ _ h.2⟩
  | .pay (.check ..) | .pay (.save ..) | .pay (.getPaid ..) | .pay (.spawn ..) | .provision (.backend ..)
  | .provision (.save ..) | .finish _ (.save ..) | .finish _ (.getUsed ..) | .finish _ (.setUsed ..) => exact hpq _ _ h
  | .pay (.getProposed _) | .pay (.push _) | .provision (.getPaid _) | .finish _ (.getRemovable _)
  | .finish _ (.remove ..) | .finish _ (.getFinishable _) | .finish _ (.getFinished _) => trivial

theorem Recorded.mono {Q : SlaId → Sla → Prop} (hpq : ∀ id sla, P id sla → Q id sla) (h : Recorded P s) :
    Recorded Q s where
  tracking := fun id r hr => hpq _ _ (h.tracking id r hr)
  locked   := fun l hl => (h.locked l hl).mono hpq
  lives    := fun id f hf => hpq _ _ (h.lives id f hf)

-- What holds of the SLAs of all requests holds of all SLAs.
theorem Holds.step (h : Holds P s) (hb : ∀ sla, a = .bid sla → P sla.id sla)
    (e : step config s a = some s') : Holds P s' := by
  have hi : ∀ sla ∈ s.inserts a, P sla.id sla := by
    intro sla hs
    have ⟨b, hb, he⟩ := exists_of_inserts hs
    exact he ▸ h.bids b hb
  refine { h.recorded.step hi e with bids := fun b hm => ?_ }
  cases bids_step e
  case inl he => exact h.bids b (he ▸ hm)
  case inr he =>
    cases he
    case inl he =>
      have ⟨sla, ha, he⟩ := he
      cases List.mem_append.mp (he ▸ hm)
      case inl hm => exact h.bids b hm
      case inr hm => exact List.mem_singleton.mp hm ▸ hb sla ha
    case inr he =>
      have ⟨i, b', _, hb', he⟩ := he
      have ⟨b₀, hb₀, hs⟩ := bids_advanceBid hb' b (he ▸ hm)
      exact hs ▸ h.bids b₀ hb₀

-- What a call has read of the used resources is still so when it writes them.
def Locked.Reads (resources : ResourceTracking) : Locked → Prop
  | .pay (.save _ proposal used)        => resources.used.lookup proposal.node = some used
  | .pay (.getPaid _ proposal used)     => resources.used.lookup proposal.node = some used
  | .pay (.setUsed _ proposal used _)   => resources.used.lookup proposal.node = some used
  | .finish _ (.setUsed _ record used)  => resources.used.lookup record.node = some used
  | _                                   => True

def Reads (s : State) : Prop :=
  ∀ l, s.locked = some l → l.Reads s.resources

theorem reads_enter (h : l.Reads s.resources) : Reads (s.enter l) :=
  fun _ he => Option.some.inj he ▸ h

theorem reads_release : Reads s.release :=
  fun _ he => by simp [State.release] at he

theorem reads_advanceLocked (h : l.Reads s.resources) : Reads (advanceLocked config s ok l) := by
  match l with
  | .pay (.check id proposal) =>
    simp only [advanceLocked, advancePay]
    split
    case h_1 hu _ =>
      split
      case isTrue  => exact reads_enter (ResourceTracking.getUsed_eq_some hu).2
      case isFalse => exact reads_release
    case h_2 => exact reads_release
  | .finish caller (.getUsed id record) =>
    simp only [advanceLocked, advanceFinish]
    split
    case h_1    => exact reads_release
    case h_2 hu => exact reads_enter (ResourceTracking.getUsed_eq_some hu).2
  | .pay (.getProposed _) | .pay (.save ..) | .pay (.getPaid ..) | .pay (.setUsed ..)
  | .pay (.spawn ..) | .pay (.push _) =>
    simp only [advanceLocked, advancePay]
    repeat' split
    all_goals first | exact reads_release | exact reads_enter h | exact reads_enter trivial
  | .provision p =>
    cases p <;> simp only [advanceLocked, advanceProvision] <;> (repeat' split) <;>
      first | exact reads_release | exact reads_enter trivial
  | .finish _ (.getRemovable _) | .finish _ (.remove ..) | .finish _ (.getFinishable _)
  | .finish _ (.save ..) | .finish _ (.getFinished _) | .finish _ (.setUsed ..) =>
    simp only [advanceLocked, advanceFinish]
    repeat' split
    all_goals first | exact reads_release | exact reads_enter trivial

-- The nodes and what they have available are those of the configuration.
structure Configured (config : Config) (resources : ResourceTracking) : Prop where
  nodes     : resources.nodes = config.names
  available : ∀ name, resources.available.lookup name =
    if name ∈ config.names then some config.reserved else none
  used      : ∀ name, name ∈ resources.used ↔ name ∈ config.names

theorem lookup_foldr_insert {ν : Type*} (names : List String) (v : ν) (name : String) :
    (names.foldr (fun name m => m.insert name v) (∅ : Map String ν)).lookup name =
      if name ∈ names then some v else none := by
  induction names
  case nil => simp
  case cons n names hi =>
    rw [List.foldr_cons, Map.lookup_insert_eq, hi]
    by_cases h : name = n <;> simp [h]

theorem configured_new : Configured config (.new config.names config.reservedCpu config.reservedMemory) where
  nodes          := rfl
  available name := lookup_foldr_insert ..
  used name      := by
    rw [← not_iff_not, ← Finmap.lookup_eq_none, ResourceTracking.new, lookup_foldr_insert]
    simp

theorem Configured.available_eq {resources : ResourceTracking} {name : String} {available : Information × Ratio}
    (h : Configured config resources) (ha : resources.available.lookup name = some available) :
    available = config.reserved := by
  rw [h.available] at ha
  split at ha <;> cases ha
  rfl

theorem Configured.keyExists {resources : ResourceTracking} {name : String} (h : Configured config resources)
    (hu : name ∈ resources.used) : resources.keyExists name = true := by
  have ha : resources.available.lookup name = some config.reserved := by
    rw [h.available, if_pos ((h.used name).mp hu)]
  simp [ResourceTracking.keyExists, hu, Map.mem_of_lookup ha]

theorem Configured.setUsed {resources resources' : ResourceTracking} {name : String}
    {memory : Information} {cpu : Ratio} (h : Configured config resources)
    (hs : resources.setUsed name memory cpu = .ok resources') : Configured config resources' := by
  have ⟨hk, he⟩ := ResourceTracking.setUsed_eq_ok hs
  simp only [ResourceTracking.keyExists, decide_eq_true_eq] at hk
  subst he
  refine ⟨h.nodes, h.available, fun x => ?_⟩
  rw [Finmap.mem_insert, h.used]
  exact or_iff_right_of_imp fun hx => hx ▸ (h.used name).mp hk.1

-- The resources change in one way only.
theorem resources_advanceLocked (config : Config) (s : State) (ok : Bool) (l : Locked) :
    (advanceLocked config s ok l).resources = s.resources ∨
    (∃ id proposal used paid, l = .pay (.setUsed id proposal used paid) ∧
      s.resources.setUsed proposal.node (booking config.rationals used proposal.sla).1
        (booking config.rationals used proposal.sla).2 = .ok (advanceLocked config s ok l).resources) ∨
    (∃ caller id record used, l = .finish caller (.setUsed id record used) ∧
      s.resources.setUsed record.node (releasing config.rationals used record.sla).1
        (releasing config.rationals used record.sla).2 = .ok (advanceLocked config s ok l).resources) := by
  match l with
  | .pay (.setUsed id proposal used paid) =>
    simp only [advanceLocked, advancePay]
    split
    case h_1 | h_2 => exact .inl rfl
    case h_3 hr => exact .inr (.inl ⟨id, proposal, used, paid, rfl, hr⟩)
  | .finish caller (.setUsed id record used) =>
    simp only [advanceLocked, advanceFinish]
    split
    case h_1 | h_2 => exact .inl rfl
    case h_3 hr => exact .inr (.inr ⟨caller, id, record, used, rfl, hr⟩)
  | .pay (.getProposed _) | .pay (.check ..) | .pay (.save ..) | .pay (.getPaid ..)
  | .pay (.spawn ..) | .pay (.push _) =>
    simp only [advanceLocked, advancePay]
    repeat' split
    all_goals exact .inl rfl
  | .provision p =>
    cases p <;> simp only [advanceLocked, advanceProvision] <;> (repeat' split) <;> exact .inl rfl
  | .finish _ (.getRemovable _) | .finish _ (.remove ..) | .finish _ (.getFinishable _)
  | .finish _ (.save ..) | .finish _ (.getFinished _) | .finish _ (.getUsed ..) =>
    simp only [advanceLocked, advanceFinish]
    repeat' split
    all_goals exact .inl rfl

theorem configured_step (h : Configured config s.resources) (e : step config s a = some s') :
    Configured config s'.resources := by
  cases effect_of_step e
  case insert f _ | saveLive f _ | quiet f _ => exact f.resources ▸ h
  case advance ok l hl =>
    rcases resources_advanceLocked config s ok l with hr | ⟨_, _, _, _, _, hr⟩ | ⟨_, _, _, _, _, hr⟩
    · exact hr ▸ h
    · exact h.setUsed hr
    · exact h.setUsed hr
  case pay | provision | fail | expire | wake | oversleep | pop => exact h

theorem reads_step (h : Reads s) (e : step config s a = some s') : Reads s' := by
  have hframe {s'} (f : Frame s s') : Reads s' := by
    intro l hl
    rw [f.resources]
    exact h l (f.locked ▸ hl)
  cases effect_of_step e
  case insert f _       => exact hframe f
  case saveLive f _     => exact hframe f
  case quiet f _        => exact hframe f
  case advance ok l hl  => exact reads_advanceLocked (h l hl)
  case pay | provision | fail | expire => exact reads_enter trivial
  case wake | oversleep | pop => exact h

end Fog
