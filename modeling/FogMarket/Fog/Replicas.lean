import FogMarket.Fog.Accounting

open Transition

namespace Fog

variable {μ : Type*} [AddCommGroup μ] [PartialOrder μ] [IsOrderedAddMonoid μ] {w : Weight μ}
variable {config : Config} {s s' : State} {a : Act} {ok : Bool} {l : Locked} {id : SlaId} {now : ℤ}
variable {as : List Act} {name node : String} {sla : Sla} {P : SlaId → Sla → Prop}

-- What the functions of a node take when they are scaled out to their ceilings.
def ceilingOn (name : String) : Weight (Information × Ratio) :=
  fun _ sla node => if node = name then sla.ceiling else 0

-- The part thereof which is not booked.
def unbookedOn (name : String) : Weight (Information × Ratio) :=
  fun id sla node => ceilingOn name id sla node - bookedOn name id sla node

-- Requests are for a number of replicas between one and the largest `i64`.
def Scalable (a : Act) : Prop :=
  ∀ sla, a = .bid sla → 1 ≤ sla.maxReplica.toNat ∧ sla.maxReplica.toNat < 2 ^ 63

-- Payments would also be accepted if the replicas which are not booked were counted as used, and if nothing
-- could overflow.
def Roomy (config : Config) (s : State) (a : Act) : Prop :=
  ∀ x ∈ s.admits config a,
    satisfiabilityCheck .exact (x.2 + s.tracking.load (unbookedOn x.1.node)) config.reserved x.1.sla = true

instance : Decidable (Scalable a) :=
  match a with
  | .bid sla => decidable_of_iff (1 ≤ sla.maxReplica.toNat ∧ sla.maxReplica.toNat < 2 ^ 63)
      ⟨fun h _ he => Act.bid.inj he ▸ h, fun h => h sla rfl⟩
  | .tick _ | .pay _ | .provision _ | .bidding _ | .locked _ | .liveness .. | .timer _ => .isTrue nofun

instance : Decidable (Roomy config s a) :=
  inferInstanceAs (Decidable (∀ x ∈ s.admits config a,
    satisfiabilityCheck .exact (x.2 + s.tracking.load (unbookedOn x.1.node)) config.reserved x.1.sla = true))

theorem ceiling_nonneg (h : sla.Nonneg) : 0 ≤ sla.ceiling :=
  ⟨mul_nonneg (Nat.cast_nonneg _) h.memory, mul_nonneg (Nat.cast_nonneg _) h.cpu⟩

theorem ceiling_eq_checked (h : sla.maxReplica.toNat < 2 ^ 63) : sla.ceiling = sla.checked := by
  simp [Sla.ceiling, Sla.checked, Sla.replicas_eq_toNat h, mul_comm]

theorem load_ceilingOn (db : FunctionTracking) (name : String) :
    db.load (ceilingOn name) = db.load (bookedOn name) + db.load (unbookedOn name) := by
  rw [FunctionTracking.load, FunctionTracking.load, FunctionTracking.load, ← Map.total_add]
  congr
  funext id r
  simp only [FunctionTracking.share, unbookedOn]
  split <;> simp

-- There is always room if everything which runs on the node is booked at its ceiling.
theorem roomy_of_booked (hc : Configured config s.resources) (hw : Weighed config s a)
    (h : ∀ id r, s.tracking.lookup id = some r → r.Active → r.sla.ceiling = r.sla.booked) : Roomy config s a := by
  intro x hx
  have hz : s.tracking.load (unbookedOn x.1.node) = 0 := by
    refine Map.total_eq_zero fun id r hr => ?_
    simp only [FunctionTracking.share, unbookedOn, ceilingOn, bookedOn]
    split
    case isTrue ha => rw [h id r hr ha, sub_self]
    case isFalse   => rfl
  obtain ⟨available, ha, hs⟩ := check_of_admits hx
  rw [satisfiabilityCheck_iff, hw x hx, hc.available_eq ha] at hs
  rwa [hz, add_zero, satisfiabilityCheck_iff, wouldBeUsed_exact]

-- The function whose payment has been accepted, and is about to be recorded.
def Locked.accepts (w : Weight μ) : Locked → μ
  | .pay (.save id proposal _) => w id proposal.sla proposal.node
  | _                          => 0

def State.committed (s : State) (w : Weight μ) : μ :=
  s.tracking.load w + s.locked.elim 0 (Locked.accepts w)

theorem load_advanceLocked (hm : l.Matches s.tracking)
    (hw : ∀ id r, s.tracking.lookup id = some r → 0 ≤ w id r.sla r.node) :
    (advanceLocked config s ok l).tracking.load w ≤ s.tracking.load w + l.accepts w := by
  match l with
  | .pay (.save id proposal used) =>
    obtain ⟨p, hl⟩ := hm
    exact (FunctionTracking.load_savePaid hl).le
  | .provision (.save id provisioned) =>
    refine le_of_eq ?_
    simp only [advanceLocked, advanceProvision, State.release, Locked.accepts, add_zero]
    exact (FunctionTracking.renews_saveProvisioned hm).load_eq
  | .finish caller (.save id record) =>
    obtain ⟨⟨r, hr⟩, _⟩ := hm
    simp only [advanceLocked, advanceFinish, State.enter, Locked.accepts, add_zero]
    rw [FunctionTracking.load_saveFinished hr]
    exact sub_le_self _ (FunctionTracking.shareOf_nonneg (hw id))
  | .pay (.getProposed _) | .pay (.check ..) | .pay (.getPaid ..) | .pay (.setUsed ..) | .pay (.spawn ..)
  | .pay (.push _) =>
    simp only [advanceLocked, advancePay]
    repeat' split
    all_goals exact (add_zero _).ge
  | .provision (.getPaid _) | .provision (.backend ..) =>
    simp only [advanceLocked, advanceProvision]
    split <;> exact (add_zero _).ge
  | .finish _ (.getRemovable _) | .finish _ (.remove ..) | .finish _ (.getFinishable _)
  | .finish _ (.getFinished _) | .finish _ (.getUsed ..) | .finish _ (.setUsed ..) =>
    simp only [advanceLocked, advanceFinish]
    repeat' split
    all_goals exact (add_zero _).ge

omit [PartialOrder μ] [IsOrderedAddMonoid μ] in
theorem accepts_advanceLocked (h : ∀ id proposal, l ≠ .pay (.check id proposal)) :
    (advanceLocked config s ok l).locked.elim 0 (Locked.accepts w) = 0 := by
  match l with
  | .pay (.check id proposal) => exact absurd rfl (h id proposal)
  | .pay (.getProposed _) | .pay (.save ..) | .pay (.getPaid ..) | .pay (.setUsed ..) | .pay (.spawn ..)
  | .pay (.push _) =>
    simp only [advanceLocked, advancePay]
    repeat' split
    all_goals rfl
  | .provision p => cases p <;> simp only [advanceLocked, advanceProvision] <;> (repeat' split) <;> rfl
  | .finish _ p => cases p <;> simp only [advanceLocked, advanceFinish] <;> (repeat' split) <;> rfl

-- All active functions can be scaled out to their ceilings at the same time.
structure Replicated (config : Config) (s : State) : Prop where
  sound     : Sound config s
  matching  : Matching s
  scalable  : Holds (fun _ sla => sla.maxReplica.toNat < 2 ^ 63) s
  backed    : ∀ name used, s.resources.used.lookup name = some used → s.owed (bookedOn name) ≤ used
  committed : ∀ name, s.committed (ceilingOn name) ≤ config.reserved
  books     : Accepted config.Books s

namespace Replicated

theorem ceilingOn_nonneg (h : Replicated config s) (name : String) :
    ∀ id r, s.tracking.lookup id = some r → 0 ≤ ceilingOn name id r.sla r.node := by
  intro id r hr
  rw [ceilingOn]
  split
  case isTrue  => exact ceiling_nonneg (h.sound.nonneg.tracking id r hr)
  case isFalse => exact le_rfl

theorem check (h : Replicated config s) {proposal : Proposed} (hl : s.locked = some (.pay (.check id proposal)))
    (hr : Roomy config s (.locked ok)) (name : String) :
    (advanceLocked config s ok (.pay (.check id proposal))).committed (ceilingOn name) ≤ config.reserved := by
  have hc : s.tracking.load (ceilingOn name) ≤ config.reserved := by
    simpa [State.committed, hl, Locked.accepts] using h.committed name
  have hrelease : s.release.committed (ceilingOn name) ≤ config.reserved := by
    rwa [State.committed, State.release, Option.elim_none, add_zero]
  simp only [advanceLocked, advancePay]
  split
  case h_2 => exact hrelease
  case h_1 used available hu ha =>
    split
    case isFalse => exact hrelease
    case isTrue hs =>
      simp only [State.committed, State.enter, Option.elim_some, Locked.accepts]
      by_cases hn : proposal.node = name
      case neg => rwa [ceilingOn, if_neg hn, add_zero]
      case pos =>
        subst hn
        have hb : s.tracking.load (bookedOn proposal.node) ≤ used := by
          have := h.backed _ _ (ResourceTracking.getUsed_eq_some hu).2
          rwa [State.owed, hl, Option.elim_some, Locked.pending, add_zero] at this
        have hroom := hr (proposal, used) (by simp [State.admits, hl, hu, ha, hs])
        calc s.tracking.load (ceilingOn proposal.node) + ceilingOn proposal.node id proposal.sla proposal.node
          _ = s.tracking.load (bookedOn proposal.node) + s.tracking.load (unbookedOn proposal.node) +
              proposal.sla.checked := by
            rw [load_ceilingOn, ceilingOn, if_pos rfl, ceiling_eq_checked (h.scalable.locked _ hl)]
          _ ≤ used + s.tracking.load (unbookedOn proposal.node) + proposal.sla.checked :=
            add_le_add_left (add_le_add_left hb _) _
          _ ≤ config.reserved := le_of_satisfiabilityCheck hroom

theorem step (h : Replicated config s) (hn : Nonneg a) (hs : Scalable a) (hc : Current s a)
    (hr : Roomy config s a) (hp : Precise config s a) (e : Fog.step config s a = some s') : Replicated config s' where
  sound     := sound_step h.sound hn e
  matching  := matching_step h.matching hc e
  scalable  := h.scalable.step (fun sla ha => (hs sla ha).2) e
  backed    :=
    backed_step h.sound.reads h.sound.nonneg.recorded h.matching hc h.books (h.sound.payable h.books) hp h.backed e
  books     := accepted_step h.books hp.admits e
  committed := by
    intro name
    have hc' := h.committed name
    cases effect_of_step e
    case insert f t =>
      rw [State.committed, f.locked, t, FunctionTracking.load_insert, sub_add_eq_add_sub]
      exact (sub_le_self _ (FunctionTracking.shareOf_nonneg (h.ceilingOn_nonneg name _))).trans hc'
    case saveLive hl f t =>
      rwa [State.committed, f.locked, t, FunctionTracking.saveLive, (renews_of_current hc hl).load_eq]
    case advance ok l hl =>
      by_cases hcheck : ∃ id proposal, l = .pay (.check id proposal)
      case pos =>
        obtain ⟨id, proposal, he⟩ := hcheck
        exact he ▸ h.check (he ▸ hl) hr name
      case neg =>
        rw [State.committed, accepts_advanceLocked fun id p he => hcheck ⟨id, p, he⟩, add_zero]
        rw [State.committed, hl, Option.elim_some] at hc'
        exact (load_advanceLocked (h.matching l hl) (h.ceilingOn_nonneg name)).trans hc'
    case quiet f t => rwa [State.committed, f.locked, t]
    case pay hl | provision hl | fail hl | expire hl => rwa [State.committed, hl] at hc'
    case wake | oversleep | pop => exact hc'

theorem new (hc : 0 ≤ config.reserved) : Replicated config (.new config now) where
  sound     := sound_new
  matching  := fun l hl => by simp [State.new] at hl
  scalable  := {
    bids     := by simp [State.new]
    tracking := by simp [State.new]
    locked   := by simp [State.new]
    lives    := by simp [State.new]
  }
  backed    := backed_new
  committed := fun name => by simpa [State.committed, State.new, FunctionTracking.load_empty] using hc
  books     := accepted_new

end Replicated

def CeilingsLeAvailable (config : Config) (s : State) : Prop :=
  ∀ name ∈ config.names, ∃ available ∈ s.resources.available.lookup name,
    s.tracking.load (ceilingOn name) ≤ available

instance : Decidable (CeilingsLeAvailable config s) :=
  inferInstanceAs (Decidable (∀ name ∈ config.names, ∃ available ∈ s.resources.available.lookup name,
    s.tracking.load (ceilingOn name) ≤ available))

theorem Replicated.load_le (h : Replicated config s) (name : String) :
    s.tracking.load (ceilingOn name) ≤ config.reserved := by
  refine le_trans (le_add_of_nonneg_right ?_) (h.committed name)
  cases hl : s.locked
  case none => exact le_rfl
  case some l =>
    have hn := h.sound.nonneg.locked l hl
    simp only [Option.elim_some, Locked.accepts]
    split
    case h_2 => exact le_rfl
    case h_1 =>
      rw [ceilingOn]
      split
      case isTrue  => exact ceiling_nonneg hn
      case isFalse => exact le_rfl

-- As long as payments leave room for the replicas which are not booked, and no booking overflows, no node is
-- overcommitted.
theorem ceilings_le_available (hc : 0 ≤ config.reserved)
    (r : Run (step config) (fun s a => Nonneg a ∧ Scalable a ∧ Current s a ∧ Roomy config s a ∧ Precise config s a)
      (.new config now) as s) :
    CeilingsLeAvailable config s := by
  have h : Replicated config s :=
    r.invariant (.new hc) fun h ⟨hn, hs, hc, hr, hp⟩ e => h.step hn hs hc hr hp e
  intro name hm
  exact ⟨config.reserved, by rw [Option.mem_def, h.sound.configured.available, if_pos hm], h.load_le name⟩

-- Two functions with four replicas each.
theorem ceilings_le_available_of_two_functions :
    ∃ s, Run (step (wrappingConfig ["k8s"]))
        (fun s a => Nonneg a ∧ Scalable a ∧ Current s a ∧ Roomy (wrappingConfig ["k8s"]) s a ∧
          Precise (wrappingConfig ["k8s"]) s a)
        (.new (wrappingConfig ["k8s"]) 0)
        (bidActs (exampleSla 7 1 1000 4) ++ payActs 7 ++ bidActs (exampleSla 8 1 1000 4) ++ payActs 8) s ∧
      CeilingsLeAvailable (wrappingConfig ["k8s"]) s :=
  have ⟨s, r⟩ := Run.of_exec_isSome (by decide +kernel)
  ⟨s, r, ceilings_le_available (by decide +kernel) r⟩

-- Two functions with eight replicas each are accepted on a node with ten cpus.
theorem not_ceilings_le_available_of_two_functions :
    ∃ s, Run (step (wrappingConfig ["k8s"])) (fun _ a => Nonneg a ∧ Scalable a)
        (.new (wrappingConfig ["k8s"]) 0)
        (bidActs (exampleSla 7 1 1000 8) ++ payActs 7 ++ bidActs (exampleSla 8 1 1000 8) ++ payActs 8) s ∧
      ¬ CeilingsLeAvailable (wrappingConfig ["k8s"]) s :=
  Run.of_exec_any (by decide +kernel)

end Fog
