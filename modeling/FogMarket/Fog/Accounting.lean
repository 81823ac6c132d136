import FogMarket.Fog.Ledger

open Transition

namespace Fog

variable {config : Config} {s s' : State} {a : Act} {ok : Bool} {l : Locked} {id : SlaId} {now : ℤ}
variable {as : List Act} {es : List Entry} {name node : String} {sla : Sla} {f : Failure}

-- What is booked on a node.
def bookedOn (name : String) : Weight (Information × Ratio) :=
  fun _ sla node => if node = name then sla.booked else 0

-- Whether it is this SLA for which something is booked.
def bookedFor (id : SlaId) : Weight ℤ :=
  fun x _ _ => if x = id then 1 else 0

-- Whether something is booked on none of the nodes.
def bookedBeyond (names : List String) : Weight ℤ :=
  fun _ _ node => if node ∈ names then 0 else 1

namespace Entry

def books (id : SlaId) : Entry → Bool
  | booked x _ _ => x = id
  | released ..  => false

def releases (id : SlaId) : Entry → Bool
  | booked ..      => false
  | released x _ _ => x = id

theorem total_bookedFor (es : List Entry) :
    total (bookedFor id) es = es.countP (books id) - es.countP (releases id) := by
  induction es
  case nil => rfl
  case cons e es hi =>
    rw [← List.singleton_append, total_append, hi, List.countP_append, List.countP_append]
    cases e <;> simp [total, weight, bookedFor, books, releases, List.countP_singleton] <;> split <;> omega

end Entry

theorem used_of_resources_eq (he : s.entries config (.locked ok) = [])
    (hr : (advanceLocked config s ok l).resources = s.resources)
    (name : String) : (advanceLocked config s ok l).resources.used.lookup name =
      (s.resources.used.lookup name).map (· + Entry.total (bookedOn name) (s.entries config (.locked ok))) := by
  simp [he, hr, Entry.total]

-- The used resources change by what is booked and released.
theorem used_advanceLocked (h : l.Reads s.resources) (hb : l.Accepted config.Books)
    (hp : Precise config s (.locked ok)) (hl : s.locked = some l) (name : String) :
    (advanceLocked config s ok l).resources.used.lookup name =
      (s.resources.used.lookup name).map (· + Entry.total (bookedOn name) (s.entries config (.locked ok))) := by
  match l with
  | .pay (.setUsed id proposal used paid) =>
    simp only [State.entries, hl, advanceLocked, advancePay]
    split
    case h_1 hs | h_2 hs => simp [hs, State.release, State.panic, Entry.total]
    case h_3 hs =>
      rw [hs]
      simp only [State.enter, (ResourceTracking.setUsed_eq_ok hs).2, Map.lookup_insert_eq]
      split
      case isTrue hn =>
        have hu : s.resources.used.lookup name = some used := hn ▸ h
        have he : booking config.rationals used proposal.sla = used + proposal.sla.booked := hb
        rw [Prod.mk.eta, he]
        simp [hu, Entry.total, Entry.weight, bookedOn, hn]
      case isFalse hn => simp [Entry.total, Entry.weight, bookedOn, Ne.symm hn]
  | .finish caller (.setUsed id record used) =>
    simp only [State.entries, hl, advanceLocked, advanceFinish]
    split
    case h_1 hs | h_2 hs => simp [hs, State.release, State.panic, Entry.total]
    case h_3 hs =>
      rw [hs]
      simp only [State.release, (ResourceTracking.setUsed_eq_ok hs).2, Map.lookup_insert_eq]
      split
      case isTrue hn =>
        have hu : s.resources.used.lookup name = some used := hn ▸ h
        have he : releasing config.rationals used record.sla = used - record.sla.booked :=
          hp.frees (record.sla, used) (by simp [State.frees, hl])
        rw [Prod.mk.eta, he]
        simp [hu, Entry.total, Entry.weight, bookedOn, hn, sub_eq_add_neg]
      case isFalse hn => simp [Entry.total, Entry.weight, bookedOn, Ne.symm hn]
  | .pay (.getProposed _) | .pay (.check ..) | .pay (.save ..) | .pay (.getPaid ..) | .pay (.spawn ..)
  | .pay (.push _) | .provision _ | .finish _ (.getRemovable _) | .finish _ (.remove ..)
  | .finish _ (.getFinishable _) | .finish _ (.save ..) | .finish _ (.getFinished _) | .finish _ (.getUsed ..) =>
    refine used_of_resources_eq (by simp [State.entries, hl]) ?_ name
    rcases resources_advanceLocked config s ok _ with hr | ⟨_, _, _, _, he, _⟩ | ⟨_, _, _, _, he, _⟩
    · exact hr
    · cases he
    · cases he

theorem used_step (h : Reads s) (hb : Accepted config.Books s) (hp : Precise config s a)
    (e : step config s a = some s') (name : String) :
    s'.resources.used.lookup name =
      (s.resources.used.lookup name).map (· + Entry.total (bookedOn name) (s.entries config a)) := by
  have hsame (he : s.entries config a = []) (hr : s'.resources = s.resources) :
      s'.resources.used.lookup name =
        (s.resources.used.lookup name).map (· + Entry.total (bookedOn name) (s.entries config a)) := by
    simp [he, hr, Entry.total]
  cases effect_of_step e
  case insert f _ | saveLive f _ => exact hsame rfl f.resources
  case quiet h f _ =>
    refine hsame ?_ f.resources
    cases a <;> first | rfl | exact absurd rfl (h _)
  case advance ok l hl => exact used_advanceLocked (h l hl) (hb l hl) hp hl name
  case pay | provision | fail | expire | wake | oversleep | pop => exact hsame rfl rfl

theorem bookedOn_nonneg (h : sla.Nonneg) : 0 ≤ bookedOn name id sla node := by
  rw [bookedOn]
  split
  case isTrue  => exact h.booked
  case isFalse => exact le_rfl

theorem load_bookedOn_nonneg (h : Recorded (fun _ sla => sla.Nonneg) s) (name : String) :
    0 ≤ s.tracking.load (bookedOn name) :=
  FunctionTracking.load_nonneg fun id r hr => bookedOn_nonneg (h.tracking id r hr)

-- What gets lost is not given back, so that the used resources are at least those which are owed.
theorem backed_step (hr : Reads s) (hn : Recorded (fun _ sla => sla.Nonneg) s) (hm : Matching s) (hc : Current s a)
    (hb : Accepted config.Books s) (hp : Payable config s) (hpr : Precise config s a)
    (h : ∀ name used, s.resources.used.lookup name = some used → s.owed (bookedOn name) ≤ used)
    (e : step config s a = some s') :
    ∀ name used, s'.resources.used.lookup name = some used → s'.owed (bookedOn name) ≤ used := by
  intro name used' hu'
  have hlose : ∀ id sla node y, Loses config s a id sla node → y ≤ y + bookedOn name id sla node :=
    fun _ _ _ _ hl => le_add_of_nonneg_right (bookedOn_nonneg (hl.recorded hn))
  have ho := owed_step (w := bookedOn name) le_refl hlose hm hc hp e
  rw [used_step hr hb hpr e, Option.map_eq_some_iff] at hu'
  have ⟨used, hu, he⟩ := hu'
  rw [← he]
  exact ho.trans (add_le_add_left (h name used hu) _)

theorem backed_new :
    ∀ name used, (State.new config now).resources.used.lookup name = some used →
      (State.new config now).owed (bookedOn name) ≤ used := by
  intro name used hu
  simp only [State.new, ResourceTracking.new, lookup_foldr_insert] at hu
  split at hu <;> cases hu
  simp [State.owed, State.new, FunctionTracking.load_empty]
  rfl

-- Bookings are made on the nodes only.
theorem total_bookedBeyond (h : Sound config s) : Entry.total (bookedBeyond config.names) (s.entries config a) ≤ 0 := by
  cases a <;> try exact le_rfl
  case locked ok =>
    simp only [State.entries]
    split <;> try exact le_rfl
    case h_1 id proposal used paid hl =>
      split <;> try exact le_rfl
      have hn : proposal.node ∈ config.names := (h.configured.used _).mp (Map.mem_of_lookup (h.reads _ hl))
      simp [Entry.total, Entry.weight, bookedBeyond, hn]
    case h_2 =>
      split <;> try exact le_rfl
      simp only [Entry.total, Entry.weight, bookedBeyond, List.map_cons, List.map_nil, List.sum_singleton]
      split <;> simp

-- The assertions are only hit by a booking or a release which does not succeed.
theorem panics_advanceLocked (config : Config) (s : State) (ok : Bool) (l : Locked) :
    (advanceLocked config s ok l).panics = s.panics ∨
    (∃ id proposal used paid f, l = .pay (.setUsed id proposal used paid) ∧
      s.resources.setUsed proposal.node (booking config.rationals used proposal.sla).1
        (booking config.rationals used proposal.sla).2 = .error f) ∨
    (∃ caller id record used f, l = .finish caller (.setUsed id record used) ∧
      s.resources.setUsed record.node (releasing config.rationals used record.sla).1
        (releasing config.rationals used record.sla).2 = .error f) := by
  match l with
  | .pay (.setUsed id proposal used paid) =>
    simp only [advanceLocked, advancePay]
    split
    case h_1 hs | h_2 hs => exact .inr (.inl ⟨id, proposal, used, paid, _, rfl, hs⟩)
    case h_3 => exact .inl rfl
  | .finish caller (.setUsed id record used) =>
    simp only [advanceLocked, advanceFinish]
    split
    case h_1 hs | h_2 hs => exact .inr (.inr ⟨caller, id, record, used, _, rfl, hs⟩)
    case h_3 => exact .inl rfl
  | .pay (.getProposed _) | .pay (.check ..) | .pay (.save ..) | .pay (.getPaid ..) | .pay (.spawn ..)
  | .pay (.push _) =>
    simp only [advanceLocked, advancePay]
    repeat' split
    all_goals exact .inl rfl
  | .provision p =>
    cases p <;> simp only [advanceLocked, advanceProvision] <;> (repeat' split) <;> exact .inl rfl
  | .finish _ (.getRemovable _) | .finish _ (.remove ..) | .finish _ (.getFinishable _)
  | .finish _ (.save ..) | .finish _ (.getFinished _) | .finish _ (.getUsed ..) =>
    simp only [advanceLocked, advanceFinish]
    repeat' split
    all_goals exact .inl rfl

-- No bid is inserted for a function which is active.
def Unreserved (s : State) (a : Act) : Prop :=
  ∀ sla ∈ s.inserts a, ∀ r ∈ s.tracking.lookup sla.id, ¬ r.Active

-- The SLA whose record has been finished, and is about to be read again.
def State.finishing (s : State) : Option SlaId :=
  match s.locked with
  | some (.finish _ (.getFinished id)) => some id
  | _                                  => none

-- No bid is inserted for a function which is being finished.
def Undisturbed (s : State) (a : Act) : Prop :=
  ∀ sla ∈ s.inserts a, s.finishing ≠ some sla.id

instance : Decidable (Unreserved s a) :=
  inferInstanceAs (Decidable (∀ sla ∈ s.inserts a, ∀ r ∈ s.tracking.lookup sla.id, ¬ r.Active))

instance : Decidable (Undisturbed s a) :=
  inferInstanceAs (Decidable (∀ sla ∈ s.inserts a, s.finishing ≠ some sla.id))

-- Everything that has been booked is accounted for.
structure Balanced (config : Config) (es : List Entry) (s : State) : Prop where
  sound    : Sound config s
  precise  : Accepted config.Books s
  matching : Matching s
  owed     : ∀ name, s.owed (bookedOn name) = Entry.total (bookedOn name) es
  used     : ∀ name ∈ config.names, s.resources.used.lookup name = some (Entry.total (bookedOn name) es)
  counted  : ∀ id, s.owed (bookedFor id) = Entry.total (bookedFor id) es
  placed   : s.owed (bookedBeyond config.names) ≤ 0
  asserted : .setUsed ∉ s.panics

namespace Balanced

theorem payable (h : Balanced config es s) : Payable config s :=
  h.sound.payable h.precise

theorem mem_names {caller : Caller} {record : Finished} (h : Balanced config es s)
    (hl : s.locked = some (.finish caller (.getUsed id record))) : record.node ∈ config.names := by
  by_contra hn
  have hp := h.placed
  have hz : 0 ≤ s.tracking.load (bookedBeyond config.names) := by
    refine FunctionTracking.load_nonneg fun id r hr => ?_
    rw [bookedBeyond]
    split <;> simp
  simp only [State.owed, hl, Option.elim_some, Locked.pending, bookedBeyond, if_neg hn] at hp hz
  omega

-- What is released has been booked.
theorem booked_le_used {caller : Caller} {record : Finished} {used : Information × Ratio}
    (h : Balanced config es s) (hl : s.locked = some (.finish caller (.setUsed id record used))) :
    0 ≤ used - record.sla.booked := by
  have hu : s.resources.used.lookup record.node = some used := h.sound.reads _ hl
  have hn : record.node ∈ config.names := (h.sound.configured.used _).mp (Map.mem_of_lookup hu)
  have he : used = s.tracking.load (bookedOn record.node) + record.sla.booked := by
    have ho := h.owed record.node
    rw [← Option.some.inj (hu.symm.trans (h.used _ hn))] at ho
    simpa [State.owed, hl, Locked.pending, bookedOn] using ho.symm
  rw [he, add_sub_cancel_right]
  exact load_bookedOn_nonneg h.sound.nonneg.recorded record.node

theorem setUsed_ok {caller : Caller} {record : Finished} {used : Information × Ratio}
    (h : Balanced config es s) (hp : Precise config s (.locked ok))
    (hl : s.locked = some (.finish caller (.setUsed id record used))) :
    s.resources.setUsed record.node (releasing config.rationals used record.sla).1
      (releasing config.rationals used record.sla).2 ≠ .error f := by
  have hu : s.resources.used.lookup record.node = some used := h.sound.reads _ hl
  have hk := h.sound.configured.keyExists (Map.mem_of_lookup hu)
  have he : releasing config.rationals used record.sla = used - record.sla.booked :=
    hp.frees (record.sla, used) (by simp [State.frees, hl])
  obtain ⟨_, hs⟩ := ResourceTracking.setUsed_of_nonneg hk (he ▸ h.booked_le_used hl)
  intro hf
  cases hs.symm.trans hf

theorem not_loses (h : Balanced config es s) (hf : Unreserved s a) (hu : Undisturbed s a) (hp : Precise config s a) :
    ¬ Loses config s a id sla node := by
  intro hl
  cases hl with
  | overwrite hb hr ha => exact hf _ (inserts_of_inserting hb) _ hr ha
  | finished hb hl hr  => exact hu _ (inserts_of_inserting hb) (by simp [State.finishing, hl])
  | getUsed hl hn =>
    have hm := (h.sound.configured.used _).mpr (h.mem_names hl)
    have ⟨used, hu⟩ := Map.lookup_of_mem hm
    rw [ResourceTracking.getUsed, if_pos (h.sound.configured.keyExists hm), hu] at hn
    contradiction
  | setUsed hl hs => exact h.setUsed_ok hp hl hs

theorem step (h : Balanced config es s) (hn : Nonneg a) (hf : Unreserved s a) (hu : Undisturbed s a)
    (hc : Current s a) (hp : Precise config s a) (e : Fog.step config s a = some s') :
    Balanced config (es ++ s.entries config a) s' := by
  have howed {μ : Type} [AddCommGroup μ] (w : Weight μ) (he : s.owed w = Entry.total w es) :
      s'.owed w = Entry.total w (es ++ s.entries config a) := by
    rw [Entry.total_append, ← he]
    exact owed_step (R := Eq) (fun _ => rfl) (fun _ _ _ _ hl => absurd hl (h.not_loses hf hu hp)) h.matching hc
      h.payable e
  constructor
  case sound    => exact sound_step h.sound hn e
  case precise  => exact accepted_step h.precise hp.admits e
  case matching => exact matching_step h.matching hc e
  case owed     => exact fun name => howed _ (h.owed name)
  case used     =>
    intro name hm
    rw [used_step h.sound.reads h.precise hp e, h.used name hm, Option.map_some, Entry.total_append]
  case counted  => exact fun id => howed _ (h.counted id)
  case placed   =>
    have ho : s'.owed (bookedBeyond config.names) = _ :=
      owed_step (R := Eq) (fun _ => rfl) (fun _ _ _ _ hl => absurd hl (h.not_loses hf hu hp)) h.matching hc
        h.payable e
    have := total_bookedBeyond (a := a) h.sound
    have := h.placed
    omega
  case asserted =>
    cases effect_of_step e
    case insert f _ | saveLive f _ | quiet f _ => exact mt f.panics h.asserted
    case advance ok l hl =>
      rcases panics_advanceLocked config s ok l with he | ⟨_, _, _, _, _, rfl, hs⟩ | ⟨_, _, _, _, _, rfl, hs⟩
      · exact he ▸ h.asserted
      · have ⟨_, hr⟩ := h.payable _ _ _ _ hl
        cases hr.symm.trans hs
      · exact absurd hs (h.setUsed_ok hp hl)
    case oversleep => simpa [State.panic] using h.asserted
    case pay | provision | fail | expire | wake | pop => exact h.asserted

theorem new : Balanced config [] (.new config now) where
  sound    := sound_new
  precise  := accepted_new
  matching := fun l hl => by simp [State.new] at hl
  owed _   := by simp [State.owed, State.new, FunctionTracking.load_empty, Entry.total]
  used     := fun name hm => by
    simp [State.new, ResourceTracking.new, lookup_foldr_insert, hm, Entry.total]
  counted _ := by simp [State.owed, State.new, FunctionTracking.load_empty, Entry.total]
  placed   := by simp [State.owed, State.new, FunctionTracking.load_empty]
  asserted := by simp [State.new]

end Balanced

-- While no call is in progress under the lock, the used resources are those of the active functions, and
-- everything that has been booked for a function has been released, except for what it has if it is active.
structure Accounted (config : Config) (es : List Entry) (s : State) : Prop where
  used     : s.locked = none → ∀ name ∈ config.names,
    s.resources.used.lookup name = some (s.tracking.load (bookedOn name))
  released : s.locked = none → ∀ id,
    es.countP (Entry.books id) = es.countP (Entry.releases id) + if (s.tracking.lookup id).any (·.Active) then 1 else 0
  finished : s.locked = none → (∀ id r, s.tracking.lookup id = some r → ¬ r.Active) →
    ∀ name ∈ config.names, s.resources.used.lookup name = some 0
  asserted : .setUsed ∉ s.panics

theorem load_bookedFor (db : FunctionTracking) (id : SlaId) :
    db.load (bookedFor id) = if (db.lookup id).any (·.Active) then 1 else 0 := by
  have hx (x : SlaId) (r : States) (h : x ≠ id) : FunctionTracking.share (bookedFor id) x r = 0 := by
    simp [FunctionTracking.share, bookedFor, h]
  rw [FunctionTracking.load, Map.total_eq_single hx]
  cases db.lookup id <;> simp [FunctionTracking.share, bookedFor]

theorem Balanced.accounted (h : Balanced config es s) : Accounted config es s := by
  have howed {μ : Type} [AddCommGroup μ] (w : Weight μ) (hl : s.locked = none) : s.owed w = s.tracking.load w := by
    rw [State.owed, hl, Option.elim_none, add_zero]
  have hused (hl : s.locked = none) : ∀ name ∈ config.names,
      s.resources.used.lookup name = some (s.tracking.load (bookedOn name)) := by
    intro name hm
    rw [h.used name hm, ← h.owed, howed _ hl]
  constructor
  case used     => exact hused
  case asserted => exact h.asserted
  case released =>
    intro hl id
    have hc := h.counted id
    rw [howed _ hl, load_bookedFor, Entry.total_bookedFor] at hc
    split at hc <;> simp_all <;> omega
  case finished =>
    intro hl hf name hm
    rw [hused hl name hm, FunctionTracking.load, Map.total_eq_zero]
    exact fun id r hr => FunctionTracking.share_eq_zero (hf id r hr)

-- What the requests and the calls outside of the lock have to respect.
structure Orderly (s : State) (a : Act) : Prop where
  nonneg      : Nonneg a
  unreserved  : Unreserved s a
  undisturbed : Undisturbed s a
  current     : Current s a

instance : Decidable (Orderly s a) :=
  decidable_of_iff (Nonneg a ∧ Unreserved s a ∧ Undisturbed s a ∧ Current s a)
    ⟨fun ⟨h₁, h₂, h₃, h₄⟩ => ⟨h₁, h₂, h₃, h₄⟩, fun ⟨h₁, h₂, h₃, h₄⟩ => ⟨h₁, h₂, h₃, h₄⟩⟩

theorem accounted_of_orderly (he : config.rationals = .exact)
    (r : Run (step config) Orderly (.new config now) as s) :
    Accounted config (trace (step config) (State.entries config) (.new config now) as) s :=
  Balanced.accounted <| r.invariant_trace .new fun h ho e =>
    h.step ho.nonneg ho.unreserved ho.undisturbed ho.current (precise_of_exact he) e

-- A function which is paid, and which expires.
def expiringActs : List Act :=
  bidActs (exampleSla 7 1 1000 1) ++ payActs 7 ++ expireActs 1000 ++ .replicate 6 (.locked true)

theorem accounted_of_expiring :
    ∃ s, Run (step (exampleConfig ["k8s"])) Orderly (.new (exampleConfig ["k8s"]) 0) expiringActs s ∧
      Accounted (exampleConfig ["k8s"])
        (trace (step (exampleConfig ["k8s"])) (State.entries (exampleConfig ["k8s"]))
          (.new (exampleConfig ["k8s"]) 0) expiringActs) s :=
  have ⟨s, r⟩ := Run.of_exec_isSome (by decide +kernel)
  ⟨s, r, accounted_of_orderly rfl r⟩

-- A bid on the function takes the place of the record which has been finished, before it is read again.
def expiringAndBiddenActs : List Act :=
  bidActs (exampleSla 7 1 1000 1) ++ payActs 7 ++ (bidActs (exampleSla 7 1 1000 1)).dropLast ++
    expireActs 1000 ++ .replicate 3 (.locked true) ++ [.bidding 0, .locked true]

theorem not_accounted_of_bid_again :
    ∃ s, Run (step (exampleConfig ["k8s"])) (fun s a => Nonneg a ∧ Unreserved s a)
        (.new (exampleConfig ["k8s"]) 0) expiringAndBiddenActs s ∧
      ¬ Accounted (exampleConfig ["k8s"])
        (trace (step (exampleConfig ["k8s"])) (State.entries (exampleConfig ["k8s"]))
          (.new (exampleConfig ["k8s"]) 0) expiringAndBiddenActs) s :=
  have ⟨s, r, hl, hu⟩ := Run.of_exec_any (P := fun s : State => s.locked = none ∧
    s.resources.used.lookup "k8s" ≠ some (s.tracking.load (bookedOn "k8s"))) (by decide +kernel)
  ⟨s, r, fun h => hu (h.used hl "k8s" (by simp [exampleConfig]))⟩

end Fog
