import FogMarket.Fog.Ledger

open Transition

namespace Fog

-- The function which has been paid, but which has not been put into the queue yet.
def Locked.scheduling : Locked → Option SlaId
  | .pay (.getPaid id _ _) => some id
  | .pay (.setUsed id ..)  => some id
  | .pay (.spawn id _)     => some id
  | .pay (.push entry)     => some entry.sla
  | .pay (.getProposed _) | .pay (.check ..) | .pay (.save ..) | .provision _ | .finish .. => none

-- The function which has expired, but which has not been finished yet.
def Locked.expiring : Locked → Option SlaId
  | .finish .timer (.getRemovable id)  => some id
  | .finish .timer (.remove id _)      => some id
  | .finish .timer (.getFinishable id) => some id
  | .finish .timer (.save id _)        => some id
  | .finish .timer (.getFinished _) | .finish .timer (.getUsed ..) | .finish .timer (.setUsed ..)
  | .finish .liveness _ | .pay _ | .provision _ => none

variable {config : Config} {s s' : State} {a : Act} {ok : Bool} {l : Locked} {id x : SlaId} {now : ℤ}
variable {as : List Act} {db : FunctionTracking} {tasks : List TaskEntry} {r r' : States} {i : ℕ}
variable {timers : List Timer} {t t' : Timer}

namespace State

-- The function whose timer takes the first entry off the queue, and this entry.
def pops (s : State) : Act → Option (SlaId × TaskEntry)
  | .timer i =>
    match s.timers[i]? with
    | some (.sleeping id _) => s.tasks.head?.map (id, ·)
    | _                     => none
  | _ => none

def pushes (s : State) : Act → Option TaskEntry
  | .locked _ =>
    match s.locked with
    | some (.pay (.push entry)) => some entry
    | _                         => none
  | _ => none

-- How the booking of a payment which has been recorded ends.
def books (config : Config) (s : State) : Act → Option (Except Failure ResourceTracking)
  | .locked _ =>
    match s.locked with
    | some (.pay (.setUsed _ proposal used _)) =>
      let booked := booking config.rationals used proposal.sla
      some (s.resources.setUsed proposal.node booked.1 booked.2)
    | _ => none
  | _ => none

end State

-- The callback of a function has begun, but the function has not been finished by it yet.
def Expiring (s : State) (id : SlaId) : Prop :=
  .waiting id ∈ s.timers ∨ s.locked.bind Locked.expiring = some id

def Successful (config : Config) (s : State) (a : Act) : Prop :=
  ∀ x ∈ s.books config a, x.isOk = true

-- A timer takes its own entry off the queue, or one of a function which does not run on anyway.
def Ordered (s : State) (a : Act) : Prop :=
  ∀ x ∈ s.pops a, x.2.sla = x.1 ∨ (∀ r ∈ s.tracking.lookup x.2.sla, ¬ r.Active) ∨ Expiring s x.2.sla

-- A paid function is not in the queue yet, and its end is a point in time.
def Schedulable (s : State) (a : Act) : Prop :=
  ∀ entry ∈ s.pushes a, ∀ r ∈ s.tracking.lookup entry.sla, r.Active →
    (entry.timestamp r.sla).isSome = true ∧ ∀ e ∈ s.tasks, e.sla ≠ entry.sla

instance : Decidable (Expiring s id) :=
  inferInstanceAs (Decidable (_ ∨ _))

instance : Decidable (Successful config s a) :=
  inferInstanceAs (Decidable (∀ x ∈ s.books config a, x.isOk = true))

instance : Decidable (Ordered s a) :=
  inferInstanceAs (Decidable (∀ x ∈ s.pops a,
    x.2.sla = x.1 ∨ (∀ r ∈ s.tracking.lookup x.2.sla, ¬ r.Active) ∨ Expiring s x.2.sla))

instance : Decidable (Schedulable s a) :=
  inferInstanceAs (Decidable (∀ entry ∈ s.pushes a, ∀ r ∈ s.tracking.lookup entry.sla, r.Active →
    (entry.timestamp r.sla).isSome = true ∧ ∀ e ∈ s.tasks, e.sla ≠ entry.sla))

theorem mem_set_of_mem (h : t ∈ timers) (hi : timers[i]? = some t') (hn : t' ≠ t) {t'' : Timer} :
    t ∈ timers.set i t'' := by
  have ⟨j, hj⟩ := List.mem_iff_getElem?.mp h
  have hne : i ≠ j := fun he => hn (Option.some.inj (hi.symm.trans (he ▸ hj)))
  exact List.mem_iff_getElem?.mpr ⟨j, by rw [List.getElem?_set_ne hne, hj]⟩

theorem mem_eraseIdx_of_mem (h : t ∈ timers) (hi : timers[i]? = some t') (hn : t' ≠ t) :
    t ∈ timers.eraseIdx i := by
  have ⟨j, hj⟩ := List.mem_iff_getElem?.mp h
  have hne : j ≠ i := fun he => hn (Option.some.inj (hi.symm.trans (he ▸ hj)))
  exact List.mem_eraseIdx_iff_getElem?.mpr ⟨j, hne, hj⟩

theorem queue_advanceFinish (config : Config) (s : State) (ok : Bool) (caller : Caller) (p : Finishing) :
    (advanceFinish config s ok caller p).tasks = s.tasks ∧ (advanceFinish config s ok caller p).timers = s.timers := by
  cases p <;> simp only [advanceFinish] <;> (repeat' split) <;> exact ⟨rfl, rfl⟩

-- `finish_function` leaves the records of active functions alone, and a callback goes on until its function is not
-- active anymore.
theorem expiring_advanceFinish (caller : Caller) (p : Finishing) :
    (advanceFinish config s ok caller p).tracking.lookup x = some r → r.Active → s.tracking.lookup x = some r ∧
      ((Locked.finish caller p).expiring = some x →
        (advanceFinish config s ok caller p).locked.bind Locked.expiring = some x) := by
  match p with
  | .getRemovable id | .remove id name =>
    simp only [advanceFinish]
    try split
    all_goals
      refine fun hx _ => ⟨hx, fun he => ?_⟩
      cases caller <;> exact he
  | .getFinishable id =>
    simp only [advanceFinish]
    split
    case h_1 hn =>
      refine fun hx ha => ⟨hx, fun he => ?_⟩
      cases caller <;> cases he
      cases hn.symm.trans (FunctionTracking.getFinishable_eq_some.mpr ⟨r, hx, ha, rfl⟩)
    case h_2 =>
      refine fun hx _ => ⟨hx, fun he => ?_⟩
      cases caller <;> exact he
  | .save id record =>
    intro hx ha
    rw [advanceFinish, State.enter, FunctionTracking.saveFinished, FunctionTracking.lookup_save] at hx
    split at hx
    case isTrue =>
      cases hx
      exact absurd ha not_false
    case isFalse hn =>
      refine ⟨hx, fun he => ?_⟩
      cases caller <;> cases he
      exact absurd ⟨rfl, by simp [hx]⟩ hn
  | .getFinished id | .getUsed id record | .setUsed id record used =>
    simp only [advanceFinish]
    split
    all_goals
      refine fun hx _ => ⟨hx, fun he => ?_⟩
      cases caller <;> cases he

-- An active function has one entry in the queue, or it is about to get it, or it is about to be finished.
inductive Known (s : State) (id : SlaId) (r : States) : Prop
  | listed (entry : TaskEntry) (h : s.tasks.filter (·.sla = id) = [entry]) (hn : entry.node = r.node)
      (ht : (entry.timestamp r.sla).isSome = true)
  | scheduling (h : s.locked.bind Locked.scheduling = some id)
  | waiting (h : .waiting id ∈ s.timers)
  | expiring (h : s.locked.bind Locked.expiring = some id)

namespace Known

theorem congr (h : Known s id r) (h₁ : r.sla = r'.sla) (h₂ : r.node = r'.node) : Known s id r' := by
  cases h
  case listed entry h hn ht => exact .listed entry h (hn.trans h₂) (h₁ ▸ ht)
  case scheduling h         => exact .scheduling h
  case waiting h            => exact .waiting h
  case expiring h           => exact .expiring h

-- A call under the lock which changes neither the queue nor the timers.
theorem of_locked (h : Known s id r) (hl : s.locked = some l) (htasks : s'.tasks = s.tasks)
    (htimers : s.timers ⊆ s'.timers)
    (hs : l.scheduling = some id → s'.locked.bind Locked.scheduling = some id)
    (he : l.expiring = some id → s'.locked.bind Locked.expiring = some id) : Known s' id r := by
  cases h
  case listed entry h hn ht => exact .listed entry (htasks ▸ h) hn ht
  case scheduling h         => exact .scheduling (hs (by rwa [hl] at h))
  case waiting h            => exact .waiting (htimers h)
  case expiring h           => exact .expiring (he (by rwa [hl] at h))

-- A call under the lock which no function is known from.
theorem of_quiet (h : Known s id r) (hl : s.locked = some l) (htasks : s'.tasks = s.tasks)
    (htimers : s.timers ⊆ s'.timers) (hs : l.scheduling = none) (he : l.expiring = none) : Known s' id r := by
  apply h.of_locked hl htasks htimers
  case hs => simp [hs]
  case he => simp [he]

-- A timer which goes on without having expired.
theorem of_timer (h : Known s id r) (htasks : s'.tasks = s.tasks) (hl : s'.locked = s.locked)
    (ht : .waiting id ∈ s.timers → .waiting id ∈ s'.timers) : Known s' id r := by
  cases h
  case listed entry h hn ht => exact .listed entry (htasks ▸ h) hn ht
  case scheduling h         => exact .scheduling (hl ▸ h)
  case waiting h            => exact .waiting (ht h)
  case expiring h           => exact .expiring (hl ▸ h)

theorem of_frame (h : Known s id r) (f : Frame s s') : Known s' id r :=
  h.of_timer f.tasks f.locked fun ht => f.timers ▸ ht

end Known

structure Scheduled (s : State) : Prop where
  matching : Matching s
  keyed    : Holds (fun id sla => sla.id = id) s
  active   : ∀ id r, s.tracking.lookup id = some r → r.Active → Known s id r

namespace Scheduled

-- An entry is put into the queue of the function which has been paid.
theorem push {entry : TaskEntry} (h : Scheduled s) (hs : Schedulable s (.locked ok))
    (hl : s.locked = some (.pay (.push entry))) :
    ∀ x r, (Fog.advancePay config s (.push entry)).tracking.lookup x = some r → r.Active →
      Known (Fog.advancePay config s (.push entry)) x r := by
  intro x r hx ha
  have hf : (s.tasks ++ [entry]).filter (·.sla = x) = s.tasks.filter (·.sla = x) ++ [entry].filter (·.sla = x) :=
    List.filter_append ..
  by_cases he : entry.sla = x
  case pos =>
    subst he
    obtain ⟨ht, hne⟩ := hs entry (by simp [State.pushes, hl]) r hx ha
    obtain ⟨sla, hm⟩ := h.matching _ hl
    refine .listed entry ?_ (hm r hx ha).2.symm ht
    have hz : s.tasks.filter (·.sla = entry.sla) = [] := by simpa using hne
    exact hf.trans (by simp [hz])
  case neg =>
    cases h.active x r hx ha
    case listed e hl hn ht => exact .listed e (hf.trans (by simp [hl, he])) hn ht
    case scheduling hi     => simp [hl, Locked.scheduling, he] at hi
    case waiting hw        => exact .waiting hw
    case expiring hi       => simp [hl, Locked.expiring] at hi

theorem advancePay {p : Paying} (h : Scheduled s) (hp : Successful config s (.locked ok))
    (hs : Schedulable s (.locked ok)) (hl : s.locked = some (.pay p)) :
    ∀ x r, (advancePay config s p).tracking.lookup x = some r → r.Active → Known (advancePay config s p) x r := by
  have hm := h.matching _ hl
  match p with
  | .getProposed id =>
    intro x r
    simp only [Fog.advancePay]
    split <;> exact fun hx ha => (h.active x r hx ha).of_quiet hl rfl (List.Subset.refl _) rfl rfl
  | .check id proposal =>
    intro x r
    simp only [Fog.advancePay]
    repeat' split
    all_goals exact fun hx ha => (h.active x r hx ha).of_quiet hl rfl (List.Subset.refl _) rfl rfl
  | .save id proposal used =>
    intro x r hx ha
    by_cases he : x = id
    case pos => exact .scheduling (he ▸ rfl)
    case neg =>
      have hx : s.tracking.lookup x = some r := by
        rwa [Fog.advancePay, State.enter, FunctionTracking.savePaid,
          FunctionTracking.lookup_save, if_neg fun h => he h.1] at hx
      exact (h.active x r hx ha).of_quiet hl rfl (List.Subset.refl _) rfl rfl
  | .getPaid id proposal used =>
    intro x r
    simp only [Fog.advancePay]
    split
    case h_1 hn =>
      intro hx ha
      refine (h.active x r hx ha).of_locked hl rfl (List.Subset.refl _) (fun he => ?_) (by rintro ⟨⟩)
      -- The payment has been written over by a bid.
      cases he
      have hp := hm.1 r hx ha
      cases r <;> simp only [States.phase, reduceCtorEq] at hp
      cases hn.symm.trans (FunctionTracking.getPaid_eq_some.mpr hx)
    case h_2 =>
      exact fun hx ha => (h.active x r hx ha).of_locked hl rfl (List.Subset.refl _) (fun he => he) (by rintro ⟨⟩)
  | .setUsed id proposal used paid =>
    intro x r
    have hok := hp (s.resources.setUsed proposal.node (booking config.rationals used proposal.sla).1
      (booking config.rationals used proposal.sla).2) (by simp [State.books, hl])
    simp only [Fog.advancePay]
    split
    case h_1 hs | h_2 hs => simp [hs, Except.isOk, Except.toBool] at hok
    case h_3 =>
      exact fun hx ha => (h.active x r hx ha).of_locked hl rfl (List.Subset.refl _) (fun he => he) (by rintro ⟨⟩)
  | .spawn id paid =>
    intro x r hx ha
    exact (h.active x r hx ha).of_locked hl rfl (List.subset_append_left _ _) (fun he => he) (by rintro ⟨⟩)
  | .push entry => exact h.push hs hl

theorem advanceProvision {p : Provisioning} (h : Scheduled s) (hl : s.locked = some (.provision p)) :
    ∀ x r, (advanceProvision s ok p).tracking.lookup x = some r → r.Active →
      Known (advanceProvision s ok p) x r := by
  have hm := h.matching _ hl
  match p with
  | .save id provisioned =>
    intro x r hx ha
    obtain ⟨r₀, hr₀, ha₀, h₁, h₂⟩ := (FunctionTracking.renews_saveProvisioned hm).lookup hx ha
    exact ((h.active x r₀ hr₀ ha₀).congr h₁ h₂).of_quiet hl rfl (List.Subset.refl _) rfl rfl
  | .getPaid id | .backend id paid =>
    intro x r
    simp only [Fog.advanceProvision]
    split <;> exact fun hx ha => (h.active x r hx ha).of_quiet hl rfl (List.Subset.refl _) rfl rfl

theorem advanceLocked (h : Scheduled s) (hp : Successful config s (.locked ok)) (hs : Schedulable s (.locked ok))
    (hl : s.locked = some l) :
    ∀ x r, (advanceLocked config s ok l).tracking.lookup x = some r → r.Active →
      Known (advanceLocked config s ok l) x r := by
  cases l
  case pay       => exact h.advancePay hp hs hl
  case provision => exact h.advanceProvision hl
  case finish caller p =>
    intro x r hx ha
    obtain ⟨htasks, htimers⟩ := queue_advanceFinish config s ok caller p
    obtain ⟨hx, he⟩ := expiring_advanceFinish caller p hx ha
    exact (h.active x r hx ha).of_locked hl htasks (htimers ▸ List.Subset.refl _) (by rintro ⟨⟩) he

-- A timer takes the first entry off the queue.
theorem pop {due : ℤ} (h : Scheduled s) (ho : Ordered s (.timer i)) (ht : s.timers[i]? = some (.sleeping id due))
    (hx : s.tracking.lookup x = some r) (ha : r.Active) :
    Known { s with tasks := s.tasks.tail, timers := s.timers.set i (.waiting id) } x r := by
  have hw : .waiting x ∈ s.timers → .waiting x ∈ s.timers.set i (.waiting id) :=
    fun hw => mem_set_of_mem hw ht nofun
  cases h.active x r hx ha
  case scheduling hi => exact .scheduling hi
  case waiting hi    => exact .waiting (hw hi)
  case expiring hi   => exact .expiring hi
  case listed entry hl hn hd =>
    cases htasks : s.tasks
    case nil => simp [htasks] at hl
    case cons e rest =>
      rw [htasks, List.filter_cons] at hl
      split at hl
      case isFalse => exact .listed entry hl hn hd
      case isTrue he =>
        have he : e.sla = x := of_decide_eq_true he
        rcases ho (id, e) (by simp [State.pops, ht, htasks]) with hid | hi | hi
        · have hlt : i < s.timers.length := (List.getElem?_eq_some_iff.mp ht).1
          exact .waiting (he.symm.trans hid ▸ List.mem_set hlt _)
        · exact absurd ha (hi r (he ▸ hx))
        · cases hi
          case inl hi => exact .waiting (hw (he ▸ hi))
          case inr hi => exact .expiring (he ▸ hi)

theorem step (h : Scheduled s) (hp : Successful config s a) (hc : Current s a) (ho : Ordered s a) (hs : Schedulable s a)
    (e : Fog.step config s a = some s') : Scheduled s' where
  matching := matching_step h.matching hc e
  keyed    := h.keyed.step (fun _ _ => rfl) e
  active   := by
    intro x r
    cases effect_of_step e
    case insert f t =>
      rw [t, FunctionTracking.lookup_insert]
      split
      case isTrue =>
        intro hx ha
        cases hx
        exact absurd ha not_false
      case isFalse => exact fun hx ha => (h.active x r hx ha).of_frame f
    case saveLive hl f t =>
      rw [t]
      intro hx ha
      have ⟨r₀, hr₀, ha₀, h₁, h₂⟩ := (renews_of_current hc hl).lookup hx ha
      exact ((h.active x r₀ hr₀ ha₀).congr h₁ h₂).of_frame f
    case advance ok l hl => exact h.advanceLocked hp hs hl x r
    case quiet f t       => exact t ▸ fun hx ha => (h.active x r hx ha).of_frame f
    case pop ht          => exact fun hx ha => h.pop ho ht hx ha
    case wake ht         =>
      exact fun hx ha => (h.active x r hx ha).of_timer rfl rfl fun hw => mem_set_of_mem hw ht nofun
    case oversleep ht    =>
      exact fun hx ha => (h.active x r hx ha).of_timer rfl rfl fun hw => mem_eraseIdx_of_mem hw ht nofun
    case pay hl | provision hl | fail hl =>
      intro hx ha
      cases h.active x r hx ha
      case listed entry hf hn ht => exact .listed entry hf hn ht
      case waiting hw            => exact .waiting hw
      case scheduling hi         => simp [hl] at hi
      case expiring hi           => simp [hl] at hi
    case expire id ht hl =>
      intro hx ha
      by_cases he : x = id
      case pos => exact .expiring (he ▸ rfl)
      case neg =>
        cases h.active x r hx ha
        case listed entry hf hn ht => exact .listed entry hf hn ht
        case waiting hw            => exact .waiting (mem_eraseIdx_of_mem hw ht fun h => he (Timer.waiting.inj h).symm)
        case scheduling hi         => simp [hl] at hi
        case expiring hi           => simp [hl] at hi

theorem new : Scheduled (.new config now) where
  matching := fun l hl => by simp [State.new] at hl
  keyed    := {
    bids     := by simp [State.new]
    tracking := by simp [State.new]
    locked   := by simp [State.new]
    lives    := by simp [State.new]
  }
  active   := fun id r hr => by simp [State.new] at hr

end Scheduled

-- Entries for functions which are not active do not contribute, and all others do so once.
theorem utilisationVariations_eq (hk : ∀ id r, db.lookup id = some r → r.sla.id = id)
    (hd : ∀ e ∈ tasks, ∀ r, db.lookup e.sla = some r → r.Active → (e.timestamp r.sla).isSome = true) :
    ∃ events, utilisationVariations db tasks = some events ∧ ∀ id,
      (events.filter (·.sla.id = id)).map (fun event => (event.sla, event.node)) =
        (tasks.filter (·.sla = id)).filterMap fun e => (db.getFinishableSla e.sla).map (·, e.node) := by
  induction tasks
  case nil => exact ⟨[], rfl, fun _ => rfl⟩
  case cons e rest hi =>
    have ⟨events, he, hf⟩ := hi fun e hm => hd e (List.mem_cons_of_mem _ hm)
    cases hg : db.getFinishableSla e.sla
    case none =>
      refine ⟨events, by rw [utilisationVariations, hg, he], fun id => ?_⟩
      rw [hf, List.filter_cons]
      split <;> simp [hg]
    case some sla =>
      have ⟨r, hr, ha, hs⟩ := FunctionTracking.getFinishableSla_eq_some.mp hg
      have ⟨timestamp, ht⟩ := Option.isSome_iff_exists.mp (hd e List.mem_cons_self r hr ha)
      have hid : sla.id = e.sla := hs ▸ hk _ r hr
      refine ⟨{ timestamp := timestamp, sla := sla, node := e.node } :: events, ?_, fun id => ?_⟩
      · simp [utilisationVariations, hg, he, ← hs, ht]
      · rw [List.filter_cons, List.filter_cons]
        by_cases hx : e.sla = id <;> simp [hid, hx, hf]
        simp [← hx, hg]

-- Neither a payment nor the callback of an expired function is in progress.
def Locked.transient : Locked → Bool
  | .pay _             => true
  | .finish .timer _   => true
  | .finish .liveness _ => false
  | .provision _       => false

def Timer.transient : Timer → Bool
  | waiting _            => true
  | spawned .. | sleeping .. => false

def Quiescent (s : State) : Prop :=
  (∀ l ∈ s.locked, l.transient = false) ∧ ∀ t ∈ s.timers, t.transient = false

instance : Decidable (Quiescent s) :=
  inferInstanceAs (Decidable (_ ∧ _))

-- There is one event for every active function, for its SLA and its node, and there are no others.
def Utilised (s : State) : Prop :=
  ∃ events, utilisationVariations s.tracking s.tasks = some events ∧ ∀ id,
    (events.filter (·.sla.id = id)).map (fun event => (event.sla, event.node)) =
      ((s.tracking.lookup id).filter (·.Active)).toList.map fun r => (r.sla, r.node)

theorem Scheduled.listed (h : Scheduled s) (hq : Quiescent s) (hx : s.tracking.lookup x = some r) (ha : r.Active) :
    ∃ entry, s.tasks.filter (·.sla = x) = [entry] ∧ entry.node = r.node ∧ (entry.timestamp r.sla).isSome = true := by
  cases h.active x r hx ha
  case listed entry hf hn ht => exact ⟨entry, hf, hn, ht⟩
  case waiting hw            => exact absurd (hq.2 _ hw) nofun
  case scheduling hi         =>
    have ⟨l, hl, hi⟩ := Option.bind_eq_some_iff.mp hi
    have := hq.1 l hl
    cases l <;> contradiction
  case expiring hi           =>
    have ⟨l, hl, hi⟩ := Option.bind_eq_some_iff.mp hi
    have := hq.1 l hl
    cases l <;> try contradiction
    case finish caller p => cases caller <;> contradiction

theorem Scheduled.utilised (h : Scheduled s) (hq : Quiescent s) : Utilised s := by
  have hd : ∀ e ∈ s.tasks, ∀ r, s.tracking.lookup e.sla = some r → r.Active → (e.timestamp r.sla).isSome = true := by
    intro e he r hr ha
    obtain ⟨entry, hf, _, ht⟩ := h.listed hq hr ha
    have hm : e ∈ s.tasks.filter (·.sla = e.sla) := List.mem_filter.mpr ⟨he, by simp⟩
    rw [hf, List.mem_singleton] at hm
    exact hm ▸ ht
  obtain ⟨events, he, hf⟩ := utilisationVariations_eq h.keyed.tracking hd
  refine ⟨events, he, fun id => (hf id).trans ?_⟩
  have hg : (s.tasks.filter (·.sla = id)).filterMap (fun e => (s.tracking.getFinishableSla e.sla).map (·, e.node)) =
      (s.tasks.filter (·.sla = id)).filterMap fun e => (s.tracking.getFinishableSla id).map (·, e.node) := by
    refine List.filterMap_congr fun e hm => ?_
    rw [of_decide_eq_true (List.mem_filter.mp hm).2]
  rw [hg]
  cases hx : s.tracking.lookup id
  case none => simp [FunctionTracking.getFinishableSla, hx]
  case some r =>
    by_cases ha : r.Active
    case pos =>
      obtain ⟨entry, hf, hn, _⟩ := h.listed hq hx ha
      have hs := FunctionTracking.getFinishableSla_eq_some.mpr ⟨r, hx, ha, rfl⟩
      simp [hf, hs, hn, Option.filter, ha]
    case neg =>
      have hs : s.tracking.getFinishableSla id = none := by
        rw [Option.eq_none_iff_forall_not_mem]
        intro sla hs
        obtain ⟨r', hr', ha', _⟩ := FunctionTracking.getFinishableSla_eq_some.mp hs
        cases hx.symm.trans hr'
        exact ha ha'
      simp [hs, Option.filter, ha]

theorem utilised_of_ordered
    (r : Run (step config) (fun s a => Successful config s a ∧ Current s a ∧ Ordered s a ∧ Schedulable s a)
      (.new config now) as s) (hq : Quiescent s) : Utilised s :=
  have h : Scheduled s := r.invariant .new fun h ⟨hp, hc, ho, hs⟩ e => h.step hp hc ho hs e
  h.utilised hq

-- Two functions which expire in the order in which they have been paid, of which the first one has expired.
theorem utilised_of_first_expired :
    ∃ s, Run (step (wrappingConfig ["k8s"]))
        (fun s a => Successful (wrappingConfig ["k8s"]) s a ∧ Current s a ∧ Ordered s a ∧ Schedulable s a)
        (.new (wrappingConfig ["k8s"]) 0)
        (bidActs (exampleSla 7 1 1000 1) ++ payActs 7 ++ bidActs (exampleSla 8 1 10000 1) ++ payActs 8 ++
          expireActs 1000 ++ .replicate 6 (.locked true)) s ∧
      Utilised s :=
  have ⟨s, r, hq⟩ := Run.of_exec_any (P := Quiescent) (by decide +kernel)
  ⟨s, r, utilised_of_ordered r hq⟩

-- The function which has been paid last expires first, and takes the entry of the other one off the queue.
def overtakingActs : List Act :=
  bidActs (exampleSla 7 1 10000 1) ++ payActs 7 ++ bidActs (exampleSla 8 1 1000 1) ++ payActs 8 ++
    [.timer 0, .timer 1, .tick 1000, .timer 1, .timer 1] ++ .replicate 6 (.locked true)

theorem not_utilised_of_overtaking :
    ∃ s, Run (step (wrappingConfig ["k8s"])) (Successful (wrappingConfig ["k8s"])) (.new (wrappingConfig ["k8s"]) 0)
        overtakingActs s ∧
      Quiescent s ∧ ¬ Utilised s := by
  have ⟨s, r, hq, hu, ha⟩ : ∃ s,
      Run (step (wrappingConfig ["k8s"])) (Successful (wrappingConfig ["k8s"])) (.new (wrappingConfig ["k8s"]) 0)
        overtakingActs s ∧
      Quiescent s ∧ utilisationVariations s.tracking s.tasks = some [] ∧
      ((s.tracking.lookup ⟨7⟩).filter (·.Active)).toList ≠ [] := Run.of_exec_any (by decide +kernel)
  refine ⟨s, r, hq, fun ⟨events, he, hf⟩ => ha ?_⟩
  cases hu.symm.trans he
  exact List.map_eq_nil_iff.mp (hf ⟨7⟩).symm

end Fog
