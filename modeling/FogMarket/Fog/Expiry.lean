import FogMarket.Fog.LifeCycle
import FogMarket.Fog.Utilisation

open Transition

namespace Fog

def Timer.id : Timer → SlaId
  | spawned id _  => id
  | sleeping id _ => id
  | waiting id    => id

-- The function which has been paid, but whose timer has not been spawned yet.
def Locked.spawning : Locked → Option SlaId
  | .pay (.getPaid id _ _) => some id
  | .pay (.setUsed id ..)  => some id
  | .pay (.spawn id _)     => some id
  | .pay (.getProposed _) | .pay (.check ..) | .pay (.save ..) | .pay (.push _) | .provision _ | .finish .. => none

-- The function whose proposal is about to be accepted.
def Locked.accepting : Locked → Option SlaId
  | .pay (.check id _)  => some id
  | .pay (.save id _ _) => some id
  | .pay (.getProposed _) | .pay (.getPaid ..) | .pay (.setUsed ..) | .pay (.spawn ..) | .pay (.push _)
  | .provision _ | .finish .. => none

-- The function whose callback begins.
def State.expires (s : State) : Act → List SlaId
  | .timer i =>
    match s.timers[i]?, s.locked with
    | some (.waiting id), none => [id]
    | _, _                     => []
  | _ => []

-- An expiry which a timer can sleep until.
def Timed (sla : Sla) : Prop :=
  0 ≤ sla.duration ∧ ⌈sla.duration⌉ < 2 ^ 64

-- All requests are for non-negative amounts, and for durations which can be slept for.
def Wellformed (a : Act) : Prop :=
  ∀ sla, a = .bid sla → sla.Nonneg ∧ Timed sla

-- Payments are only accepted if what is booked for them has not wrapped around to something negative.
def Affordable (config : Config) (s : State) (a : Act) : Prop :=
  ∀ x ∈ s.admits config a, config.Affords x.1 x.2

-- The callback of an active function is pending, or it is about to be spawned, or it is in progress.
inductive Awaited (s : State) (id : SlaId) (r : States) : Prop
  | timer (t : Timer) (h : t ∈ s.timers) (ht : t.id = id)
  | spawning (h : s.locked.bind Locked.spawning = some id) (hp : r.phase = .paid)
  | expiring (h : s.locked.bind Locked.expiring = some id)

variable {config : Config} {s s' : State} {a : Act} {ok : Bool} {l : Locked} {id x : SlaId} {now : ℤ}
variable {as : List Act} {r r' : States} {i : ℕ} {timers : List Timer} {t t' : Timer} {es : List SlaId}

instance (sla : Sla) : Decidable (Timed sla) :=
  inferInstanceAs (Decidable (_ ∧ _))

instance : Decidable (Wellformed a) :=
  match a with
  | .bid sla => decidable_of_iff (sla.Nonneg ∧ Timed sla) ⟨fun h _ he => Act.bid.inj he ▸ h, fun h => h sla rfl⟩
  | .tick _ | .pay _ | .provision _ | .bidding _ | .locked _ | .liveness .. | .timer _ => .isTrue nofun

instance {proposal : Proposed} {used : Information × Ratio} : Decidable (config.Affords proposal used) :=
  inferInstanceAs (Decidable (0 ≤ booking config.rationals used proposal.sla))

instance : Decidable (Affordable config s a) :=
  inferInstanceAs (Decidable (∀ x ∈ s.admits config a, config.Affords x.1 x.2))

-- Requests for non-negative amounts are affordable as long as the bookings do not overflow.
theorem affordable_of_precise (h : Sound config s) (hp : Precise config s a) : Affordable config s a := by
  intro x hx
  have he := hp.admits x hx
  rw [Config.Affords, he]
  simp only [State.admits] at hx
  repeat' split at hx
  all_goals try contradiction
  case h_1.isTrue id proposal hl _ _ used available hu _ _ =>
    cases hx
    have hu := h.used_nonneg _ _ (ResourceTracking.getUsed_eq_some hu).2
    exact add_nonneg hu (h.nonneg.locked _ hl).booked

theorem sleepMillis_isSome {sla : Sla} (h : Timed sla) : (sleepMillis sla.duration).isSome = true := by
  have h₀ : 0 ≤ ⌈sla.duration⌉ := Int.ceil_nonneg h.1
  rw [sleepMillis, if_pos ⟨h₀, h.2⟩]
  rfl

theorem ids_set (h : timers[i]? = some t) (t' : Timer) (ht : t'.id = t.id) :
    (timers.set i t').map Timer.id = timers.map Timer.id := by
  have hid : (timers.map Timer.id)[i]? = some t.id := by rw [List.getElem?_map, h, Option.map_some]
  have ⟨_, hid⟩ := List.getElem?_eq_some_iff.mp hid
  rw [List.map_set, ht, ← hid, List.set_getElem_self]

namespace Awaited

-- Nothing but a timer is waiting for the function.
theorem of_timers (h : Awaited s id r) (hs : s.locked.bind Locked.spawning ≠ some id)
    (he : s.locked.bind Locked.expiring ≠ some id) (ht : s.timers.map Timer.id ⊆ s'.timers.map Timer.id) :
    Awaited s' id r' := by
  cases h
  case timer t hm hi =>
    have ⟨t', hm', hi'⟩ := List.mem_map.mp (ht (List.mem_map.mpr ⟨t, hm, rfl⟩))
    exact .timer t' hm' (hi'.trans hi)
  case spawning h _ => exact absurd h hs
  case expiring h   => exact absurd h he

-- A call under the lock which goes on.
theorem of_locked (h : Awaited s id r) (hl : s.locked = some l) (ht : s.timers = s'.timers)
    (hs : l.spawning = some id → s'.locked.bind Locked.spawning = some id)
    (he : l.expiring = some id → s'.locked.bind Locked.expiring = some id) : Awaited s' id r := by
  cases h
  case timer t hm hi => exact .timer t (ht ▸ hm) hi
  case spawning h hp => exact .spawning (hs (by rwa [hl] at h)) hp
  case expiring h    => exact .expiring (he (by rwa [hl] at h))

-- A call under the lock which no function is awaited from.
theorem of_quiet (h : Awaited s id r) (hl : s.locked = some l) (ht : s.timers = s'.timers) (hs : l.spawning = none)
    (he : l.expiring = none) : Awaited s' id r := by
  apply h.of_locked hl ht
  case hs => simp [hs]
  case he => simp [he]

-- A call outside the lock.
theorem of_ids (h : Awaited s id r) (hl : s'.locked = s.locked)
    (ht : s.timers.map Timer.id ⊆ s'.timers.map Timer.id) : Awaited s' id r := by
  cases h
  case spawning h hp => exact .spawning (hl ▸ h) hp
  case expiring h    => exact .expiring (hl ▸ h)
  case timer t hm hi =>
    have ⟨t', hm', hi'⟩ := List.mem_map.mp (ht (List.mem_map.mpr ⟨t, hm, rfl⟩))
    exact .timer t' hm' (hi'.trans hi)

theorem of_frame (h : Awaited s id r) (f : Frame s s') : Awaited s' id r :=
  h.of_ids f.locked (f.timers ▸ List.Subset.refl _)

end Awaited

-- Every active function is awaited, and every timer can sleep.
structure Attended (config : Config) (s : State) : Prop where
  sound   : Sound config s
  affords : Accepted config.Affords s
  timed   : Holds (fun _ sla => Timed sla) s
  sleeps  : ∀ id duration, .spawned id duration ∈ s.timers → (sleepMillis duration).isSome = true
  active  : ∀ id r, s.tracking.lookup id = some r → r.Active → Awaited s id r

namespace Attended

theorem getPaid {proposal : Proposed} {used : Information × Ratio} (h : Attended config s)
    (hl : s.locked = some (.pay (.getPaid id proposal used))) :
    (advancePay config s (.getPaid id proposal used)).tracking.lookup x = some r → r.Active →
      Awaited (advancePay config s (.getPaid id proposal used)) x r := by
  simp only [advancePay]
  split
  case h_2 => exact fun hx ha => (h.active x r hx ha).of_locked hl rfl (fun he => he) (by rintro ⟨⟩)
  case h_1 hn =>
    intro hx ha
    cases h.active x r hx ha
    case timer t hm hi => exact .timer t hm hi
    case expiring hi   => simp [hl, Locked.expiring] at hi
    case spawning hi hp =>
      simp only [hl, Option.bind_some, Locked.spawning, Option.some.injEq] at hi
      cases r <;> simp only [States.phase, reduceCtorEq] at hp
      cases (hi ▸ hn).symm.trans (FunctionTracking.getPaid_eq_some.mpr hx)

-- The timer of a function takes the place of its payment.
theorem spawn {paid : Paid} (h : Attended config s) (hl : s.locked = some (.pay (.spawn id paid)))
    (hx : s.tracking.lookup x = some r) (ha : r.Active) : Awaited (advancePay config s (.spawn id paid)) x r := by
  cases h.active x r hx ha
  case timer t hm hi => exact .timer t (List.mem_append_left _ hm) hi
  case expiring hi   => simp [hl, Locked.expiring] at hi
  case spawning hi _ =>
    simp only [hl, Option.bind_some, Locked.spawning, Option.some.injEq] at hi
    exact .timer (.spawned id paid.sla.duration) (List.mem_append_right _ (List.mem_singleton_self _)) hi

theorem advancePay {p : Paying} (h : Attended config s) (hl : s.locked = some (.pay p)) :
    (advancePay config s p).tracking.lookup x = some r → r.Active → Awaited (advancePay config s p) x r := by
  cases p
  case getPaid       => exact h.getPaid hl
  case spawn id paid => exact h.spawn hl
  case push          => exact fun hx ha => (h.active x r hx ha).of_quiet hl rfl rfl rfl
  case getProposed | check =>
    simp only [Fog.advancePay]
    repeat' split
    all_goals exact fun hx ha => (h.active x r hx ha).of_quiet hl rfl rfl rfl
  case save id proposal used =>
    intro hx ha
    rw [Fog.advancePay, State.enter, FunctionTracking.savePaid, FunctionTracking.lookup_save] at hx
    split at hx
    case isTrue he =>
      cases hx
      exact .spawning (he.1 ▸ rfl) rfl
    case isFalse => exact (h.active x r hx ha).of_quiet hl rfl rfl rfl
  case setUsed id proposal used paid =>
    obtain ⟨resources, hr⟩ := payable_of_affords h.sound.configured h.sound.reads h.affords id proposal used paid hl
    simp only [Fog.advancePay, hr]
    exact fun hx ha => (h.active x r hx ha).of_locked hl rfl (fun he => he) (by rintro ⟨⟩)

theorem advanceProvision {p : Provisioning} (h : Attended config s) (hl : s.locked = some (.provision p)) :
    (advanceProvision s ok p).tracking.lookup x = some r → r.Active → Awaited (advanceProvision s ok p) x r := by
  cases p
  case getPaid | backend =>
    simp only [Fog.advanceProvision]
    split <;> exact fun hx ha => (h.active x r hx ha).of_quiet hl rfl rfl rfl
  case save id provisioned =>
    intro hx ha
    rw [Fog.advanceProvision, State.release, FunctionTracking.saveProvisioned, FunctionTracking.lookup_save] at hx
    split at hx
    case isFalse => exact (h.active x r hx ha).of_quiet hl rfl rfl rfl
    case isTrue he =>
      obtain ⟨r', hr', hp⟩ := (Option.any_eq_true ..).mp he.2
      have ha' : r'.Active := by
        cases r' <;> simp only [States.phase, decide_eq_true_eq, reduceCtorEq] at hp
        trivial
      exact (h.active x r' (he.1 ▸ hr') ha').of_timers (by simp [hl, Locked.spawning])
        (by simp [hl, Locked.expiring]) (List.Subset.refl _)

theorem advanceFinish {caller : Caller} {p : Finishing} (h : Attended config s)
    (hl : s.locked = some (.finish caller p)) (hx : (advanceFinish config s ok caller p).tracking.lookup x = some r)
    (ha : r.Active) : Awaited (advanceFinish config s ok caller p) x r := by
  obtain ⟨_, htimers⟩ := queue_advanceFinish config s ok caller p
  obtain ⟨hx, he⟩ := expiring_advanceFinish caller p hx ha
  exact (h.active x r hx ha).of_locked hl htimers.symm (by rintro ⟨⟩) he

theorem advanceLocked (h : Attended config s) (hl : s.locked = some l) :
    (advanceLocked config s ok l).tracking.lookup x = some r → r.Active →
      Awaited (advanceLocked config s ok l) x r := by
  cases l
  case pay       => exact h.advancePay hl
  case provision => exact h.advanceProvision hl
  case finish    => exact h.advanceFinish hl

-- What expires has been paid.
theorem spawns (h : Attended config s) {duration : Time} (hs : duration ∈ s.spawns a) :
    (sleepMillis duration).isSome = true := by
  cases a <;> try contradiction
  case locked ok =>
    simp only [State.spawns] at hs
    split at hs <;> cases hs
    case h_1 hl => exact sleepMillis_isSome (h.timed.locked _ hl)

theorem step (h : Attended config s) (hw : Wellformed a) (hp : Affordable config s a)
    (e : Fog.step config s a = some s') : Attended config s' where
  sound   := sound_step h.sound (fun sla he => (hw sla he).1) e
  affords := accepted_step h.affords hp e
  timed   := h.timed.step (fun sla he => (hw sla he).2) e
  sleeps  := by
    intro id duration ht
    cases spawned_step e ht
    case inl ht => exact h.sleeps id duration ht
    case inr hs => exact h.spawns hs
  active  := by
    intro x r
    cases effect_of_step e
    case insert f t =>
      rw [t, FunctionTracking.lookup_insert]
      split
      case isFalse => exact fun hx ha => (h.active x r hx ha).of_frame f
      case isTrue =>
        intro hx ha
        cases hx
        exact absurd ha not_false
    case saveLive i id function giveUp hl f t =>
      rw [t, FunctionTracking.saveLive, FunctionTracking.lookup_save]
      split
      case isFalse => exact fun hx ha => (h.active x r hx ha).of_frame f
      case isTrue he =>
        intro _ _
        obtain ⟨r', hr', hp⟩ := (Option.any_eq_true ..).mp he.2
        cases r' <;> simp only [States.phase, decide_eq_true_eq, reduceCtorEq] at hp
        cases h.active x (.provisioned _) (he.1 ▸ hr') trivial
        case timer t hm hi => exact .timer t (f.timers ▸ hm) hi
        case spawning hp   => contradiction
        case expiring hi   => exact .expiring (f.locked ▸ hi)
    case advance ok l hl => exact h.advanceLocked hl
    case quiet f t       => exact t ▸ fun hx ha => (h.active x r hx ha).of_frame f
    case pay hl | provision hl =>
      exact fun hx ha => (h.active x r hx ha).of_timers (by simp [hl]) (by simp [hl]) (List.Subset.refl _)
    case fail hl =>
      exact fun hx ha => (h.active x r hx ha).of_timers (by simp [hl]) (by simp [hl]) (List.Subset.refl _)
    case wake id _ due ht =>
      exact fun hx ha => (h.active x r hx ha).of_ids rfl (ids_set ht (.sleeping id due) rfl ▸ List.Subset.refl _)
    case pop id _ ht =>
      exact fun hx ha => (h.active x r hx ha).of_ids rfl (ids_set ht (.waiting id) rfl ▸ List.Subset.refl _)
    case expire i id ht hl =>
      intro hx ha
      by_cases he : x = id
      case pos => exact .expiring (he ▸ rfl)
      case neg =>
        cases h.active x r hx ha
        case timer t hm hi =>
          exact .timer t (mem_eraseIdx_of_mem hm ht fun h => he (hi.symm.trans (congrArg Timer.id h.symm))) hi
        case spawning hi _ => simp [hl] at hi
        case expiring hi   => simp [hl] at hi
    case oversleep i id duration ht =>
      obtain ⟨millis, hs⟩ := Option.isSome_iff_exists.mp (h.sleeps id duration (List.mem_of_getElem? ht))
      simp only [Fog.step, ht, Option.bind_some, advanceTimer, hs, Option.some.injEq] at e
      have := congrArg State.panics e
      simp [State.panic] at this

theorem new : Attended config (.new config now) where
  sound   := sound_new
  affords := accepted_new
  timed   := {
    bids     := by simp [State.new]
    tracking := by simp [State.new]
    locked   := by simp [State.new]
    lives    := by simp [State.new]
  }
  sleeps  := by simp [State.new]
  active  := fun id r hr => by simp [State.new] at hr

theorem pending (h : Attended config s) (hl : s.locked = none) (hr : s.tracking.lookup id = some r) (ha : r.Active) :
    ∃ t ∈ s.timers, t.id = id := by
  cases h.active id r hr ha
  case timer t hm hi => exact ⟨t, hm, hi⟩
  case spawning hi _ => simp [hl] at hi
  case expiring hi   => simp [hl] at hi

end Attended

-- The function has been paid.
def Taken (s : State) (id : SlaId) : Prop :=
  ∃ r, s.tracking.lookup id = some r ∧ r.phase ≠ .proposed

-- A function has at most one timer, which is spawned when it is paid, and which is gone once the callback has
-- begun. The ids are those of the functions whose callback has.
structure Once (es : List SlaId) (s : State) : Prop where
  finishable : Finishable s
  accepting  : ∀ id, s.locked.bind Locked.accepting = some id → ∃ p, s.tracking.lookup id = some (.proposed p)
  spawning   : ∀ id, s.locked.bind Locked.spawning = some id → Taken s id ∧ id ∉ es ∧ id ∉ s.timers.map Timer.id
  timers     : ∀ id ∈ s.timers.map Timer.id, Taken s id
  distinct   : (s.timers.map Timer.id).Nodup
  begun      : ∀ id ∈ es, Taken s id ∧ id ∉ s.timers.map Timer.id

namespace Once

theorem taken_of_forward (h : Taken s id) (hf : Forward (s.tracking.lookup id) (s'.tracking.lookup id)) :
    Taken s' id := by
  have ⟨r, hr, hp⟩ := h
  rw [hr] at hf
  generalize hx : s'.tracking.lookup id = x at hf
  cases hf
  case same          => exact ⟨r, hx, hp⟩
  case replace | pay => exact absurd rfl hp
  case provision | live | finish => exact ⟨_, hx, by simp [States.phase]⟩

-- A step which neither spawns a timer nor begins a callback.
theorem of_timers (h : Once es s) (hf : Finishable s' ∧ ∀ id, Forward (s.tracking.lookup id) (s'.tracking.lookup id))
    (ht : (s'.timers.map Timer.id).Sublist (s.timers.map Timer.id))
    (ha : ∀ id, s'.locked.bind Locked.accepting = some id → ∃ p, s'.tracking.lookup id = some (.proposed p))
    (hs : ∀ id, s'.locked.bind Locked.spawning = some id → s.locked.bind Locked.spawning = some id) :
    Once es s' where
  finishable := hf.1
  accepting  := ha
  spawning   := fun id hl => by
    have ⟨htaken, he, hm⟩ := h.spawning id (hs id hl)
    exact ⟨taken_of_forward htaken (hf.2 id), he, fun hm' => hm (ht.subset hm')⟩
  timers     := fun id hm => taken_of_forward (h.timers id (ht.subset hm)) (hf.2 id)
  distinct   := h.distinct.sublist ht
  begun      := fun id he =>
    ⟨taken_of_forward (h.begun id he).1 (hf.2 id), fun hm => (h.begun id he).2 (ht.subset hm)⟩

-- A step after which nothing is accepted and no timer is spawned.
theorem of_idle (h : Once es s) (hf : Finishable s' ∧ ∀ id, Forward (s.tracking.lookup id) (s'.tracking.lookup id))
    (ht : (s'.timers.map Timer.id).Sublist (s.timers.map Timer.id)) (ha : s'.locked.bind Locked.accepting = none)
    (hs : s'.locked.bind Locked.spawning = none) : Once es s' := by
  apply h.of_timers hf ht
  case ha => simp [ha]
  case hs => simp [hs]

theorem of_frame (h : Once es s) (f : Frame s s')
    (hf : Finishable s' ∧ ∀ id, Forward (s.tracking.lookup id) (s'.tracking.lookup id))
    (hp : ∀ id p, s.tracking.lookup id = some (.proposed p) → ∃ p, s'.tracking.lookup id = some (.proposed p)) :
    Once es s' := by
  refine h.of_timers hf (f.timers ▸ .refl _) (fun id hl => ?_) (fun id hl => f.locked ▸ hl)
  have ⟨p, hl⟩ := h.accepting id (f.locked ▸ hl)
  exact hp id p hl

theorem not_taken {p : Proposed} (hl : s.tracking.lookup id = some (.proposed p)) : ¬ Taken s id := by
  intro ⟨r, hr, hp⟩
  cases hl.symm.trans hr
  exact hp rfl

-- The function whose payment is recorded has neither been paid before, nor has it a timer.
theorem save {proposal : Proposed} {used : Information × Ratio} (h : Once es s)
    (hl : s.locked = some (.pay (.save id proposal used)))
    (hf : Finishable (advancePay config s (.save id proposal used)) ∧
      ∀ x, Forward (s.tracking.lookup x) ((advancePay config s (.save id proposal used)).tracking.lookup x)) :
    Once es (advancePay config s (.save id proposal used)) := by
  obtain ⟨p, hp⟩ := h.accepting id (by simp [hl, Locked.accepting])
  have hp' : (s.tracking.savePaid id proposal.toPaid).lookup id = some (.paid proposal.toPaid) := by
    rw [FunctionTracking.lookup_savePaid hp, if_pos rfl]
  constructor
  case finishable => exact hf.1
  case accepting  => rintro _ ⟨⟩
  case timers     => exact fun x hm => taken_of_forward (h.timers x hm) (hf.2 x)
  case distinct   => exact h.distinct
  case begun      => exact fun x he => ⟨taken_of_forward (h.begun x he).1 (hf.2 x), (h.begun x he).2⟩
  case spawning   =>
    intro x hx
    cases hx
    exact ⟨⟨_, hp', by simp [States.phase]⟩, fun he => not_taken hp (h.begun id he).1,
      fun hm => not_taken hp (h.timers id hm)⟩

theorem spawn {paid : Paid} (h : Once es s) (hl : s.locked = some (.pay (.spawn id paid)))
    (hf : Finishable (advancePay config s (.spawn id paid)) ∧
      ∀ x, Forward (s.tracking.lookup x) ((advancePay config s (.spawn id paid)).tracking.lookup x)) :
    Once es (advancePay config s (.spawn id paid)) := by
  obtain ⟨htaken, he, hm⟩ := h.spawning id (by simp [hl, Locked.spawning])
  have hids : (advancePay config s (.spawn id paid)).timers.map Timer.id = s.timers.map Timer.id ++ [id] :=
    List.map_append
  constructor
  case finishable => exact hf.1
  case accepting  => rintro _ ⟨⟩
  case spawning   => rintro _ ⟨⟩
  case timers     =>
    intro x hx
    rw [hids] at hx
    cases List.mem_append.mp hx
    case inl hx => exact h.timers x hx
    case inr hx => exact List.mem_singleton.mp hx ▸ htaken
  case distinct   =>
    rw [hids]
    exact List.nodup_append.mpr ⟨h.distinct, List.nodup_singleton _, fun x hx y hy hxy =>
      hm (List.mem_singleton.mp hy ▸ hxy ▸ hx)⟩
  case begun      =>
    intro x hx
    obtain ⟨ht, hn⟩ := h.begun x hx
    rw [hids]
    refine ⟨ht, fun hm => ?_⟩
    cases List.mem_append.mp hm
    case inl hm => exact hn hm
    case inr hm => exact he (List.mem_singleton.mp hm ▸ hx)

theorem advancePay {p : Paying} (h : Once es s) (hl : s.locked = some (.pay p)) :
    (Finishable (advancePay config s p) ∧
      ∀ id, Forward (s.tracking.lookup id) ((advancePay config s p).tracking.lookup id)) →
    Once es (advancePay config s p) := by
  cases p
  case save  => exact h.save hl
  case spawn => exact h.spawn hl
  case push  => exact fun hf => h.of_idle hf (.refl _) rfl rfl
  case getProposed id =>
    simp only [Fog.advancePay]
    split
    case h_1    => exact fun hf => h.of_idle hf (.refl _) rfl rfl
    case h_2 hg =>
      refine fun hf => h.of_timers hf (.refl _) (fun x hx => ?_) (by rintro _ ⟨⟩)
      cases hx
      exact ⟨_, FunctionTracking.getProposed_eq_some.mp hg⟩
  case check id proposal =>
    simp only [Fog.advancePay]
    repeat' split
    case h_1.isTrue =>
      refine fun hf => h.of_timers hf (.refl _) (fun x hx => ?_) (by rintro _ ⟨⟩)
      cases hx
      exact h.accepting id (by simp [hl, Locked.accepting])
    all_goals exact fun hf => h.of_idle hf (.refl _) rfl rfl
  case getPaid | setUsed =>
    simp only [Fog.advancePay]
    split
    all_goals first
      | exact fun hf => h.of_idle hf (.refl _) rfl rfl
      | exact fun hf => h.of_timers hf (.refl _) (by rintro _ ⟨⟩) fun x hx => by rw [hl]; exact hx

theorem advanceLocked (h : Once es s) (hl : s.locked = some l) :
    (Finishable (advanceLocked config s ok l) ∧
      ∀ id, Forward (s.tracking.lookup id) ((advanceLocked config s ok l).tracking.lookup id)) →
    Once es (advanceLocked config s ok l) := by
  cases l
  case pay => exact h.advancePay hl
  case provision p =>
    cases p <;> simp only [Fog.advanceLocked, advanceProvision] <;> (repeat' split) <;>
      exact fun hf => h.of_idle hf (.refl _) rfl rfl
  case finish caller p =>
    cases p <;> simp only [Fog.advanceLocked, advanceFinish] <;> (repeat' split) <;>
      exact fun hf => h.of_idle hf (.refl _) rfl rfl

theorem expires_of_frame (f : Frame s s') (e : Fog.step config s a = some s') : s.expires a = [] := by
  cases a <;> try rfl
  case timer i =>
    simp only [State.expires]
    split <;> try rfl
    case h_1 id ht hl =>
      -- The callback takes the lock.
      simp only [Fog.step, ht, Option.bind_some, advanceTimer, hl, Option.some.injEq] at e
      have := e ▸ f.locked
      simp [State.enter, hl] at this

theorem step (h : Once es s) (hg : Guarded s a) (e : Fog.step config s a = some s') :
    Once (es ++ s.expires a) s' := by
  have hf := step_forward h.finishable hg e
  have hquiet (hn : s.expires a = []) (h' : Once es s') : Once (es ++ s.expires a) s' := by
    rwa [hn, List.append_nil]
  cases effect_of_step e
  case insert f t =>
    refine hquiet rfl (h.of_frame f hf fun x p hp => ?_)
    rw [t, FunctionTracking.lookup_insert]
    split
    case isTrue  => exact ⟨_, rfl⟩
    case isFalse => exact ⟨p, hp⟩
  case saveLive i id function giveUp hl f t =>
    refine hquiet rfl (h.of_frame f hf fun x p hp => ⟨p, ?_⟩)
    rw [t, FunctionTracking.saveLive, FunctionTracking.lookup_save, if_neg, hp]
    rintro ⟨hx, ha⟩
    rw [← hx, hp] at ha
    simp [States.phase] at ha
  case advance hl => exact hquiet rfl (h.advanceLocked hl hf)
  case quiet f t =>
    exact hquiet (expires_of_frame f e) (h.of_frame f hf fun x p hp => ⟨p, t ▸ hp⟩)
  case pay | provision => exact hquiet rfl (h.of_idle hf (.refl _) rfl rfl)
  case fail => exact hquiet rfl (h.of_idle hf (.refl _) rfl rfl)
  case wake id _ due ht =>
    refine hquiet (by simp [State.expires, ht]) (h.of_timers hf ?_ h.accepting fun _ hx => hx)
    exact ids_set ht (.sleeping id due) rfl ▸ .refl _
  case pop id _ ht =>
    refine hquiet (by simp [State.expires, ht]) (h.of_timers hf ?_ h.accepting fun _ hx => hx)
    exact ids_set ht (.waiting id) rfl ▸ .refl _
  case oversleep ht =>
    refine hquiet (by simp [State.expires, ht]) (h.of_timers hf ?_ h.accepting fun _ hx => hx)
    exact (List.eraseIdx_sublist ..).map _
  case expire i id ht hl =>
    have ho := h.of_idle hf ((List.eraseIdx_sublist ..).map _) rfl rfl
    have hn : id ∉ (s.timers.eraseIdx i).map Timer.id := by
      obtain ⟨hi, hg⟩ := List.getElem?_eq_some_iff.mp ht
      have hp := (List.getElem_cons_eraseIdx_perm hi).map Timer.id
      rw [hg, List.map_cons] at hp
      exact (List.nodup_cons.mp (hp.nodup_iff.mpr h.distinct)).1
    have he : s.expires (.timer i) = [id] := by simp [State.expires, ht, hl]
    rw [he]
    exact { ho with
      spawning := by rintro _ ⟨⟩
      begun    := fun x hx => by
        cases List.mem_append.mp hx
        case inl hx => exact ho.begun x hx
        case inr hx =>
          rw [List.mem_singleton.mp hx]
          exact ⟨taken_of_forward (h.timers id (List.mem_map.mpr ⟨_, List.mem_of_getElem? ht, rfl⟩)) (hf.2 id), hn⟩ }

theorem new : Once [] (.new config now) where
  finishable := fun _ _ _ hl => by simp [State.new] at hl
  accepting  := by simp [State.new]
  spawning   := by simp [State.new]
  timers     := by simp [State.new]
  distinct   := by simp [State.new]
  begun      := by simp

-- A function whose callback has begun is finished, unless the callback is still about to do so.
theorem finished (h : Once es s) (ha : Attended config s) (he : id ∈ es) :
    s.locked.bind Locked.expiring = some id ∨ ∃ f, s.tracking.lookup id = some (.finished f) := by
  have ⟨⟨r, hr, hp⟩, hn⟩ := h.begun id he
  by_cases hact : r.Active
  case pos =>
    cases ha.active id r hr hact
    case timer t hm hi   => exact absurd (List.mem_map.mpr ⟨t, hm, hi⟩) hn
    case spawning hi _   => exact absurd he (h.spawning id hi).2.1
    case expiring hi     => exact .inl hi
  case neg =>
    cases r
    case proposed   => exact absurd rfl hp
    case finished f => exact .inr ⟨f, hr⟩
    all_goals exact absurd trivial hact

end Once

end Fog
