import FogMarket.Fog.Steps

open Transition

namespace Fog

-- The name of a function whose deployment or removal is in progress.
def Locked.removing : Locked → Option String
  | .finish _ (.remove _ name) => some name
  | .finish _ (.getRemovable _) | .finish _ (.getFinishable _) | .finish _ (.save ..) | .finish _ (.getFinished _)
  | .finish _ (.getUsed ..) | .finish _ (.setUsed ..) | .pay _ | .provision _ => none

def Locked.deploying : Locked → Option SlaId
  | .provision (.save id _) => some id
  | .provision (.getPaid _) | .provision (.backend ..) | .pay _ | .finish .. => none

-- The function whose record is going to be finished next.
def Locked.finishing : Locked → Option SlaId
  | .finish _ (.getFinishable id) => some id
  | .finish _ (.save id _)        => some id
  | .finish _ (.getRemovable _) | .finish _ (.remove ..) | .finish _ (.getFinished _) | .finish _ (.getUsed ..)
  | .finish _ (.setUsed ..) | .pay _ | .provision _ => none

namespace State

-- The function which the backend is asked to remove, and whether it does.
def removes (s : State) : Act → Option (String × Bool)
  | .locked ok => (s.locked.bind Locked.removing).map (·, ok)
  | _          => none

-- The function which the backend deploys.
def deploys (s : State) : Act → Option SlaId
  | .locked true =>
    match s.locked with
    | some (.provision (.backend id _)) => some id
    | _                                 => none
  | _ => none

end State

-- The backend does not fail to remove a function which is deployed.
def Removes (s : State) (a : Act) : Prop :=
  ∀ x ∈ s.removes a, x.1 ∈ s.deployed → x.2 = true

-- A function is still paid for when the backend deploys it.
def Deploys (s : State) (a : Act) : Prop :=
  ∀ id ∈ s.deploys a, (s.tracking.getPaid id).isSome = true

-- No bid is inserted for a function which is deployed, except while it is removed.
def Undeployed (s : State) (a : Act) : Prop :=
  ∀ sla ∈ s.inserts a, functionName sla.id ∈ s.deployed →
    s.locked.bind Locked.removing = some (functionName sla.id)

-- Every function on the backend has a record through which it can be removed.
def Removable (s : State) : Prop :=
  ∀ name ∈ s.deployed, ∃ id, functionName id = name ∧ s.tracking.getRemovable id = some name

instance {s : State} {a : Act} : Decidable (Removes s a) :=
  inferInstanceAs (Decidable (∀ x ∈ s.removes a, x.1 ∈ s.deployed → x.2 = true))

instance {s : State} {a : Act} : Decidable (Deploys s a) :=
  inferInstanceAs (Decidable (∀ id ∈ s.deploys a, (s.tracking.getPaid id).isSome = true))

instance {s : State} {a : Act} : Decidable (Undeployed s a) :=
  inferInstanceAs (Decidable (∀ sla ∈ s.inserts a, functionName sla.id ∈ s.deployed →
    s.locked.bind Locked.removing = some (functionName sla.id)))

-- A function is recorded and removed under the name under which it is deployed.
def Locked.Named : Locked → Prop
  | .provision (.save id provisioned) => provisioned.functionName = functionName id
  | .finish _ (.remove id name)       => name = functionName id
  | .provision (.getPaid _) | .provision (.backend ..) | .finish _ (.getRemovable _) | .finish _ (.getFinishable _)
  | .finish _ (.save ..) | .finish _ (.getFinished _) | .finish _ (.getUsed ..) | .finish _ (.setUsed ..)
  | .pay _ => True

structure Named (s : State) : Prop where
  tracking : ∀ id name, s.tracking.getRemovable id = some name → name = functionName id
  locked   : ∀ l, s.locked = some l → l.Named
  lives    : ∀ id function, .checking id function ∈ s.lives → function.functionName = functionName id

variable {config : Config} {s s' : State} {a : Act} {ok : Bool} {l : Locked} {id x : SlaId} {now : ℤ}
variable {as : List Act} {name : String} {db : FunctionTracking} {r : States} {allowed : Phase → Bool} {i : ℕ}
variable {b : Bidding}

-- The backend is only called under the lock.
theorem deployed_step (h : ∀ ok, a ≠ .locked ok) (e : step config s a = some s') : s'.deployed = s.deployed := by
  cases a <;> simp only [step] at e
  case tick | bid => cases e; rfl
  case pay | provision =>
    split at e <;> cases e
    rfl
  case bidding i =>
    obtain ⟨b, _, e⟩ := Option.map_eq_some_iff.mp e
    exact e ▸ rest_advanceBid.2.2
  case locked ok => exact absurd rfl (h ok)
  case liveness i ok giveUp =>
    obtain ⟨l, _, e⟩ := Option.bind_eq_some_iff.mp e
    cases l <;> simp only [advanceLiveness] at e <;> (repeat' split at e) <;> cases e <;> rfl
  case timer i =>
    obtain ⟨t, _, e⟩ := Option.bind_eq_some_iff.mp e
    cases t <;> simp only [advanceTimer] at e <;> (repeat' split at e) <;> cases e <;> rfl

-- The name under which a function can be removed from the backend.
def removableName : States → Option String
  | .live record        => some record.functionName
  | .provisioned record => some record.functionName
  | .proposed _ | .paid _ | .finished _ => none

namespace FunctionTracking

theorem getRemovable_eq : db.getRemovable id = (db.lookup id).bind removableName := by
  rw [getRemovable]
  congr 1
  funext r
  cases r <;> rfl

theorem getRemovable_of_lookup_eq {db' : FunctionTracking} (h : db'.lookup id = db.lookup id) :
    db'.getRemovable id = db.getRemovable id := by
  rw [getRemovable, h, getRemovable]

theorem getRemovable_save (record : States) :
    getRemovable (save db id allowed record) x =
      if x = id ∧ (db.lookup id).any (allowed ·.phase) then removableName record else db.getRemovable x := by
  rw [getRemovable_eq, lookup_save, getRemovable_eq]
  split <;> rfl

-- Only provisioned and live functions can be removed.
theorem phase_of_getRemovable (h : db.getRemovable id = some name) (hr : db.lookup id = some r) :
    r.phase = .provisioned ∨ r.phase = .live := by
  rw [getRemovable, hr] at h
  cases r <;> simp_all [States.phase]

theorem getRemovable_save_of_phase (h : db.getRemovable x = some name)
    (ha : ∀ p, allowed p → p ≠ .provisioned ∧ p ≠ .live) (record : States) :
    getRemovable (save db id allowed record) x = some name := by
  rw [getRemovable_of_lookup_eq, h]
  rw [lookup_save, if_neg]
  intro ⟨hx, hp⟩
  have ⟨r, hr, hp⟩ := (Option.any_eq_true ..).mp hp
  have ⟨hp', hl⟩ := ha _ hp
  cases phase_of_getRemovable h (hx ▸ hr)
  case inl he => exact hp' he
  case inr he => exact hl he

end FunctionTracking

namespace Named

theorem save (h : ∀ x name, db.getRemovable x = some name → name = functionName x)
    (hr : ∀ name, removableName r = some name → name = functionName id)
    (hn : FunctionTracking.getRemovable (db.save id allowed r) x = some name) : name = functionName x := by
  rw [FunctionTracking.getRemovable_save] at hn
  split at hn
  case isTrue hx => exact hx.1 ▸ hr name hn
  case isFalse   => exact h x name hn

theorem advanceLocked (h : Named s) (hl : s.locked = some l) :
    ∀ x name, (advanceLocked config s ok l).tracking.getRemovable x = some name → name = functionName x := by
  intro x name
  match l with
  | .pay (.save id proposal used)        =>
    exact save h.tracking nofun
  | .provision (.save id provisioned)    =>
    exact save h.tracking fun name hn => Option.some.inj hn ▸ h.locked _ hl
  | .finish caller (.save id record)     =>
    exact save h.tracking nofun
  | .pay (.getProposed _) | .pay (.check ..) | .pay (.getPaid ..) | .pay (.setUsed ..) | .pay (.spawn ..)
  | .pay (.push _) =>
    simp only [Fog.advanceLocked, advancePay]
    repeat' split
    all_goals exact h.tracking x name
  | .provision (.getPaid _) | .provision (.backend ..) =>
    simp only [Fog.advanceLocked, advanceProvision]
    split <;> exact h.tracking x name
  | .finish _ (.getRemovable _) | .finish _ (.remove ..) | .finish _ (.getFinishable _)
  | .finish _ (.getFinished _) | .finish _ (.getUsed ..) | .finish _ (.setUsed ..) =>
    simp only [Fog.advanceLocked, advanceFinish]
    repeat' split
    all_goals exact h.tracking x name

theorem enter (h : l.Named) : ∀ l', (s.enter l).locked = some l' → l'.Named :=
  fun _ he => Option.some.inj he ▸ h

theorem release : ∀ l', s.release.locked = some l' → l'.Named :=
  fun _ he => by simp [State.release] at he

theorem locked_advanceLocked (h : Named s) : ∀ l', (Fog.advanceLocked config s ok l).locked = some l' → l'.Named := by
  match l with
  | .finish caller (.getRemovable id) =>
    simp only [Fog.advanceLocked, advanceFinish]
    split
    case h_1    => exact enter trivial
    case h_2 hg => exact enter (h.tracking id _ hg)
  | .provision (.backend id paid) =>
    simp only [Fog.advanceLocked, advanceProvision]
    split
    case isFalse => exact release
    case isTrue  => exact enter rfl
  | .provision (.getPaid _) | .provision (.save ..) =>
    simp only [Fog.advanceLocked, advanceProvision]
    repeat' split
    all_goals first | exact release | exact enter trivial
  | .pay p =>
    cases p <;> simp only [Fog.advanceLocked, advancePay] <;> (repeat' split) <;>
      first | exact release (s := s) | exact enter trivial
  | .finish _ (.remove ..) | .finish _ (.getFinishable _) | .finish _ (.save ..) | .finish _ (.getFinished _)
  | .finish _ (.getUsed ..) | .finish _ (.setUsed ..) =>
    simp only [Fog.advanceLocked, advanceFinish]
    repeat' split
    all_goals first | exact release (s := s) | exact enter trivial

theorem step (h : Named s) (e : Fog.step config s a = some s') : Named s' where
  tracking := by
    intro x name
    cases effect_of_step e
    case insert f t =>
      intro hn
      rw [t, FunctionTracking.getRemovable, FunctionTracking.lookup_insert] at hn
      split at hn
      case isTrue  => simp at hn
      case isFalse => exact h.tracking x name hn
    case saveLive i id function giveUp hl f t =>
      rw [t]
      exact save h.tracking fun name hn => Option.some.inj hn ▸ h.lives id function (List.mem_of_getElem? hl)
    case advance hl => exact h.advanceLocked hl x name
    case quiet t    => exact t ▸ h.tracking x name
    case pay | provision | fail | expire | wake | oversleep | pop => exact h.tracking x name
  locked   := by
    cases effect_of_step e
    case insert f _ | saveLive f _ => exact f.locked ▸ h.locked
    case quiet f _                 => exact f.locked ▸ h.locked
    case advance                   => exact h.locked_advanceLocked
    case pay | provision | fail | expire => exact enter trivial
    case wake | oversleep | pop    => exact h.locked
  lives    := by
    intro id function hm
    cases checking_step e hm
    case inl hm => exact h.lives id function hm
    case inr hg =>
      refine h.tracking id _ ?_
      rw [FunctionTracking.getRemovable, FunctionTracking.getProvisioned_eq_some.mp hg]
      rfl

end Named

-- Every deployed function can be removed, or is being removed or deployed. No other function is about to be
-- finished.
structure Kept (s : State) : Prop where
  named     : Named s
  deploying : ∀ id, s.locked.bind Locked.deploying = some id →
    functionName id ∈ s.deployed ∧ ∃ paid, s.tracking.lookup id = some (.paid paid)
  removable : ∀ name ∈ s.deployed,
    s.locked.bind Locked.removing = some name ∨ (s.locked.bind Locked.deploying).map functionName = some name ∨
      ∃ id, functionName id = name ∧ s.tracking.getRemovable id = some name ∧ s.locked.bind Locked.finishing ≠ some id

theorem removing_of_deploying (h : s.locked.bind Locked.deploying = some id) :
    s.locked.bind Locked.removing = none := by
  have ⟨l, hl, hd⟩ := Option.bind_eq_some_iff.mp h
  rw [hl, Option.bind_some]
  cases l
  case pay p       => cases p <;> contradiction
  case provision p => cases p <;> first | contradiction | rfl
  case finish p    => cases p <;> contradiction

namespace Kept

-- As long as no function is removed or deployed, each one which is deployed has a record.
theorem recorded (h : Kept s) (hr : s.locked.bind Locked.removing = none)
    (hdep : s.locked.bind Locked.deploying = none) (hm : name ∈ s.deployed) :
    ∃ id, functionName id = name ∧ s.tracking.getRemovable id = some name ∧
      s.locked.bind Locked.finishing ≠ some id := by
  cases h.removable name hm
  case inl he => simp [hr] at he
  case inr he => exact he.resolve_left (by simp [hdep])

-- A call which neither calls the backend nor writes a record.
theorem stay (h : Kept s) (hn : Named s') (ht : s'.tracking = s.tracking) (hd : s'.deployed = s.deployed)
    (hr : s.locked.bind Locked.removing = none) (hdep : s.locked.bind Locked.deploying = none)
    (hdep' : s'.locked.bind Locked.deploying = none)
    (hf : ∀ id name, s.tracking.getRemovable id = some name → s.locked.bind Locked.finishing ≠ some id →
      s'.locked.bind Locked.finishing ≠ some id) : Kept s' where
  named     := hn
  deploying := fun id he => by simp [hdep'] at he
  removable := fun name hm =>
    have ⟨id, hi, hg, hne⟩ := h.recorded hr hdep (hd ▸ hm)
    .inr <| .inr ⟨id, hi, ht ▸ hg, hf id name hg hne⟩

-- Nor is it about to finish a function.
theorem stay_of_idle (h : Kept s) (hn : Named s') (ht : s'.tracking = s.tracking) (hd : s'.deployed = s.deployed)
    (hr : s.locked.bind Locked.removing = none) (hdep : s.locked.bind Locked.deploying = none)
    (hdep' : s'.locked.bind Locked.deploying = none) (hf : s'.locked.bind Locked.finishing = none) : Kept s' := by
  apply h.stay hn ht hd hr hdep hdep'
  intro id name hg hne he
  rw [hf] at he
  contradiction

-- A record is written which cannot be removed, and which could not be removed before.
theorem save (h : Kept s) (hn : Named s') {record : States} (ht : s'.tracking = s.tracking.save id allowed record)
    (hd : s'.deployed = s.deployed) (hr : s.locked.bind Locked.removing = none)
    (hdep : s.locked.bind Locked.deploying = none) (hdep' : s'.locked.bind Locked.deploying = none)
    (hf' : s'.locked.bind Locked.finishing = none)
    (hs : s.locked.bind Locked.finishing = some id ∨ ∀ p, allowed p → p ≠ .provisioned ∧ p ≠ .live) : Kept s' where
  named     := hn
  deploying := fun id he => by simp [hdep'] at he
  removable := fun name hm => by
    have ⟨x, hi, hg, hne⟩ := h.recorded hr hdep (hd ▸ hm)
    refine .inr <| .inr ⟨x, hi, ?_, by simp [hf']⟩
    rw [ht]
    cases hs
    case inl hs =>
      rw [FunctionTracking.getRemovable_save, if_neg, hg]
      exact fun hx => hne (hx.1 ▸ hs)
    case inr ha => exact FunctionTracking.getRemovable_save_of_phase hg ha record

-- The backend has deployed a function. Its record is still to be written.
theorem deploy {paid : Paid} {provisioned : Provisioned} (h : Kept s) (hn : Named s')
    (hl : s.locked = some (.provision (.backend id paid))) (hp : (s.tracking.getPaid id).isSome = true)
    (hl' : s'.locked = some (.provision (.save id provisioned))) (ht : s'.tracking = s.tracking)
    (hd : s'.deployed = insert (functionName id) s.deployed) : Kept s' where
  named     := hn
  deploying := fun x hx => by
    rw [hl'] at hx
    cases hx
    have ⟨q, hq⟩ := Option.isSome_iff_exists.mp hp
    exact ⟨hd ▸ Finset.mem_insert_self .., q, ht ▸ FunctionTracking.getPaid_eq_some.mp hq⟩
  removable := fun name hm => by
    rw [hd] at hm
    cases Finset.mem_insert.mp hm
    case inl he => exact .inr <| .inl (by rw [hl', he]; rfl)
    case inr hm =>
      have ⟨x, hi, hg, _⟩ := h.recorded (by rw [hl]; rfl) (by rw [hl]; rfl) hm
      exact .inr <| .inr ⟨x, hi, ht ▸ hg, by rw [hl']; nofun⟩

-- The record of the function which has been deployed is written.
theorem provisioned {provisioned : Provisioned} (h : Kept s) (hn : Named s')
    (hl : s.locked = some (.provision (.save id provisioned))) (hl' : s'.locked = none)
    (ht : s'.tracking = s.tracking.saveProvisioned id provisioned) (hd : s'.deployed = s.deployed) : Kept s' where
  named     := hn
  deploying := by simp [hl']
  removable := fun name hm => by
    obtain ⟨_, q, hq⟩ := h.deploying id (by rw [hl]; rfl)
    have hg {x} : s'.tracking.getRemovable x =
        if x = id then some (functionName id) else s.tracking.getRemovable x := by
      rw [ht, FunctionTracking.saveProvisioned, FunctionTracking.getRemovable_save, ← h.named.locked _ hl]
      by_cases hx : x = id <;> simp [hx, hq, States.phase, removableName]
    have hx : ∃ x, functionName x = name ∧ (x = id ∨ s.tracking.getRemovable x = some name) := by
      cases h.removable name (hd ▸ hm)
      case inl he => simp [hl, Locked.removing] at he
      case inr he =>
        cases he
        case inl he => exact ⟨id, by simpa [hl, Locked.deploying] using he, .inl rfl⟩
        case inr he =>
          obtain ⟨x, hi, hx, _⟩ := he
          exact ⟨x, hi, .inr hx⟩
    obtain ⟨x, hi, hx⟩ := hx
    refine .inr <| .inr ⟨x, hi, ?_, by simp [hl']⟩
    rw [hg]
    split
    case isTrue he  => rw [← he, hi]
    case isFalse he => exact hx.resolve_left he

-- The backend has been called to remove a function, which is not deployed anymore.
theorem remove {caller : Caller} (h : Kept s) (hn : Named s')
    (hl : s.locked = some (.finish caller (.remove id name)))
    (hl' : s'.locked = some (.finish caller (.getFinishable id))) (ht : s'.tracking = s.tracking)
    (hd : ∀ x ∈ s'.deployed, x ∈ s.deployed ∧ x ≠ name) : Kept s' where
  named     := hn
  deploying := by simp [hl', Locked.deploying]
  removable := fun x hx => by
    have ⟨hm, hx⟩ := hd x hx
    cases h.removable x hm
    case inl he =>
      simp only [hl, Option.bind_some, Locked.removing, Option.some.injEq] at he
      exact absurd he.symm hx
    case inr he =>
      have ⟨y, hi, hg, _⟩ := he.resolve_left (by simp [hl, Locked.deploying])
      refine .inr <| .inr ⟨y, hi, ht ▸ hg, fun hf => ?_⟩
      rw [hl'] at hf
      cases hf
      exact hx ((h.named.locked _ hl).trans hi).symm

theorem advanceLocked (h : Kept s) (hr : Removes s (.locked ok)) (hp : Deploys s (.locked ok))
    (hl : s.locked = some l) : Named (advanceLocked config s ok l) → Kept (advanceLocked config s ok l) := by
  match l with
  | .pay (.save id proposal used) =>
    have ht : (Fog.advanceLocked config s ok (.pay (.save id proposal used))).tracking =
        s.tracking.save id (· = .proposed) (.paid proposal.toPaid) := rfl
    refine fun hn => h.save hn ht rfl (by rw [hl]; rfl) (by rw [hl]; rfl) rfl rfl (.inr fun p hp => ?_)
    cases of_decide_eq_true hp
    constructor
    case left => rintro ⟨⟩
    case right => rintro ⟨⟩
  | .finish caller (.save id record) =>
    have ht : (Fog.advanceLocked config s ok (.finish caller (.save id record))).tracking =
        s.tracking.save id (fun _ => true) (.finished record) := rfl
    exact fun hn => h.save hn ht rfl (by rw [hl]; rfl) (by rw [hl]; rfl) rfl rfl (.inl (by rw [hl]; rfl))
  | .pay (.getProposed _) | .pay (.check ..) | .pay (.getPaid ..) | .pay (.setUsed ..) | .pay (.spawn ..)
  | .pay (.push _) =>
    simp only [Fog.advanceLocked, advancePay]
    repeat' split
    all_goals exact fun hn => h.stay_of_idle hn rfl rfl (by rw [hl]; rfl) (by rw [hl]; rfl) rfl rfl
  | .provision (.getPaid _) =>
    simp only [Fog.advanceLocked, advanceProvision]
    split <;> exact fun hn => h.stay_of_idle hn rfl rfl (by rw [hl]; rfl) (by rw [hl]; rfl) rfl rfl
  | .provision (.backend id paid) =>
    simp only [Fog.advanceLocked, advanceProvision]
    split
    case isFalse => exact fun hn => h.stay_of_idle hn rfl rfl (by rw [hl]; rfl) (by rw [hl]; rfl) rfl rfl
    case isTrue ho => exact fun hn => h.deploy hn hl (hp id (by simp [State.deploys, hl, ho])) rfl rfl rfl
  | .provision (.save id provisioned) => exact fun hn => h.provisioned hn hl rfl rfl rfl
  | .finish _ (.getRemovable id) =>
    simp only [Fog.advanceLocked, advanceFinish]
    split
    case h_1 hg =>
      refine fun hn => h.stay hn rfl rfl (by rw [hl]; rfl) (by rw [hl]; rfl) rfl fun x name hx _ he => ?_
      cases he
      cases hg.symm.trans hx
    case h_2 => exact fun hn => h.stay_of_idle hn rfl rfl (by rw [hl]; rfl) (by rw [hl]; rfl) rfl rfl
  | .finish caller (.remove id name) =>
    refine fun hn => h.remove hn hl rfl rfl fun x hx => ?_
    simp only [Fog.advanceLocked, advanceFinish, State.enter] at hx
    cases ok
    case true  => exact (Finset.mem_erase.mp hx).symm
    case false =>
      refine ⟨hx, fun he => ?_⟩
      have := hr (name, false) (by simp [State.removes, hl, Locked.removing]) (he ▸ hx)
      contradiction
  | .finish _ (.getFinishable id) =>
    simp only [Fog.advanceLocked, advanceFinish]
    split
    case h_1 => exact fun hn => h.stay_of_idle hn rfl rfl (by rw [hl]; rfl) (by rw [hl]; rfl) rfl rfl
    case h_2 =>
      exact fun hn => h.stay hn rfl rfl (by rw [hl]; rfl) (by rw [hl]; rfl) rfl fun _ _ _ hne => by rwa [hl] at hne
  | .finish _ (.getFinished _) | .finish _ (.getUsed ..) | .finish _ (.setUsed ..) =>
    simp only [Fog.advanceLocked, advanceFinish]
    split <;> exact fun hn => h.stay_of_idle hn rfl rfl (by rw [hl]; rfl) (by rw [hl]; rfl) rfl rfl

-- A call outside the lock, which leaves the names alone that are not inserted.
theorem of_frame (h : Kept s) (hn : Named s') (f : Frame s s') (hd : s'.deployed = s.deployed)
    (hp : ∀ id paid, s.locked.bind Locked.deploying = some id → s.tracking.lookup id = some (.paid paid) →
      ∃ paid, s'.tracking.lookup id = some (.paid paid))
    (hr : ∀ id, functionName id ∈ s.deployed → s.tracking.getRemovable id = some (functionName id) →
      s.locked.bind Locked.removing = some (functionName id) ∨
        s'.tracking.getRemovable id = some (functionName id)) : Kept s' where
  named     := hn
  deploying := fun id he => by
    rw [f.locked] at he
    have ⟨hm, q, hq⟩ := h.deploying id he
    exact ⟨hd ▸ hm, hp id q he hq⟩
  removable := fun name hm => by
    rw [hd] at hm
    rw [f.locked]
    refine (h.removable name hm).elim .inl fun he => he.elim (.inr ∘ .inl) fun ⟨id, hi, hg, hf⟩ => ?_
    subst hi
    exact (hr id hm hg).imp_right fun hg => .inr ⟨id, rfl, hg, hf⟩

theorem step (h : Kept s) (hr : Removes s a) (hp : Deploys s a) (hu : Undeployed s a)
    (e : Fog.step config s a = some s') : Kept s' := by
  have hn := h.named.step e
  cases effect_of_step e
  case insert i sla name bid hb f t =>
    have hu (hm : functionName sla.id ∈ s.deployed) := hu sla (inserts_of_inserting hb) hm
    refine h.of_frame hn f (deployed_step (fun _ => by simp) e) (fun id q hd hq => ⟨q, ?_⟩) fun id hm hg => ?_
    all_goals rw [t]
    · rw [FunctionTracking.lookup_insert, if_neg, hq]
      rintro rfl
      cases (removing_of_deploying hd).symm.trans (hu (h.deploying _ hd).1)
    · by_cases hi : id = sla.id
      case pos => exact .inl (hi ▸ hu (hi ▸ hm))
      case neg =>
        refine .inr ((FunctionTracking.getRemovable_of_lookup_eq ?_).trans hg)
        rw [FunctionTracking.lookup_insert, if_neg hi]
  case saveLive i id function giveUp hl f t =>
    refine h.of_frame hn f (deployed_step (fun _ => by simp) e) (fun x q _ hq => ⟨q, ?_⟩) fun x _ hg => .inr ?_
    all_goals rw [t, FunctionTracking.saveLive]
    · rw [FunctionTracking.lookup_save, if_neg, hq]
      rintro ⟨hx, hp⟩
      rw [← hx, hq] at hp
      simp [States.phase] at hp
    · rw [FunctionTracking.getRemovable_save]
      split
      case isFalse => exact hg
      case isTrue hx =>
        exact congrArg some (hx.1 ▸ h.named.lives id function (List.mem_of_getElem? hl))
  case advance hl => exact h.advanceLocked hr hp hl hn
  case quiet ha f t =>
    exact h.of_frame hn f (deployed_step ha e) (fun _ q _ hq => ⟨q, t ▸ hq⟩) fun _ _ hg => .inr (t ▸ hg)
  case pay hl | provision hl =>
    exact h.stay_of_idle hn rfl rfl (by simp [hl]) (by simp [hl]) rfl rfl
  case fail hl | expire hl =>
    exact h.stay_of_idle hn rfl rfl (by simp [hl]) (by simp [hl]) rfl rfl
  case wake | oversleep | pop => exact ⟨hn, h.deploying, h.removable⟩

theorem new : Kept (.new config now) where
  named     := {
    tracking := fun id name hn => by simp [State.new, FunctionTracking.getRemovable] at hn
    locked   := by simp [State.new]
    lives    := by simp [State.new]
  }
  deploying := by simp [State.new]
  removable := by simp [State.new]

end Kept

-- As long as the backend removes what it is asked to, and no bid takes the place of a record in use, every
-- function on the backend can still be removed while the lock is free.
theorem removable_of_removes
    (r : Run (step config) (fun s a => Removes s a ∧ Deploys s a ∧ Undeployed s a) (.new config now) as s)
    (hl : s.locked = none) : Removable s := by
  have h : Kept s := r.invariant .new fun h ⟨hr, hp, hu⟩ e => h.step hr hp hu e
  intro name hm
  have ⟨id, hi, hg, _⟩ := h.recorded (by simp [hl]) (by simp [hl]) hm
  exact ⟨id, hi, hg⟩

instance : DecidablePred Removable := fun s =>
  decidable_of_iff (∀ name ∈ s.deployed, ∃ id ∈ s.tracking.keys, functionName id = name ∧
      s.tracking.getRemovable id = some name) <| forall₂_congr fun name _ => exists_congr fun id => by
    refine and_iff_right_of_imp fun ⟨_, hg⟩ => Finmap.mem_keys.mpr ?_
    rw [FunctionTracking.getRemovable_eq] at hg
    have ⟨r, hr, _⟩ := Option.bind_eq_some_iff.mp hg
    exact Map.mem_of_lookup hr

def provisionActs (id : Uuid) : List Act :=
  .provision ⟨id⟩ :: .replicate 3 (.locked true)

theorem removable_of_removes_of_provisioned :
    ∃ s, Run (step (wrappingConfig ["k8s"])) (fun s a => Removes s a ∧ Deploys s a ∧ Undeployed s a)
        (.new (wrappingConfig ["k8s"]) 0) (bidActs (exampleSla 7 1 1000 1) ++ payActs 7 ++ provisionActs 7) s ∧
      s.deployed.Nonempty ∧ Removable s :=
  have ⟨s, r, hl, hd⟩ :=
    Run.of_exec_any (P := fun s : State => s.locked = none ∧ s.deployed.Nonempty) (by decide +kernel)
  ⟨s, r, hd, removable_of_removes r hl⟩

-- The backend fails to remove a function which has expired. Its resources are given back nevertheless.
theorem not_removable_of_failure :
    ∃ s, Run (step (wrappingConfig ["k8s"])) (fun s a => Deploys s a ∧ Undeployed s a) (.new (wrappingConfig ["k8s"]) 0)
        (bidActs (exampleSla 7 1 1000 1) ++ payActs 7 ++ provisionActs 7 ++ expireActs 1000 ++
          [.locked true, .locked false] ++ .replicate 5 (.locked true)) s ∧
      s.locked = none ∧ (s.tracking.lookup ⟨7⟩).map (·.phase) = some .finished ∧
      s.resources.used.lookup "k8s" = some 0 ∧ ¬ Removable s :=
  Run.of_exec_any (by decide +kernel)

end Fog
