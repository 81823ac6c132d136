import FogMarket.Fog.Steps

open Transition

namespace Fog

-- What may happen to the record of an SLA in one step. Only the end of a function skips phases.
inductive Forward : Option States → Option States → Prop
  | same {r} : Forward r r
  | propose {p} : Forward none (some (.proposed p))
  | replace {p p'} : Forward (some (.proposed p)) (some (.proposed p'))
  | pay {p q} : Forward (some (.proposed p)) (some (.paid q))
  | provision {q f} : Forward (some (.paid q)) (some (.provisioned f))
  | live {f f'} : Forward (some (.provisioned f)) (some (.live f'))
  | finish {r f} (h : r.Active) : Forward (some r) (some (.finished f))

variable {config : Config} {s s' : State} {a : Act} {id x : SlaId} {ok : Bool} {now : ℤ} {as : List Act}
variable {db : FunctionTracking} {allowed : Phase → Bool} {record : States} {l : Locked}

-- A proposal is only written over another proposal.
def Guarded (s : State) (a : Act) : Prop :=
  ∀ sla ∈ s.inserts a, ∀ r ∈ s.tracking.lookup sla.id, r.phase = .proposed

instance : Decidable (Guarded s a) :=
  inferInstanceAs (Decidable (∀ sla ∈ s.inserts a, ∀ r ∈ s.tracking.lookup sla.id, r.phase = .proposed))

def MovesForward (config : Config) (s : State) (a : Act) : Prop :=
  ∀ s', step config s a = some s' → ∀ id, Forward (s.tracking.lookup id) (s'.tracking.lookup id)

-- A record which is about to be finished is still active.
def Finishable (s : State) : Prop :=
  ∀ caller id record, s.locked = some (.finish caller (.save id record)) →
    ∃ r, s.tracking.lookup id = some r ∧ r.Active

theorem forward_save (h : ∀ r, db.lookup id = some r → allowed r.phase → Forward (some r) (some record)) :
    Forward (db.lookup x) (Finmap.lookup x (db.save id allowed record)) := by
  rw [FunctionTracking.lookup_save]
  split
  case isFalse => exact .same
  case isTrue hx =>
    have ⟨r, hl, hr⟩ := (Option.any_eq_true ..).mp hx.2
    rw [hx.1, hl]
    exact h r hl hr

theorem forward_insert {proposal : Proposed}
    (h : ∀ r, db.lookup proposal.sla.id = some r → r.phase = .proposed) :
    Forward (db.lookup x) (Finmap.lookup x (db.insert proposal)) := by
  rw [FunctionTracking.lookup_insert]
  split
  case isFalse => exact .same
  case isTrue hx =>
    rw [hx]
    cases hl : db.lookup proposal.sla.id
    case none => exact .propose
    case some r =>
      have := h r hl
      cases r <;> simp only [States.phase, reduceCtorEq] at this
      exact .replace

theorem forward_advanceLocked (hf : Finishable s) (hl : s.locked = some l) :
    Forward (s.tracking.lookup x) ((advanceLocked config s ok l).tracking.lookup x) := by
  match l with
  | .pay (.save id proposal used) =>
    refine forward_save fun r _ hr => ?_
    cases r <;> simp only [States.phase, decide_eq_true_eq, reduceCtorEq] at hr
    exact .pay
  | .provision (.save id provisioned) =>
    refine forward_save fun r _ hr => ?_
    cases r <;> simp only [States.phase, decide_eq_true_eq, reduceCtorEq] at hr
    exact .provision
  | .finish caller (.save id record) =>
    refine forward_save fun r hr _ => ?_
    obtain ⟨r', hr', ha⟩ := hf caller id record hl
    cases hr.symm.trans hr'
    exact .finish ha
  | .pay (.getProposed _) | .pay (.check ..) | .pay (.getPaid ..) | .pay (.setUsed ..)
  | .pay (.spawn ..) | .pay (.push _) =>
    simp only [advanceLocked, advancePay]
    repeat' split
    all_goals exact .same
  | .provision (.getPaid _) | .provision (.backend ..) =>
    simp only [advanceLocked, advanceProvision]
    split <;> exact .same
  | .finish _ (.getRemovable _) | .finish _ (.remove ..) | .finish _ (.getFinishable _)
  | .finish _ (.getFinished _) | .finish _ (.getUsed ..) | .finish _ (.setUsed ..) =>
    simp only [advanceLocked, advanceFinish]
    repeat' split
    all_goals exact .same

-- An active record is only written over by another active one, as long as it is not finished.
theorem finishable_advanceLocked : Finishable (advanceLocked config s ok l) := by
  intro caller id record h
  match l with
  | .finish caller' (.getFinishable id') =>
    simp only [advanceLocked, advanceFinish] at h ⊢
    split at h
    case h_1 => simp [State.release] at h
    case h_2 hg =>
      simp only [State.enter, Option.some.injEq, Locked.finish.injEq, Finishing.save.injEq] at h
      obtain ⟨r, hr, ha, _⟩ := FunctionTracking.getFinishable_eq_some.mp hg
      exact ⟨r, h.2.1 ▸ hr, ha⟩
  | .pay p =>
    cases p <;> simp only [advanceLocked, advancePay] at h <;> (repeat' split at h) <;>
      simp [State.enter, State.release, State.panic] at h
  | .provision p =>
    cases p <;> simp only [advanceLocked, advanceProvision] at h <;> (repeat' split at h) <;>
      simp [State.enter, State.release] at h
  | .finish _ (.getRemovable _) | .finish _ (.remove ..) | .finish _ (.save ..)
  | .finish _ (.getFinished _) | .finish _ (.getUsed ..) | .finish _ (.setUsed ..) =>
    simp only [advanceLocked, advanceFinish] at h
    repeat' split at h
    all_goals simp [State.enter, State.release, State.panic] at h

theorem step_forward (hf : Finishable s) (hg : Guarded s a) (e : step config s a = some s') :
    Finishable s' ∧ ∀ id, Forward (s.tracking.lookup id) (s'.tracking.lookup id) := by
  cases effect_of_step e
  case insert i sla name bid hb f t =>
    have hg := hg sla (inserts_of_inserting hb)
    rw [t]
    refine ⟨fun caller id record h => ?_, fun id => forward_insert hg⟩
    have ⟨r, hr, ha⟩ := hf caller id record (f.locked ▸ h)
    refine ⟨r, ?_, ha⟩
    rw [t, FunctionTracking.lookup_insert, if_neg, hr]
    -- The record which is about to be finished is not a proposal.
    intro he
    have hp := hg r (he ▸ hr)
    cases r <;> simp [States.phase, States.Active] at hp ha
  case saveLive i id function giveUp hl f t =>
    rw [t]
    refine ⟨fun caller x record h => ?_, fun x => forward_save fun r _ hr => ?_⟩
    · have ⟨r, hr, ha⟩ := hf caller x record (f.locked ▸ h)
      rw [t, FunctionTracking.saveLive, FunctionTracking.lookup_save]
      split
      case isTrue  => exact ⟨_, rfl, trivial⟩
      case isFalse => exact ⟨r, hr, ha⟩
    · cases r <;> simp only [States.phase, decide_eq_true_eq, reduceCtorEq] at hr
      exact .live
  case advance ok l hl => exact ⟨finishable_advanceLocked, fun id => forward_advanceLocked hf hl⟩
  case quiet f t =>
    refine ⟨fun caller id record h => ?_, fun id => t ▸ .same⟩
    have ⟨r, hr, ha⟩ := hf caller id record (f.locked ▸ h)
    exact ⟨r, t ▸ hr, ha⟩
  case pay | provision | fail | expire =>
    exact ⟨fun caller id record h => by simp [State.enter] at h, fun id => .same⟩
  case wake | oversleep | pop => exact ⟨hf, fun id => .same⟩

theorem guarded_of_movesForward (h : MovesForward config s a) (e : step config s a = some s') :
    Guarded s a := by
  intro sla hs r hr
  simp only [State.inserts] at hs
  split at hs <;> try contradiction
  case h_1 i =>
    split at hs <;> try contradiction
    case h_1 sla' name bid hb =>
      cases hs
      have hf := h s' e sla.id
      simp only [step, hb, Option.map_some, Option.some.injEq] at e
      have ht : s'.tracking = s.tracking.insert { bid := bid, sla := sla, node := name } := by
        rw [← e]
        simp only [advanceBid]
        split <;> rfl
      rw [ht, FunctionTracking.lookup_insert, if_pos rfl, hr] at hf
      cases hf <;> rfl

-- The records only move forward if and only if proposals are only written over proposals.
theorem forward_iff_guarded :
    Run (step config) (MovesForward config) (.new config now) as s ↔
      Run (step config) Guarded (.new config now) as s := by
  constructor
  case mp  => exact fun r => r.mono guarded_of_movesForward
  case mpr =>
    intro r
    refine r.mono_of_invariant (I := Finishable) ?_ (fun hf hg e => (step_forward hf hg e).1) ?_
    · intro caller id record h
      simp [State.new] at h
    · intro s a s' hf hg e s'' e'
      cases e.symm.trans e'
      exact (step_forward hf hg e).2

-- A second bid on an SLA drops its paid reservation.
theorem not_forward_of_bid_again :
    ∃ s₁ s₂, Run (step (wrappingConfig ["k8s"])) free (.new (wrappingConfig ["k8s"]) 0)
        (bidActs (exampleSla 7 1 1000 1) ++ payActs 7) s₁ ∧
      Run (step (wrappingConfig ["k8s"])) free s₁ (bidActs (exampleSla 7 1 1000 1)) s₂ ∧
      (s₁.tracking.lookup ⟨7⟩).map (·.phase) = some .paid ∧
      (s₂.tracking.lookup ⟨7⟩).map (·.phase) = some .proposed :=
  Run.of_exec_any₂ (by decide +kernel)

end Fog
