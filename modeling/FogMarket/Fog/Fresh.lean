import FogMarket.Fog.Accounting
import FogMarket.Fog.Terms

open Transition

namespace Fog

-- A function is still paid while the backend is about to deploy it.
def Deploying (s : State) : Prop :=
  ∀ id paid, s.locked = some (.provision (.backend id paid)) → (s.tracking.getPaid id).isSome = true

variable {config : Config} {s s' : State} {a : Act} {ok : Bool} {l : Locked} {id : SlaId} {now : ℤ}

theorem deploying_new : Deploying (.new config now) := by
  simp [Deploying, State.new]

theorem Deploying.deploys (h : Deploying s) (a : Act) : Deploys s a := by
  intro id hd
  simp only [State.deploys] at hd
  split at hd <;> try contradiction
  split at hd <;> cases hd
  case h_1 paid hl => exact h id paid hl

theorem deploying_advanceLocked : Deploying (advanceLocked config s ok l) := by
  intro id paid hl
  match l with
  | .provision (.getPaid id') =>
    simp only [advanceLocked, advanceProvision] at hl ⊢
    split at hl
    case h_1    => simp [State.release] at hl
    case h_2 hp =>
      cases Option.some.inj hl
      exact Option.isSome_iff_exists.mpr ⟨paid, hp⟩
  | .provision (.backend ..) =>
    simp only [advanceLocked, advanceProvision] at hl
    split at hl <;> simp [State.enter, State.release] at hl
  | .provision (.save ..) => simp [advanceLocked, advanceProvision, State.release] at hl
  | .pay p =>
    cases p <;> simp only [advanceLocked, advancePay] at hl <;> (repeat' split at hl) <;>
      simp [State.enter, State.release, State.panic] at hl
  | .finish caller p =>
    cases p <;> simp only [advanceLocked, advanceFinish] at hl <;> (repeat' split at hl) <;>
      simp [State.enter, State.release, State.panic] at hl

theorem Deploying.step (h : Deploying s) (hf : Fresh s a) (e : step config s a = some s') : Deploying s' := by
  -- A record which is paid is written over by nothing but the call itself.
  have hkeep (hl : s'.locked = s.locked) (ht : ∀ id paid, s.tracking.lookup id = some (.paid paid) →
      s'.tracking.lookup id = some (.paid paid)) : Deploying s' := by
    intro id paid hl'
    obtain ⟨p, hp⟩ := Option.isSome_iff_exists.mp (h id paid (hl ▸ hl'))
    rw [FunctionTracking.getPaid_eq_some] at hp
    exact Option.isSome_iff_exists.mpr ⟨p, FunctionTracking.getPaid_eq_some.mpr (ht id p hp)⟩
  cases effect_of_step e
  case insert i sla name bid hb f t =>
    refine hkeep f.locked fun id paid hp => ?_
    rw [t, FunctionTracking.lookup_insert, if_neg]
    case hnc =>
      rintro rfl
      simp [hf sla (inserts_of_inserting hb)] at hp
    exact hp
  case saveLive i x function giveUp hl f t =>
    refine hkeep f.locked fun id paid hp => ?_
    rw [t, FunctionTracking.saveLive, FunctionTracking.lookup_save, if_neg]
    case hnc =>
      rintro ⟨rfl, ha⟩
      simp [hp, States.phase] at ha
    exact hp
  case quiet f t      => exact hkeep f.locked fun _ _ hp => t ▸ hp
  case advance ok l _ => exact deploying_advanceLocked
  case pay | provision | fail | expire => simp [Deploying, State.enter]
  case wake | oversleep | pop => exact hkeep rfl fun _ _ hp => hp

end Fog
