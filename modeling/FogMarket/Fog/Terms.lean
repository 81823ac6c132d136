import FogMarket.Fog.Sale

open Transition

-- What a node has bidden, for what, and where it is going to run the function.
def States.terms (r : States) : ℚ × Sla × String :=
  (r.bid, r.sla, r.node)

namespace Fog

namespace FunctionTracking

def terms (db : FunctionTracking) (id : SlaId) : Option (ℚ × Sla × String) :=
  (db.lookup id).map States.terms

end FunctionTracking

-- A call under the lock has read a record whose terms are still those of the database.
def Locked.Agrees (db : FunctionTracking) : Locked → Prop
  | .pay (.check id proposal)         => db.terms id = some (States.proposed proposal).terms
  | .pay (.save id proposal _)        => db.terms id = some (States.proposed proposal).terms
  | .provision (.backend id paid)     => db.terms id = some (States.paid paid).terms
  | .provision (.save id provisioned) => db.terms id = some (States.provisioned provisioned).terms
  | .finish _ (.save id record)       => db.terms id = some (States.finished record).terms
  | .finish _ (.getFinished id)       => (db.terms id).isSome = true
  | _                                 => True

structure Agreed (s : State) : Prop where
  locked : ∀ l, s.locked = some l → l.Agrees s.tracking
  lives  : ∀ id f, .checking id f ∈ s.lives → s.tracking.terms id = some (States.provisioned f).terms

-- What is inserted is new.
def Fresh (s : State) (a : Act) : Prop :=
  ∀ sla ∈ s.inserts a, s.tracking.lookup sla.id = none

variable {config : Config} {s s' : State} {a : Act} {id x : SlaId} {db : FunctionTracking} {l : Locked} {ok : Bool}
variable {allowed : Phase → Bool} {record : States} {t : ℚ × Sla × String} {now : ℤ} {as : List Act}

theorem Fresh.guarded (h : Fresh s a) : Guarded s a := by
  intro sla hs r hr
  simp [h sla hs] at hr

theorem agreed_new : Agreed (.new config now) where
  locked := by simp [State.new]
  lives  := by simp [State.new]

namespace FunctionTracking

theorem mem_save : x ∈ save db id allowed record ↔ x ∈ db := by
  rw [← not_iff_not, ← Finmap.lookup_eq_none, ← Finmap.lookup_eq_none, lookup_save]
  split
  case isTrue hx  =>
    obtain ⟨r, hr, -⟩ := (Option.any_eq_true ..).mp hx.2
    exact iff_of_false (Option.some_ne_none _) (by rw [hx.1, hr]; exact Option.some_ne_none r)
  case isFalse    => rfl

theorem terms_save (h : db.terms id = some record.terms) : terms (db.save id allowed record) = db.terms := by
  ext1 x
  rw [terms, lookup_save]
  split
  case isTrue hx => rw [hx.1, h, Option.map_some]
  case isFalse   => rfl

end FunctionTracking

theorem terms_advanceLocked (h : l.Agrees s.tracking) :
    (advanceLocked config s ok l).tracking.terms = s.tracking.terms := by
  obtain ht | ⟨id, proposal, used, rfl, ht⟩ | ⟨id, provisioned, rfl, ht⟩ | ⟨caller, id, record, rfl, ht⟩ :=
    tracking_advanceLocked config s ok l
  case inl                 => rw [ht]
  case inr.inl             => rw [ht]; exact FunctionTracking.terms_save h
  case inr.inr.inl         => rw [ht]; exact FunctionTracking.terms_save h
  case inr.inr.inr         => rw [ht]; exact FunctionTracking.terms_save h

-- The terms of a record do not change as long as it is not written over.
theorem terms_step (h : Agreed s) (hf : Fresh s a) (e : step config s a = some s')
    (ht : s.tracking.terms id = some t) : s'.tracking.terms id = some t := by
  cases effect_of_step e
  case insert i sla name bid hb f t =>
    rw [t, FunctionTracking.terms, FunctionTracking.lookup_insert, if_neg]
    case hnc =>
      rintro rfl
      simp [FunctionTracking.terms, hf sla (inserts_of_inserting hb)] at ht
    exact ht
  case saveLive i x f giveUp hl fr t =>
    have hx : s.tracking.terms x = some (States.terms (.live f.toLive)) := h.lives x f (List.mem_of_getElem? hl)
    rw [t, FunctionTracking.saveLive, FunctionTracking.terms_save hx]
    exact ht
  case advance ok l hl => rwa [terms_advanceLocked (h.locked l hl)]
  case quiet f t => rwa [t]
  case pay | provision | fail | expire | wake | oversleep | pop => exact ht

theorem mem_advanceLocked : x ∈ (advanceLocked config s ok l).tracking ↔ x ∈ s.tracking := by
  obtain ht | ⟨id, proposal, used, -, ht⟩ | ⟨id, provisioned, -, ht⟩ | ⟨caller, id, record, -, ht⟩ :=
    tracking_advanceLocked config s ok l
  case inl         => rw [ht]
  case inr.inl     => rw [ht]; exact FunctionTracking.mem_save
  case inr.inr.inl => rw [ht]; exact FunctionTracking.mem_save
  case inr.inr.inr => rw [ht]; exact FunctionTracking.mem_save

-- A record which is new has been inserted.
theorem mem_step (e : step config s a = some s') (h : x ∈ s'.tracking) :
    x ∈ s.tracking ∨ ∃ sla ∈ s.inserts a, sla.id = x := by
  cases effect_of_step e
  case insert i sla name bid hb f t =>
    rw [t] at h
    exact (Finmap.mem_insert.mp h).symm.imp_right fun hx => ⟨sla, inserts_of_inserting hb, hx.symm⟩
  case saveLive f t   => exact .inl (FunctionTracking.mem_save.mp (t ▸ h))
  case advance ok l _ => exact .inl (mem_advanceLocked.mp h)
  case quiet f t      => exact .inl (t ▸ h)
  case pay | provision | fail | expire | wake | oversleep | pop => exact .inl h

theorem Locked.Agrees.mono {db' : FunctionTracking} (h : l.Agrees db)
    (hd : ∀ id t, db.terms id = some t → db'.terms id = some t) : l.Agrees db' := by
  match l with
  | .pay (.check ..) | .pay (.save ..) | .provision (.backend ..) | .provision (.save ..) | .finish _ (.save ..) =>
    exact hd _ _ h
  | .finish _ (.getFinished id) =>
    obtain ⟨t, ht⟩ := Option.isSome_iff_exists.mp h
    exact Option.isSome_iff_exists.mpr ⟨t, hd id t ht⟩
  | .pay (.getProposed _) | .pay (.getPaid ..) | .pay (.setUsed ..) | .pay (.spawn ..) | .pay (.push _)
  | .provision (.getPaid _) | .finish _ (.getRemovable _) | .finish _ (.remove ..) | .finish _ (.getFinishable _)
  | .finish _ (.getUsed ..) | .finish _ (.setUsed ..) => trivial

-- What a call reads next agrees with the database, too.
theorem agrees_advanceLocked {l' : Locked} (h : l.Agrees s.tracking)
    (hl : (advanceLocked config s ok l).locked = some l') : l'.Agrees (advanceLocked config s ok l).tracking := by
  match l with
  | .pay (.getProposed id) =>
    simp only [advanceLocked, advancePay] at hl ⊢
    split at hl
    case h_1    => simp [State.release] at hl
    case h_2 hp =>
      rw [FunctionTracking.getProposed_eq_some] at hp
      cases Option.some.inj hl
      simp [Locked.Agrees, FunctionTracking.terms, State.enter, hp]
  | .pay (.check id proposal) =>
    simp only [advanceLocked, advancePay] at hl ⊢
    split at hl
    case h_2 => simp [State.release] at hl
    case h_1 =>
      split at hl
      case isFalse   => simp [State.release] at hl
      case isTrue hs =>
        cases Option.some.inj hl
        rw [if_pos hs]
        exact h
  | .provision (.getPaid id) =>
    simp only [advanceLocked, advanceProvision] at hl ⊢
    split at hl
    case h_1    => simp [State.release] at hl
    case h_2 hp =>
      rw [FunctionTracking.getPaid_eq_some] at hp
      cases Option.some.inj hl
      simp [Locked.Agrees, FunctionTracking.terms, State.enter, hp]
  | .provision (.backend id paid) =>
    simp only [advanceLocked, advanceProvision] at hl ⊢
    split at hl
    case isFalse   => simp [State.release] at hl
    case isTrue hs =>
      cases Option.some.inj hl
      rw [if_pos hs]
      exact h
  | .finish caller (.getFinishable id) =>
    simp only [advanceLocked, advanceFinish] at hl ⊢
    split at hl
    case h_1    => simp [State.release] at hl
    case h_2 hg =>
      obtain ⟨r, hr, -, rfl⟩ := FunctionTracking.getFinishable_eq_some.mp hg
      cases Option.some.inj hl
      simp only [Locked.Agrees, FunctionTracking.terms, State.enter, hr, Option.map_some]
      rfl
  | .finish caller (.save id record) =>
    cases Option.some.inj hl
    have ht : FunctionTracking.terms (s.tracking.saveFinished id record) = s.tracking.terms :=
      FunctionTracking.terms_save h
    exact Option.isSome_iff_exists.mpr ⟨_, (congrFun ht id).trans h⟩
  | .pay (.save ..) | .pay (.getPaid ..) | .pay (.setUsed ..) | .pay (.spawn ..) | .pay (.push _) =>
    simp only [advanceLocked, advancePay] at hl
    repeat' split at hl
    all_goals first | simp [State.release, State.panic] at hl | exact Option.some.inj hl ▸ trivial
  | .provision (.save ..) => simp [advanceLocked, advanceProvision, State.release] at hl
  | .finish _ (.getRemovable _) | .finish _ (.remove ..) | .finish _ (.getFinished _) | .finish _ (.getUsed ..)
  | .finish _ (.setUsed ..) =>
    simp only [advanceLocked, advanceFinish] at hl
    repeat' split at hl
    all_goals first | simp [State.release, State.panic] at hl | exact Option.some.inj hl ▸ trivial

theorem Agreed.step (h : Agreed s) (hf : Fresh s a) (e : step config s a = some s') : Agreed s' := by
  have hmono {l : Locked} (hl : l.Agrees s.tracking) : l.Agrees s'.tracking :=
    hl.mono fun _ _ => terms_step h hf e
  constructor
  case locked =>
    intro l' hl'
    cases effect_of_step e
    case insert f _ | saveLive f _ | quiet f _ => exact hmono (h.locked l' (f.locked ▸ hl'))
    case pay | provision | fail | expire => exact Option.some.inj hl' ▸ trivial
    case wake | oversleep | pop => exact hmono (h.locked l' hl')
    case advance ok l hl => exact agrees_advanceLocked (h.locked l hl) hl'
  case lives =>
    intro id f hm
    refine terms_step h hf e ?_
    cases checking_step e hm
    case inl hm => exact h.lives id f hm
    case inr hg => rw [FunctionTracking.terms, FunctionTracking.getProvisioned_eq_some.mp hg, Option.map_some]

-- As long as only new records are inserted, they move forward under the terms they have begun with.
theorem forward_of_fresh (hf : Finishable s) (h : Agreed s) (r : Run (step config) Fresh s as s') :
    Relation.ReflTransGen Forward (s.tracking.lookup id) (s'.tracking.lookup id) ∧
      ∀ t, s.tracking.terms id = some t → s'.tracking.terms id = some t := by
  induction r
  case refl => exact ⟨.refl, fun _ ht => ht⟩
  case trans hfresh e _ hi =>
    obtain ⟨hf', hforward⟩ := step_forward hf hfresh.guarded e
    obtain ⟨hi, ht⟩ := hi hf' (h.step hfresh e)
    exact ⟨.head (hforward id) hi, fun t hterms => ht t (terms_step h hfresh e hterms)⟩

end Fog
