import Mathlib.Tactic.Abel
import FogMarket.Fog.Bounds
import FogMarket.Fog.Load

open Transition

namespace Fog

inductive Entry
  | booked (id : SlaId) (sla : Sla) (node : String)
  | released (id : SlaId) (sla : Sla) (node : String)
deriving DecidableEq

variable {μ : Type*} [AddCommGroup μ] {w : Weight μ}
variable {config : Config} {s s' : State} {a : Act} {ok : Bool} {l : Locked} {id x : SlaId}
variable {db : FunctionTracking} {allowed : Phase → Bool} {record : States} {sla : Sla} {node : String}

namespace Entry

def weight (w : Weight μ) : Entry → μ
  | booked id sla node   => w id sla node
  | released id sla node => -w id sla node

def total (w : Weight μ) (entries : List Entry) : μ :=
  (entries.map (weight w)).sum

theorem total_append (es es' : List Entry) : total w (es ++ es') = total w es + total w es' := by
  simp [total]

end Entry

-- What a call under the lock has already done to the records, but not yet to the resources.
def Locked.pending (db : FunctionTracking) (w : Weight μ) : Locked → μ
  | .pay (.getPaid id _ _)                => -db.shareOf w id
  | .pay (.setUsed id proposal _ _)       => -w id proposal.sla proposal.node
  | .finish _ (.save id record)           => w id record.sla record.node - db.shareOf w id
  | .finish _ (.getFinished id)           => (db.getFinished id).elim 0 fun record => w id record.sla record.node
  | .finish _ (.getUsed id record)        => w id record.sla record.node
  | .finish _ (.setUsed id record _)      => w id record.sla record.node
  | .pay (.getProposed _) | .pay (.check ..) | .pay (.save ..) | .pay (.spawn ..) | .pay (.push _)
  | .provision _ | .finish _ (.getRemovable _) | .finish _ (.remove ..) | .finish _ (.getFinishable _) => 0

namespace State

-- What should be booked.
def owed (s : State) (w : Weight μ) : μ :=
  s.tracking.load w + s.locked.elim 0 (Locked.pending s.tracking w)

-- What an act books and releases.
def entries (config : Config) (s : State) : Act → List Entry
  | .locked _ =>
    match s.locked with
    | some (.pay (.setUsed id proposal used _)) =>
      let booked := booking config.rationals used proposal.sla
      match s.resources.setUsed proposal.node booked.1 booked.2 with
      | .ok _    => [.booked id proposal.sla proposal.node]
      | .error _ => []
    | some (.finish _ (.setUsed id record used)) =>
      let released := releasing config.rationals used record.sla
      match s.resources.setUsed record.node released.1 released.2 with
      | .ok _    => [.released id record.sla record.node]
      | .error _ => []
    | _ => []
  | _ => []

-- What a successful liveness check has been made for, and what it writes over.
def revives (s : State) : Act → Option (Provisioned × Provisioned)
  | .liveness i true _ =>
    match s.lives[i]? with
    | some (.checking id function) => (s.tracking.getProvisioned id).map (function, ·)
    | _                            => none
  | _ => none

end State

-- A liveness check does not outlive the function it has been made for.
def Current (s : State) (a : Act) : Prop :=
  ∀ x ∈ s.revives a, x.2.sla = x.1.sla ∧ x.2.node = x.1.node

instance : Decidable (Current s a) :=
  inferInstanceAs (Decidable (∀ x ∈ s.revives a, x.2.sla = x.1.sla ∧ x.2.node = x.1.node))

-- A booking gets lost: its record is written over, or it is not released when the function is finished.
inductive Loses (config : Config) (s : State) : Act → SlaId → Sla → String → Prop
  | overwrite {i sla name bid record} (hb : s.bids[i]? = some (.inserting sla name bid))
      (hl : s.tracking.lookup sla.id = some record) (ha : record.Active) :
      Loses config s (.bidding i) sla.id record.sla record.node
  | finished {i sla name bid caller record} (hb : s.bids[i]? = some (.inserting sla name bid))
      (h : s.locked = some (.finish caller (.getFinished sla.id)))
      (hl : s.tracking.lookup sla.id = some (.finished record)) :
      Loses config s (.bidding i) sla.id record.sla record.node
  | getUsed {ok caller id record} (h : s.locked = some (.finish caller (.getUsed id record)))
      (hu : s.resources.getUsed record.node = none) : Loses config s (.locked ok) id record.sla record.node
  | setUsed {ok caller id record used f} (h : s.locked = some (.finish caller (.setUsed id record used)))
      (hu : s.resources.setUsed record.node (releasing config.rationals used record.sla).1
        (releasing config.rationals used record.sla).2 = .error f) :
      Loses config s (.locked ok) id record.sla record.node

-- What is lost has been recorded.
theorem Loses.recorded {P : SlaId → Sla → Prop} (hl : Loses config s a id sla node) (h : Recorded P s) : P id sla := by
  cases hl with
  | overwrite _ hr _ => exact h.tracking _ _ hr
  | finished _ _ hr  => exact h.tracking _ _ hr
  | getUsed hl _     => exact h.locked _ hl
  | setUsed hl _     => exact h.locked _ hl

-- What a call under the lock has read is still so, unless the record is not active anymore.
def Locked.Matches (db : FunctionTracking) : Locked → Prop
  | .pay (.check id _)                    => ∃ proposal, db.lookup id = some (.proposed proposal)
  | .pay (.save id _ _)                   => ∃ proposal, db.lookup id = some (.proposed proposal)
  | .pay (.getPaid id proposal _)         => db.PaidOrInactive id ∧ db.Agrees id proposal.sla proposal.node
  | .pay (.setUsed id _ _ paid)           => db.Agrees id paid.sla paid.node
  | .pay (.spawn id paid)                 => db.Agrees id paid.sla paid.node
  | .pay (.push entry)                    => ∃ sla, db.Agrees entry.sla sla entry.node
  | .provision (.backend id paid)         => db.Agrees id paid.sla paid.node
  | .provision (.save id provisioned)     => db.Agrees id provisioned.sla provisioned.node
  | .finish _ (.save id record)           => (∃ r, db.lookup id = some r) ∧ db.Agrees id record.sla record.node
  | .pay (.getProposed _) | .provision (.getPaid _) | .finish _ (.getRemovable _) | .finish _ (.remove ..)
  | .finish _ (.getFinishable _) | .finish _ (.getFinished _) | .finish _ (.getUsed ..)
  | .finish _ (.setUsed ..) => True

def Matching (s : State) : Prop :=
  ∀ l, s.locked = some l → l.Matches s.tracking

theorem matching_enter (h : l.Matches s.tracking) : Matching (s.enter l) :=
  fun _ he => Option.some.inj he ▸ h

theorem matching_release : Matching s.release :=
  fun _ he => by simp [State.release] at he

theorem matching_advanceLocked (h : l.Matches s.tracking) : Matching (advanceLocked config s ok l) := by
  match l with
  | .pay (.getProposed id) =>
    simp only [advanceLocked, advancePay]
    split
    case h_1    => exact matching_release
    case h_2 hg => exact matching_enter ⟨_, FunctionTracking.getProposed_eq_some.mp hg⟩
  | .pay (.save id proposal used) =>
    obtain ⟨p, hp⟩ := h
    have hl : (s.tracking.savePaid id proposal.toPaid).lookup id = some (.paid proposal.toPaid) := by
      rw [FunctionTracking.lookup_savePaid hp, if_pos rfl]
    refine matching_enter ⟨fun r hr _ => ?_, .of_lookup hl⟩
    cases hl.symm.trans hr
    rfl
  | .provision (.getPaid id) =>
    simp only [advanceLocked, advanceProvision]
    split
    case h_1      => exact matching_release
    case h_2 p hg => exact matching_enter (.of_lookup (FunctionTracking.getPaid_eq_some.mp hg))
  | .provision (.backend id paid) =>
    simp only [advanceLocked, advanceProvision]
    split
    case isTrue  => exact matching_enter h
    case isFalse => exact matching_release
  | .finish caller (.getFinishable id) =>
    simp only [advanceLocked, advanceFinish]
    split
    case h_1 => exact matching_release
    case h_2 hg =>
      obtain ⟨r, hr, _, he⟩ := FunctionTracking.getFinishable_eq_some.mp hg
      exact matching_enter ⟨⟨r, hr⟩, he ▸ .of_lookup hr⟩
  | .pay (.getPaid id proposal used) =>
    simp only [advanceLocked, advancePay]
    split
    case h_1      => exact matching_release
    case h_2 p hg => exact matching_enter (.of_lookup (FunctionTracking.getPaid_eq_some.mp hg))
  | .pay (.spawn id paid) => exact matching_enter ⟨paid.sla, h⟩
  | .pay (.check ..) | .pay (.setUsed ..) | .pay (.push _) =>
    simp only [advanceLocked, advancePay]
    repeat' split
    all_goals first | exact matching_release | exact matching_enter h
  | .provision (.save ..) => exact matching_release
  | .finish _ (.getRemovable _) | .finish _ (.remove ..) | .finish _ (.save ..)
  | .finish _ (.getFinished _) | .finish _ (.getUsed ..) | .finish _ (.setUsed ..) =>
    simp only [advanceLocked, advanceFinish]
    repeat' split
    all_goals first | exact matching_release | exact matching_enter trivial

-- Changes of the records outside of the lock.
theorem Locked.Matches.mono {db' : FunctionTracking} (h : l.Matches db)
    (hp : ∀ x proposal, db.lookup x = some (.proposed proposal) → ∃ p, db'.lookup x = some (.proposed p))
    (hs : ∀ x r, db.lookup x = some r → ∃ r, db'.lookup x = some r)
    (hi : ∀ x, db.PaidOrInactive x → db'.PaidOrInactive x)
    (ha : ∀ x sla node, db.Agrees x sla node → db'.Agrees x sla node) : l.Matches db' := by
  match l with
  | .pay (.check ..) | .pay (.save ..) =>
    have ⟨p, hl⟩ := h
    exact hp _ p hl
  | .pay (.getPaid ..) => exact ⟨hi _ h.1, ha _ _ _ h.2⟩
  | .pay (.setUsed ..) | .pay (.spawn ..) | .provision (.backend ..) | .provision (.save ..) => exact ha _ _ _ h
  | .pay (.push _) =>
    have ⟨sla, h⟩ := h
    exact ⟨sla, ha _ _ _ h⟩
  | .finish _ (.save ..) =>
    have ⟨⟨r, hr⟩, h⟩ := h
    exact ⟨hs _ r hr, ha _ _ _ h⟩
  | .pay (.getProposed _) | .provision (.getPaid _) | .finish _ (.getRemovable _) | .finish _ (.remove ..)
  | .finish _ (.getFinishable _) | .finish _ (.getFinished _) | .finish _ (.getUsed ..)
  | .finish _ (.setUsed ..) => trivial

theorem renews_of_current {i : ℕ} {giveUp : Bool} {function : Provisioned} (h : Current s (.liveness i true giveUp))
    (hl : s.lives[i]? = some (.checking id function)) :
    s.tracking.Renews id (· = .provisioned) (.live function.toLive) where
  active := trivial
  agrees := fun r hr hp => by
    cases r <;> simp only [States.phase, decide_eq_true_eq, reduceCtorEq] at hp
    case provisioned p =>
      have hg := FunctionTracking.getProvisioned_eq_some.mpr hr
      exact ⟨trivial, h (function, p) (by simp [State.revives, hl, hg])⟩

theorem matching_step (h : Matching s) (hc : Current s a) (e : step config s a = some s') : Matching s' := by
  cases effect_of_step e
  case insert i sla name bid hb f t =>
    intro l hl
    rw [t]
    refine (h l (f.locked ▸ hl)).mono ?_ ?_ ?_ fun x sla node ha => ha.insert
    case refine_3 =>
      intro x hi r hr ha
      rw [FunctionTracking.lookup_insert] at hr
      split at hr
      case isTrue =>
        cases hr
        exact absurd ha not_false
      case isFalse => exact hi r hr ha
    all_goals
      intro x r hx
      rw [FunctionTracking.lookup_insert]
      split
      case isTrue  => exact ⟨_, rfl⟩
      case isFalse => exact ⟨_, hx⟩
  case saveLive i id function giveUp hl f t =>
    have hr := renews_of_current hc hl
    intro l hl
    rw [t]
    -- Only a provisioned record is written over.
    have hsave {x r} (hx : s.tracking.lookup x = some r) (hr : r.phase ≠ .provisioned) :
        (s.tracking.saveLive id function.toLive).lookup x = some r := by
      rw [FunctionTracking.saveLive, FunctionTracking.lookup_save, if_neg, hx]
      rintro ⟨hxi, hp⟩
      rw [← hxi, hx] at hp
      simp [hr] at hp
    refine (h l (f.locked ▸ hl)).mono ?_ ?_ ?_ fun x sla node ha => hr.agrees_save ha
    case refine_1 => exact fun x p hx => ⟨p, hsave hx (by simp [States.phase])⟩
    case refine_2 =>
      intro x r hx
      rw [FunctionTracking.saveLive, FunctionTracking.lookup_save]
      split
      case isTrue  => exact ⟨_, rfl⟩
      case isFalse => exact ⟨_, hx⟩
    case refine_3 =>
      intro x hi r hx ha
      rw [FunctionTracking.saveLive, FunctionTracking.lookup_save] at hx
      split at hx
      case isFalse => exact hi r hx ha
      case isTrue hxi =>
        obtain ⟨r', hr', hp⟩ := (Option.any_eq_true ..).mp hxi.2
        have hp' := hi r' (hxi.1 ▸ hr') (hr.agrees r' hr' hp).1
        simp [hp'] at hp
  case advance ok l hl => exact matching_advanceLocked (h l hl)
  case quiet f t =>
    intro l hl
    rw [t]
    exact h l (f.locked ▸ hl)
  case pay | provision | fail | expire => exact matching_enter trivial
  case wake | oversleep | pop => exact h

theorem Loses.of_shareOf {i : ℕ} {name : String} {bid : ℚ} {R : μ → μ → Prop} (hrefl : ∀ y, R y y)
    (hlose : ∀ id sla node y, Loses config s (.bidding i) id sla node → R y (y + w id sla node))
    (hb : s.bids[i]? = some (.inserting sla name bid)) (y : μ) : R (y - s.tracking.shareOf w sla.id) y := by
  cases hl : s.tracking.lookup sla.id
  case none => simpa [FunctionTracking.shareOf, hl] using hrefl y
  case some r =>
    rw [FunctionTracking.shareOf_of_lookup hl]
    by_cases ha : r.Active
    · rw [FunctionTracking.share_eq ha]
      simpa using hlose _ _ _ (y - w sla.id r.sla r.node) (.overwrite hb hl ha)
    · simpa [FunctionTracking.share_eq_zero ha] using hrefl y

-- The insertion of a proposal only loses what it is written over.
theorem owed_insert {i : ℕ} {name : String} {bid : ℚ} {R : μ → μ → Prop} (hrefl : ∀ y, R y y)
    (hlose : ∀ id sla node y, Loses config s (.bidding i) id sla node → R y (y + w id sla node))
    (hb : s.bids[i]? = some (.inserting sla name bid)) (f : s'.locked = s.locked)
    (t : s'.tracking = s.tracking.insert { bid := bid, sla := sla, node := name }) :
    R (s'.owed w) (s.owed w) := by
  have hconst {c : μ} : R (s.tracking.load w - s.tracking.shareOf w sla.id + c) (s.tracking.load w + c) := by
    rw [sub_add_eq_add_sub]
    exact Loses.of_shareOf hrefl hlose hb _
  simp only [State.owed, f, t, FunctionTracking.load_insert]
  cases hl : s.locked
  case none => exact hconst
  case some l =>
    simp only [Option.elim_some]
    match l with
    | .pay (.getPaid id proposal used) =>
      simp only [Locked.pending, FunctionTracking.shareOf_insert]
      split
      case isFalse => exact hconst
      case isTrue h =>
        rw [h, neg_zero, add_zero, ← sub_eq_add_neg]
        exact hrefl _
    | .finish caller (.save id record) =>
      simp only [Locked.pending, FunctionTracking.shareOf_insert]
      split
      case isFalse => exact hconst
      case isTrue h =>
        rw [h, sub_zero, sub_add_eq_add_sub, add_sub_assoc]
        exact hrefl _
    | .finish caller (.getFinished id) =>
      simp only [Locked.pending, FunctionTracking.getFinished, FunctionTracking.lookup_insert]
      split
      case isFalse => exact hconst
      case isTrue h =>
        subst h
        cases hr : s.tracking.lookup sla.id
        case none => simpa [FunctionTracking.shareOf, hr] using hrefl _
        case some r =>
          cases r
          case finished record =>
            have hz : s.tracking.shareOf w sla.id = 0 := by
              rw [FunctionTracking.shareOf_of_lookup hr]
              exact FunctionTracking.share_eq_zero not_false
            simpa [hz] using hlose _ _ _ (s.tracking.load w) (.finished hb hl hr)
          all_goals exact hconst (c := 0)
    | .pay (.getProposed _) | .pay (.check ..) | .pay (.save ..) | .pay (.setUsed ..) | .pay (.spawn ..)
    | .pay (.push _) | .provision _ | .finish _ (.getRemovable _) | .finish _ (.remove ..)
    | .finish _ (.getFinishable _) | .finish _ (.getUsed ..) | .finish _ (.setUsed ..) => exact hconst

theorem owed_enter : (s.enter l).owed w = s.tracking.load w + l.pending s.tracking w :=
  rfl

theorem owed_release : s.release.owed w = s.tracking.load w :=
  add_zero _

theorem owed_panic {p : Panic} : (s.panic p).owed w = s.owed w :=
  rfl

-- The payment which is about to be booked can be booked.
def Payable (config : Config) (s : State) : Prop :=
  ∀ id proposal used paid, s.locked = some (.pay (.setUsed id proposal used paid)) →
    ∃ resources, s.resources.setUsed proposal.node (booking config.rationals used proposal.sla).1
      (booking config.rationals used proposal.sla).2 = .ok resources

-- A booking which does not wrap around to something negative.
def Config.Affords (config : Config) (proposal : Proposed) (used : Information × Ratio) : Prop :=
  0 ≤ booking config.rationals used proposal.sla

theorem payable_of_affords (hc : Configured config s.resources) (hr : Reads s) (ha : Accepted config.Affords s) :
    Payable config s := by
  intro id proposal used paid hl
  have hused : s.resources.used.lookup proposal.node = some used := hr _ hl
  exact ResourceTracking.setUsed_of_nonneg (hc.keyExists (Map.mem_of_lookup hused)) (ha _ hl)

theorem affords_of_books (hr : Reads s) (hn : Recorded (fun _ sla => sla.Nonneg) s)
    (hu : ∀ name used, s.resources.used.lookup name = some used → 0 ≤ used) (hb : Accepted config.Books s) :
    Accepted config.Affords s := by
  intro l hl
  have hl' := hb l hl
  match l with
  | .pay (.save id proposal used) | .pay (.getPaid id proposal used) =>
    exact (add_nonneg (hu _ _ (hr _ hl)) (Sla.Nonneg.booked (hn.locked _ hl))).trans_eq hl'.symm
  | .pay (.setUsed id proposal used paid) =>
    exact (add_nonneg (hu _ _ (hr _ hl)) (Sla.Nonneg.booked (hn.locked _ hl).1)).trans_eq hl'.symm
  | .pay (.getProposed _) | .pay (.check ..) | .pay (.spawn ..) | .pay (.push _) | .provision _ | .finish .. => trivial

theorem Sound.payable (h : Sound config s) (hb : Accepted config.Books s) : Payable config s :=
  payable_of_affords h.configured h.reads (affords_of_books h.reads h.nonneg.recorded h.used_nonneg hb)

-- A payment does not lose anything.
theorem owed_advancePay {p : Paying} (hm : (Locked.pay p).Matches s.tracking) (hp : Payable config s)
    (hl : s.locked = some (.pay p)) :
    (advancePay config s p).owed w = s.owed w + Entry.total w (s.entries config (.locked ok)) := by
  have ho : s.owed w = s.tracking.load w + (Locked.pay p).pending s.tracking w := by
    rw [State.owed, hl, Option.elim_some]
  rw [ho]
  cases p
  case save id proposal used =>
    obtain ⟨p, hl'⟩ := hm
    simp [State.entries, hl, advancePay, owed_enter, Locked.pending, FunctionTracking.load_savePaid hl',
      FunctionTracking.shareOf_savePaid hl', Entry.total]
  case getPaid id proposal used =>
    simp only [State.entries, hl, advancePay, Locked.pending]
    split
    case h_1 hn =>
      have hz : s.tracking.shareOf w id = 0 := by
        cases hr : s.tracking.lookup id
        case none => simp [FunctionTracking.shareOf, hr]
        case some r =>
          rw [FunctionTracking.shareOf_of_lookup hr]
          refine FunctionTracking.share_eq_zero fun ha => ?_
          have hp := hm.1 r hr ha
          cases r <;> simp only [States.phase, reduceCtorEq] at hp
          simp [FunctionTracking.getPaid_eq_some.mpr hr] at hn
      simp [owed_release, Entry.total, hz]
    case h_2 paid hg =>
      have hs := hm.2.shareOf_eq (w := w) (FunctionTracking.getPaid_eq_some.mp hg) trivial
      simp [owed_enter, Locked.pending, Entry.total, hs]
  case setUsed id proposal used paid =>
    obtain ⟨resources, hs⟩ := hp id proposal used paid hl
    simp [State.entries, hl, advancePay, hs, owed_enter, Locked.pending, Entry.total, Entry.weight]
  case getProposed | check | spawn | push =>
    simp only [State.entries, hl, advancePay]
    repeat' split
    all_goals simp [owed_release, owed_enter, Locked.pending, Entry.total]

theorem owed_advanceProvision {p : Provisioning} (hm : (Locked.provision p).Matches s.tracking)
    (hl : s.locked = some (.provision p)) : (advanceProvision s ok p).owed w = s.owed w := by
  rw [State.owed, State.owed, hl]
  cases p
  case save id provisioned =>
    simp [advanceProvision, State.release, Locked.pending, FunctionTracking.saveProvisioned,
      (FunctionTracking.renews_saveProvisioned hm).load_eq]
  case getPaid | backend =>
    simp only [advanceProvision]
    split <;> simp [State.release, State.enter, Locked.pending]

-- What is not released when a function is finished is lost.
theorem owed_advanceFinish {R : μ → μ → Prop} {caller : Caller} {p : Finishing} (hrefl : ∀ y, R y y)
    (hlose : ∀ id sla node y, Loses config s (.locked ok) id sla node → R y (y + w id sla node))
    (hm : (Locked.finish caller p).Matches s.tracking) (hl : s.locked = some (.finish caller p)) :
    R ((advanceFinish config s ok caller p).owed w) (s.owed w + Entry.total w (s.entries config (.locked ok))) := by
  have ho : s.owed w = s.tracking.load w + (Locked.finish caller p).pending s.tracking w := by
    rw [State.owed, hl, Option.elim_some]
  rw [ho]
  cases p
  case getFinishable id =>
    simp only [State.entries, hl, advanceFinish]
    split
    case h_1 => simpa [owed_release, Locked.pending, Entry.total] using hrefl _
    case h_2 record hg =>
      obtain ⟨r, hr, ha, he⟩ := FunctionTracking.getFinishable_eq_some.mp hg
      have hs : s.tracking.shareOf w id = w id record.sla record.node := by
        rw [FunctionTracking.shareOf_of_lookup hr, FunctionTracking.share_eq ha, ← he]
        rfl
      simpa [owed_enter, Locked.pending, Entry.total, hs] using hrefl _
  case save id record =>
    obtain ⟨⟨r, hr⟩, _⟩ := hm
    have ha : (s.tracking.lookup id).any (fun _ => true) = true := by simp [hr]
    have hg : (s.tracking.saveFinished id record).getFinished id = some record := by
      rw [FunctionTracking.getFinished_eq_some, FunctionTracking.saveFinished, FunctionTracking.lookup_save,
        if_pos ⟨rfl, ha⟩]
    simp only [State.entries, hl, advanceFinish, owed_enter, Locked.pending, hg, Option.elim_some]
    convert hrefl _ using 1
    rw [FunctionTracking.load_saveFinished hr]
    simp [Entry.total]
    abel
  case getFinished id =>
    simp only [State.entries, hl, advanceFinish, Locked.pending]
    split
    case h_1 hg        => simpa [owed_release, Entry.total, hg] using hrefl _
    case h_2 record hg => simpa [owed_enter, Locked.pending, Entry.total, hg] using hrefl _
  case getUsed id record =>
    simp only [State.entries, hl, advanceFinish, Locked.pending]
    split
    case h_1 hu => simpa [owed_release, Entry.total] using hlose _ _ _ _ (.getUsed hl hu)
    case h_2    => simpa [owed_enter, Locked.pending, Entry.total] using hrefl _
  case setUsed id record used =>
    simp only [State.entries, hl, advanceFinish, Locked.pending]
    split
    case h_1 hu => simpa [owed_release, Entry.total, hu] using hlose _ _ _ _ (.setUsed hl hu)
    case h_2 hu => simpa [owed_panic, owed_release, Entry.total, hu] using hlose _ _ _ _ (.setUsed hl hu)
    case h_3 hu => simpa [owed_release, Entry.total, Entry.weight, hu] using hrefl _
  case getRemovable | remove =>
    simp only [State.entries, hl, advanceFinish]
    try split
    all_goals simpa [owed_release, owed_enter, Locked.pending, Entry.total] using hrefl _

theorem owed_advanceLocked {R : μ → μ → Prop} (hrefl : ∀ y, R y y)
    (hlose : ∀ id sla node y, Loses config s (.locked ok) id sla node → R y (y + w id sla node))
    (hm : l.Matches s.tracking) (hp : Payable config s) (hl : s.locked = some l) :
    R ((advanceLocked config s ok l).owed w) (s.owed w + Entry.total w (s.entries config (.locked ok))) := by
  cases l
  case pay p =>
    have ho : (advancePay config s p).owed w = s.owed w + Entry.total w (s.entries config (.locked ok)) :=
      owed_advancePay hm hp hl
    rw [advanceLocked, ho]
    exact hrefl _
  case provision p =>
    have ho : (advanceProvision s ok p).owed w = s.owed w := owed_advanceProvision hm hl
    simpa [advanceLocked, ho, State.entries, hl, Entry.total] using hrefl _
  case finish caller p => exact owed_advanceFinish hrefl hlose hm hl

theorem pending_renews (h : db.Renews id allowed record) (l : Locked) :
    l.pending (db.save id allowed record) w = l.pending db w := by
  match l with
  | .pay (.getPaid ..) | .finish _ (.save ..) => simp only [Locked.pending, h.shareOf_eq]
  | .finish _ (.getFinished _) => simp only [Locked.pending, h.getFinished_eq]
  | .pay (.getProposed _) | .pay (.check ..) | .pay (.save ..) | .pay (.setUsed ..) | .pay (.spawn ..)
  | .pay (.push _) | .provision _ | .finish _ (.getRemovable _) | .finish _ (.remove ..)
  | .finish _ (.getFinishable _) | .finish _ (.getUsed ..) | .finish _ (.setUsed ..) => rfl

-- Every act changes what should be booked by what it books and releases, except for what it loses.
theorem owed_step {R : μ → μ → Prop} (hrefl : ∀ y, R y y)
    (hlose : ∀ id sla node y, Loses config s a id sla node → R y (y + w id sla node))
    (hm : Matching s) (hc : Current s a) (hp : Payable config s) (e : step config s a = some s') :
    R (s'.owed w) (s.owed w + Entry.total w (s.entries config a)) := by
  have hsame (he : s.entries config a = []) (ho : s'.owed w = s.owed w) :
      R (s'.owed w) (s.owed w + Entry.total w (s.entries config a)) := by
    simpa [he, ho, Entry.total] using hrefl _
  have hframe (f : Frame s s') (ht : s'.tracking = s.tracking) : s'.owed w = s.owed w := by
    rw [State.owed, ht, f.locked, State.owed]
  have hfree {s₁ : State} {l} (hn : s.locked = none) (ht : s₁.tracking = s.tracking)
      (hl : l.pending s₁.tracking w = 0) : (s₁.enter l).owed w = s.owed w := by
    rw [owed_enter, hl, ht, State.owed, hn, Option.elim_none]
  cases effect_of_step e
  case insert i sla name bid hb f t =>
    simpa [State.entries, Entry.total] using owed_insert hrefl hlose hb f.locked t
  case saveLive i id function giveUp hl f t =>
    have hr := renews_of_current hc hl
    apply hsame rfl
    rw [State.owed, State.owed, t, f.locked, FunctionTracking.saveLive, hr.load_eq]
    congr 2
    exact funext (pending_renews hr)
  case advance ok l hl => exact owed_advanceLocked hrefl hlose (hm l hl) hp hl
  case quiet h f t =>
    refine hsame ?_ (hframe f t)
    cases a <;> first | rfl | exact absurd rfl (h _)
  case pay hn | provision hn => exact hsame rfl (hfree hn rfl rfl)
  case fail hn               => exact hsame rfl (hfree hn rfl rfl)
  case expire ht hn          => exact hsame rfl (hfree hn rfl rfl)
  case wake | oversleep | pop => exact hsame rfl rfl

end Fog
