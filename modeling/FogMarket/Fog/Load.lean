import Mathlib.Algebra.Order.BigOperators.Group.Finset
import FogMarket.Fog.FunctionTracking

namespace Fog

-- What the booking of a function counts for, e.g. the resources it takes on a given node.
abbrev Weight (μ : Type*) :=
  SlaId → Sla → String → μ

variable {μ : Type*} [AddCommGroup μ] {w : Weight μ} {id x : SlaId}
variable {db : FunctionTracking} {allowed : Phase → Bool} {record : States} {sla : Sla} {node : String}

namespace FunctionTracking

-- Only active records count.
def share (w : Weight μ) (id : SlaId) (record : States) : μ :=
  if record.Active then w id record.sla record.node else 0

def shareOf (db : FunctionTracking) (w : Weight μ) (id : SlaId) : μ :=
  (db.lookup id).elim 0 (share w id)

def load (db : FunctionTracking) (w : Weight μ) : μ :=
  Map.total db (share w)

-- The record of an SLA is for these values, if it is active.
def Agrees (db : FunctionTracking) (id : SlaId) (sla : Sla) (node : String) : Prop :=
  ∀ r, db.lookup id = some r → r.Active → r.sla = sla ∧ r.node = node

def PaidOrInactive (db : FunctionTracking) (id : SlaId) : Prop :=
  ∀ r, db.lookup id = some r → r.Active → r.phase = .paid

theorem share_eq (h : record.Active) : share w id record = w id record.sla record.node :=
  if_pos h

theorem share_eq_zero {r : States} (h : ¬ r.Active) : share w id r = 0 :=
  if_neg h

theorem shareOf_of_lookup (h : db.lookup id = some record) : shareOf db w id = share w id record := by
  simp [shareOf, h]

theorem load_empty : load ∅ w = 0 :=
  Map.total_empty _

theorem load_nonneg [PartialOrder μ] [IsOrderedAddMonoid μ]
    (h : ∀ id r, db.lookup id = some r → 0 ≤ w id r.sla r.node) : 0 ≤ load db w := by
  refine Map.total_nonneg fun id r hl => ?_
  rw [share]
  split
  case isTrue  => exact h id r hl
  case isFalse => exact le_rfl

theorem load_insert (proposal : Proposed) :
    load (insert db proposal) w = load db w - shareOf db w proposal.sla.id := by
  rw [load, insert, Map.total_insert, share_eq_zero (r := .proposed proposal) id, add_zero]
  rfl

theorem shareOf_insert (proposal : Proposed) :
    shareOf (insert db proposal) w x = if x = proposal.sla.id then 0 else shareOf db w x := by
  simp only [shareOf, lookup_insert]
  split
  case isTrue  => exact share_eq_zero (r := .proposed proposal) id
  case isFalse => rfl

theorem load_save (h : (db.lookup id).any (allowed ·.phase) = true) :
    load (save db id allowed record) w = load db w - shareOf db w id + share w id record := by
  have ⟨r, hr, ha⟩ := (Option.any_eq_true ..).mp h
  simp only [save, hr, ha, if_true]
  rw [load, Map.total_insert, hr]
  simp [load, shareOf, hr]

theorem shareOf_save (h : (db.lookup id).any (allowed ·.phase) = true) :
    shareOf (save db id allowed record) w id = share w id record := by
  rw [shareOf, lookup_save, if_pos ⟨rfl, h⟩, Option.elim_some]

theorem save_eq_self (h : (db.lookup id).any (allowed ·.phase) = false) : save db id allowed record = db := by
  apply Finmap.ext_lookup
  intro x
  rw [lookup_save, if_neg]
  simp [h]

namespace Agrees

theorem shareOf_eq (h : Agrees db id sla node) (hl : db.lookup id = some record) (ha : record.Active) :
    shareOf db w id = w id sla node := by
  have ⟨h₁, h₂⟩ := h record hl ha
  rw [shareOf_of_lookup hl, share_eq ha, h₁, h₂]

theorem of_lookup (h : db.lookup id = some record) : Agrees db id record.sla record.node := by
  intro r hr _
  cases h.symm.trans hr
  exact ⟨rfl, rfl⟩

theorem insert {proposal : Proposed} (h : Agrees db id sla node) :
    Agrees (FunctionTracking.insert db proposal) id sla node := by
  intro r hr ha
  rw [lookup_insert] at hr
  split at hr
  case isTrue =>
    cases hr
    exact absurd ha not_false
  case isFalse => exact h r hr ha

end Agrees

-- A record is only written over active ones for the same values.
structure Renews (db : FunctionTracking) (id : SlaId) (allowed : Phase → Bool) (record : States) : Prop where
  active : record.Active
  agrees : ∀ r, db.lookup id = some r → allowed r.phase = true →
    r.Active ∧ r.sla = record.sla ∧ r.node = record.node

namespace Renews

theorem shareOf_eq (h : Renews db id allowed record) :
    shareOf (save db id allowed record) w x = shareOf db w x := by
  simp only [shareOf, lookup_save]
  split
  case isFalse => rfl
  case isTrue hx =>
    have ⟨r, hr, ha⟩ := (Option.any_eq_true ..).mp hx.2
    have ⟨ha, h₁, h₂⟩ := h.agrees r hr ha
    rw [hx.1, hr, Option.elim_some, Option.elim_some, share_eq ha, share_eq h.active, h₁, h₂]

theorem load_eq (h : Renews db id allowed record) : load (save db id allowed record) w = load db w := by
  cases ha : (db.lookup id).any (allowed ·.phase)
  case false => rw [save_eq_self ha]
  case true =>
    have hs : shareOf db w id = share w id record := by rw [← h.shareOf_eq, shareOf_save ha]
    rw [load_save ha, hs, sub_add_cancel]

theorem getFinished_eq (h : Renews db id allowed record) :
    getFinished (save db id allowed record) x = getFinished db x := by
  simp only [getFinished, lookup_save]
  split
  case isFalse => rfl
  case isTrue hx =>
    obtain ⟨r, hr, ha⟩ := (Option.any_eq_true ..).mp hx.2
    have hr' := h.active
    have hra := (h.agrees r hr ha).1
    rw [hx.1, hr]
    cases record <;> cases r <;> first | rfl | contradiction

-- An active record has been one for the same values before.
theorem lookup (h : Renews db id allowed record) {r : States}
    (hl : Finmap.lookup x (save db id allowed record) = some r)
    (ha : r.Active) : ∃ r₀, db.lookup x = some r₀ ∧ r₀.Active ∧ r₀.sla = r.sla ∧ r₀.node = r.node := by
  rw [lookup_save] at hl
  split at hl
  case isFalse => exact ⟨r, hl, ha, rfl, rfl⟩
  case isTrue hx =>
    have ⟨r₀, hr₀, ha₀⟩ := (Option.any_eq_true ..).mp hx.2
    have ⟨ha₀, h₁, h₂⟩ := h.agrees r₀ hr₀ ha₀
    cases hl
    exact ⟨r₀, hx.1 ▸ hr₀, ha₀, h₁, h₂⟩

theorem agrees_save (h : Renews db id allowed record) (ha : Agrees db x sla node) :
    Agrees (save db id allowed record) x sla node := by
  intro r hr hra
  have ⟨r₀, hr₀, ha₀, h₁, h₂⟩ := h.lookup hr hra
  exact h₁ ▸ h₂ ▸ ha r₀ hr₀ ha₀

end Renews

theorem shareOf_nonneg [PartialOrder μ] [IsOrderedAddMonoid μ]
    (h : ∀ r, db.lookup id = some r → 0 ≤ w id r.sla r.node) : 0 ≤ shareOf db w id := by
  cases hl : db.lookup id
  case none => simp [shareOf, hl]
  case some r =>
    rw [shareOf_of_lookup hl, share]
    split
    case isTrue  => exact h r hl
    case isFalse => exact le_rfl

theorem shareOf_savePaid {proposal : Proposed} {paid : Paid} (h : db.lookup id = some (.proposed proposal)) :
    shareOf (savePaid db id paid) w id = w id paid.sla paid.node :=
  shareOf_save (by simp [h, States.phase])

theorem load_savePaid {proposal : Proposed} {paid : Paid} (h : db.lookup id = some (.proposed proposal)) :
    load (savePaid db id paid) w = load db w + w id paid.sla paid.node := by
  rw [savePaid, load_save (by simp [h, States.phase]), shareOf_of_lookup h,
    share_eq_zero (r := .proposed proposal) not_false, sub_zero]
  rfl

theorem renews_saveProvisioned {provisioned : Provisioned} (h : Agrees db id provisioned.sla provisioned.node) :
    Renews db id (· = .paid) (.provisioned provisioned) := by
  refine ⟨trivial, fun r hr hp => ?_⟩
  cases r <;> simp only [States.phase, decide_eq_true_eq, reduceCtorEq] at hp
  exact ⟨trivial, h _ hr trivial⟩

theorem load_saveFinished {finished : Finished} (h : db.lookup id = some record) :
    load (saveFinished db id finished) w = load db w - shareOf db w id := by
  rw [saveFinished, load_save (by simp [h]), share_eq_zero (r := .finished finished) not_false, add_zero]

end FunctionTracking

end Fog
