import FogMarket.Fog.LifeCycle
import FogMarket.Fog.Removal

open Transition

namespace Fog

-- The function which a call under the lock is about.
def Paying.id : Paying → SlaId
  | getProposed id | check id _ | save id .. | getPaid id .. | setUsed id .. | spawn id _ => id
  | push entry => entry.sla

def Provisioning.id : Provisioning → SlaId
  | getPaid id | backend id _ | save id _ => id

namespace Locked

def paying : Locked → Option SlaId
  | .pay p                    => some p.id
  | .provision _ | .finish .. => none

def provisioning : Locked → Option SlaId
  | .provision p        => some p.id
  | .pay _ | .finish .. => none

end Locked

-- The function has been paid for.
def Sold (s : State) (id : SlaId) : Prop :=
  ∃ r, s.tracking.lookup id = some r ∧ r.phase ≠ .proposed

namespace State

-- The answer to the request for `pay_function` whose call ends with a step, and whether it is `Ok`.
def answers (s s' : State) : Option (SlaId × Bool) :=
  match s.locked, s'.locked with
  | some (.pay (.push entry)), none => some (entry.sla, true)
  | some (.pay p), none             => some (p.id, false)
  | _, _                            => none

-- What a call of `bid_on` returns if it ends with its next step.
def returns (config : Config) (s : State) (i : ℕ) (b : Bidding) : Option (Except Failure (Option ℚ)) :=
  let s' := advanceBid config s i b
  if s'.bids.length = s.bids.length then
    none
  else if s'.panics.length ≠ s.panics.length then
    some (.error .panic)
  else
    match b with
    | .searching _ [] | .resetting .. => some (.ok none)
    | .inserting _ _ bid              => some (.ok (some bid))
    | _                               => some (.error .error)

end State

-- What a call of `pay_function` has saved is still there.
def Locked.Charged (s : State) : Locked → Prop
  | .pay (.setUsed id ..) | .pay (.spawn id _) => Sold s id
  | .pay (.push entry)                         => Sold s entry.sla
  | _                                          => True

def Charged (s : State) : Prop :=
  ∀ l, s.locked = some l → l.Charged s

variable {config : Config} {s s' : State} {a : Act} {id : SlaId} {i : ℕ} {b : Bidding} {l l' : Locked} {ok : Bool}

theorem Forward.sold {r r' : Option States} (h : Forward r r') (hs : ∃ x, r = some x ∧ x.phase ≠ .proposed) :
    ∃ x, r' = some x ∧ x.phase ≠ .proposed := by
  obtain ⟨x, rfl, hx⟩ := hs
  cases h
  case same      => exact ⟨x, rfl, hx⟩
  case replace   => exact absurd rfl hx
  case pay       => exact ⟨_, rfl, by simp [States.phase]⟩
  case provision => exact ⟨_, rfl, by simp [States.phase]⟩
  case live      => exact ⟨_, rfl, by simp [States.phase]⟩
  case finish    => exact ⟨_, rfl, by simp [States.phase]⟩

-- A function stays sold.
theorem Sold.step (h : Sold s id) (hf : Finishable s) (hg : Guarded s a) (e : step config s a = some s') :
    Sold s' id :=
  ((step_forward hf hg e).2 id).sold h

theorem Locked.Charged.mono (h : l.Charged s) (hs : ∀ id, Sold s id → Sold s' id) : l.Charged s' := by
  match l with
  | .pay (.setUsed id ..) | .pay (.spawn id _) | .pay (.push entry) => exact hs _ h
  | .pay (.getProposed _) | .pay (.check ..) | .pay (.save ..) | .pay (.getPaid ..) | .provision _
  | .finish .. => trivial

-- A call under the lock goes on with the function it has begun with.
theorem paying_advanceLocked (h : (advanceLocked config s ok l).locked = some l') (hp : l'.paying = some id) :
    l.paying = some id := by
  match l with
  | .pay p =>
    cases p <;> simp only [advanceLocked, advancePay] at h <;> (repeat' split at h) <;>
      simp only [State.enter, State.release, State.panic, Option.some.injEq, reduceCtorEq] at h <;> subst h <;> exact hp
  | .provision p =>
    cases p <;> simp only [advanceLocked, advanceProvision] at h <;> (repeat' split at h) <;>
      simp only [State.enter, State.release, Option.some.injEq, reduceCtorEq] at h <;> subst h <;> contradiction
  | .finish caller p =>
    cases p <;> simp only [advanceLocked, advanceFinish] at h <;> (repeat' split at h) <;>
      simp only [State.enter, State.release, State.panic, Option.some.injEq, reduceCtorEq] at h <;> subst h <;>
      contradiction

theorem provisioning_advanceLocked (h : (advanceLocked config s ok l).locked = some l')
    (hp : l'.provisioning = some id) : l.provisioning = some id := by
  match l with
  | .pay p =>
    cases p <;> simp only [advanceLocked, advancePay] at h <;> (repeat' split at h) <;>
      simp only [State.enter, State.release, State.panic, Option.some.injEq, reduceCtorEq] at h <;> subst h <;>
      contradiction
  | .provision p =>
    cases p <;> simp only [advanceLocked, advanceProvision] at h <;> (repeat' split at h) <;>
      simp only [State.enter, State.release, Option.some.injEq, reduceCtorEq] at h <;> subst h <;> exact hp
  | .finish caller p =>
    cases p <;> simp only [advanceLocked, advanceFinish] at h <;> (repeat' split at h) <;>
      simp only [State.enter, State.release, State.panic, Option.some.injEq, reduceCtorEq] at h <;> subst h <;>
      contradiction

-- A call under the lock has been there before, or it has just been let in.
theorem paying_step (e : step config s a = some s') (h : s'.locked.bind Locked.paying = some id) :
    a = .pay id ∨ s.locked.bind Locked.paying = some id := by
  cases effect_of_step e
  case insert f _ | saveLive f _ | quiet f _ => exact .inr (f.locked ▸ h)
  case pay id' => exact .inl (by simpa [State.enter, Locked.paying, Paying.id] using h)
  case provision | fail | expire => simp [State.enter, Locked.paying] at h
  case wake | oversleep | pop => exact .inr h
  case advance l hl =>
    obtain ⟨l', hl', hp⟩ := Option.bind_eq_some_iff.mp h
    exact .inr (Option.bind_eq_some_iff.mpr ⟨l, hl, paying_advanceLocked hl' hp⟩)

theorem provisioning_step (e : step config s a = some s') (h : s'.locked.bind Locked.provisioning = some id) :
    a = .provision id ∨ s.locked.bind Locked.provisioning = some id := by
  cases effect_of_step e
  case insert f _ | saveLive f _ | quiet f _ => exact .inr (f.locked ▸ h)
  case provision id' => exact .inl (by simpa [State.enter, Locked.provisioning, Provisioning.id] using h)
  case pay | fail | expire => simp [State.enter, Locked.provisioning] at h
  case wake | oversleep | pop => exact .inr h
  case advance l hl =>
    obtain ⟨l', hl', hp⟩ := Option.bind_eq_some_iff.mp h
    exact .inr (Option.bind_eq_some_iff.mpr ⟨l, hl, provisioning_advanceLocked hl' hp⟩)

-- What a call writes under the lock.
theorem tracking_advanceLocked (config : Config) (s : State) (ok : Bool) (l : Locked) :
    (advanceLocked config s ok l).tracking = s.tracking ∨
    (∃ id proposal used, l = .pay (.save id proposal used) ∧
      (advanceLocked config s ok l).tracking = s.tracking.savePaid id proposal.toPaid) ∨
    (∃ id provisioned, l = .provision (.save id provisioned) ∧
      (advanceLocked config s ok l).tracking = s.tracking.saveProvisioned id provisioned) ∨
    (∃ caller id record, l = .finish caller (.save id record) ∧
      (advanceLocked config s ok l).tracking = s.tracking.saveFinished id record) := by
  match l with
  | .pay (.save id proposal used) => exact .inr (.inl ⟨_, _, _, rfl, rfl⟩)
  | .provision (.save id provisioned) => exact .inr (.inr (.inl ⟨_, _, rfl, rfl⟩))
  | .finish caller (.save id record) => exact .inr (.inr (.inr ⟨_, _, _, rfl, rfl⟩))
  | .pay (.getProposed _) | .pay (.check ..) | .pay (.getPaid ..) | .pay (.setUsed ..) | .pay (.spawn ..)
  | .pay (.push _) =>
    simp only [advanceLocked, advancePay]
    repeat' split
    all_goals exact .inl rfl
  | .provision (.getPaid _) | .provision (.backend ..) =>
    simp only [advanceLocked, advanceProvision]
    split <;> exact .inl rfl
  | .finish _ (.getRemovable _) | .finish _ (.remove ..) | .finish _ (.getFinishable _)
  | .finish _ (.getFinished _) | .finish _ (.getUsed ..) | .finish _ (.setUsed ..) =>
    simp only [advanceLocked, advanceFinish]
    repeat' split
    all_goals exact .inl rfl

-- A function which is recorded as paid has been so before, or it is paid now.
theorem paid_step {paid : Paid} (e : step config s a = some s') (h : s'.tracking.lookup id = some (.paid paid)) :
    s.tracking.lookup id = some (.paid paid) ∨ s.locked.bind Locked.paying = some id := by
  have hsave {x : SlaId} {allowed : Phase → Bool} {r : States} (hr : r.phase ≠ .paid)
      (h : Finmap.lookup id (s.tracking.save x allowed r) = some (.paid paid)) :
      s.tracking.lookup id = some (.paid paid) := by
    rw [FunctionTracking.lookup_save] at h
    split at h
    case isTrue  => exact absurd (Option.some.inj h ▸ rfl) hr
    case isFalse => exact h
  cases effect_of_step e
  case insert f t =>
    rw [t, FunctionTracking.lookup_insert] at h
    split at h
    case isTrue  => simp at h
    case isFalse => exact .inl h
  case saveLive f t => exact .inl (hsave (by simp [States.phase]) (t ▸ h))
  case quiet f t => exact .inl (t ▸ h)
  case pay | provision | fail | expire | wake | oversleep | pop => exact .inl h
  case advance ok l hl =>
    obtain ht | ⟨x, proposal, used, rfl, ht⟩ | ⟨x, provisioned, rfl, ht⟩ | ⟨caller, x, record, rfl, ht⟩ :=
      tracking_advanceLocked config s ok l
    · exact .inl (ht ▸ h)
    · rw [ht, FunctionTracking.savePaid, FunctionTracking.lookup_save] at h
      split at h
      case isTrue hx => exact .inr (by rw [hl, hx.1]; rfl)
      case isFalse   => exact .inl h
    · exact .inl (hsave (by simp [States.phase]) (ht ▸ h))
    · exact .inl (hsave (by simp [States.phase]) (ht ▸ h))

-- A function is only sold by a call of `pay_function`.
theorem sold_step (hf : Finishable s) (hg : Guarded s a) (e : step config s a = some s') (h : Sold s' id) :
    Sold s id ∨ s.locked.bind Locked.paying = some id := by
  obtain ⟨r, hr, hp⟩ := h
  have hforward := (step_forward hf hg e).2 id
  rw [hr] at hforward
  generalize hx : s.tracking.lookup id = x at hforward
  cases hforward
  case same         => exact .inl ⟨r, hx, hp⟩
  case propose      => exact absurd rfl hp
  case replace      => exact absurd rfl hp
  case provision q f => exact .inl ⟨_, hx, by simp [States.phase]⟩
  case live f f'    => exact .inl ⟨_, hx, by simp [States.phase]⟩
  case finish r f ha => exact .inl ⟨r, hx, by cases r <;> simp_all [States.Active, States.phase]⟩
  case pay p q      => exact .inr <| (paid_step e hr).resolve_left (by simp [hx])

theorem Charged.step (h : Charged s) (hf : Finishable s) (hg : Guarded s a) (e : step config s a = some s') :
    Charged s' := by
  have hmono {l : Locked} (hl : l.Charged s) : l.Charged s' := hl.mono fun _ hs => hs.step hf hg e
  intro l' hl'
  cases effect_of_step e
  case insert f _ | saveLive f _ | quiet f _ => exact hmono (h l' (f.locked ▸ hl'))
  case pay | provision | fail | expire => exact Option.some.inj hl' ▸ trivial
  case wake | oversleep | pop => exact hmono (h l' hl')
  case advance ok l hl =>
    have hl := h l hl
    match l with
    | .pay (.getPaid id proposal used) =>
      simp only [advanceLocked, advancePay] at hl'
      split at hl'
      case h_1 => simp [State.release] at hl'
      case h_2 paid hp =>
        have hs : Sold s id := ⟨_, FunctionTracking.getPaid_eq_some.mp hp, by simp [States.phase]⟩
        exact Option.some.inj hl' ▸ hs.step hf hg e
    | .pay (.setUsed id proposal used paid) =>
      simp only [advanceLocked, advancePay] at hl'
      split at hl'
      case h_1 | h_2 => simp [State.release, State.panic] at hl'
      case h_3       => exact Option.some.inj hl' ▸ hmono (l := .pay (.setUsed id proposal used paid)) hl
    | .pay (.spawn id paid) => exact Option.some.inj hl' ▸ hmono (l := .pay (.spawn id paid)) hl
    | .pay (.push entry) => simp [advanceLocked, advancePay, State.release] at hl'
    | .pay (.getProposed id) | .pay (.check ..) | .pay (.save ..) =>
      simp only [advanceLocked, advancePay] at hl'
      repeat' split at hl'
      all_goals first
        | simp [State.release] at hl'
        | exact Option.some.inj hl' ▸ trivial
    | .provision p =>
      cases p <;> simp only [advanceLocked, advanceProvision] at hl' <;> (repeat' split at hl') <;>
        simp only [State.enter, State.release, Option.some.injEq, reduceCtorEq] at hl' <;> subst hl' <;> trivial
    | .finish _ p =>
      cases p <;> simp only [advanceLocked, advanceFinish] at hl' <;> (repeat' split at hl') <;>
        simp only [State.enter, State.release, State.panic, Option.some.injEq, reduceCtorEq] at hl' <;> subst hl' <;>
        trivial

-- Whoever is told that a function has been paid for can rely on it.
theorem Charged.sold (h : Charged s) (ha : s.answers s' = some (id, true)) : Sold s id := by
  simp only [State.answers] at ha
  split at ha <;> cases ha
  case h_1 entry hl _ => exact h _ hl

theorem paying_of_answers (ha : s.answers s' = some (id, ok)) : s.locked.bind Locked.paying = some id := by
  simp only [State.answers] at ha
  split at ha <;> cases ha
  case h_1 hl _   => simp [hl, Locked.paying, Paying.id]
  case h_2 hl _ => simp [hl, Locked.paying]

-- The backend only deploys what is being provisioned.
theorem deployed_step_of_provisioning {name : String} (e : step config s a = some s') (h : name ∈ s'.deployed) :
    name ∈ s.deployed ∨ ∃ id, s.locked.bind Locked.provisioning = some id ∧ name = functionName id := by
  by_cases ha : ∀ ok, a ≠ .locked ok
  case pos => exact .inl (deployed_step ha e ▸ h)
  case neg =>
    simp only [not_forall, not_not] at ha
    obtain ⟨ok, rfl⟩ := ha
    obtain ⟨l, hl, he⟩ := Option.map_eq_some_iff.mp e
    subst he
    match l with
    | .provision (.backend id paid) =>
      simp only [advanceLocked, advanceProvision] at h
      split at h
      case isFalse => exact .inl h
      case isTrue  =>
        cases Finset.mem_insert.mp h
        case inl h => exact .inr ⟨id, by rw [hl]; rfl, h⟩
        case inr h => exact .inl h
    | .finish _ (.remove id name') =>
      simp only [advanceLocked, advanceFinish, State.enter] at h
      split at h
      case isTrue  => exact .inl (Finset.mem_of_mem_erase h)
      case isFalse => exact .inl h
    | .provision (.getPaid _) | .provision (.save ..) =>
      simp only [advanceLocked, advanceProvision] at h
      repeat' split at h
      all_goals exact .inl h
    | .pay p =>
      cases p <;> simp only [advanceLocked, advancePay] at h <;> (repeat' split at h) <;> exact .inl h
    | .finish _ (.getRemovable _) | .finish _ (.getFinishable _) | .finish _ (.save ..)
    | .finish _ (.getFinished _) | .finish _ (.getUsed ..) | .finish _ (.setUsed ..) =>
      simp only [advanceLocked, advanceFinish] at h
      repeat' split at h
      all_goals exact .inl h

-- The calls of `bid_on` for an SLA.
def State.bidding (s : State) (id : SlaId) : ℕ :=
  s.bids.countP (·.sla.id = id)

-- A call of `bid_on` goes on with the same SLA, or it ends. Only at its end it inserts something.
theorem bidding_advanceBid (config : Config) (s : State) (i : ℕ) (b : Bidding) :
    (∃ b', (advanceBid config s i b).bids = s.bids.set i b' ∧ b'.sla = b.sla ∧
      (advanceBid config s i b).tracking = s.tracking) ∨
    ((advanceBid config s i b).bids = s.bids.eraseIdx i ∧ (∀ sla name bid, b ≠ .inserting sla name bid) ∧
      (advanceBid config s i b).tracking = s.tracking) ∨
    ∃ sla name bid, b = .inserting sla name bid ∧ (advanceBid config s i b).bids = s.bids.eraseIdx i ∧
      (advanceBid config s i b).tracking = s.tracking.insert { bid := bid, sla := sla, node := name } := by
  cases b
  case inserting sla name bid =>
    refine .inr (.inr ⟨sla, name, bid, rfl, ?_⟩)
    simp only [advanceBid]
    split <;> exact ⟨rfl, rfl⟩
  case searching sla rest =>
    cases rest <;> simp only [advanceBid] <;> (repeat' split) <;>
      first | exact .inl ⟨_, rfl, rfl, rfl⟩ | exact .inr (.inl ⟨rfl, by simp, rfl⟩)
  case utilising ratios sla name available now rest events =>
    cases rest <;> simp only [advanceBid] <;> (repeat' split) <;>
      first | exact .inl ⟨_, rfl, rfl, rfl⟩ | exact .inr (.inl ⟨rfl, by simp, rfl⟩)
  all_goals
    simp only [advanceBid]
    repeat' split
    all_goals first | exact .inl ⟨_, rfl, rfl, rfl⟩ | exact .inr (.inl ⟨rfl, by simp, rfl⟩)

theorem countP_set {α : Type*} {p : α → Bool} {as : List α} {a a' : α} (h : as[i]? = some a) (hp : p a' = p a) :
    (as.set i a').countP p = as.countP p := by
  obtain ⟨hi, rfl⟩ := List.getElem?_eq_some_iff.mp h
  rw [List.countP_set hi, hp]
  have := List.boole_getElem_le_countP (p := p) hi
  omega

theorem countP_eraseIdx {α : Type*} {p : α → Bool} {as : List α} {a : α} (h : as[i]? = some a) :
    (as.eraseIdx i).countP p + (if p a then 1 else 0) = as.countP p := by
  obtain ⟨hi, rfl⟩ := List.getElem?_eq_some_iff.mp h
  have := (List.getElem_cons_eraseIdx_perm hi).countP_eq p
  rw [← this, List.countP_cons]

theorem bidding_of_set {b' : Bidding} (hb : s.bids[i]? = some b) (hs : b'.sla = b.sla) (h : s'.bids = s.bids.set i b') :
    s'.bidding = s.bidding := by
  ext1 id
  rw [State.bidding, h, countP_set hb (by rw [hs])]
  rfl

theorem bidding_of_eraseIdx (hb : s.bids[i]? = some b) (h : s'.bids = s.bids.eraseIdx i) (id : SlaId) :
    s'.bidding id + (if b.sla.id = id then 1 else 0) = s.bidding id := by
  have := countP_eraseIdx (p := fun b : Bidding => b.sla.id = id) hb
  simpa [State.bidding, h] using this

theorem length_eraseIdx_ne (hb : s.bids[i]? = some b) : (s.bids.eraseIdx i).length ≠ s.bids.length := by
  obtain ⟨hi, -⟩ := List.getElem?_eq_some_iff.mp hb
  rw [List.length_eraseIdx_of_lt hi]
  omega

-- A call of `bid_on` which does not return has not inserted anything.
theorem of_returns_eq_none (hb : s.bids[i]? = some b) (h : s.returns config i b = none) :
    (advanceBid config s i b).bidding = s.bidding ∧ (advanceBid config s i b).tracking = s.tracking := by
  obtain ⟨b', hs, hb', ht⟩ | ⟨he, -, ht⟩ | ⟨_, _, _, -, he, ht⟩ := bidding_advanceBid config s i b
  · exact ⟨bidding_of_set hb hb' hs, ht⟩
  all_goals
    simp only [State.returns, he] at h
    rw [if_neg (length_eraseIdx_ne hb)] at h
    split at h
    · contradiction
    · split at h <;> contradiction

-- A call of `bid_on` which returns a bid has inserted it.
theorem of_returns_eq_some {out : Except Failure (Option ℚ)} (hb : s.bids[i]? = some b)
    (h : s.returns config i b = some out) :
    (∀ id, (advanceBid config s i b).bidding id + (if b.sla.id = id then 1 else 0) = s.bidding id) ∧
    ((advanceBid config s i b).tracking = s.tracking ∧ (∀ bid, out ≠ .ok (some bid)) ∨
      ∃ sla name bid, b = .inserting sla name bid ∧ (out = .ok (some bid) ∨ ∃ f, out = .error f) ∧
        (advanceBid config s i b).tracking = s.tracking.insert { bid := bid, sla := sla, node := name }) := by
  obtain ⟨b', hs, hb', ht⟩ | ⟨he, hn, ht⟩ | ⟨sla, name, bid, rfl, he, ht⟩ := bidding_advanceBid config s i b
  · simp [State.returns, hs] at h
  · refine ⟨bidding_of_eraseIdx hb he, .inl ⟨ht, fun bid hout => ?_⟩⟩
    subst hout
    simp only [State.returns, he, if_neg (length_eraseIdx_ne hb)] at h
    split at h
    case isTrue  => simp at h
    case isFalse => split at h <;> first | exact hn _ _ _ rfl | simp at h
  · refine ⟨bidding_of_eraseIdx hb he, .inr ⟨sla, name, bid, rfl, ?_, ht⟩⟩
    simp only [State.returns, he, if_neg (length_eraseIdx_ne hb)] at h
    split at h
    case isTrue  => exact .inr ⟨_, (Option.some.inj h).symm⟩
    case isFalse => exact .inl (Option.some.inj h).symm

-- The digits of an id, without the hyphens.
def Uuid.digits (u : Uuid) : List Char :=
  (List.range 32).map fun i => Nat.digitChar (u.toNat / 16 ^ (31 - i) % 16)

theorem mod_pow_eq {a b k n : ℕ} (h : ∀ i < n, a / k ^ i % k = b / k ^ i % k) : a % k ^ n = b % k ^ n := by
  induction n
  case zero => simp [Nat.mod_one]
  case succ n hi =>
    rw [Nat.mod_pow_succ, Nat.mod_pow_succ, hi fun i h' => h i (by omega), h n (by omega)]

theorem digitChar_inj {a b : ℕ} (ha : a < 16) (hb : b < 16) (h : Nat.digitChar a = Nat.digitChar b) : a = b := by
  have hinj : ∀ a b : Fin 16, Nat.digitChar a = Nat.digitChar b → a = b := by decide
  exact congrArg Fin.val (hinj ⟨a, ha⟩ ⟨b, hb⟩ h)

theorem digits_injective {u v : Uuid} (h : Uuid.digits u = Uuid.digits v) : u = v := by
  refine BitVec.eq_of_toNat_eq ?_
  have hd : ∀ i < 32, u.toNat / 16 ^ i % 16 = v.toNat / 16 ^ i % 16 := by
    intro i hi
    have h := List.map_inj_left.mp h (31 - i) (List.mem_range.mpr (by omega))
    rw [show 31 - (31 - i) = i by omega] at h
    exact digitChar_inj (Nat.mod_lt _ (by omega)) (Nat.mod_lt _ (by omega)) h
  have hm := mod_pow_eq hd
  rwa [show 16 ^ 32 = 2 ^ 128 by norm_num, Nat.mod_eq_of_lt u.isLt, Nat.mod_eq_of_lt v.isLt] at hm

theorem filter_groups {d : List Char} (hl : d.length = 32) (hne : ∀ c ∈ d, c ≠ '-') :
    ("-".intercalate [.ofList (d.drop 0 |>.take 8), .ofList (d.drop 8 |>.take 4), .ofList (d.drop 12 |>.take 4),
      .ofList (d.drop 16 |>.take 4), .ofList (d.drop 20 |>.take 12)]).toList.filter (· ≠ '-') = d := by
  have hf {l : List Char} (h : l ⊆ d) : l.filter (· ≠ '-') = l :=
    List.filter_eq_self.mpr fun c hc => by simpa using hne c (h hc)
  have hsub (i n : ℕ) : (d.drop i).take n ⊆ d := fun _ hc => List.mem_of_mem_drop (List.mem_of_mem_take hc)
  have hdash : "-".toList.filter (· ≠ '-') = [] := rfl
  rw [String.toList_intercalate, List.drop_zero]
  simp only [List.map_cons, List.map_nil, String.toList_ofList, List.intercalate, List.intersperse, List.flatten_cons,
    List.flatten_nil, List.append_nil, List.filter_append, hf (hsub ..), hf (List.take_subset ..), hdash,
    List.nil_append]
  calc d.take 8 ++ ((d.drop 8).take 4 ++ ((d.drop 12).take 4 ++ ((d.drop 16).take 4 ++ (d.drop 20).take 12)))
    _ = d.take 8 ++ ((d.drop 8).take 4 ++ ((d.drop 12).take 4 ++ ((d.drop 16).take 4 ++ d.drop 20))) := by
      rw [List.take_of_length_le (l := d.drop 20) (by simp [hl])]
    _ = d := by
      rw [← List.drop_drop (i := 4) (j := 16), List.take_append_drop, ← List.drop_drop (i := 4) (j := 12),
        List.take_append_drop, ← List.drop_drop (i := 4) (j := 8), List.take_append_drop, List.take_append_drop]

-- Functions with different ids are deployed under different names.
theorem functionName_injective : Function.Injective functionName := by
  intro x y h
  have hd (u : Uuid) : (Uuid.hyphenated u).toList.filter (· ≠ '-') = Uuid.digits u := by
    refine Eq.trans ?_ (filter_groups (d := Uuid.digits u) (by simp [Uuid.digits]) fun c hc => ?_)
    · simp only [Uuid.hyphenated, Uuid.digits]
    obtain ⟨i, -, rfl⟩ := List.mem_map.mp hc
    have hdash : ∀ a : Fin 16, Nat.digitChar a ≠ '-' := by decide
    exact hdash ⟨_, Nat.mod_lt _ (by omega)⟩
  have hx : Uuid.hyphenated x.id = Uuid.hyphenated y.id := by
    have h := congrArg String.toList h
    simp only [functionName, String.toList_append] at h
    exact String.toList_inj.mp (List.append_cancel_left h)
  have hu := congrArg (fun s : String => s.toList.filter (· ≠ '-')) hx
  simp only [hd] at hu
  cases x
  cases y
  exact congrArg SlaId.mk (digits_injective hu)

end Fog
