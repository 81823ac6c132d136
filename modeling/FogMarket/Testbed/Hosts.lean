import FogMarket.Library.Except
import FogMarket.Library.Packing
import FogMarket.Testbed.Network
import Mathlib.Algebra.Order.Ring.Rat
import Mathlib.Tactic.Linarith

namespace Testbed

-- What `add_machine` is called with. The other roles are the same for all machines.
structure Machine where
  vmId    : String
  cluster : String
  number  : ℕ
  mem     : ℚ
  core    : ℚ
  deriving DecidableEq

structure Assignment where
  -- The number of identifiers which have been drawn.
  drawn        : ℕ := 0
  conf         : List Machine := []
  attributions : Dict String String := Dict.empty

-- The variables of the loop over the VMs of a flavor.
structure Assigning extends Assignment where
  coreUsed : ℚ
  memUsed  : ℚ
  vmId     : String
  nbVms    : ℕ

structure Counting where
  totalVmRequired : ℕ
  coreUsed        : ℚ
  memUsed         : ℚ
  nbVms           : ℕ

def tooLarge : String :=
  "The VM requires more resources than the node can provide"

-- The VMs of each flavor, with the market.
def vms (network node : Node) : Dict Flavor (List String) :=
  (genVmConf node).append network.flavor "market"

-- The nodes below, with the market for the root.
def entries (network node : Node) : List (Flavor × String) :=
  node.descendants.map Node.entry ++ [(network.flavor, "market")]

theorem groups_vms (network node : Node) : (vms network node).Groups (entries network node) :=
  (groups_genVmConf node).append

def flavors (network node : Node) : List Flavor :=
  (entries network node).map Prod.fst

def names (network node : Node) : List String :=
  (entries network node).map Prod.snd

theorem forall_vms_iff {network node : Node} {P : Flavor → ℕ → Prop} :
    (∀ v ∈ (vms network node).entries, P v.1 v.2.length) ↔
      ∀ flavor ∈ flavors network node, P flavor ((flavors network node).count flavor) := by
  have hg := groups_vms network node
  constructor
  case mp =>
    intro h flavor hf
    have hc := List.count_pos_iff.mpr hf
    rw [flavors, ← Dict.length_values] at hc ⊢
    exact h (flavor, _) (hg.mem_entries.mpr ⟨List.length_pos_iff.mp hc, rfl⟩)
  case mpr =>
    intro h v hv
    have ⟨hn, hv⟩ := hg.mem_entries.mp hv
    have hc := List.length_pos_of_ne_nil hn
    rw [hv, Dict.length_values] at hc ⊢
    exact h v.1 (List.count_pos_iff.mp hc)

section Assign

-- The identifiers are drawn one after the other.
variable (uuid4 : ℕ → String) (cluster : String) (nbCpuPerHost memTotalPerHost : ℚ) (flavor : Flavor)

def machine (vmId : String) (nbVms : ℕ) : Machine where
  vmId    := vmId
  cluster := cluster
  number  := nbVms
  mem     := flavor.mem
  core    := flavor.core

def addMachine (s : Assigning) : Assigning :=
  { s with conf := s.conf ++ [machine cluster flavor s.vmId s.nbVms] }

def assignVm (s : Assigning) (vmName : String) : Except String Assigning := do
  let s := { s with coreUsed := s.coreUsed + flavor.core, memUsed := s.memUsed + flavor.mem }
  let s ←
    if nbCpuPerHost < s.coreUsed ∨ memTotalPerHost < s.memUsed then
      if s.nbVms = 0 then
        .error tooLarge
      else
        let s := addMachine cluster flavor s
        .ok { s with coreUsed := 0, memUsed := 0, nbVms := 0, vmId := uuid4 s.drawn, drawn := s.drawn + 1 }
    else
      .ok s
  return { s with nbVms := s.nbVms + 1, attributions := s.attributions.set vmName s.vmId }

def assignFlavor (a : Assignment) (vms : Flavor × List String) : Except String Assignment := do
  let s : Assigning :=
    { a with coreUsed := 0, memUsed := 0, vmId := uuid4 a.drawn, drawn := a.drawn + 1, nbVms := 0 }
  let s ← vms.2.foldlM (assignVm uuid4 cluster nbCpuPerHost memTotalPerHost vms.1) s
  return (if 0 < s.nbVms then addMachine cluster vms.1 s else s).toAssignment

def assignVmToHosts (network node : Node) : Except String Assignment :=
  (vms network node).entries.foldlM (assignFlavor uuid4 cluster nbCpuPerHost memTotalPerHost) {}

end Assign

section Count

variable (nbCpuPerHost memTotalPerHost : ℚ) (flavor : Flavor)

def countVm (s : Counting) (_vmName : String) : Except String Counting := do
  let s := { s with coreUsed := s.coreUsed + flavor.core, memUsed := s.memUsed + flavor.mem }
  let s ←
    if nbCpuPerHost < s.coreUsed ∨ memTotalPerHost < s.memUsed then
      if s.nbVms = 0 then
        .error tooLarge
      else
        .ok { totalVmRequired := s.totalVmRequired + 1, coreUsed := 0, memUsed := 0, nbVms := 0 }
    else
      .ok s
  return { s with nbVms := s.nbVms + 1 }

def countFlavor (totalVmRequired : ℕ) (vms : Flavor × List String) : Except String ℕ := do
  let s ← vms.2.foldlM (countVm nbCpuPerHost memTotalPerHost vms.1)
    { totalVmRequired, coreUsed := 0, memUsed := 0, nbVms := 0 }
  return if 0 < s.nbVms then s.totalVmRequired + 1 else s.totalVmRequired

-- The market is the first one.
def getNumberVms (network node : Node) : Except String ℕ :=
  (vms network node).entries.foldlM (countFlavor nbCpuPerHost memTotalPerHost) 1

end Count

section Plan

variable (nbCpuPerHost memTotalPerHost : ℚ)

-- So many VMs of the flavor do not need more than a host has.
def Fits (flavor : Flavor) (n : ℕ) : Prop :=
  n * flavor.core ≤ nbCpuPerHost ∧ n * flavor.mem ≤ memTotalPerHost

instance (flavor : Flavor) : DecidablePred (Fits nbCpuPerHost memTotalPerHost flavor) :=
  fun _ => inferInstanceAs (Decidable (_ ∧ _))

def planFlavor (plan : List (Flavor × List String)) (vms : Flavor × List String) :
    Option (List (Flavor × List String)) :=
  (Packing.pack (Fits nbCpuPerHost memTotalPerHost vms.1) vms.2).map (plan ++ ·.map (vms.1, ·))

-- The groups of VMs which are on a host together, in the order in which they are closed.
def plan (vms : List (Flavor × List String)) : Option (List (Flavor × List String)) :=
  vms.foldlM (planFlavor nbCpuPerHost memTotalPerHost) []

variable {nbCpuPerHost memTotalPerHost} {flavor : Flavor}

theorem not_fits_iff {n : ℕ} : ¬Fits nbCpuPerHost memTotalPerHost flavor n ↔
    nbCpuPerHost < n * flavor.core ∨ memTotalPerHost < n * flavor.mem := by
  rw [Fits, not_and_or, not_le, not_le]

-- If one VM fits, a host is not relieved by more of them.
theorem fits_of_succ (h₁ : Fits nbCpuPerHost memTotalPerHost flavor 1) {n : ℕ} (hn : 1 ≤ n)
    (h : Fits nbCpuPerHost memTotalPerHost flavor (n + 1)) : Fits nbCpuPerHost memTotalPerHost flavor n := by
  have H {size total : ℚ} (h₁ : (1 : ℕ) * size ≤ total) (h : (n + 1 : ℕ) * size ≤ total) : n * size ≤ total := by
    push_cast at h₁ h
    have hn : (1 : ℚ) ≤ n := by exact_mod_cast hn
    cases le_total 0 size
    case inl hs => linarith
    case inr hs => nlinarith
  exact ⟨H h₁.left h.left, H h₁.right h.right⟩

section Groups

variable {vms : List (Flavor × List String)} {plan plan' : List (Flavor × List String)}

theorem isSome_plan_iff (hv : ∀ v ∈ vms, v.2 ≠ []) :
    (Testbed.plan nbCpuPerHost memTotalPerHost vms).isSome ↔ ∀ v ∈ vms, Fits nbCpuPerHost memTotalPerHost v.1 1 := by
  have H plan : (vms.foldlM (planFlavor nbCpuPerHost memTotalPerHost) plan).isSome ↔
      ∀ v ∈ vms, Fits nbCpuPerHost memTotalPerHost v.1 1 := by
    induction vms generalizing plan
    case nil => simp
    case cons v vms hi =>
      have ⟨hn, hv⟩ := List.forall_mem_cons.mp hv
      have hp : (Packing.pack (Fits nbCpuPerHost memTotalPerHost v.1) v.2).isSome ↔ _ := Packing.pack_isSome_iff hn
      rw [List.foldlM_cons, List.forall_mem_cons, ← hp, planFlavor]
      cases Packing.pack (Fits nbCpuPerHost memTotalPerHost v.1) v.2
      case none => simp
      case some gs => simpa using hi hv _
  exact H []

-- The groups are those of the flavors.
theorem forall_plan_iff {P : Flavor × List String → Prop}
    (h : Testbed.plan nbCpuPerHost memTotalPerHost vms = some plan) :
    (∀ group ∈ plan, P group) ↔ ∀ v ∈ vms, ∃ gs,
      Packing.pack (Fits nbCpuPerHost memTotalPerHost v.1) v.2 = some gs ∧ ∀ g ∈ gs, P (v.1, g) := by
  have H plan₀ (h' : vms.foldlM (planFlavor nbCpuPerHost memTotalPerHost) plan₀ = some plan) :
      (∀ group ∈ plan, P group) ↔ (∀ group ∈ plan₀, P group) ∧ ∀ v ∈ vms, ∃ gs,
        Packing.pack (Fits nbCpuPerHost memTotalPerHost v.1) v.2 = some gs ∧ ∀ g ∈ gs, P (v.1, g) := by
    clear h
    induction vms generalizing plan₀
    case nil =>
      cases h'
      simp
    case cons v vms hi =>
      rw [List.foldlM_cons, Option.bind_eq_bind, Option.bind_eq_some_iff] at h'
      have ⟨plan₁, h₁, h₂⟩ := h'
      have ⟨gs, hg, h₁⟩ := Option.map_eq_some_iff.mp h₁
      rw [hi plan₁ h₂, ← h₁, List.forall_mem_cons, List.forall_mem_append, hg]
      simp [and_assoc]
  simpa using H [] h

theorem flatten_plan (h : Testbed.plan nbCpuPerHost memTotalPerHost vms = some plan) :
    plan.flatMap (fun group => group.2.map (group.1, ·)) = vms.flatMap fun v => v.2.map (v.1, ·) := by
  have H plan₀ (h' : vms.foldlM (planFlavor nbCpuPerHost memTotalPerHost) plan₀ = some plan) :
      plan.flatMap (fun group => group.2.map (group.1, ·)) =
        plan₀.flatMap (fun group => group.2.map (group.1, ·)) ++ vms.flatMap fun v => v.2.map (v.1, ·) := by
    clear h
    induction vms generalizing plan₀
    case nil =>
      cases h'
      simp
    case cons v vms hi =>
      rw [List.foldlM_cons, Option.bind_eq_bind, Option.bind_eq_some_iff] at h'
      have ⟨plan₁, h₁, h₂⟩ := h'
      have ⟨gs, hg, h₁⟩ := Option.map_eq_some_iff.mp h₁
      have hf : gs.flatMap (fun g => g.map (v.1, ·)) = v.2.map (v.1, ·) := by
        rw [← Packing.flatten_pack hg, List.map_flatten, List.flatMap_def]
      rw [hi plan₁ h₂, ← h₁, List.flatMap_append, List.flatMap_map, List.flatMap_cons, List.append_assoc, hf]
  exact H [] h

end Groups

variable {network node : Node} {plan : List (Flavor × List String)}

theorem ne_nil_of_mem_vms {v : Flavor × List String} (h : v ∈ (vms network node).entries) :
    v.2 ≠ [] :=
  ((groups_vms network node).mem_entries.mp h).left

theorem isSome_plan_vms_iff :
    (Testbed.plan nbCpuPerHost memTotalPerHost (vms network node).entries).isSome ↔
      ∀ flavor ∈ flavors network node, Fits nbCpuPerHost memTotalPerHost flavor 1 := by
  rw [isSome_plan_iff fun _ => ne_nil_of_mem_vms]
  exact forall_vms_iff (P := fun flavor _ => Fits nbCpuPerHost memTotalPerHost flavor 1)

theorem forall_groups_iff
    (h : Testbed.plan nbCpuPerHost memTotalPerHost (vms network node).entries = some plan) :
    (∀ group ∈ plan, Fits nbCpuPerHost memTotalPerHost group.1 group.2.length) ↔
      ∀ flavor ∈ flavors network node,
        Fits nbCpuPerHost memTotalPerHost flavor (((flavors network node).count flavor + 1) / 2) := by
  rw [forall_plan_iff h (P := fun group => Fits nbCpuPerHost memTotalPerHost group.1 group.2.length),
    ← forall_vms_iff (P := fun flavor n => Fits nbCpuPerHost memTotalPerHost flavor ((n + 1) / 2))]
  apply forall₂_congr
  intro v hv
  have h₁ := (isSome_plan_iff fun _ => ne_nil_of_mem_vms).mp (Option.isSome_of_mem h) v hv
  have ⟨gs, hg⟩ := Option.isSome_iff_exists.mp ((Packing.pack_isSome_iff (ne_nil_of_mem_vms hv)).mpr h₁)
  rw [hg, ← Packing.forall_fits_iff (fun _ => fits_of_succ h₁) hg (ne_nil_of_mem_vms hv)]
  simp

end Plan

section Refinement

variable (uuid4 : ℕ → String) (cluster : String) (nbCpuPerHost memTotalPerHost : ℚ)

-- The machines for the groups, for which the identifiers from the `n`th one on are drawn.
def machines (n : ℕ) (plan : List (Flavor × List String)) : List Machine :=
  (plan.zipIdx n).map fun group => machine cluster group.1.1 (uuid4 group.2) group.1.2.length

def attributed (n : ℕ) (plan : List (Flavor × List String)) : List (String × String) :=
  (plan.zipIdx n).flatMap fun group => group.1.2.map (·, uuid4 group.2)

variable {a : Assignment} {flavor : Flavor} {s : Assigning} {p : Packing String} {vmName : String} {n : ℕ}
variable {plan plan' : List (Flavor × List String)}

theorem machines_append :
    machines uuid4 cluster n (plan ++ plan') =
      machines uuid4 cluster n plan ++ machines uuid4 cluster (n + plan.length) plan' := by
  simp [machines, List.zipIdx_append]

theorem attributed_append :
    attributed uuid4 n (plan ++ plan') = attributed uuid4 n plan ++ attributed uuid4 (n + plan.length) plan' := by
  simp [attributed, List.zipIdx_append]

theorem attributed_singleton {group : List String} :
    attributed uuid4 n [(flavor, group)] = group.map (·, uuid4 n) := by
  simp [attributed]

-- The loop over the VMs of a flavor, which has begun with an assignment, is where the packing is.
structure Tracks (a : Assignment) (flavor : Flavor) (p : Packing String) (s : Assigning) : Prop where
  coreUsed     : s.coreUsed = p.counted * flavor.core
  memUsed      : s.memUsed = p.counted * flavor.mem
  nbVms        : s.nbVms = p.opened.length
  drawn        : s.drawn = a.drawn + p.closed.length + 1
  vmId         : s.vmId = uuid4 (a.drawn + p.closed.length)
  conf         : s.conf = a.conf ++ machines uuid4 cluster a.drawn (p.closed.map (flavor, ·))
  attributions : s.attributions =
    (attributed uuid4 a.drawn ((p.closed ++ [p.opened]).map (flavor, ·))).foldl (fun d e => d.set e.1 e.2)
      a.attributions

theorem overflow_iff {coreUsed memUsed : ℚ} (hc : coreUsed = n * flavor.core) (hm : memUsed = n * flavor.mem) :
    (nbCpuPerHost < coreUsed + flavor.core ∨ memTotalPerHost < memUsed + flavor.mem) ↔
      ¬Fits nbCpuPerHost memTotalPerHost flavor (n + 1) := by
  rw [not_fits_iff, hc, hm]
  push_cast
  rw [add_one_mul, add_one_mul]

theorem refines_assignVm (h : Tracks uuid4 cluster a flavor p s) :
    Except.Refines tooLarge (Tracks uuid4 cluster a flavor) (p.place (Fits nbCpuPerHost memTotalPerHost flavor) vmName)
      (assignVm uuid4 cluster nbCpuPerHost memTotalPerHost flavor s vmName) := by
  have hf := overflow_iff nbCpuPerHost memTotalPerHost h.coreUsed h.memUsed
  simp only [Packing.place, assignVm, hf, ite_not, h.nbVms, List.length_eq_zero_iff]
  split
  case isTrue =>
    apply Except.Refines.some
    constructor
    case coreUsed => simp [h.coreUsed, add_one_mul]
    case memUsed => simp [h.memUsed, add_one_mul]
    case nbVms => simp
    case drawn => exact h.drawn
    case vmId => exact h.vmId
    case conf => exact h.conf
    case attributions =>
      simp [h.attributions, h.vmId, attributed_append, attributed_singleton, List.foldl_append]
  case isFalse =>
    split
    case isTrue => exact .none
    case isFalse =>
      apply Except.Refines.some
      constructor
      case coreUsed => simp
      case memUsed => simp
      case nbVms => rfl
      case drawn => simp [addMachine, h.drawn, Nat.add_assoc]
      case vmId => simp [addMachine, h.drawn, Nat.add_assoc]
      case conf =>
        simp [addMachine, h.conf, h.vmId, machines_append, List.append_assoc]
        simp [machines]
      case attributions =>
        rw [List.map_append, attributed_append, List.foldl_append, ← h.attributions]
        simp [addMachine, h.drawn, attributed_singleton, Nat.add_assoc]

-- What has been assigned are the groups of the plan.
structure Assigned (plan : List (Flavor × List String)) (a : Assignment) : Prop where
  drawn        : a.drawn = plan.length
  conf         : a.conf = machines uuid4 cluster 0 plan
  attributions : a.attributions = (attributed uuid4 0 plan).foldl (fun d e => d.set e.1 e.2) Dict.empty

theorem assigned_of_tracks (ha : Assigned uuid4 cluster plan a) (hp : p.opened ≠ [])
    (h : Tracks uuid4 cluster a flavor p s) :
    Assigned uuid4 cluster (plan ++ p.groups.map (flavor, ·))
      (if 0 < s.nbVms then addMachine cluster flavor s else s).toAssignment := by
  have hs : 0 < s.nbVms := h.nbVms ▸ List.length_pos_of_ne_nil hp
  rw [if_pos hs, Packing.groups, if_neg hp]
  constructor
  case drawn => simp [addMachine, h.drawn, ha.drawn, Nat.add_assoc]
  case conf =>
    simp [addMachine, h.conf, h.vmId, h.nbVms, ha.conf, ha.drawn, machines_append]
    simp [machines]
  case attributions =>
    rw [attributed_append, List.foldl_append, ← ha.attributions, Nat.zero_add, ← ha.drawn]
    exact h.attributions

theorem refines_assignFlavor {vms : List String} (hv : vms ≠ []) (ha : Assigned uuid4 cluster plan a) :
    Except.Refines tooLarge (Assigned uuid4 cluster)
      ((Packing.pack (Fits nbCpuPerHost memTotalPerHost flavor) vms).map (plan ++ ·.map (flavor, ·)))
      (assignFlavor uuid4 cluster nbCpuPerHost memTotalPerHost a (flavor, vms)) := by
  have h₀ : Tracks uuid4 cluster a flavor {}
      { a with coreUsed := 0, memUsed := 0, vmId := uuid4 a.drawn, drawn := a.drawn + 1, nbVms := 0 } := by
    constructor
    all_goals simp [machines, attributed]
  have hr : Except.Refines tooLarge (Tracks uuid4 cluster a flavor)
      (vms.foldlM (Packing.place (Fits nbCpuPerHost memTotalPerHost flavor)) {})
      (vms.foldlM (assignVm uuid4 cluster nbCpuPerHost memTotalPerHost flavor) _) :=
    Except.Refines.foldlM h₀ fun _ _ _ _ h => refines_assignVm uuid4 cluster nbCpuPerHost memTotalPerHost h
  rw [Packing.pack, Option.map_map, Option.map_eq_bind]
  apply hr.of_eq.bind
  rintro p s ⟨h, hp⟩
  exact .some (assigned_of_tracks uuid4 cluster ha (Packing.opened_ne_nil hv hp) h)

variable {network node : Node}

theorem refines_assignVmToHosts :
    Except.Refines tooLarge (Assigned uuid4 cluster)
      (Testbed.plan nbCpuPerHost memTotalPerHost (vms network node).entries)
      (assignVmToHosts uuid4 cluster nbCpuPerHost memTotalPerHost network node) := by
  apply Except.Refines.foldlM
  case h => exact ⟨rfl, rfl, rfl⟩
  case hf => exact fun _ hv _ _ => refines_assignFlavor _ _ _ _ (ne_nil_of_mem_vms hv)

-- The loop which counts is where the packing is, too.
structure Counts (total : ℕ) (flavor : Flavor) (p : Packing String) (s : Counting) : Prop where
  totalVmRequired : s.totalVmRequired = total + p.closed.length
  coreUsed        : s.coreUsed = p.counted * flavor.core
  memUsed         : s.memUsed = p.counted * flavor.mem
  nbVms           : s.nbVms = p.opened.length

theorem refines_countVm {total : ℕ} {c : Counting} (h : Counts total flavor p c) :
    Except.Refines tooLarge (Counts total flavor) (p.place (Fits nbCpuPerHost memTotalPerHost flavor) vmName)
      (countVm nbCpuPerHost memTotalPerHost flavor c vmName) := by
  have hf := overflow_iff nbCpuPerHost memTotalPerHost h.coreUsed h.memUsed
  simp only [Packing.place, countVm, hf, ite_not, h.nbVms, List.length_eq_zero_iff]
  split
  case isTrue =>
    apply Except.Refines.some
    constructor
    case totalVmRequired => exact h.totalVmRequired
    case coreUsed => simp [h.coreUsed, add_one_mul]
    case memUsed => simp [h.memUsed, add_one_mul]
    case nbVms => simp
  case isFalse =>
    split
    case isTrue => exact .none
    case isFalse =>
      apply Except.Refines.some
      constructor
      case totalVmRequired => simp [h.totalVmRequired, Nat.add_assoc]
      case coreUsed => simp
      case memUsed => simp
      case nbVms => rfl

theorem refines_countFlavor {vms : List String} (hv : vms ≠ []) {total : ℕ} (ht : total = plan.length + 1) :
    Except.Refines tooLarge (fun plan total => total = plan.length + 1)
      ((Packing.pack (Fits nbCpuPerHost memTotalPerHost flavor) vms).map (plan ++ ·.map (flavor, ·)))
      (countFlavor nbCpuPerHost memTotalPerHost total (flavor, vms)) := by
  have h₀ : Counts total flavor {} { totalVmRequired := total, coreUsed := 0, memUsed := 0, nbVms := 0 } := by
    constructor
    all_goals simp
  have hr : Except.Refines tooLarge (Counts total flavor)
      (vms.foldlM (Packing.place (Fits nbCpuPerHost memTotalPerHost flavor)) {})
      (vms.foldlM (countVm nbCpuPerHost memTotalPerHost flavor) _) :=
    Except.Refines.foldlM h₀ fun _ _ _ _ h => refines_countVm nbCpuPerHost memTotalPerHost h
  rw [Packing.pack, Option.map_map, Option.map_eq_bind]
  apply hr.of_eq.bind
  rintro p c ⟨h, hp⟩
  have ho := Packing.opened_ne_nil hv hp
  have hc : 0 < c.nbVms := h.nbVms ▸ List.length_pos_of_ne_nil ho
  apply Except.Refines.some
  simp only [if_pos hc, h.totalVmRequired, ht, Function.comp_apply, Packing.groups, if_neg ho]
  simp
  omega

theorem refines_getNumberVms :
    Except.Refines tooLarge (fun plan total => total = plan.length + 1)
      (Testbed.plan nbCpuPerHost memTotalPerHost (vms network node).entries)
      (getNumberVms nbCpuPerHost memTotalPerHost network node) := by
  apply Except.Refines.foldlM
  case h => rfl
  case hf => exact fun _ hv _ _ => refines_countFlavor _ _ (ne_nil_of_mem_vms hv)

theorem forall_machines_iff : (∀ machine ∈ machines uuid4 cluster n plan,
      machine.number * machine.core ≤ nbCpuPerHost ∧ machine.number * machine.mem ≤ memTotalPerHost) ↔
    ∀ group ∈ plan, Fits nbCpuPerHost memTotalPerHost group.1 group.2.length := by
  have hz : (plan.zipIdx n).map Prod.fst = plan := List.zipIdx_map_fst n plan
  conv_rhs => rw [← hz]
  rw [machines, List.forall_mem_map, List.forall_mem_map]
  exact Iff.rfl

-- No host has more VMs than fit if half of those of each flavor do, unless there is one that does not fit alone.
theorem not_overpacked_iff :
    (∀ a, assignVmToHosts uuid4 cluster nbCpuPerHost memTotalPerHost network node = .ok a → ∀ machine ∈ a.conf,
        machine.number * machine.core ≤ nbCpuPerHost ∧ machine.number * machine.mem ≤ memTotalPerHost) ↔
      (∃ flavor ∈ flavors network node, ¬Fits nbCpuPerHost memTotalPerHost flavor 1) ∨
        ∀ flavor ∈ flavors network node,
          Fits nbCpuPerHost memTotalPerHost flavor (((flavors network node).count flavor + 1) / 2) := by
  have hs : (Testbed.plan nbCpuPerHost memTotalPerHost (vms network node).entries).isSome ↔ _ := isSome_plan_vms_iff
  have hr : Except.Refines _ (Assigned uuid4 cluster) _
      (assignVmToHosts _ _ nbCpuPerHost memTotalPerHost network node) :=
    refines_assignVmToHosts ..
  cases hp : Testbed.plan nbCpuPerHost memTotalPerHost (vms network node).entries
  case none =>
    rw [hp] at hr hs
    have hf : ∃ flavor ∈ flavors network node, ¬Fits nbCpuPerHost memTotalPerHost flavor 1 := by
      simpa using hs
    simp [hr.eq_error, hf]
  case some plan =>
    rw [hp] at hr hs
    have hf : ¬∃ flavor ∈ flavors network node, ¬Fits nbCpuPerHost memTotalPerHost flavor 1 := by
      simpa using hs
    have ⟨a, ha, hA⟩ := hr.exists_of_some
    rw [or_iff_right hf, ← forall_groups_iff hp, ← forall_machines_iff uuid4 cluster, ← hA.conf]
    simp [ha]

def identifier (i : ℕ) : String :=
  "vm" ++ toString i

def nineCities : Node :=
  star ["a", "b", "c", "d", "e", "f", "g", "h", "i"]

-- Five of the nine VMs need forty of the thirty-six cores of a host.
theorem overpacked : ∃ a, assignVmToHosts identifier "gros" 36 (1024 * 96) nineCities nineCities = .ok a ∧
    ∃ machine ∈ a.conf, machine.number = 5 ∧ machine.core = 8 ∧ 36 < machine.number * machine.core := by
  have h : (assignVmToHosts identifier "gros" 36 (1024 * 96) nineCities nineCities).toOption.any
      (·.conf.any fun machine => machine.number = 5 ∧ machine.core = 8 ∧
        36 < machine.number * machine.core) = true := by
    decide +kernel
  cases ha : assignVmToHosts identifier "gros" 36 (1024 * 96) nineCities nineCities
  case error =>
    rw [ha] at h
    contradiction
  case ok a =>
    rw [ha] at h
    have ⟨machine, hm, hp⟩ := List.any_eq_true.mp h
    exact ⟨a, rfl, machine, hm, of_decide_eq_true hp⟩

end Refinement

end Testbed
