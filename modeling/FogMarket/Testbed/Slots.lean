import FogMarket.Library.Numbering
import FogMarket.Testbed.Hosts

namespace Testbed

variable {Host : Type}

-- The loop over the attributions, where `count` says how many of the hosts of an instance have been given away.
def attributes (count : String → ℕ) (roles : Dict String (List Host)) :
    List (String × String) → Option (Dict String (List Host))
  | []                       => some roles
  | (vm, instanceId) :: rest => do
    let hosts ← roles.get instanceId
    let host ← hosts[count instanceId]?
    attributes (Function.update count instanceId (count instanceId + 1)) (roles.set vm [host]) rest

def attributesRoles (vmAttributions : Dict String String) (roles : Dict String (List Host)) :
    Option (Dict String (List Host)) :=
  attributes (fun _ => 0) roles vmAttributions.entries

-- The instance of each VM, and which one of its hosts the VM gets.
def slots (count : String → ℕ) (vmAttributions : List (String × String)) : List (String × String × ℕ) :=
  (vmAttributions.map Prod.fst).zip (Numbering.number count (vmAttributions.map Prod.snd))

def hostAt (roles : Dict String (List Host)) (slot : String × ℕ) : Option Host :=
  (roles.get slot.1).bind (·[slot.2]?)

variable {count : String → ℕ} {roles : Dict String (List Host)} {vmAttributions : List (String × String)}

theorem slots_cons {a : String × String} : slots count (a :: vmAttributions) =
    (a.1, a.2, count a.2) :: slots (Function.update count a.2 (count a.2 + 1)) vmAttributions := rfl

theorem instance_of_mem_slots {slot : String × String × ℕ} (h : slot ∈ slots count vmAttributions) :
    (slot.1, slot.2.1) ∈ vmAttributions := by
  induction vmAttributions generalizing count
  case nil => cases h
  case cons a rest hi =>
    rw [slots_cons, List.mem_cons] at h
    cases h
    case inl h => exact h ▸ .head _
    case inr h => exact .tail _ (hi h)

theorem hostAt_set {name : String} {hosts : List Host} {slot : String × ℕ} (h : slot.1 ≠ name) :
    hostAt (roles.set name hosts) slot = hostAt roles slot := by
  rw [hostAt, Dict.get_set, if_neg h, hostAt]

theorem attributes_eq_some (hn : (vmAttributions.map Prod.fst).Nodup)
    (hd : ∀ a ∈ vmAttributions, a.2 ∉ vmAttributions.map Prod.fst)
    (hs : ∀ slot ∈ slots count vmAttributions, (hostAt roles slot.2).isSome) :
    ∃ roles', attributes count roles vmAttributions = some roles' ∧
      (∀ slot ∈ slots count vmAttributions, roles'.get slot.1 = (hostAt roles slot.2).map ([·])) ∧
      ∀ name ∉ vmAttributions.map Prod.fst, roles'.get name = roles.get name := by
  induction vmAttributions generalizing count roles
  case nil => exact ⟨roles, rfl, by simp [slots], fun _ _ => rfl⟩
  case cons a rest hi =>
    rw [List.map_cons, List.nodup_cons] at hn
    rw [slots_cons, List.forall_mem_cons] at hs
    obtain ⟨host, hh⟩ := Option.isSome_iff_exists.mp hs.left
    obtain ⟨hosts, hr, hc⟩ := Option.bind_eq_some_iff.mp hh
    -- The instances are not VMs, so that their hosts stay where they are.
    have hk : ∀ slot ∈ slots (Function.update count a.2 (count a.2 + 1)) rest,
        hostAt (roles.set a.1 [host]) slot.2 = hostAt roles slot.2 := by
      intro slot hm
      apply hostAt_set
      intro he
      apply hd _ (.tail _ (instance_of_mem_slots hm))
      rw [he]
      exact .head _
    have hd : ∀ a ∈ rest, a.2 ∉ rest.map Prod.fst := fun a ha hm => hd a (.tail _ ha) (.tail _ hm)
    obtain ⟨roles', ha, hg, hf⟩ := hi hn.right hd fun slot hm => hk slot hm ▸ hs.right slot hm
    refine ⟨roles', ?_, ?_, ?_⟩
    case refine_1 => simp [attributes, hr, hc, ha]
    case refine_2 =>
      rw [slots_cons, List.forall_mem_cons]
      constructor
      case left => rw [hf a.1 hn.left, Dict.get_set, if_pos rfl, hh, Option.map_some]
      case right => exact fun slot hm => hk slot hm ▸ hg slot hm
    case refine_3 =>
      intro name hm
      rw [List.map_cons, List.mem_cons, not_or] at hm
      rw [hf name hm.right, Dict.get_set, if_neg hm.left]

theorem nodup_slots : ((slots count vmAttributions).map Prod.snd).Nodup := by
  rw [slots, List.map_snd_zip (by simp)]
  exact Numbering.nodup_number

theorem map_fst_slots : (slots count vmAttributions).map Prod.fst = vmAttributions.map Prod.fst := by
  rw [slots, List.map_fst_zip (by simp)]

theorem lt_of_mem_slots {slot : String × String × ℕ} (h : slot ∈ slots (fun _ => 0) vmAttributions) :
    slot.2.2 < (vmAttributions.map Prod.snd).count slot.2.1 := by
  have hb := Numbering.bounds_of_mem_number (List.of_mem_zip h).right
  simpa using hb.right

section Plan

variable {uuid4 : ℕ → String} {cluster : String} {nbCpuPerHost memTotalPerHost : ℚ} {n : ℕ}
variable {plan : List (Flavor × List String)} {group : (Flavor × List String) × ℕ} {name id : String}

theorem attributed_cons {group : Flavor × List String} : attributed uuid4 n (group :: plan) =
    group.2.map (·, uuid4 n) ++ attributed uuid4 (n + 1) plan := by
  rw [attributed, List.zipIdx_cons, List.flatMap_cons, attributed]

theorem map_fst_attributed : (attributed uuid4 n plan).map Prod.fst = plan.flatMap Prod.snd := by
  induction plan generalizing n
  case nil => rfl
  case cons group plan hi =>
    rw [attributed_cons, List.map_append, hi, List.flatMap_cons, List.map_map]
    simp [Function.comp_def]

theorem mem_attributed_iff :
    (name, id) ∈ attributed uuid4 n plan ↔ ∃ group ∈ plan.zipIdx n, name ∈ group.1.2 ∧ id = uuid4 group.2 := by
  rw [attributed, List.mem_flatMap]
  apply exists_congr
  intro group
  simp [eq_comm]

theorem eq_of_mem_zipIdx {group' : (Flavor × List String) × ℕ} (h : group ∈ plan.zipIdx) (h' : group' ∈ plan.zipIdx)
    (he : group.2 = group'.2) : group = group' := by
  rw [List.mem_zipIdx_iff_getElem?] at h h'
  rw [he, h', Option.some.injEq] at h
  exact Prod.ext h.symm he

theorem mem_machines_iff {machine : Machine} : machine ∈ machines uuid4 cluster n plan ↔
    ∃ group ∈ plan.zipIdx n, machine = Testbed.machine cluster group.1.1 (uuid4 group.2) group.1.2.length := by
  simp only [machines, List.mem_map, eq_comm]

theorem nodup_vmId (hu : Function.Injective uuid4) : ((machines uuid4 cluster n plan).map Machine.vmId).Nodup := by
  have hm : (machines uuid4 cluster n plan).map Machine.vmId = (List.range' n plan.length).map uuid4 := by
    rw [← List.zipIdx_map_snd, machines, List.map_map, List.map_map]
    rfl
  have hr : (List.range' n plan.length).Nodup := List.nodup_range'
  rw [hm]
  exact hr.map hu

-- The VMs of a group are those which have its identifier.
theorem count_attributed (hu : Function.Injective uuid4) (hg : group ∈ plan.zipIdx n) :
    ((attributed uuid4 n plan).map Prod.snd).count (uuid4 group.2) = group.1.2.length := by
  induction plan generalizing n
  case nil => cases hg
  case cons first plan hi =>
    rw [List.zipIdx_cons, List.mem_cons] at hg
    rw [attributed_cons, List.map_append, List.count_append, List.map_map]
    have hm : first.2.map (Prod.snd ∘ (·, uuid4 n)) = List.replicate first.2.length (uuid4 n) := by
      rw [List.eq_replicate_iff]
      simp
    rw [hm, List.count_replicate]
    cases hg
    case inl hg =>
      have hc : uuid4 n ∉ (attributed uuid4 (n + 1) plan).map Prod.snd := by
        intro hm
        have ⟨⟨name, id⟩, ha, he⟩ := List.mem_map.mp hm
        have ⟨group', hg', _, hid⟩ := mem_attributed_iff.mp ha
        have hle := List.le_snd_of_mem_zipIdx hg'
        have := hu (he.symm.trans hid)
        omega
      simp [hg, List.count_eq_zero_of_not_mem hc]
    case inr hg =>
      have hle := List.le_snd_of_mem_zipIdx hg
      have hne : ¬(uuid4 n == uuid4 group.2) = true := by
        rw [beq_iff_eq]
        intro he
        have := hu he
        omega
      rw [if_neg hne, hi hg, Nat.zero_add]

theorem perm_names {network node : Node}
    (h : Testbed.plan nbCpuPerHost memTotalPerHost (vms network node).entries = some plan) :
    (plan.flatMap Prod.snd).Perm (names network node) := by
  have hp := (groups_vms network node).perm.map Prod.snd
  have hm : (vms network node).flatten.map Prod.snd = plan.flatMap Prod.snd := by
    rw [Dict.flatten, ← flatten_plan h, List.map_flatMap]
    simp [Function.comp_def]
  exact hm ▸ hp

end Plan

section Agreement

variable {Host : Type} {uuid4 : ℕ → String} {cluster : String} {nbCpuPerHost memTotalPerHost : ℚ}
variable {network node : Node} {a : Assignment} {plan : List (Flavor × List String)}

-- There are as many hosts for an identifier as have been asked for.
def Provides (conf : List Machine) (roles : Dict String (List Host)) : Prop :=
  ∀ machine ∈ conf, ∃ hosts, roles.get machine.vmId = some hosts ∧ hosts.length = machine.number

-- The VM has a host of its group.
structure Placed (a : Assignment) (roles roles' : Dict String (List Host)) (name : String) (slot : String × ℕ) :
    Prop where
  attributed : a.attributions.get name = some slot.1
  machine    : ∃ machine ∈ a.conf, machine.vmId = slot.1 ∧ slot.2 < machine.number
  host       : ∃ hosts host, roles.get slot.1 = some hosts ∧ hosts[slot.2]? = some host ∧ roles'.get name = some [host]

theorem Assigned.entries_attributions (ha : Assigned uuid4 cluster plan a) (hn : (plan.flatMap Prod.snd).Nodup) :
    a.attributions.entries = attributed uuid4 0 plan := by
  have hk : ((Dict.empty : Dict String String).keys ++ (attributed uuid4 0 plan).map Prod.fst).Nodup := by
    rw [map_fst_attributed]
    exact hn
  rw [ha.attributions, Dict.entries_foldl_set hk]
  rfl

theorem Assigned.keys_attributions (ha : Assigned uuid4 cluster plan a) (hn : (plan.flatMap Prod.snd).Nodup) :
    a.attributions.entries.map Prod.fst = plan.flatMap Prod.snd := by
  rw [ha.entries_attributions hn, map_fst_attributed]

theorem Assigned.exists_group (ha : Assigned uuid4 cluster plan a) (hn : (plan.flatMap Prod.snd).Nodup)
    {name id : String} (h : (name, id) ∈ a.attributions.entries) :
    ∃ group ∈ plan.zipIdx, id = uuid4 group.2 ∧
      machine cluster group.1.1 (uuid4 group.2) group.1.2.length ∈ a.conf := by
  rw [ha.entries_attributions hn] at h
  have ⟨group, hg, _, hid⟩ := mem_attributed_iff.mp h
  exact ⟨group, hg, hid, ha.conf ▸ mem_machines_iff.mpr ⟨group, hg, rfl⟩⟩

theorem Assigned.exists_unique_machine (hu : Function.Injective uuid4) (ha : Assigned uuid4 cluster plan a)
    (hn : (plan.flatMap Prod.snd).Nodup) {name : String} (hm : name ∈ plan.flatMap Prod.snd) :
    ∃! machine, machine ∈ a.conf ∧ a.attributions.get name = some machine.vmId := by
  rw [← ha.keys_attributions hn, List.mem_map] at hm
  have ⟨⟨name', id⟩, hi, hname⟩ := hm
  subst hname
  have ⟨group, hg, hid, hc⟩ := ha.exists_group hn hi
  have hget := Dict.mem_entries_iff.mp hi
  refine ⟨_, ⟨hc, hid ▸ hget⟩, ?_⟩
  intro machine' ⟨hc', hm'⟩
  have ⟨group', hg', he'⟩ := mem_machines_iff.mp (ha.conf ▸ hc')
  have hid' : uuid4 group'.2 = uuid4 group.2 := by
    rw [hget, he', hid] at hm'
    exact (Option.some.inj hm').symm
  rw [he', eq_of_mem_zipIdx hg' hg (hu hid')]

theorem Assigned.exists_machine (hu : Function.Injective uuid4) (ha : Assigned uuid4 cluster plan a)
    (hn : (plan.flatMap Prod.snd).Nodup) {slot : String × String × ℕ}
    (h : slot ∈ slots (fun _ => 0) a.attributions.entries) :
    ∃ machine ∈ a.conf, machine.vmId = slot.2.1 ∧ slot.2.2 < machine.number := by
  have ⟨group, hg, hid, hc⟩ := ha.exists_group hn (instance_of_mem_slots h)
  have hl := lt_of_mem_slots h
  rw [ha.entries_attributions hn, hid, count_attributed hu hg] at hl
  exact ⟨_, hc, hid.symm, hl⟩

theorem Assigned.attributesRoles_eq_some (hu : Function.Injective uuid4) (ha : Assigned uuid4 cluster plan a)
    (hn : (plan.flatMap Prod.snd).Nodup) (hf : ∀ i, uuid4 i ∉ plan.flatMap Prod.snd)
    {roles : Dict String (List Host)} (hp : Provides a.conf roles) :
    ∃ roles', attributesRoles a.attributions roles = some roles' ∧ ∃ slots : List (String × String × ℕ),
      slots.map Prod.fst = plan.flatMap Prod.snd ∧ (slots.map Prod.snd).Nodup ∧
      ∀ slot ∈ slots, Placed a roles roles' slot.1 slot.2 := by
  have hk := ha.keys_attributions hn
  have hd : ∀ e ∈ a.attributions.entries, e.2 ∉ a.attributions.entries.map Prod.fst := by
    intro e he
    obtain ⟨group, _, hid, _⟩ := ha.exists_group hn he
    rw [hk, hid]
    exact hf group.2
  have hh : ∀ slot ∈ slots (fun _ => 0) a.attributions.entries,
      ∃ hosts host, roles.get slot.2.1 = some hosts ∧ hosts[slot.2.2]? = some host := by
    intro slot hs
    obtain ⟨machine, hc, hv, hl⟩ := ha.exists_machine hu hn hs
    obtain ⟨hosts, hr, hlen⟩ := hp machine hc
    exact ⟨hosts, hosts[slot.2.2], hv ▸ hr, List.getElem?_eq_getElem (hlen ▸ hl)⟩
  have hs : ∀ slot ∈ slots (fun _ => 0) a.attributions.entries, (hostAt roles slot.2).isSome := by
    intro slot hs
    obtain ⟨hosts, host, hr, hi⟩ := hh slot hs
    simp [hostAt, hr, hi]
  obtain ⟨roles', ha', hg, _⟩ := attributes_eq_some a.attributions.nodup hd hs
  refine ⟨roles', ha', slots (fun _ => 0) a.attributions.entries, map_fst_slots.trans hk, nodup_slots, ?_⟩
  intro slot hm
  obtain ⟨hosts, host, hr, hi⟩ := hh slot hm
  constructor
  case attributed => exact Dict.mem_entries_iff.mp (instance_of_mem_slots hm)
  case machine => exact ha.exists_machine hu hn hm
  case host =>
    have hr' := hg slot hm
    simp only [hostAt, hr, hi, Option.bind_some, Option.map_some] at hr'
    exact ⟨hosts, host, hr, hi, hr'⟩

-- The hosts are counted as they are assigned, and every VM has a host of its own.
structure Agreement (Host : Type) (uuid4 : ℕ → String) (cluster : String) (nbCpuPerHost memTotalPerHost : ℚ)
    (network node : Node) : Prop where
  raises     : (∃ e, getNumberVms nbCpuPerHost memTotalPerHost network node = .error e) ↔
    ∃ e, assignVmToHosts uuid4 cluster nbCpuPerHost memTotalPerHost network node = .error e
  count      : ∀ a, assignVmToHosts uuid4 cluster nbCpuPerHost memTotalPerHost network node = .ok a →
    getNumberVms nbCpuPerHost memTotalPerHost network node = .ok (a.conf.length + 1)
  distinct   : ∀ a, assignVmToHosts uuid4 cluster nbCpuPerHost memTotalPerHost network node = .ok a →
    (a.conf.map Machine.vmId).Nodup
  attributed : ∀ a, assignVmToHosts uuid4 cluster nbCpuPerHost memTotalPerHost network node = .ok a →
    ∀ name ∈ names network node, ∃! machine, machine ∈ a.conf ∧ a.attributions.get name = some machine.vmId
  placed     : ∀ a, assignVmToHosts uuid4 cluster nbCpuPerHost memTotalPerHost network node = .ok a →
    ∀ roles : Dict String (List Host), Provides a.conf roles →
      ∃ roles', attributesRoles a.attributions roles = some roles' ∧ ∃ slots : List (String × String × ℕ),
        (slots.map Prod.fst).Perm (names network node) ∧ (slots.map Prod.snd).Nodup ∧
        ∀ slot ∈ slots, Placed a roles roles' slot.1 slot.2

theorem exists_plan {a : Assignment}
    (h : assignVmToHosts uuid4 cluster nbCpuPerHost memTotalPerHost network node = .ok a) :
    ∃ plan, Testbed.plan nbCpuPerHost memTotalPerHost (vms network node).entries = some plan ∧
      Assigned uuid4 cluster plan a := by
  have hr : Except.Refines _ (Assigned uuid4 cluster) _
      (assignVmToHosts _ _ nbCpuPerHost memTotalPerHost network node) :=
    refines_assignVmToHosts ..
  cases hp : Testbed.plan nbCpuPerHost memTotalPerHost (vms network node).entries
  case none =>
    rw [hp] at hr
    cases h.symm.trans hr.eq_error
  case some plan =>
    rw [hp] at hr
    have ⟨a', ha, hA⟩ := hr.exists_of_some
    cases h.symm.trans ha
    exact ⟨plan, rfl, hA⟩

theorem agreement {Host : Type} (hu : Function.Injective uuid4) (hn : (names network node).Nodup)
    (hf : ∀ i, uuid4 i ∉ names network node) :
    Agreement Host uuid4 cluster nbCpuPerHost memTotalPerHost network node := by
  have hc : Except.Refines _ _ _ (getNumberVms nbCpuPerHost memTotalPerHost network node) := refines_getNumberVms ..
  have hr : Except.Refines _ (Assigned uuid4 cluster) _
      (assignVmToHosts _ _ nbCpuPerHost memTotalPerHost network node) :=
    refines_assignVmToHosts ..
  constructor
  case raises =>
    cases hp : Testbed.plan nbCpuPerHost memTotalPerHost (vms network node).entries
    case none =>
      rw [hp] at hr hc
      simp [hr.eq_error, hc.eq_error]
    case some plan =>
      rw [hp] at hr hc
      obtain ⟨a, ha, _⟩ := hr.exists_of_some
      obtain ⟨total, ht, _⟩ := hc.exists_of_some
      simp [ha, ht]
  case count =>
    intro a ha
    obtain ⟨plan, hp, hA⟩ := exists_plan ha
    rw [hp] at hc
    obtain ⟨total, ht, hl⟩ := hc.exists_of_some
    simp [ht, hl, hA.conf, machines]
  case distinct =>
    intro a ha
    obtain ⟨plan, hp, hA⟩ := exists_plan ha
    exact hA.conf ▸ nodup_vmId hu
  case attributed =>
    intro a ha name hname
    obtain ⟨plan, hp, hA⟩ := exists_plan ha
    have hm := perm_names hp
    exact hA.exists_unique_machine hu (hm.nodup_iff.mpr hn) (hm.mem_iff.mpr hname)
  case placed =>
    intro a ha roles hr
    obtain ⟨plan, hp, hA⟩ := exists_plan ha
    have hm := perm_names hp
    have hf i := mt hm.mem_iff.mp (hf i)
    obtain ⟨roles', ha', slots, hs, hd, hs'⟩ := hA.attributesRoles_eq_some hu (hm.nodup_iff.mpr hn) hf hr
    exact ⟨roles', ha', slots, hs ▸ hm, hd, hs'⟩

theorem injective_identifier : Function.Injective identifier := by
  intro i j h
  have hl : Nat.toDigits 10 i = Nat.toDigits 10 j := by
    have h := congrArg String.toList h
    simp only [identifier, String.toList_append, List.append_cancel_left_eq] at h
    exact Nat.toList_repr.symm.trans (h.trans Nat.toList_repr)
  rw [← Nat.ofDigitChars_ten_toDigits (n := i), hl, Nat.ofDigitChars_ten_toDigits]

theorem identifier_notMem (i : ℕ) : identifier i ∉ names nineCities nineCities := by
  have hc : ∀ name ∈ names nineCities nineCities, name.toList.head? ≠ some 'v' := by decide +kernel
  intro hm
  apply hc _ hm
  simp [identifier]

theorem agreement_of_cities : Agreement ℕ identifier "gros" 36 (1024 * 96) nineCities nineCities ∧
    getNumberVms 36 (1024 * 96) nineCities nineCities = .ok 4 :=
  ⟨agreement injective_identifier (by decide +kernel) identifier_notMem, by decide +kernel⟩

end Agreement

end Testbed
